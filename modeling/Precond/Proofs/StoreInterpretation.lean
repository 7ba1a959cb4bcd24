import Mathlib.Tactic
import Precond.Proofs.ComputedValues
import Precond.Proofs.ListEmbedding
import Precond.Smt.Encoding

/-!
# The interpretation that a store gives

In `model G σ` the constant of a variable is its value in the store, embedded, the length of an
array is read off its marks, and division and remainder round down as their definitions say. It
respects everything that is declared, for whatever formulas (`holds_declarations`).
-/

namespace Precond.Smt

open Exec (Store)

/-! ## Symbols -/

/-- The symbol of a variable is its name with `v_` in front, and with bars around it if it has other
characters than symbols have. -/
theorem toList_symbol (x : String) :
    (symbol x).toList = if x.toList.all isSymbolChar then 'v' :: '_' :: x.toList
      else '|' :: 'v' :: '_' :: (x.toList ++ ['|']) := by
  unfold symbol
  split_ifs
  · rw [String.toList_append]
    rfl
  · rw [String.toList_append, String.toList_append]
    rfl

/-- Different variables have different symbols. -/
theorem symbol_injective : Function.Injective symbol := by
  intro x y h
  have hlist := congrArg String.toList h
  rw [toList_symbol, toList_symbol] at hlist
  split_ifs at hlist with hx hy hy
  · exact String.toList_inj.mp (by simpa using hlist)
  · simp at hlist
  · simp at hlist
  · exact String.toList_inj.mp (by simpa using hlist)

/-! ## The interpretation -/

/-- The value of a variable of `G` in a store, as a value of the solver. -/
def constantValue (G : TypeEnv) (σ : Store) (x : String) : Value :=
  match constantSort G x with
  | .ok s => embed s ((σ.get? x).getD default)
  | .error _ => .int 0

open Classical in
/-- The interpretation that a store gives. -/
noncomputable def model (G : TypeEnv) (σ : Store) : Interpretation where
  constants name := if h : ∃ x, symbol x = name then constantValue G σ h.choose else .int 0
  functions name args :=
    match args with
    | [.array a] => .int (arrayLength a)
    | [.int a, .int b] => .int (if name = Fn.floorDiv.render then a.fdiv b else a.fmod b)
    | _ => .int 0
  divZero _ := 0
  modZero a := a

variable {G : TypeEnv} {σ : Store}

/-- The constant of a variable stands for its value in the store. -/
theorem constants_model {x : String} {s : SmtSort} (hx : constantSort G x = .ok s) :
    (model G σ).constants (symbol x) = embed s ((σ.get? x).getD default) := by
  have hex : ∃ y, symbol y = symbol x := ⟨x, rfl⟩
  have hchoose : hex.choose = x := symbol_injective hex.choose_spec
  simp only [model]
  rw [dif_pos hex, hchoose, constantValue, hx]

theorem div_model (a b : Int) : (model G σ).div a b = a / b := by
  unfold Interpretation.div
  split_ifs with hb
  · rw [hb, Int.ediv_zero]
    rfl
  · rfl

theorem mod_model (a b : Int) : (model G σ).mod a b = a % b := by
  unfold Interpretation.mod
  split_ifs with hb
  · rw [hb, Int.emod_zero]
    rfl
  · rfl

/-- Floor division through the division of the solver. -/
theorem fdiv_eq_ite (a b : Int) : a.fdiv b = if b ≥ 0 then a / b else -a / -b := by
  split_ifs with hb
  · exact Int.fdiv_eq_ediv_of_nonneg a hb
  · rw [← Int.neg_fdiv_neg, Int.fdiv_eq_ediv_of_nonneg (-a) (by omega)]

theorem fmod_eq_ite (a b : Int) : a.fmod b = if b ≥ 0 then a % b else -(-a % -b) := by
  rw [Int.fmod_def, fdiv_eq_ite]
  split_ifs with hb
  · rw [Int.emod_def]
  · rw [Int.emod_def]
    ring

theorem functions_floorDiv (a b : Int) :
    (model G σ).functions "floor_div" [.int a, .int b] = .int (a.fdiv b) := rfl

theorem functions_floorMod (a b : Int) :
    (model G σ).functions "floor_mod" [.int a, .int b] = .int (a.fmod b) := rfl

/-! ## Declarations -/

/-- A function of two numbers is what its definition says if the body has its value. -/
theorem holds_define {name : String} {body : Term} {f : Int → Int → Int}
    (hname : ∀ a b, (model G σ).functions name [.int a, .int b] = .int (f a b))
    (hbody : ∀ (c : String → Value) a b, c "a" = .int a → c "b" = .int b →
      body.value (model G σ) c = some (.int (f a b))) :
    (Declaration.define name [("a", .int), ("b", .int)] .int body).Holds (model G σ) := by
  rintro va hva vb hvb
  obtain ⟨a, rfl⟩ := Value.hasSort_int.mp hva
  obtain ⟨b, rfl⟩ := Value.hasSort_int.mp hvb
  generalize hc : Function.update (Function.update _ "a" _) "b" _ = c
  have ha : c "a" = .int a := by simp [← hc]
  have hb : c "b" = .int b := by simp [← hc]
  rw [ForAllValues, List.map_cons, List.map_cons, List.map_nil, ha, hb, hname]
  exact ⟨hbody c a b ha hb, trivial⟩

/-- What the body of the definition of floor division gives. -/
theorem value_floorDivBody {M : Interpretation} {c : String → Value} {a b : Int}
    (ha : c "a" = .int a) (hb : c "b" = .int b) :
    (Term.app .ite [.app .atLeast [.symbol "b", .int 0], .app .div [.symbol "a", .symbol "b"],
      .app .div [.app .minus [.symbol "a"], .app .minus [.symbol "b"]]]).value M c =
        some (.int (if b ≥ 0 then M.div a b else M.div (-a) (-b))) := by
  have ha : (Term.symbol "a").value M c = some (.int a) := congrArg some ha
  have hb : (Term.symbol "b").value M c = some (.int b) := congrArg some hb
  refine Term.value_app_three (Term.value_app_two hb rfl rfl) (Term.value_app_two ha hb rfl)
    (Term.value_app_two (Term.value_app_one ha rfl) (Term.value_app_one hb rfl) rfl) ?_
  by_cases h : b ≥ 0 <;> simp [h, Interpretation.apply]

/-- What the body of the definition of the remainder gives. -/
theorem value_floorModBody {M : Interpretation} {c : String → Value} {a b : Int}
    (ha : c "a" = .int a) (hb : c "b" = .int b) :
    (Term.app .ite [.app .atLeast [.symbol "b", .int 0], .app .mod [.symbol "a", .symbol "b"],
      .app .minus [.app .mod [.app .minus [.symbol "a"], .app .minus [.symbol "b"]]]]).value M c =
        some (.int (if b ≥ 0 then M.mod a b else -M.mod (-a) (-b))) := by
  have ha : (Term.symbol "a").value M c = some (.int a) := congrArg some ha
  have hb : (Term.symbol "b").value M c = some (.int b) := congrArg some hb
  have hneg := Term.value_app_two (f := .mod) (Term.value_app_one (f := .minus) ha rfl)
    (Term.value_app_one (f := .minus) hb rfl) rfl
  refine Term.value_app_three (Term.value_app_two hb rfl rfl) (Term.value_app_two ha hb rfl)
    (Term.value_app_one hneg rfl) ?_
  by_cases h : b ≥ 0 <;> simp [h, Interpretation.apply]

/-- The interpretation respects what is defined for all scripts. -/
theorem holds_preamble : ∀ d ∈ preamble, d.Holds (model G σ) := by
  intro d hd
  simp only [preamble, List.mem_cons, List.not_mem_nil, or_false] at hd
  rcases hd with rfl | rfl
  · refine holds_define functions_floorDiv fun c a b ha hb => ?_
    rw [value_floorDivBody ha hb, fdiv_eq_ite, div_model, div_model]
  · refine holds_define functions_floorMod fun c a b ha hb => ?_
    rw [value_floorModBody ha hb, fmod_eq_ite, mod_model, mod_model]

/-- The interpretation respects the length functions of a sort. -/
theorem holds_lenDeclarations (s : SmtSort) : ∀ d ∈ lenDeclarations s, d.Holds (model G σ) := by
  intro d hd
  cases s with
  | int | bool => simp [lenDeclarations] at hd
  | array elem =>
    simp only [lenDeclarations, List.mem_cons, List.not_mem_nil, or_false] at hd
    have hlen {c : String → Value} {t : Term} {a : Int → Value}
        (h : t.value (model G σ) c = some (.array a)) :
        (Term.app (.len (.array elem)) [t]).value (model G σ) c = some (.int (arrayLength a)) :=
      Term.value_app_one h rfl
    rcases hd with rfl | rfl | rfl
    · rintro args (_ | ⟨harg, _ | _⟩)
      obtain ⟨a, rfl, -⟩ := Value.hasSort_array.mp harg
      trivial
    · refine Term.holds_forAll.mpr fun va hva => ?_
      obtain ⟨a, rfl, -⟩ := Value.hasSort_array.mp hva
      refine Term.value_app_two (hlen (a := a) ?_) rfl ?_
      · simp [Term.value]
      · simp [Interpretation.apply]
    · refine Term.holds_forAll.mpr fun va hva vi hvi v hv => ?_
      obtain ⟨a, rfl, -⟩ := Value.hasSort_array.mp hva
      obtain ⟨i, rfl⟩ := Value.hasSort_int.mp hvi
      generalize hc : Function.update (Function.update (Function.update _ "a" _) "i" _) "v" _ = c
      have ha : (Term.symbol "a").value (model G σ) c = some (.array a) := by
        simp [Term.value, ← hc]
      have hi : (Term.symbol "i").value (model G σ) c = some (.int i) := by simp [Term.value, ← hc]
      have hv : (Term.symbol "v").value (model G σ) c = some v := by simp [Term.value, ← hc]
      refine Term.value_app_two (hlen (Term.value_app_three ha hi hv rfl)) (hlen ha) ?_
      rw [arrayLength_update]
      exact Interpretation.apply_equal (by simp)

theorem exists_of_mem_mapM {α β : Type} {f : α → Except Error β} {xs : List α} {ys : List β}
    (h : xs.mapM f = .ok ys) {y : β} (hy : y ∈ ys) : ∃ x ∈ xs, f x = .ok y := by
  induction xs generalizing ys with
  | nil =>
    obtain rfl : ys = [] := (Except.ok.inj h).symm
    cases hy
  | cons x xs ih =>
    rw [List.mapM_cons, Exec.bind_eq_ok] at h
    obtain ⟨z, hz, h⟩ := h
    rw [Exec.bind_eq_ok] at h
    obtain ⟨zs, hzs, h⟩ := h
    obtain rfl := Except.ok.inj h
    rcases List.mem_cons.mp hy with rfl | hy
    · exact ⟨x, List.mem_cons_self, hz⟩
    · obtain ⟨w, hw, hwy⟩ := ih hzs hy
      exact ⟨w, List.mem_cons_of_mem _ hw, hwy⟩

/-- The interpretation respects what is declared, for whatever formulas. -/
theorem holds_declarations {formulas : List Expr} {ds : List Declaration}
    (h : declarations G formulas = .ok ds) : ∀ d ∈ ds, d.Holds (model G σ) := by
  simp only [declarations, Exec.bind_eq_ok] at h
  obtain ⟨quantified, -, constants, hconstants, h⟩ := h
  obtain rfl := Except.ok.inj h
  intro d hd
  simp only [List.mem_append, List.mem_map, List.mem_flatMap] at hd
  rcases hd with (hd | ⟨⟨x, s⟩, hmem, rfl⟩) | ⟨s, -, hd⟩
  · exact holds_preamble d hd
  · obtain ⟨y, -, hy⟩ := exists_of_mem_mapM hconstants hmem
    rw [Exec.bind_eq_ok] at hy
    obtain ⟨t, ht, hy⟩ := hy
    obtain ⟨rfl, rfl⟩ := Prod.mk.inj (Except.ok.inj hy)
    rw [Declaration.Holds, constants_model ht]
    exact hasSort_embed t _
  · exact holds_lenDeclarations s d hd

end Precond.Smt
