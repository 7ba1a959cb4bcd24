import Mathlib.Tactic
import Precond.Proofs.AcceptedTypes
import Precond.Proofs.ScriptSymbols

/-!
# The encoding is adequate

`encode_adequate` connects runs with the solver: where an expression without quantifiers and slices
comes to a truth value in a run, some interpretation respects everything that is declared for the
expression and gives its term the same truth value. In this interpretation the constants of the
variables are their values in the run, and the symbols of the term are declared. So if the solver
finds that the negation cannot be true together with the declarations, no run finds the expression
false.

The interpretation is `model`: the constant of a variable is its value in the store, embedded, and
the length of an array is read off its marks. The induction on the rules of the encoding shows that
the term always has a value of its sort, and that this is the embedded value of the expression where
a run finds one (`EncodedAs.denotes`). The first part is needed since a run does not look at an
operand that does not matter, but the solver does.
-/

namespace Precond

open Exec (Store)

/-! ## Plain expressions -/

mutual

/-- Whether an expression has neither quantifiers nor slices, with unary operators applied to one
operand and binary ones to two. -/
def Expr.isPlain : Expr → Bool
  | .var _ | .lit _ => true
  | .binary op l r => !op.isUnary && isPlain l && isPlain r
  | .unary op e => op.isUnary && isPlain e
  | .subscript base index => isPlain base && isPlain index
  | .call _ args => isPlainAll args
  | .slice .. | .sliceFrom .. | .forAll .. => false

/-- Whether all expressions of a list are plain. -/
def Expr.isPlainAll : List Expr → Bool
  | [] => true
  | e :: es => isPlain e && isPlainAll es

end

/-- A plain expression that has a type is one that the solver can type. -/
theorem Expr.typed_of_isPlain {G : TypeEnv} {e : Expr} {ty : Ty} (h : e.HasType G ty)
    (he : e.isPlain = true) : e.Typed G ty ∧ e.WellFormed false := by
  induction h with
  | var hx hty => exact ⟨.var hx hty, .var⟩
  | int => exact ⟨.int, .lit⟩
  | bool => exact ⟨.bool, .lit⟩
  | binary _ _ ihl ihr =>
    simp only [isPlain, Bool.and_eq_true, Bool.not_eq_true'] at he
    obtain ⟨⟨hop, hpl⟩, hpr⟩ := he
    exact ⟨.binary (ihl hpl).1 (ihr hpr).1, .binary hop (ihl hpl).2 (ihr hpr).2⟩
  | unary _ ih =>
    simp only [isPlain, Bool.and_eq_true] at he
    exact ⟨.unary (ih he.2).1, .unary he.1 (ih he.2).2⟩
  | element hindex _ _ ihb ihi =>
    simp only [isPlain, Bool.and_eq_true] at he
    obtain ⟨htb, hwb⟩ := ihb he.1
    obtain ⟨hti, hwi⟩ := ihi he.2
    exact ⟨.element htb hti, .subscript hwb (hwi.of_isSlice hindex)⟩
  | @part _ index _ hindex => cases index <;> simp_all [isPlain, isSlice]
  | len hf _ ih =>
    simp only [isPlain, isPlainAll, Bool.and_true] at he
    obtain ⟨htl, hwl⟩ := ih he
    exact ⟨.len hf htl, .call (by simpa using hwl)⟩
  | store hf _ _ _ ihl ihi ihv =>
    simp only [isPlain, isPlainAll, Bool.and_true, Bool.and_eq_true] at he
    obtain ⟨htl, hwl⟩ := ihl he.1
    obtain ⟨hti, hwi⟩ := ihi he.2.1
    obtain ⟨htv, hwv⟩ := ihv he.2.2
    exact ⟨.store hf htl hti htv, .call (by simpa using ⟨hwl, hwi, hwv⟩)⟩
  | slice | sliceFrom | forAll => simp [isPlain] at he

namespace Smt

/-! ## What a term denotes -/

/-- The term has a value of its sort, which stands for the result of the evaluation if there is
one. -/
def Denotes (M : Interpretation) (t : Term) (s : SmtSort) (r : Except Exec.Failure Exec.Value) :
    Prop :=
  ∃ v, t.value M M.constants = some v ∧ v.HasSort s ∧ ∀ w, r = .ok w → v = embed s w

section Denotes

variable {M : Interpretation} {t : Term} {r : Except Exec.Failure Exec.Value}

theorem Denotes.int (h : Denotes M t .int r) :
    ∃ n, t.value M M.constants = some (.int n) ∧ ∀ m, r = .ok (.int m) → m = n := by
  obtain ⟨v, hv, hsort, hr⟩ := h
  obtain ⟨n, rfl⟩ := Value.hasSort_int.mp hsort
  exact ⟨n, hv, fun m hm => (Value.int.inj (hr _ hm)).symm⟩

theorem Denotes.bool (h : Denotes M t .bool r) :
    ∃ b, t.value M M.constants = some (.bool b) ∧ ∀ p, r = .ok (.bool p) → p = b := by
  obtain ⟨v, hv, hsort, hr⟩ := h
  obtain ⟨b, rfl⟩ := Value.hasSort_bool.mp hsort
  exact ⟨b, hv, fun p hp => (Value.bool.inj (hr _ hp)).symm⟩

theorem Denotes.array {elem : SmtSort} (h : Denotes M t (.array elem) r) :
    ∃ a, t.value M M.constants = some (.array a) ∧ (∀ i, (a i).HasSort elem) ∧
      ∀ items, r = .ok (.list items) → a = elements elem (embed elem) items := by
  obtain ⟨v, hv, hsort, hr⟩ := h
  obtain ⟨a, rfl, ha⟩ := Value.hasSort_array.mp hsort
  exact ⟨a, hv, ha, fun items h => Value.array.inj (hr _ h)⟩

end Denotes

/-! ## Binary operators -/

section Binary

variable {G : TypeEnv} {σ : Store} {op : Op} {l r : Expr} {tl tr : Term} {s : SmtSort}

/-- The term of an operation on numbers has a value, also where the operation has none. -/
theorem value_binaryTerm {c : String → Value} {m n : Int} (hop : op.isUnary = false)
    (hkind : op.kind ≠ .logical) (hs : SmtSort.ofTy op.types.2 = .ok s)
    (hl : tl.value (model G σ) c = some (.int m)) (hr : tr.value (model G σ) c = some (.int n)) :
    ∃ v, (binaryTerm op tl tr).value (model G σ) c = some v ∧ v.HasSort s ∧
      ∀ w, op.binary? (.int m) (.int n) = some w → v = embed s w := by
  have heq : (Term.app .equal [tl, tr]).value (model G σ) c = some (.bool (m = n)) :=
    Term.value_app_two hl hr (Interpretation.apply_equal (by simp))
  cases op with
  | neg | not => simp [Op.isUnary] at hop
  | and | or | implies | iff => simp [Op.kind] at hkind
  | add | sub | mul | lt | le | gt | ge =>
    obtain rfl := Except.ok.inj hs
    refine ⟨_, Term.value_app_two hl hr rfl, trivial, ?_⟩
    rintro w ⟨⟩
    rfl
  | div | mod =>
    obtain rfl := Except.ok.inj hs
    refine ⟨_, Term.value_app_two hl hr rfl, trivial, fun w hw => ?_⟩
    rw [Op.binary?] at hw
    split_ifs at hw
    obtain rfl := Option.some.inj hw
    rfl
  | eq =>
    obtain rfl := Except.ok.inj hs
    refine ⟨_, heq, trivial, ?_⟩
    rintro w ⟨⟩
    simp [embed]
  | ne =>
    obtain rfl := Except.ok.inj hs
    refine ⟨_, Term.value_app_one heq rfl, trivial, ?_⟩
    rintro w ⟨⟩
    simp [embed]

/-- Arithmetic and comparisons of numbers. -/
theorem denotes_numbers (hσ : σ.Respects G) (hop : op.isUnary = false) (hkind : op.kind ≠ .logical)
    (hs : SmtSort.ofTy op.types.2 = .ok s) (hlt : l.HasType G .int) (hrt : r.HasType G .int)
    (hl : Denotes (model G σ) tl .int (Exec.eval σ l))
    (hr : Denotes (model G σ) tr .int (Exec.eval σ r)) :
    Denotes (model G σ) (binaryTerm op tl tr) s (Exec.eval σ (.binary op l r)) := by
  obtain ⟨m, hvm, hm⟩ := hl.int
  obtain ⟨n, hvn, hn⟩ := hr.int
  obtain ⟨v, hv, hsort, hvw⟩ := value_binaryTerm hop hkind hs hvm hvn
  refine ⟨v, hv, hsort, fun w hw => hvw w ?_⟩
  have hstrict : op.isStrict = true := by
    cases op <;> first | rfl | exact absurd rfl hkind
  simp only [Exec.eval_binary hstrict, Exec.bind_eq_ok] at hw
  obtain ⟨a, ha, b, hb, hw⟩ := hw
  -- equality compares any values, but here only numbers
  have hinta := hlt.admits hσ ha
  have hintb := hrt.admits hσ hb
  cases a <;> cases b <;> simp only [Ty.admits, Bool.false_eq_true] at hinta hintb
  rw [← hm _ ha, ← hn _ hb]
  exact Exec.applyBinary_eq_ok hw

/-- The connectives, where the evaluation may leave out the right operand. -/
theorem denotes_logical (hop : op.isUnary = false) (hkind : op.kind = .logical)
    (hl : Denotes (model G σ) tl .bool (Exec.eval σ l))
    (hr : Denotes (model G σ) tr .bool (Exec.eval σ r)) :
    Denotes (model G σ) (binaryTerm op tl tr) .bool (Exec.eval σ (.binary op l r)) := by
  obtain ⟨p, hvp, hp⟩ := hl.bool
  obtain ⟨q, hvq, hq⟩ := hr.bool
  cases op with
  | and | or | implies =>
    refine ⟨_, Term.value_app_two hvp hvq rfl, trivial, fun w hw => ?_⟩
    simp only [Exec.eval, Exec.bind_eq_ok, Exec.asBool_eq_ok] at hw
    obtain ⟨_, hleft, p', rfl, hw⟩ := hw
    obtain rfl := hp p' hleft
    -- the right operand is looked at if the left one does not settle the answer
    cases p' <;> simp only [if_true, if_false, Bool.false_eq_true, Exec.bind_eq_ok,
      Exec.asBool_eq_ok, Exec.pure_eq_ok] at hw
    all_goals first
      | obtain rfl := hw
        rfl
      | obtain ⟨_, hright, q', rfl, rfl⟩ := hw
        rw [hq q' hright]
        rfl
  | iff =>
    have heq : (model G σ).apply .equal [.bool p, .bool q] = some (.bool (p == q)) :=
      Interpretation.apply_equal (by simp)
    refine ⟨_, Term.value_app_two hvp hvq heq, trivial, fun w hw => ?_⟩
    rw [Exec.eval_binary rfl, Exec.bind_eq_ok] at hw
    obtain ⟨a, ha, hw⟩ := hw
    obtain ⟨b, hb, hw⟩ := Exec.bind_eq_ok.mp hw
    simp only [Exec.applyBinary, Exec.bind_eq_ok, Exec.asBool_eq_ok, Exec.pure_eq_ok] at hw
    obtain ⟨p', rfl, q', rfl, rfl⟩ := hw
    rw [hp p' ha, hq q' hb]
    rfl
  | not => simp [Op.isUnary] at hop
  | _ => simp [Op.kind] at hkind

theorem denotes_binary {so : SmtSort} (hσ : σ.Respects G) (hop : op.isUnary = false)
    (hso : SmtSort.ofTy op.types.1 = .ok so) (hs : SmtSort.ofTy op.types.2 = .ok s)
    (hlt : l.HasType G op.types.1) (hrt : r.HasType G op.types.1)
    (hl : Denotes (model G σ) tl so (Exec.eval σ l))
    (hr : Denotes (model G σ) tr so (Exec.eval σ r)) :
    Denotes (model G σ) (binaryTerm op tl tr) s (Exec.eval σ (.binary op l r)) := by
  by_cases hkind : op.kind = .logical
  · have htypes : op.types = (.bool, .bool) := by rw [Op.types, hkind]
    rw [htypes] at hs hso
    cases hs
    cases hso
    exact denotes_logical hop hkind hl hr
  · have htypes : op.types.1 = .int := by cases hk : op.kind <;> simp_all [Op.types]
    rw [htypes] at hlt hrt hso
    cases hso
    exact denotes_numbers hσ hop hkind hs hlt hrt hl hr

end Binary

/-! ## The other expressions -/

section Expressions

variable {G : TypeEnv} {σ : Store} {e base index list item : Expr} {t tb ti tl tv : Term}
  {s elem : SmtSort}

/-- A variable denotes its value in the store. -/
theorem denotes_var {x : String} (hx : constantSort G x = .ok s) :
    Denotes (model G σ) (.symbol (symbol x)) s (Exec.eval σ (.var x)) := by
  refine ⟨_, rfl, ?_, fun w hw => ?_⟩
  · rw [constants_model hx]
    exact hasSort_embed s _
  · rw [constants_model hx]
    rw [Exec.eval] at hw
    split at hw
    · next hstored => rw [hstored, Except.ok.inj hw, Option.getD_some]
    · cases hw

theorem denotes_unary {op : Op} {s' : SmtSort} (hop : op.isUnary = true)
    (hs : SmtSort.ofTy op.types.1 = .ok s) (hs' : SmtSort.ofTy op.types.2 = .ok s')
    (he : Denotes (model G σ) t s (Exec.eval σ e)) :
    Denotes (model G σ) (unaryTerm op t) s' (Exec.eval σ (.unary op e)) := by
  cases op with
  | neg =>
    cases hs
    cases hs'
    obtain ⟨n, hvn, hn⟩ := he.int
    refine ⟨.int (-n), Term.value_app_one hvn rfl, trivial, fun w hw => ?_⟩
    rw [Exec.eval, if_pos hop, Exec.bind_eq_ok] at hw
    obtain ⟨a, ha, hw⟩ := hw
    simp only [Exec.applyUnary, Exec.bind_eq_ok, Exec.pure_eq_ok, Exec.asInt_eq_ok] at hw
    obtain ⟨m, rfl, k, hk, rfl⟩ := hw
    rw [Exec.checked_eq_ok hk, hn m ha]
    rfl
  | not =>
    cases hs
    cases hs'
    obtain ⟨b, hvb, hb⟩ := he.bool
    refine ⟨.bool !b, Term.value_app_one hvb rfl, trivial, fun w hw => ?_⟩
    rw [Exec.eval, if_pos hop, Exec.bind_eq_ok] at hw
    obtain ⟨a, ha, hw⟩ := hw
    simp only [Exec.applyUnary, Exec.bind_eq_ok, Exec.pure_eq_ok, Exec.asBool_eq_ok] at hw
    obtain ⟨p, rfl, rfl⟩ := hw
    rw [hb p ha]
    rfl
  | _ => simp [Op.isUnary] at hop

/-- An element of a list denotes the member of its array. -/
theorem denotes_element (hindex : index.isSlice = false)
    (hb : Denotes (model G σ) tb (.array elem) (Exec.eval σ base))
    (hi : Denotes (model G σ) ti .int (Exec.eval σ index)) :
    Denotes (model G σ) (.app .select [tb, ti]) elem (Exec.eval σ (.subscript base index)) := by
  obtain ⟨a, hva, hsort, ha⟩ := hb.array
  obtain ⟨i, hvi, hi⟩ := hi.int
  refine ⟨a i, Term.value_app_two hva hvi rfl, hsort i, fun w hw => ?_⟩
  obtain ⟨items, place, hbase, hplace, hw⟩ := (Exec.eval_element_eq_ok hindex).mp hw
  rw [ha items hbase, ← hi _ hplace, elements_of_getElem? hw]

/-- The length of an array is read off its marks, whatever length function is applied. -/
theorem denotes_len (hl : Denotes (model G σ) tl (.array elem) (Exec.eval σ list)) :
    Denotes (model G σ) (.app (.len s) [tl]) .int (Exec.eval σ (.call "len" [list])) := by
  obtain ⟨a, hva, -, ha⟩ := hl.array
  refine ⟨.int (arrayLength a), Term.value_app_one hva rfl, trivial, fun w hw => ?_⟩
  obtain ⟨items, hitems, rfl⟩ := Exec.eval_len_eq_ok.mp hw
  rw [ha items hitems, arrayLength_elements]
  rfl

theorem denotes_store (hl : Denotes (model G σ) tl (.array elem) (Exec.eval σ list))
    (hi : Denotes (model G σ) ti .int (Exec.eval σ index))
    (hv : Denotes (model G σ) tv elem (Exec.eval σ item)) :
    Denotes (model G σ) (.app .store [tl, ti, tv]) (.array elem)
      (Exec.eval σ (.call "store" [list, index, item])) := by
  obtain ⟨a, hva, hsort, ha⟩ := hl.array
  obtain ⟨i, hvi, hi⟩ := hi.int
  obtain ⟨v, hvv, hsortv, hv⟩ := hv
  refine ⟨.array (Function.update a i v), Term.value_app_three hva hvi hvv rfl, fun j => ?_,
    fun w hw => ?_⟩
  · by_cases hj : j = i
    · rwa [hj, Function.update_self]
    · rw [Function.update_of_ne hj]
      exact hsort j
  · obtain ⟨items, place, item, hlist, hplace, hlt, hitem, rfl⟩ := Exec.eval_store_eq_ok hw
    rw [ha items hlist, ← hi _ hplace, hv item hitem, update_elements hlt]
    rfl

end Expressions

/-- The term of a plain expression denotes it, if the variables have types of data. -/
theorem EncodedAs.denotes {G : TypeEnv} (hG : ∀ x ty, G.get? x = some ty → ty.isData = true)
    {σ : Store} (hσ : σ.Respects G) {bound : List (String × Ty)} {e : Expr} {ty : Ty} {t : Term}
    (h : EncodedAs G bound e t) (he : e.isPlain = true) (htype : e.HasType G ty) :
    ∃ s, SmtSort.ofTy ty = .ok s ∧ Denotes (model G σ) t s (Exec.eval σ e) := by
  induction h generalizing ty with
  | var =>
    cases htype with
    | var hx hty =>
      obtain ⟨s, hs⟩ := ofTy_of_isData (hG _ _ hx)
      exact ⟨s, hs, denotes_var (constantSort_eq_ok.2 ⟨_, hx, hty, hs⟩)⟩
  | int | bool =>
    cases htype
    exact ⟨_, rfl, _, rfl, trivial, by rintro w ⟨⟩; rfl⟩
  | @binary _ op _ _ _ _ _ _ ihl ihr =>
    simp only [Expr.isPlain, Bool.and_eq_true, Bool.not_eq_true'] at he
    cases htype with
    | binary hl hr =>
      obtain ⟨sl, hsl, hdl⟩ := ihl he.1.2 hl
      obtain ⟨sr, hsr, hdr⟩ := ihr he.2 hr
      obtain rfl := Except.ok.inj (hsl.symm.trans hsr)
      obtain ⟨s, hs, -⟩ := exists_ofTy_types op
      exact ⟨s, hs, denotes_binary hσ he.1.1 hsl hs hl hr hdl hdr⟩
  | @unary _ op _ _ _ ih =>
    simp only [Expr.isPlain, Bool.and_eq_true] at he
    cases htype with
    | unary htype =>
      obtain ⟨se, hse, hd⟩ := ih he.2 htype
      obtain ⟨s, hs, -⟩ := exists_ofTy_types op
      exact ⟨s, hs, denotes_unary he.1 hse hs hd⟩
  | @subscript _ _ index _ _ _ _ ihb ihi =>
    simp only [Expr.isPlain, Bool.and_eq_true] at he
    cases htype with
    | element hindex hb hi =>
      obtain ⟨sb, hsb, hdb⟩ := ihb he.1 hb
      obtain ⟨si, hsi, hdi⟩ := ihi he.2 hi
      obtain ⟨s, rfl, hs⟩ := exists_array_of_ofTy hsb
      cases hsi
      exact ⟨s, hs, denotes_element hindex hdb hdi⟩
    | part hindex => cases index <;> simp_all [Expr.isPlain, Expr.isSlice]
  | len hf _ _ _ ih =>
    simp only [Expr.isPlain, Expr.isPlainAll, Bool.and_true] at he
    subst hf
    cases htype with
    | len _ hl =>
      obtain ⟨sl, hsl, hdl⟩ := ih he hl
      obtain ⟨s, rfl, -⟩ := exists_array_of_ofTy hsl
      exact ⟨.int, rfl, denotes_len hdl⟩
  | store hf _ _ _ ihl ihi ihv =>
    simp only [Expr.isPlain, Expr.isPlainAll, Bool.and_true, Bool.and_eq_true] at he
    subst hf
    cases htype with
    | store _ hl hi hv =>
      obtain ⟨sl, hsl, hdl⟩ := ihl he.1 hl
      obtain ⟨si, hsi, hdi⟩ := ihi he.2.1 hi
      obtain ⟨sv, hsv, hdv⟩ := ihv he.2.2 hv
      obtain ⟨s, rfl, hs⟩ := exists_array_of_ofTy hsl
      cases hsi
      obtain rfl := Except.ok.inj (hs.symm.trans hsv)
      exact ⟨.array s, hsl, denotes_store hdl hdi hdv⟩
  | forAll => simp [Expr.isPlain] at he

/-! ## Adequacy -/

/-- The constants of the variables are their values in the store, embedded. -/
def Interpretation.Represents (M : Interpretation) (G : TypeEnv) (σ : Store) : Prop :=
  ∀ x ty s v, G.get? x = some ty → SmtSort.ofTy ty = .ok s → σ.get? x = some v →
    M.constants (symbol x) = embed s v

/-- The interpretation that a store gives rise to represents it. -/
theorem represents_model (G : TypeEnv) (σ : Store) : (model G σ).Represents G σ := by
  intro x ty s v hx hs hv
  rw [constants_model (constantSort_eq_ok.2 ⟨ty, hx, SmtSort.isConcrete_of_ofTy hs, hs⟩), hv,
    Option.getD_some]

/-- A plain expression that is a condition on numbers, truth values and lists can be declared
and encoded, and the symbols of its term are declared. Whatever truth value a run finds for it, the
term has under an interpretation that respects the declarations and where the constants of the
variables are their values in the run. So where the negation of the term is refuted, no run finds
the expression false. -/
theorem encode_adequate {G G' : TypeEnv} {e e' : Expr}
    (hG : ∀ x ty, G.get? x = some ty → ty.isData = true) (he : e.isPlain = true)
    (hinfer : e.infer.run.run G = (.ok (.bool, e'), G')) :
    ∃ ds t, declarations G [e] = .ok ds ∧ encode G [] e = .ok t ∧ t.Closed G ds [] ∧
      (∀ (σ : Store) (b : Bool), σ.Respects G → Exec.eval σ e = .ok (.bool b) →
        ∃ M : Interpretation, M.Represents G σ ∧ (∀ d ∈ ds, d.Holds M) ∧
          t.value M M.constants = some (.bool b)) ∧
      ((¬∃ M : Interpretation, (∀ d ∈ ds, d.Holds M) ∧ t.negate.Holds M) →
        ∀ σ : Store, σ.Respects G → Exec.eval σ e ≠ .ok (.bool false)) := by
  have htype : e.HasType G .bool := by
    refine (Expr.infer_accepts hinfer).hasType fun x _ ty hx => ⟨hx, ?_⟩
    exact (Ty.isData_iff.1 (hG x ty hx)).2
  obtain ⟨htyped, hwell⟩ := Expr.typed_of_isPlain htype he
  have hvalues : G.OfValues := fun x ty hx => (Ty.isData_iff.1 (hG x ty hx)).1
  have hdeclarable : ∃ ds, declarations G [e] = .ok ds ∧ Declares G [e] ds :=
    exists_declares hvalues (by simpa using quantifierSorts_eq_ok hwell htyped.ready.annotated)
      (by simpa using htyped.ready.settled)
  obtain ⟨ds, hds, hdeclares⟩ := hdeclarable
  obtain ⟨t, ht, -⟩ := hdeclares.exists_encode hvalues List.mem_cons_self hwell htyped
  have hvalue : ∀ (σ : Store) (b : Bool), σ.Respects G → Exec.eval σ e = .ok (.bool b) →
      t.value (model G σ) (model G σ).constants = some (.bool b) := by
    intro σ b hσ hb
    obtain ⟨s, hs, hdenotes⟩ := (encodedAs_of_encode ht).denotes hG hσ he htype
    cases hs
    obtain ⟨p, hp, hpb⟩ := hdenotes.bool
    rw [hp, hpb b hb]
  refine ⟨ds, t, hds, ht, hdeclares.closed_of_typed hvalues List.mem_cons_self ht hwell htyped,
    fun σ b hσ hb => ?_, fun hrefuted σ hσ hfalse => ?_⟩
  · exact ⟨model G σ, represents_model G σ, holds_declarations hds, hvalue σ b hσ hb⟩
  · exact hrefuted ⟨model G σ, holds_declarations hds,
      Term.value_app_one (hvalue σ false hσ hfalse) rfl⟩

/-- The types of a list `xs`, an index `i` and a number `n`. -/
def storedTypes : TypeEnv := .ofList [("xs", .array .int), ("i", .int), ("n", .int)]

/-- A store where `i` is the last index of `xs`. -/
def storedValues : Store :=
  .ofList [("xs", .list [.int 3, .int 5]), ("i", .int 1), ("n", .int 7)]

/-- Either `xs` has no element `i`, or `n // -2` can be stored there and read back, and is `-4`. -/
def storedQuotient : Expr :=
  let xs : Expr := .var "xs"
  let i : Expr := .var "i"
  let stored : Expr := .call "store" [xs, i, .binary .div (.var "n") (.int (-2))]
  .implies (.and (.binary .le (.int 0) i) (.binary .lt i (.call "len" [stored])))
    (.binary .eq (.subscript stored i) (.int (-4)))

/-- The case of a quotient that is rounded down and stored in a list: a run finds the condition
true, and so does an interpretation that respects its declarations and where `n` is `7` as in the
run. -/
theorem encode_adequate_storedQuotient :
    storedQuotient.infer.run.run storedTypes = (.ok (.bool, storedQuotient), storedTypes) ∧
      Exec.eval storedValues storedQuotient = .ok (.bool true) ∧
      ∃ ds t, declarations storedTypes [storedQuotient] = .ok ds ∧
        encode storedTypes [] storedQuotient = .ok t ∧ t.Closed storedTypes ds [] ∧
        ∃ M : Interpretation, M.constants (symbol "n") = .int 7 ∧
          M.Represents storedTypes storedValues ∧ (∀ d ∈ ds, d.Holds M) ∧
          t.value M M.constants = some (.bool true) := by
  have hinfer : storedQuotient.infer.run.run storedTypes =
      (.ok (.bool, storedQuotient), storedTypes) := by rfl
  have heval : Exec.eval storedValues storedQuotient = .ok (.bool true) := by rfl
  have htypes : ∀ x ty, storedTypes.get? x = some ty → ty.isData = true := by
    intro x ty hx
    simp only [storedTypes, Bindings.ofList, List.foldl_cons, List.foldl_nil,
      Bindings.get?_insert, Bindings.get?_empty] at hx
    split_ifs at hx <;> cases hx <;> rfl
  have hrespects : storedValues.Respects storedTypes := by
    intro x ty v hx hv
    simp only [storedTypes, storedValues, Bindings.ofList, List.foldl_cons, List.foldl_nil,
      Bindings.get?_insert, Bindings.get?_empty] at hx hv
    split_ifs at hx hv <;> cases hx <;> cases hv <;> rfl
  obtain ⟨ds, t, hds, ht, hclosed, hvalue, -⟩ := encode_adequate htypes (by rfl) hinfer
  obtain ⟨M, hM, hholds, htrue⟩ := hvalue storedValues true hrespects heval
  exact ⟨hinfer, heval, ds, t, hds, ht, hclosed, M, hM "n" .int .int (.int 7) rfl rfl rfl, hM,
    hholds, htrue⟩

end Smt

end Precond
