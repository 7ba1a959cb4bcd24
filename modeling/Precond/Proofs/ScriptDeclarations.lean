import Mathlib.Tactic
import Precond.Proofs.TermSorts

/-!
# What is declared

`declarations` declares floor division and remainder, a constant for each free variable, and a
length function for each sort of arrays. Different variables have different symbols, different
sorts of arrays have different names for their lengths (`SmtSort.lenName_injective`), and the three
kinds of names begin differently, so no name is declared twice (`Declares.nodup`). `Declares` is
what the declarations contain, and they are made whenever the quantifiers have sorts and the free
variables have settled types of values (`exists_declares`).
-/

namespace Precond

/-! ## Ordered lists -/

section Ordered

variable {α : Type} [DecidableEq α] {r : α → α → Prop} [DecidableRel r]

/-- Puts an element into an ordered list, unless it is there. -/
def insertOrdered (r : α → α → Prop) [DecidableRel r] (x : α) : List α → List α
  | [] => [x]
  | y :: ys => if x = y then y :: ys else if r x y then x :: y :: ys else y :: insertOrdered r x ys

theorem mem_insertOrdered {x y : α} {ys : List α} :
    y ∈ insertOrdered r x ys ↔ y = x ∨ y ∈ ys := by
  induction ys with
  | nil => simp [insertOrdered]
  | cons z zs ih =>
    unfold insertOrdered
    split_ifs with hxz
    · simp [hxz]
    · simp
    · rw [List.mem_cons, List.mem_cons, ih, or_left_comm]

/-- What is put into the list is there afterwards, besides what was there. -/
theorem mem_foldl_insertOrdered {x : α} {xs acc : List α} :
    x ∈ xs.foldl (fun acc x => insertOrdered r x acc) acc ↔ x ∈ acc ∨ x ∈ xs := by
  induction xs generalizing acc with
  | nil => simp
  | cons y ys ih =>
    rw [List.foldl_cons, ih, mem_insertOrdered, List.mem_cons, or_assoc, or_left_comm]

/-- An ordered list stays ordered. -/
theorem pairwise_insertOrdered (htrans : ∀ a b c, r a b → r b c → r a c)
    (htotal : ∀ a b, ¬r a b → a ≠ b → r b a) {x : α} {ys : List α} (h : ys.Pairwise r) :
    (insertOrdered r x ys).Pairwise r := by
  induction ys with
  | nil => simp [insertOrdered]
  | cons y ys ih =>
    rw [List.pairwise_cons] at h
    unfold insertOrdered
    split_ifs with hxy hlt
    · exact List.pairwise_cons.2 h
    · exact List.pairwise_cons.2 ⟨List.forall_mem_cons.2 ⟨hlt, fun z hz =>
        htrans _ _ _ hlt (h.1 z hz)⟩,
        List.pairwise_cons.2 h⟩
    · refine List.pairwise_cons.2 ⟨fun z hz => ?_, ih h.2⟩
      rcases mem_insertOrdered.1 hz with rfl | hz
      · exact htotal _ _ hlt hxy
      · exact h.1 z hz

/-- The members of a list that is made by ordered insertion are different. -/
theorem nodup_foldl_insertOrdered (hirrefl : ∀ a, ¬r a a)
    (htrans : ∀ a b c, r a b → r b c → r a c) (htotal : ∀ a b, ¬r a b → a ≠ b → r b a)
    (xs : List α) : (xs.foldl (fun acc x => insertOrdered r x acc) []).Nodup := by
  have hfold : ∀ acc : List α, acc.Pairwise r →
      (xs.foldl (fun acc x => insertOrdered r x acc) acc).Pairwise r := by
    induction xs with
    | nil => exact fun acc h => h
    | cons x xs ih => exact fun acc h => ih _ (pairwise_insertOrdered htrans htotal h)
  refine (hfold [] List.Pairwise.nil).imp fun {a b} hlt heq => ?_
  subst heq
  exact hirrefl a hlt

end Ordered

theorem Name.addSorted_eq (x : String) (ys : List String) :
    addSorted x ys = insertOrdered (· < ·) x ys := by
  induction ys with
  | nil => rfl
  | cons y ys ih => rw [addSorted, insertOrdered, ih]

/-- Names that are sorted are all different. -/
theorem Name.nodup_sorted (xs : List String) : (sorted xs).Nodup := by
  simp only [sorted, addSorted_eq]
  exact nodup_foldl_insertOrdered String.lt_irrefl (fun _ _ _ => String.lt_trans)
    (fun _ _ hlt hne => Std.lt_of_le_of_ne (String.not_lt.1 hlt) hne.symm) xs

namespace Smt

namespace SmtSort

theorem before_irrefl (s : SmtSort) : ¬before s s = true := by
  induction s with
  | int | bool => simp [before]
  | array elem ih => exact ih

/-- The order of sorts is transitive. -/
theorem before_trans {a b c : SmtSort} (h : before a b = true) (h' : before b c = true) :
    before a c = true := by
  induction a generalizing b c with
  | int => cases b <;> cases c <;> simp_all [before]
  | bool => cases b <;> cases c <;> simp_all [before]
  | array a ih =>
    cases b with
    | int | bool => simp [before] at h
    | array b =>
      cases c with
      | int | bool => simp [before] at h'
      | array c => exact ih h h'

/-- Of two different sorts, one comes before the other. -/
theorem before_of_not_before {a b : SmtSort} (h : ¬before a b = true) (hne : a ≠ b) :
    before b a = true := by
  induction a generalizing b with
  | int => cases b <;> simp_all [before]
  | bool => cases b <;> simp_all [before]
  | array a ih =>
    cases b with
    | int | bool => rfl
    | array b => exact ih h fun hab => hne (hab ▸ rfl)

theorem addSorted_eq (s : SmtSort) (ts : List SmtSort) :
    addSorted s ts = insertOrdered (before · · = true) s ts := by
  induction ts with
  | nil => rfl
  | cons t ts ih => rw [addSorted, insertOrdered, ih]

theorem mem_sorted {s : SmtSort} {ss : List SmtSort} : s ∈ sorted ss ↔ s ∈ ss := by
  simp only [sorted, addSorted_eq, mem_foldl_insertOrdered, List.not_mem_nil, false_or]

theorem nodup_sorted (ss : List SmtSort) : (sorted ss).Nodup := by
  simp only [sorted, addSorted_eq]
  exact nodup_foldl_insertOrdered (r := fun a b => before a b = true) before_irrefl
    (fun _ _ _ => before_trans) (fun _ _ => before_of_not_before) ss

/-! ## Names of length functions -/

theorem toList_tag_array (elem : SmtSort) :
    (tag (.array elem)).toList = ['A', 'r', 'r', '_'] ++ (tag elem).toList := by
  rw [tag, String.toList_append]
  rfl

/-- Different sorts have different tags. -/
theorem tag_injective : Function.Injective tag := by
  intro a b h
  have hlist := congrArg String.toList h
  induction a generalizing b with
  | int =>
    cases b with
    | int => rfl
    | bool => simp [tag] at h
    | array b =>
      rw [toList_tag_array] at hlist
      exact absurd hlist (by simp [tag])
  | bool =>
    cases b with
    | int => simp [tag] at h
    | bool => rfl
    | array b =>
      rw [toList_tag_array] at hlist
      exact absurd hlist (by simp [tag])
  | array a ih =>
    cases b with
    | int | bool =>
      rw [toList_tag_array] at hlist
      exact absurd hlist (by simp [tag])
    | array b =>
      rw [toList_tag_array, toList_tag_array, List.append_cancel_left_eq] at hlist
      rw [ih (String.toList_inj.1 hlist) hlist]

theorem toList_lenName_array (elem : SmtSort) :
    (lenName (.array elem)).toList = ['l', 'e', 'n', '_'] ++ (tag elem).toList := by
  rw [lenName, String.toList_append]
  rfl

/-- Different sorts of arrays have different names for the length. -/
theorem lenName_injective {a b : SmtSort} (h : lenName (.array a) = lenName (.array b)) : a = b := by
  have hlist := congrArg String.toList h
  rw [toList_lenName_array, toList_lenName_array, List.append_cancel_left_eq] at hlist
  exact tag_injective (String.toList_inj.1 hlist)

/-- The sorts inside a sort of arrays are sorts of arrays. -/
theorem exists_of_mem_arrays {s a : SmtSort} (h : a ∈ s.arrays) : ∃ elem, a = .array elem := by
  induction s with
  | int | bool => cases h
  | array elem ih =>
    rcases List.mem_cons.1 h with rfl | h
    · exact ⟨elem, rfl⟩
    · exact ih h

end SmtSort

/-! ## Signatures -/

theorem signatures_append (ds ds' : List Declaration) :
    signatures (ds ++ ds') = signatures ds ++ signatures ds' := List.filterMap_append

theorem signatures_preamble :
    signatures preamble =
      [("floor_div", [.int, .int], .int), ("floor_mod", [.int, .int], .int)] := rfl

theorem signatures_constants (constants : List (String × SmtSort)) :
    signatures (constants.map fun c => .const (symbol c.1) c.2) =
      constants.map fun c => (symbol c.1, [], c.2) := by
  induction constants with
  | nil => rfl
  | cons c cs ih => exact congrArg (_ :: ·) ih

/-- The lengths of arrays have one signature for each sort. -/
theorem signatures_lens {arrays : List SmtSort} (h : ∀ a ∈ arrays, ∃ elem, a = .array elem) :
    signatures (arrays.flatMap lenDeclarations) =
      arrays.map fun a => (a.lenName, [a], .int) := by
  induction arrays with
  | nil => rfl
  | cons a as ih =>
    rw [List.forall_mem_cons] at h
    obtain ⟨⟨elem, rfl⟩, h⟩ := h
    rw [List.flatMap_cons, signatures_append, ih h]
    rfl

/-- The declarations for constants and sorts of arrays. -/
def declared (constants : List (String × SmtSort)) (arrays : List SmtSort) : List Declaration :=
  preamble ++ constants.map (fun c => .const (symbol c.1) c.2) ++ arrays.flatMap lenDeclarations

section

variable {constants : List (String × SmtSort)} {arrays : List SmtSort}

/-- What is declared: the two functions of division, the constants and the lengths. -/
theorem signatures_declared (h : ∀ a ∈ arrays, ∃ elem, a = .array elem) :
    signatures (declared constants arrays) =
      signatures preamble ++ constants.map (fun c => (symbol c.1, [], c.2)) ++
        arrays.map fun a => (a.lenName, [a], .int) := by
  rw [declared, signatures_append, signatures_append, signatures_constants, signatures_lens h]

/-- Each constant is declared. -/
theorem const_mem_declared {x : String} {s : SmtSort} (h : (x, s) ∈ constants) :
    .const (symbol x) s ∈ declared constants arrays := by
  rw [declared, List.mem_append, List.mem_append, List.mem_map]
  exact Or.inl (Or.inr ⟨(x, s), h, rfl⟩)

/-- Each sort of arrays has its length function. -/
theorem len_mem_declared {elem : SmtSort} (h : .array elem ∈ arrays) :
    .function (SmtSort.lenName (.array elem)) [.array elem] .int ∈ declared constants arrays := by
  rw [declared, List.mem_append, List.mem_flatMap]
  exact Or.inr ⟨.array elem, h, List.mem_cons_self⟩

end

/-- The three kinds of names are different, and no name of a kind is declared twice. -/
theorem nodup_names {xs : List String} {arrays : List SmtSort} (hxs : xs.Nodup)
    (harrays : arrays.Nodup) (h : ∀ a ∈ arrays, ∃ elem, a = .array elem) :
    (["floor_div", "floor_mod"] ++ xs.map symbol ++ arrays.map SmtSort.lenName).Nodup := by
  have hsymbol : ∀ name ∈ xs.map symbol, name.toList.head? = some 'v' ∨
      name.toList.head? = some '|' := by
    simp only [List.forall_mem_map, toList_symbol]
    intro x _
    split_ifs <;> simp
  have hlen : ∀ name ∈ arrays.map SmtSort.lenName, name.toList.head? = some 'l' := by
    rw [List.forall_mem_map]
    intro a ha
    obtain ⟨elem, rfl⟩ := h a ha
    simp [SmtSort.toList_lenName_array]
  refine List.nodup_append.2 ⟨List.nodup_append.2 ⟨by decide, hxs.map symbol_injective, ?_⟩, ?_, ?_⟩
  · rintro a ha b hb rfl
    have := hsymbol a hb
    simp only [List.mem_cons, List.not_mem_nil, or_false] at ha
    rcases ha with rfl | rfl <;> simp at this
  · refine List.Nodup.map_on (fun a ha b hb hab => ?_) harrays
    obtain ⟨elem, rfl⟩ := h a ha
    obtain ⟨elem', rfl⟩ := h b hb
    rw [SmtSort.lenName_injective hab]
  · rintro a ha b hb rfl
    have hl := hlen a hb
    rcases List.mem_append.1 ha with ha | ha
    · simp only [List.mem_cons, List.not_mem_nil, or_false] at ha
      rcases ha with rfl | rfl <;> simp at hl
    · have := hsymbol a ha
      simp [hl] at this

/-! ## Sorts of quantifiers -/

mutual

/-- Only sorts of arrays are collected from quantifiers. -/
theorem exists_of_mem_quantifierSorts {e : Expr} {sorts : List SmtSort}
    (h : quantifierSorts e = .ok sorts) : ∀ a ∈ sorts, ∃ elem, a = .array elem := by
  match e with
  | .var _ | .lit _ =>
    cases h
    exact List.forall_mem_nil _
  | .binary _ l r | .subscript l r | .sliceFrom l r =>
    obtain ⟨ls, hls, h⟩ := Exec.bind_eq_ok.1 h
    obtain ⟨rs, hrs, h⟩ := Exec.bind_eq_ok.1 h
    cases h
    exact List.forall_mem_append.2
      ⟨exists_of_mem_quantifierSorts hls, exists_of_mem_quantifierSorts hrs⟩
  | .unary _ e => exact exists_of_mem_quantifierSorts (e := e) h
  | .slice l u s =>
    obtain ⟨ls, hls, h⟩ := Exec.bind_eq_ok.1 h
    obtain ⟨us, hus, h⟩ := Exec.bind_eq_ok.1 h
    obtain ⟨ss, hss, h⟩ := Exec.bind_eq_ok.1 h
    cases h
    exact List.forall_mem_append.2 ⟨List.forall_mem_append.2
      ⟨exists_of_mem_quantifierSorts hls, exists_of_mem_quantifierSorts hus⟩,
      exists_of_mem_quantifierSorts hss⟩
  | .call _ args =>
    rw [quantifierSorts] at h
    exact exists_of_mem_quantifierSortsAll h
  | .forAll _ ty body =>
    obtain ⟨own, -, h⟩ := Exec.bind_eq_ok.1 h
    obtain ⟨inner, hinner, h⟩ := Exec.bind_eq_ok.1 h
    cases h
    refine List.forall_mem_append.2 ⟨fun a ha => ?_, exists_of_mem_quantifierSorts hinner⟩
    cases own with
    | none => cases ha
    | some s => exact SmtSort.exists_of_mem_arrays ha

theorem exists_of_mem_quantifierSortsAll {es : List Expr} {sorts : List SmtSort}
    (h : quantifierSortsAll es = .ok sorts) : ∀ a ∈ sorts, ∃ elem, a = .array elem := by
  match es with
  | [] =>
    cases h
    exact List.forall_mem_nil _
  | e :: es =>
    obtain ⟨own, hown, h⟩ := Exec.bind_eq_ok.1 h
    obtain ⟨rest, hrest, h⟩ := Exec.bind_eq_ok.1 h
    cases h
    exact List.forall_mem_append.2
      ⟨exists_of_mem_quantifierSorts hown, exists_of_mem_quantifierSortsAll hrest⟩

end

theorem quantifierSortsAll_eq_ok {es : List Expr}
    (h : ∀ e ∈ es, ∃ sorts, quantifierSorts e = .ok sorts) :
    ∃ sorts, quantifierSortsAll es = .ok sorts := by
  induction es with
  | nil => exact ⟨[], rfl⟩
  | cons e es ih =>
    rw [List.forall_mem_cons] at h
    obtain ⟨own, hown⟩ := h.1
    obtain ⟨rest, hrest⟩ := ih h.2
    exact ⟨own ++ rest, by rw [quantifierSortsAll, hown, hrest]; rfl⟩

/-- The quantifiers have sorts if they have settled types of values. -/
theorem quantifierSorts_eq_ok {index : Bool} {e : Expr} (he : e.WellFormed index)
    (hannotated : e.annotated = true) : ∃ sorts, quantifierSorts e = .ok sorts := by
  induction he with
  | var | lit => exact ⟨[], rfl⟩
  | binary _ _ _ ihl ihr | subscript _ _ ihl ihr | sliceFrom _ _ ihl ihr =>
    simp only [Expr.annotated, Bool.and_eq_true] at hannotated
    obtain ⟨ls, hls⟩ := ihl hannotated.1
    obtain ⟨rs, hrs⟩ := ihr hannotated.2
    exact ⟨ls ++ rs, by rw [quantifierSorts, hls, hrs]; rfl⟩
  | unary _ _ ih => exact ih hannotated
  | slice _ _ _ ihl ihu ihs =>
    simp only [Expr.annotated, Bool.and_eq_true] at hannotated
    obtain ⟨ls, hls⟩ := ihl hannotated.1.1
    obtain ⟨us, hus⟩ := ihu hannotated.1.2
    obtain ⟨ss, hss⟩ := ihs hannotated.2
    exact ⟨ls ++ us ++ ss, by rw [quantifierSorts, hls, hus, hss]; rfl⟩
  | call _ ih =>
    rw [Expr.annotated, Expr.annotatedAll_eq_true] at hannotated
    exact quantifierSortsAll_eq_ok fun a ha => ih a ha (hannotated a ha)
  | @forAll _ _ ty _ hty _ ih =>
    simp only [Expr.annotated, Bool.and_eq_true] at hannotated
    obtain ⟨inner, hinner⟩ := ih hannotated.2
    cases ty with
    | none => simp at hannotated
    | some t =>
      obtain ⟨s, hs⟩ := ofTy_of_isData (Ty.isData_iff.2 ⟨hty t rfl, hannotated.1⟩)
      refine ⟨s.arrays ++ inner, ?_⟩
      rw [quantifierSorts, hinner, Option.mapM_some, hs]
      rfl

/-! ## Declarations -/

theorem mapM_eq_ok {α β : Type} {f : α → Except Error β} {xs : List α}
    (h : ∀ x ∈ xs, ∃ y, f x = .ok y) : ∃ ys, xs.mapM f = .ok ys := by
  induction xs with
  | nil => exact ⟨[], rfl⟩
  | cons x xs ih =>
    obtain ⟨y, hy⟩ := h x List.mem_cons_self
    obtain ⟨ys, hys⟩ := ih fun z hz => h z (List.mem_cons_of_mem x hz)
    exact ⟨y :: ys, by rw [List.mapM_cons, hy, hys]; rfl⟩

/-- The names beside the sorts are those that the sorts were asked for. -/
theorem map_fst_of_mapM {xs : List String} {f : String → Except Error SmtSort}
    {ys : List (String × SmtSort)}
    (h : xs.mapM (fun x => do
      let sort ← f x
      return (x, sort)) = .ok ys) : ys.map (·.1) = xs := by
  induction xs generalizing ys with
  | nil =>
    cases h
    rfl
  | cons x xs ih =>
    rw [List.mapM_cons] at h
    obtain ⟨y, hy, h⟩ := Exec.bind_eq_ok.1 h
    obtain ⟨sort, -, hy⟩ := Exec.bind_eq_ok.1 hy
    obtain ⟨ys', hys, h⟩ := Exec.bind_eq_ok.1 h
    cases hy
    cases h
    rw [List.map_cons, ih hys]

theorem exists_mem_of_mapM {xs : List String} {f : String → Except Error SmtSort}
    {ys : List (String × SmtSort)}
    (h : xs.mapM (fun x => do
      let sort ← f x
      return (x, sort)) = .ok ys) {x : String} (hx : x ∈ xs) : ∃ s, f x = .ok s ∧ (x, s) ∈ ys := by
  rw [← map_fst_of_mapM h] at hx
  obtain ⟨⟨x, s⟩, hmem, rfl⟩ := List.mem_map.1 hx
  obtain ⟨y, -, hy⟩ := exists_of_mem_mapM h hmem
  obtain ⟨s', hs', hy⟩ := Exec.bind_eq_ok.1 hy
  cases hy
  exact ⟨s, hs', hmem⟩

/-- What the declarations for some formulas contain. -/
structure Declares (env : TypeEnv) (formulas : List Expr) (ds : List Declaration) : Prop where
  /-- No name is declared twice. -/
  nodup : ((signatures ds).map (·.1)).Nodup
  floorDiv : ("floor_div", [.int, .int], .int) ∈ signatures ds
  floorMod : ("floor_mod", [.int, .int], .int) ∈ signatures ds
  /-- Every free variable has a constant of its sort. -/
  const : ∀ x ∈ Expr.freeVarsAll formulas, ∃ s, constantSort env x = .ok s ∧
    .const (symbol x) s ∈ ds ∧ ∀ a ∈ s.arrays, .function a.lenName [a] .int ∈ ds
  /-- The sorts that quantifiers range over have their length functions. -/
  quantified : ∃ sorts, quantifierSortsAll formulas = .ok sorts ∧
    ∀ a ∈ sorts, .function a.lenName [a] .int ∈ ds

/-- What declarations are made of, where there are any. -/
theorem exists_of_declarations {env : TypeEnv} {formulas : List Expr} {ds : List Declaration}
    (h : declarations env formulas = .ok ds) :
    ∃ quantified constants, quantifierSortsAll formulas = .ok quantified ∧
      ((Name.sorted (Expr.freeVarsAll formulas)).mapM fun x => do
        let sort ← constantSort env x
        return (x, sort)) = .ok constants ∧
      ds = declared constants
        (SmtSort.sorted (quantified ++ constants.flatMap (·.2.arrays))) := by
  obtain ⟨quantified, hquantified, h⟩ := Exec.bind_eq_ok.1 h
  obtain ⟨constants, hconstants, h⟩ := Exec.bind_eq_ok.1 h
  exact ⟨quantified, constants, hquantified, hconstants, (Except.ok.inj h).symm⟩

/-- The declarations that are made for formulas contain what these need. -/
theorem declares_of_ok {env : TypeEnv} {formulas : List Expr} {ds : List Declaration}
    (h : declarations env formulas = .ok ds) : Declares env formulas ds := by
  obtain ⟨quantified, constants, hquantified, hconstants, rfl⟩ := exists_of_declarations h
  set arrays := SmtSort.sorted (quantified ++ constants.flatMap (·.2.arrays))
  have hmem : ∀ a, a ∈ arrays ↔ a ∈ quantified ∨ ∃ c ∈ constants, a ∈ c.2.arrays := fun a => by
    rw [SmtSort.mem_sorted, List.mem_append, List.mem_flatMap]
  have harrays : ∀ a ∈ arrays, ∃ elem, a = .array elem := by
    intro a ha
    rcases (hmem a).1 ha with ha | ⟨c, -, ha⟩
    · exact exists_of_mem_quantifierSortsAll hquantified a ha
    · exact SmtSort.exists_of_mem_arrays ha
  have hlen : ∀ a ∈ arrays, .function a.lenName [a] .int ∈ declared constants arrays := by
    intro a ha
    obtain ⟨elem, rfl⟩ := harrays a ha
    exact len_mem_declared ha
  have hsignatures : signatures (declared constants arrays) = _ := signatures_declared harrays
  rw [signatures_preamble] at hsignatures
  refine ⟨?_, by simp [hsignatures], by simp [hsignatures], fun x hx => ?_, quantified,
    hquantified, fun a ha => hlen a ((hmem a).2 (Or.inl ha))⟩
  · have hdifferent : arrays.Nodup := SmtSort.nodup_sorted _
    have hnodup := nodup_names (Name.nodup_sorted (Expr.freeVarsAll formulas)) hdifferent harrays
    rw [← map_fst_of_mapM hconstants, List.map_map] at hnodup
    simpa only [hsignatures, List.map_append, List.map_cons, List.map_nil, List.map_map,
      Function.comp_def] using hnodup
  · obtain ⟨s, hs, hx⟩ := exists_mem_of_mapM hconstants (Name.mem_sorted.2 hx)
    exact ⟨s, hs, const_mem_declared hx,
      fun a ha => hlen a ((hmem a).2 (Or.inr ⟨(x, s), hx, ha⟩))⟩

/-- The sort of a variable is that of its type, if this is settled. -/
theorem constantSort_eq_ok {env : TypeEnv} {x : String} {s : SmtSort} :
    constantSort env x = .ok s ↔
      ∃ ty, env.get? x = some ty ∧ ty.isConcrete = true ∧ SmtSort.ofTy ty = .ok s := by
  cases hx : env.get? x with
  | none => simp [constantSort, hx]
  | some ty => by_cases hty : ty.isConcrete = true <;> simp [constantSort, hx, hty]

/-- The declarations are made if the quantifiers have sorts and the free variables have settled
types of values. -/
theorem exists_declares {env : TypeEnv} {formulas : List Expr} (henv : env.OfValues)
    (hquantified : ∀ e ∈ formulas, ∃ sorts, quantifierSorts e = .ok sorts)
    (hsettled : ∀ e ∈ formulas, env.Settles e.freeVars) :
    ∃ ds, declarations env formulas = .ok ds ∧ Declares env formulas ds := by
  obtain ⟨quantified, hquantified⟩ := quantifierSortsAll_eq_ok hquantified
  have hconst : ∀ x ∈ Name.sorted (Expr.freeVarsAll formulas), ∃ c, (do
      let sort ← constantSort env x
      return (x, sort) : Except Error (String × SmtSort)) = .ok c := by
    intro x hx
    obtain ⟨e, he, hx⟩ := Expr.mem_freeVarsAll.1 (Name.mem_sorted.1 hx)
    obtain ⟨ty, hty, hconcrete⟩ := hsettled e he x hx
    obtain ⟨s, hs⟩ := ofTy_of_isData (Ty.isData_iff.2 ⟨henv x ty hty, hconcrete⟩)
    exact ⟨(x, s), by rw [constantSort_eq_ok.2 ⟨ty, hty, hconcrete, hs⟩]; rfl⟩
  obtain ⟨constants, hconstants⟩ := mapM_eq_ok hconst
  have hok : ∃ ds, declarations env formulas = .ok ds := by
    rw [declarations, hquantified]
    exact ⟨_, Exec.bind_eq_ok.2 ⟨_, rfl, Exec.bind_eq_ok.2 ⟨_, hconstants, rfl⟩⟩⟩
  obtain ⟨ds, hds⟩ := hok
  exact ⟨ds, hds, declares_of_ok hds⟩

namespace Declares

variable {env : TypeEnv} {formulas : List Expr} {ds : List Declaration}

theorem floorDeclared (h : Declares env formulas ds) : FloorDeclared ds :=
  ⟨declaredSort?_of_mem h.nodup h.floorDiv, declaredSort?_of_mem h.nodup h.floorMod⟩

theorem mem_signatures {d : Declaration} {name : String} {args : List SmtSort} {sort : SmtSort}
    (hd : d ∈ ds) (hsignature : d.signature? = some (name, args, sort)) :
    (name, args, sort) ∈ signatures ds := List.mem_filterMap.2 ⟨d, hd, hsignature⟩

/-- The length functions that are declared have their signatures. -/
theorem lenDeclared (h : Declares env formulas ds) {a : SmtSort}
    (ha : .function a.lenName [a] .int ∈ ds) : LenDeclared ds a :=
  declaredSort?_of_mem h.nodup (mem_signatures ha rfl)

/-- The free variables of the formulas are known. -/
theorem knows (h : Declares env formulas ds) {x : String} (hx : x ∈ Expr.freeVarsAll formulas) :
    Knows ds env [] [] env x := by
  intro ty s hty hs
  obtain ⟨s', hsort, hconst, hlen⟩ := h.const x hx
  obtain ⟨ty', hty', -, hs'⟩ := constantSort_eq_ok.1 hsort
  obtain rfl := Option.some.inj (hty.symm.trans hty')
  obtain rfl := Except.ok.inj (hs.symm.trans hs')
  refine ⟨by simp [varType, hty], ?_, fun a ha => h.lenDeclared (hlen a ha)⟩
  simp only [Term.sort?, List.find?_nil]
  exact declaredSort?_of_mem h.nodup (mem_signatures hconst rfl)

/-- A formula that is typed is encoded by a term that is a truth value. -/
theorem exists_encode (h : Declares env formulas ds) (henv : env.OfValues) {e : Expr}
    (he : e ∈ formulas) (hwell : e.WellFormed false) (htyped : e.Typed env .bool) :
    ∃ t, encode env [] e = .ok t ∧ t.sort? ds [] = some .bool := by
  obtain ⟨sorts, hsorts, hlen⟩ := h.quantified
  obtain ⟨t, s, ht⟩ := exists_wellEncoded htyped h.floorDeclared henv hwell
    (fun x hx => h.knows (Expr.mem_freeVarsAll.2 ⟨e, he, hx⟩))
    (.of_mem hsorts (fun a ha => h.lenDeclared (hlen a ha)) he)
  cases ht.ofTy_eq
  exact ⟨t, ht.encode_eq, ht.sort_eq⟩

end Declares

end Smt

end Precond
