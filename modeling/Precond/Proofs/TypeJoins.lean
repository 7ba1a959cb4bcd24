import Mathlib.Data.List.Forall2
import Mathlib.Tactic
import Precond.Proofs.TypePrecision

/-!
# Least types above two types

`Ty.IsJoin a b c` says that `c` is above `a` and `b` and below every type that is above both. There
is at most one such type, since types below each other are the same (`Ty.Below.antisymm`).

Not all types have a common one above them. They do if and only if they agree wherever both are
settled: types below a common one agree (`Ty.compatible_of_below`), and if they agree, then the
first one with its open parts taken from the second one is above both (`Ty.below_refine_right`).
Then it is also below every other type above both (`Ty.refine_below`), so it is their join, and it
does not matter from which of them open parts are taken.

All statements are by recursion on the first type, together with the same statement for lists of
types. The lists in a product are compared place by place (`Ty.below_prod_iff`).
-/

namespace Precond.Ty

/-! ## The order -/

/-- Products are compared component by component. -/
theorem below_prod_iff {as bs : List Ty} :
    Below (.prod as) (.prod bs) ↔ List.Forall₂ Below as bs := by
  refine ⟨fun h => ?_, below_prod⟩
  cases h with
  | prod hlength h => exact List.forall₂_iff_zip.2 ⟨hlength, fun hp => h _ hp⟩

mutual

/-- Types that are below each other are equal. -/
theorem Below.antisymm {a b : Ty} (h : Below a b) (h' : Below b a) : a = b := by
  match a with
  | .unknown =>
    cases h'
    rfl
  | .int | .bool | .slice =>
    cases h
    rfl
  | .array a =>
    cases h with
    | array h =>
      cases h' with
      | array h' => rw [Below.antisymm h h']
  | .arrow a c =>
    cases h with
    | arrow ha hc =>
      cases h' with
      | arrow ha' hc' => rw [Below.antisymm ha ha', Below.antisymm hc hc']
  | .prod as =>
    cases b with
    | prod bs => rw [eq_of_forall₂_below (below_prod_iff.1 h) (below_prod_iff.1 h')]
    | _ => cases h

theorem eq_of_forall₂_below {as bs : List Ty} (h : List.Forall₂ Below as bs)
    (h' : List.Forall₂ Below bs as) : as = bs := by
  match as with
  | [] =>
    cases h
    rfl
  | a :: as =>
    cases h with
    | cons hab h =>
      cases h' with
      | cons hba h' => rw [Below.antisymm hab hba, eq_of_forall₂_below h h']

end

/-- The type is the least one above two types. -/
structure IsJoin (a b c : Ty) : Prop where
  left : Below a c
  right : Below b c
  least : ∀ d, Below a d → Below b d → Below c d

theorem IsJoin.symm {a b c : Ty} (h : IsJoin a b c) : IsJoin b a c :=
  ⟨h.right, h.left, fun d hb ha => h.least d ha hb⟩

/-- Types have one least type above them at most. -/
theorem IsJoin.unique {a b c d : Ty} (h : IsJoin a b c) (h' : IsJoin a b d) : c = d :=
  (h.least d h'.left h'.right).antisymm (h'.least c h.left h.right)

/-! ## Types that agree -/

mutual

/-- Types below a common one agree wherever both are settled. -/
theorem compatible_of_below {a b c : Ty} (ha : Below a c) (hb : Below b c) :
    a.compatible b = true := by
  match a with
  | .unknown => rw [compatible]
  | .int | .bool | .slice =>
    cases ha
    cases hb <;> simp [compatible]
  | .array a =>
    cases ha with
    | array ha =>
      cases hb with
      | unknown => rw [compatible]
      | array hb =>
        rw [compatible]
        exact compatible_of_below ha hb
  | .arrow a d =>
    cases ha with
    | arrow ha hd =>
      cases hb with
      | unknown => rw [compatible]
      | arrow hb he =>
        rw [compatible, Bool.and_eq_true]
        exact ⟨compatible_of_below ha hb, compatible_of_below hd he⟩
  | .prod as =>
    cases c with
    | prod cs =>
      cases b with
      | unknown => rw [compatible]
      | prod bs =>
        rw [compatible]
        exact compatibleAll_of_below (below_prod_iff.1 ha) (below_prod_iff.1 hb)
      | _ => cases hb
    | _ => cases ha

theorem compatibleAll_of_below {as bs cs : List Ty} (ha : List.Forall₂ Below as cs)
    (hb : List.Forall₂ Below bs cs) : compatibleAll as bs = true := by
  match as with
  | [] =>
    cases ha
    cases hb
    simp [compatibleAll]
  | a :: as =>
    cases ha with
    | cons ha has =>
      cases hb with
      | cons hb hbs =>
        rw [compatibleAll, Bool.and_eq_true]
        exact ⟨compatible_of_below ha hb, compatibleAll_of_below has hbs⟩

end

mutual

/-- If two types agree, the open parts of the first one are filled at least as far as in the second
one. -/
theorem below_refine_right {a b : Ty} (h : a.compatible b = true) : Below b (a.refine b) := by
  match a with
  | .unknown =>
    rw [refine]
    exact .refl b
  | .int =>
    cases b with
    | unknown => exact .unknown
    | int => exact .int
    | _ => simp [compatible] at h
  | .bool =>
    cases b with
    | unknown => exact .unknown
    | bool => exact .bool
    | _ => simp [compatible] at h
  | .slice =>
    cases b with
    | unknown => exact .unknown
    | slice => exact .slice
    | _ => simp [compatible] at h
  | .array a =>
    cases b with
    | unknown => exact .unknown
    | array b =>
      rw [compatible] at h
      exact .array (below_refine_right h)
    | _ => simp [compatible] at h
  | .arrow a c =>
    cases b with
    | unknown => exact .unknown
    | arrow b d =>
      rw [compatible, Bool.and_eq_true] at h
      exact .arrow (below_refine_right h.1) (below_refine_right h.2)
    | _ => simp [compatible] at h
  | .prod as =>
    cases b with
    | unknown => exact .unknown
    | prod bs =>
      rw [compatible] at h
      have hparts := forall₂_below_refineAll_right h
      have hlength : as.length = bs.length :=
        (forall₂_below_refineAll as bs).length_eq.trans hparts.length_eq.symm
      rw [refine, if_pos hlength]
      exact below_prod hparts
    | _ => simp [compatible] at h

theorem forall₂_below_refineAll_right {as bs : List Ty} (h : compatibleAll as bs = true) :
    List.Forall₂ Below bs (refineAll as bs) := by
  match as, bs with
  | [], [] => exact .nil
  | [], _ :: _ => simp [compatibleAll] at h
  | _ :: _, [] => simp [compatibleAll] at h
  | a :: as, b :: bs =>
    rw [compatibleAll, Bool.and_eq_true] at h
    exact .cons (below_refine_right h.1) (forall₂_below_refineAll_right h.2)

end

mutual

/-- Taking open parts from another type does not go beyond a type above both. -/
theorem refine_below {a b c : Ty} (ha : Below a c) (hb : Below b c) : Below (a.refine b) c := by
  match a with
  | .unknown =>
    rw [refine]
    exact hb
  | .int | .bool | .slice =>
    rw [refine]
    exact ha
  | .array a =>
    cases ha with
    | array ha =>
      cases hb with
      | unknown => exact .array ha
      | array hb => exact .array (refine_below ha hb)
  | .arrow a d =>
    cases ha with
    | arrow ha hd =>
      cases hb with
      | unknown => exact .arrow ha hd
      | arrow hb he => exact .arrow (refine_below ha hb) (refine_below hd he)
  | .prod as =>
    cases c with
    | prod cs =>
      cases b with
      | unknown => exact ha
      | prod bs =>
        rw [below_prod_iff] at ha hb
        rw [refine, if_pos (ha.length_eq.trans hb.length_eq.symm)]
        exact below_prod (forall₂_refineAll_below ha hb)
      | _ => cases hb
    | _ => cases ha

theorem forall₂_refineAll_below {as bs cs : List Ty} (ha : List.Forall₂ Below as cs)
    (hb : List.Forall₂ Below bs cs) : List.Forall₂ Below (refineAll as bs) cs := by
  match as with
  | [] =>
    cases ha
    exact .nil
  | a :: as =>
    cases ha with
    | cons ha has =>
      cases hb with
      | cons hb hbs => exact .cons (refine_below ha hb) (forall₂_refineAll_below has hbs)

end

/-- Where two types agree, the refined one is the least above both. -/
theorem isJoin_refine {a b : Ty} (h : a.compatible b = true) : IsJoin a b (a.refine b) :=
  ⟨below_refine a b, below_refine_right h, fun _ ha hb => refine_below ha hb⟩

/-- Types agree if there is a type above both. -/
theorem compatible_iff_exists_below {a b : Ty} :
    a.compatible b = true ↔ ∃ c, Below a c ∧ Below b c := by
  refine ⟨fun h => ⟨a.refine b, below_refine a b, below_refine_right h⟩, ?_⟩
  rintro ⟨c, ha, hb⟩
  exact compatible_of_below ha hb

/-- It does not matter which of two types comes first. -/
theorem compatible_comm (a b : Ty) : a.compatible b = b.compatible a := by
  rw [Bool.eq_iff_iff, compatible_iff_exists_below, compatible_iff_exists_below]
  simp only [and_comm]

/-- Types agree if and only if there is a type above both, and then the one with its open parts
taken from the other is the least such type, whichever is which. It is above the first one also if
they do not agree. Types that are settled agree only if they are the same. -/
theorem refine_is_join (a b : Ty) :
    (a.compatible b = true ↔ ∃ c, Below a c ∧ Below b c) ∧
      (a.compatible b = true → a.refine b = b.refine a ∧ IsJoin a b (a.refine b)) ∧
      a.compatible b = b.compatible a ∧
      Below a (a.refine b) ∧
      (a.isConcrete = true → b.isConcrete = true → (a.compatible b = true ↔ a = b)) := by
  refine ⟨compatible_iff_exists_below, fun h => ?_, compatible_comm a b, below_refine a b, ?_⟩
  · have hjoin := isJoin_refine h
    have hjoin' := isJoin_refine (compatible_comm a b ▸ h)
    exact ⟨hjoin.unique hjoin'.symm, hjoin⟩
  · intro ha hb
    refine ⟨eq_of_compatible ha hb, ?_⟩
    rintro rfl
    exact compatible_of_below (.refl a) (.refl a)

/-- Each of two types settles what the other one leaves open. -/
example : (prod [array unknown, bool]).refine (prod [array int, unknown]) =
    prod [array int, bool] := by
  decide

end Precond.Ty
