import Mathlib.Tactic
import Precond.Exec.Arith

/-!
# Slices

A slice picks the elements at `lo`, `lo + step`, `lo + 2 * step` and so on, as long as these are less
than `hi`, where `lo` and `hi` are its bounds moved into the list (`Exec.clampBound`). `everyNth`
goes through a list once and counts; `Exec.getElem?_everyNth` says which element it gives at each
index, and `Exec.picks_everyNth` says the same of the part of a list between two bounds.

With numbers of 64 bits no sum on the way is too great or too small (`Exec.fits_fromEnd`), so a slice
fails only for a step that is not positive (`Exec.slice_follows`).
-/

namespace Precond.Exec

/-! ## Bounds -/

/-- The place of a bound that counts from the start, or if it is negative from the end. -/
def fromEnd (bound : Int) (length : Nat) : Int := if bound < 0 then bound + length else bound

/-- A bound of a slice: its place, moved to the nearer end if it is outside of the list. -/
def clampBound (bound : Int) (length : Nat) : Int := max 0 (min (fromEnd bound length) length)

theorem sliceBound_eq (bound : Int) (length : Nat) :
    (sliceBound bound length : Int) = clampBound bound length := by
  have hclamp (b : Int) : ((min b.toNat length : Nat) : Int) = max 0 (min b length) := by omega
  exact hclamp (fromEnd bound length)

/-- The place of a bound of 64 bits fits in 64 bits, if the length does. -/
theorem fits_fromEnd {bound : Int} {length : Nat} (hbound : Fits bound)
    (hlength : (length : Int) ≤ maxInt) : Fits (fromEnd bound length) := by
  obtain ⟨hmin, hmax⟩ := hbound
  unfold fromEnd Fits
  unfold minInt maxInt at *
  split_ifs <;> omega

/-! ## Elements -/

/-- The element at each index, if behind the first `skip` elements every `step`-th one is taken. -/
theorem getElem?_everyNth {α : Type} {step : Nat} (hstep : 0 < step) (skip : Nat) (xs : List α)
    (j : Nat) : (everyNth step skip xs)[j]? = xs[skip + j * step]? := by
  induction xs generalizing skip j with
  | nil => simp [everyNth]
  | cons x xs ih =>
    cases skip with
    | zero =>
      cases j with
      | zero => simp [everyNth]
      | succ j =>
        have hindex : 0 + (j + 1) * step = (step - 1 + j * step) + 1 := by
          rw [Nat.succ_mul]
          omega
        rw [everyNth, List.getElem?_cons_succ, ih, hindex, List.getElem?_cons_succ]
    | succ skip => rw [everyNth, ih, Nat.add_right_comm, List.getElem?_cons_succ]

/-- The list has the elements of `items` at `lo`, `lo + step`, `lo + 2 * step` and so on below `hi`,
all of which are there, and no others. -/
structure Picks {α : Type} (items : List α) (lo hi step : Int) (picked : List α) : Prop where
  length : ∀ j : Nat, j < picked.length ↔ lo + j * step < hi
  element : ∀ j : Nat, lo + j * step < hi → ∃ i : Nat, (i : Int) = lo + j * step ∧
    i < items.length ∧ picked[j]? = items[i]?

/-- The elements that are taken are those at the positions of the slice. -/
theorem picks_everyNth {α : Type} (items : List α) (lo : Nat) {hi step : Nat}
    (hhi : hi ≤ items.length) (hstep : 0 < step) :
    Picks items lo hi step (everyNth step 0 ((items.take hi).drop lo)) := by
  have hpicked (j : Nat) : (everyNth step 0 ((items.take hi).drop lo))[j]? =
      if lo + j * step < hi then items[lo + j * step]? else none := by
    rw [getElem?_everyNth hstep, Nat.zero_add, List.getElem?_drop, List.getElem?_take]
  have hcast (j : Nat) : (lo : Int) + j * step < hi ↔ lo + j * step < hi := by norm_cast
  refine ⟨fun j => ?_, fun j hj => ?_⟩
  · have hnone : (everyNth step 0 ((items.take hi).drop lo))[j]? = none ↔ _ :=
      List.getElem?_eq_none_iff
    rw [hpicked] at hnone
    rw [hcast]
    split_ifs at hnone with hj
    · rw [List.getElem?_eq_none_iff] at hnone
      omega
    · rw [iff_true_left rfl] at hnone
      omega
  · rw [hcast] at hj
    exact ⟨lo + j * step, by norm_cast, hj.trans_le hhi, by rw [hpicked, if_pos hj]⟩

/-! ## Slices -/

/-- What a slice comes to, by the rule for its bounds and its step. -/
structure Follows (items : List Value) (lower : Int) (upper : Option Int) (step : Int)
    (result : Except Failure Value) : Prop where
  /-- Only a step forward can be made. -/
  stuck : step ≤ 0 → result = .error (.notExecutable "a slice with a non-positive step")
  picked : 0 < step → ∃ picked, result = .ok (.list picked) ∧
    Picks items (clampBound lower items.length)
      (upper.elim items.length (clampBound · items.length)) step picked

theorem follows_slice (items : List Value) (lower : Int) (upper : Option Int) (step : Int) :
    Follows items lower upper step (slice items lower upper step) := by
  refine ⟨fun hstep => if_pos hstep, fun hstep => ⟨_, if_neg hstep.not_ge, ?_⟩⟩
  have hupper : upper.elim (items.length : Int) (clampBound · items.length) =
      (upper.elim items.length (sliceBound · items.length) : Nat) := by
    cases upper <;> simp [sliceBound_eq]
  have hle : upper.elim items.length (sliceBound · items.length) ≤ items.length := by
    cases upper <;> simp [sliceBound]
  rw [hupper, ← sliceBound_eq, ← Int.toNat_of_nonneg hstep.le]
  exact picks_everyNth items _ hle (by omega)

/-- A slice of a list with numbers of 64 bits follows the rule. The places of its bounds and the
indices of its elements are numbers of 64 bits again, and its step is one without a sign. -/
theorem slice_follows {items : List Value} {lower step : Int} {upper : Option Int}
    (hlength : (items.length : Int) ≤ maxInt) (hlower : Fits lower) (hupper : ∀ u ∈ upper, Fits u)
    (hstep : Fits step) :
    Follows items lower upper step (slice items lower upper step) ∧
      Fits (fromEnd lower items.length) ∧ (∀ u ∈ upper, Fits (fromEnd u items.length)) ∧
      step.toNat < 2 ^ 64 ∧ ∀ j : Nat, 0 < step → clampBound lower items.length + j * step <
        upper.elim (items.length : Int) (clampBound · items.length) →
        Fits (clampBound lower items.length + j * step) := by
  have hfollows := follows_slice items lower upper step
  refine ⟨hfollows, fits_fromEnd hlower hlength, fun u hu => fits_fromEnd (hupper u hu) hlength,
    ?_, fun j hpos hj => ?_⟩
  · have hmax : step ≤ 9223372036854775807 := hstep.2
    omega
  · obtain ⟨picked, -, hpicks⟩ := hfollows.picked hpos
    obtain ⟨i, hi, hlt, -⟩ := hpicks.element j hj
    rw [← hi]
    unfold Fits minInt maxInt at *
    omega

/-- The numbers from ten to fourteen. -/
def tens : List Value := [.int 10, .int 11, .int 12, .int 13, .int 14]

/-- Every other one, between the least and the greatest bound. -/
theorem slice_follows_tens :
    Fits minInt ∧ Fits maxInt ∧
      slice tens minInt (some maxInt) 2 = .ok (.list [.int 10, .int 12, .int 14]) ∧
      Picks tens 0 5 2 [.int 10, .int 12, .int 14] := by
  have hmin : Fits minInt := by decide
  have hmax : Fits maxInt := by decide
  have hslice : slice tens minInt (some maxInt) 2 = .ok (.list [.int 10, .int 12, .int 14]) := by
    rfl
  obtain ⟨hfollows, -⟩ := @slice_follows tens minInt 2 (some maxInt) (by decide) hmin
    (by simpa using hmax) (by decide)
  obtain ⟨picked, hpicked, hpicks⟩ := hfollows.picked (by decide)
  cases hpicked.symm.trans hslice
  exact ⟨hmin, hmax, hslice, hpicks⟩

end Precond.Exec
