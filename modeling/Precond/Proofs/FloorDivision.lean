import Mathlib.Order.Bounds.Basic
import Mathlib.Tactic
import Precond.Proofs.ComputedValues
import Precond.Proofs.StoreInterpretation

/-!
# Floor division

A run divides by correcting the quotient and the remainder that round toward zero, with numbers of 64
bits. Every step of that fits (`Exec.StepsFit`), apart from the one quotient that does not, so the
outcome can be written down for all operands (`Exec.floorDiv_eq`, `Exec.floorMod_eq`). The quotient
is the greatest number whose product with the divisor does not pass the dividend
(`Exec.IsFloor`), and the remainder is what is left.

The solver is told of a floor division that is defined by another correction, of the division with a
remainder that is never negative. Under every interpretation that respects this definition it gives
the same (`Smt.value_floorDiv`, `Smt.value_floorMod`).
-/

namespace Precond

/-! ## The definitions of the solver -/

namespace Smt

variable {M : Interpretation} {a b : Int}

/-- A function of two numbers has the value that the body of its definition has for them. -/
theorem Interpretation.functions_of_define {name : String} {body : Term} {v : Value}
    (h : (Declaration.define name [("a", .int), ("b", .int)] .int body).Holds M)
    (hbody : ∀ c : String → Value, c "a" = .int a → c "b" = .int b → body.value M c = some v) :
    M.functions name [.int a, .int b] = v := by
  have hdefined := (h (.int a) trivial (.int b) trivial).1
  rw [hbody _ (by simp) (by simp)] at hdefined
  simpa using hdefined.symm

/-- The quotient that is defined for the solver is the one toward negative infinity. -/
theorem value_floorDiv (hM : ∀ d ∈ preamble, d.Holds M) (hb : b ≠ 0) (c : String → Value) :
    (Term.app .floorDiv [.int a, .int b]).value M c = some (.int (a.fdiv b)) := by
  refine Term.value_app_two rfl rfl (congrArg some ?_)
  refine Interpretation.functions_of_define (hM _ (.head _)) fun c ha hb' => ?_
  rw [fdiv_eq_ite]
  refine (value_floorDivBody ha hb').trans ?_
  rw [Interpretation.div, Interpretation.div, if_neg hb, if_neg (neg_ne_zero.2 hb)]

/-- The remainder that is defined for the solver is the one of that quotient. -/
theorem value_floorMod (hM : ∀ d ∈ preamble, d.Holds M) (hb : b ≠ 0) (c : String → Value) :
    (Term.app .floorMod [.int a, .int b]).value M c = some (.int (a.fmod b)) := by
  refine Term.value_app_two rfl rfl (congrArg some ?_)
  refine Interpretation.functions_of_define (hM _ (.tail _ (.head _))) fun c ha hb' => ?_
  rw [fmod_eq_ite]
  refine (value_floorModBody ha hb').trans ?_
  rw [Interpretation.mod, Interpretation.mod, if_neg hb, if_neg (neg_ne_zero.2 hb)]

end Smt

/-! ## Steps that fit -/

namespace Exec

variable {a b : Int}

/-- A divisor that leaves a remainder at least halves the dividend. -/
theorem natAbs_tdiv_le (hb : 2 ≤ b.natAbs) : (a.tdiv b).natAbs ≤ a.natAbs / 2 := by
  rw [Int.natAbs_tdiv]
  exact Nat.div_le_div_left hb (by decide)

/-- Rounding toward zero, only one quotient does not fit. -/
theorem fits_tdiv_iff (ha : Fits a) (hb : b ≠ 0) :
    Fits (a.tdiv b) ↔ ¬(a = minInt ∧ b = -1) := by
  obtain ⟨hmin, hmax⟩ := ha
  by_cases hunit : b.natAbs = 1
  · rcases Int.natAbs_eq_iff.1 hunit with rfl | rfl
    · simp [Fits, hmin, hmax]
    · rw [Int.tdiv_neg, Nat.cast_one, Int.tdiv_one]
      unfold Fits minInt maxInt at *
      omega
  · have hhalf := @natAbs_tdiv_le a b (by omega)
    unfold Fits minInt maxInt at *
    omega

/-- The remainder toward zero is smaller than the divisor. -/
theorem natAbs_tmod_lt (hb : b ≠ 0) : (a.tmod b).natAbs < b.natAbs := by
  rw [Int.natAbs_tmod]
  exact Nat.mod_lt _ (Int.natAbs_pos.2 hb)

/-- If there is a remainder, the divisor is at least two in size. -/
theorem two_le_natAbs (hb : b ≠ 0) (hr : a.tmod b ≠ 0) : 2 ≤ b.natAbs := by
  have := @natAbs_tmod_lt a b hb
  omega

/-- The numbers that come up in a division all fit: the quotient and the remainder toward zero, and
where they are corrected, what they are corrected to. -/
structure StepsFit (a b : Int) : Prop where
  quotient : Fits (a.tdiv b)
  remainder : Fits (a.tmod b)
  lowered : a.tmod b ≠ 0 → decide (a < 0) ≠ decide (b < 0) → Fits (a.tdiv b - 1)
  raised : a.tmod b ≠ 0 → decide (a.tmod b < 0) ≠ decide (b < 0) → Fits (a.tmod b + b)

/-- All steps of a division fit but for one pair of numbers. -/
theorem stepsFit (ha : Fits a) (hb : Fits b) (hzero : b ≠ 0) (h : ¬(a = minInt ∧ b = -1)) :
    StepsFit a b := by
  have hless := @natAbs_tmod_lt a b hzero
  refine ⟨(fits_tdiv_iff ha hzero).2 h, ?_, fun hr _ => ?_, fun hr hsign => ?_⟩
  · unfold Fits minInt maxInt at *
    omega
  · have hhalf := @natAbs_tdiv_le a b (two_le_natAbs hzero hr)
    unfold Fits minInt maxInt at *
    omega
  · rw [ne_eq, decide_eq_decide] at hsign
    unfold Fits minInt maxInt at *
    omega

/-! ## Outcomes -/

/-- What a division comes to if its value, where it has one, is `value`. -/
def division (op : String) (a b value : Int) : Except Failure Int :=
  if b = 0 then .error .divisionByZero
  else if a = minInt ∧ b = -1 then .error (.overflow op)
  else .ok value

variable {op : String} {value : Int}

theorem division_eq_divisionByZero : division op a b value = .error .divisionByZero ↔ b = 0 := by
  unfold division
  split_ifs <;> simp [*]

/-- A division overflows for one pair of numbers only. -/
theorem division_eq_overflow :
    (∃ op', division op a b value = .error (.overflow op')) ↔ a = minInt ∧ b = -1 := by
  unfold division
  split_ifs with hb h
  · simp [hb]
  · simp [h]
  · simp [h]

theorem division_eq_ok (hb : b ≠ 0) (h : ¬(a = minInt ∧ b = -1)) :
    division op a b value = .ok value := by
  rw [division, if_neg hb, if_neg h]

theorem division_congr {value' : Int}
    (h : ∀ result, division op a b value = .ok result → result = value') :
    division op a b value = division op a b value' := by
  unfold division at h ⊢
  split_ifs at h ⊢
  · rfl
  · rfl
  · rw [h value rfl]

/-- A quotient toward zero from which a value is made. -/
theorem quotient_eq (ha : Fits a) (b : Int) (op : String) (value : Int → Int) :
    (do
      if b = 0 then throw .divisionByZero
      let q ← checked op (a.tdiv b)
      return value q : Except Failure Int) = division op a b (value (a.tdiv b)) := by
  by_cases hb : b = 0
  · rw [division, if_pos hb, if_pos hb]
    rfl
  · have hfits := fits_tdiv_iff ha hb
    rw [division, if_neg hb, if_neg hb, checked]
    by_cases h : a = minInt ∧ b = -1
    · rw [if_pos h, if_neg fun hq => hfits.1 hq h]
      rfl
    · rw [if_neg h, if_pos (hfits.2 h)]
      rfl

/-- A run divides toward negative infinity. -/
theorem floorDiv_eq (ha : Fits a) (b : Int) : floorDiv a b = division "//" a b (a.fdiv b) := by
  obtain ⟨q, hq⟩ : ∃ q, floorDiv a b = division "//" a b q := ⟨_, quotient_eq ha b "//" _⟩
  rw [hq]
  exact division_congr fun result h => (floorDiv_eq_ok (hq.trans h)).2

/-- A run takes the remainder of that division. -/
theorem floorMod_eq (ha : Fits a) (b : Int) : floorMod a b = division "%" a b (a.fmod b) := by
  obtain ⟨r, hr⟩ : ∃ r, floorMod a b = division "%" a b r := ⟨_, quotient_eq ha b "%" _⟩
  rw [hr]
  exact division_congr fun result h => (floorMod_eq_ok (hr.trans h)).2

/-! ## Quotient and remainder -/

/-- The number is the greatest one whose product with the divisor does not pass the dividend. -/
structure IsFloor (a b q : Int) : Prop where
  pos : 0 < b → IsGreatest {k : Int | k * b ≤ a} q
  neg : b < 0 → IsGreatest {k : Int | a ≤ k * b} q

theorem isFloor_fdiv (a b : Int) : IsFloor a b (a.fdiv b) := by
  have hle (b a : Int) (hb : 0 < b) : IsGreatest {k : Int | k * b ≤ a} (a.fdiv b) := by
    rw [Int.fdiv_eq_ediv_of_nonneg a hb.le]
    exact ⟨Int.ediv_mul_le a hb.ne', fun k hk => (Int.le_ediv_iff_mul_le hb).2 hk⟩
  refine ⟨hle b a, fun hb => ?_⟩
  rw [← Int.neg_fdiv_neg]
  convert hle (-b) (-a) (by omega) using 2
  ext k
  simp

/-- The remainder has the sign of the divisor and is smaller. -/
theorem fmod_bounds (hb : b ≠ 0) :
    (a.fmod b = 0 ∨ (a.fmod b).sign = b.sign) ∧ |a.fmod b| < |b| := by
  rw [Smt.fmod_eq_ite]
  rcases lt_or_gt_of_ne hb with hb | hb
  · have hnonneg := Int.emod_nonneg (-a) (show -b ≠ 0 by omega)
    have hlt := Int.emod_lt_of_pos (-a) (show 0 < -b by omega)
    rw [if_neg (by omega), abs_of_neg hb]
    generalize -a % -b = r at hnonneg hlt
    refine ⟨?_, by rw [abs_of_nonpos (by omega)]; omega⟩
    rcases hnonneg.eq_or_lt with rfl | hpos
    · exact .inl rfl
    · exact .inr (by rw [Int.sign_eq_neg_one_of_neg hb, Int.sign_eq_neg_one_of_neg (by omega)])
  · have hnonneg := Int.emod_nonneg a hb.ne'
    have hlt := Int.emod_lt_of_pos a hb
    rw [if_pos hb.le, abs_of_pos hb]
    generalize a % b = r at hnonneg hlt
    refine ⟨?_, by rwa [abs_of_nonneg hnonneg]⟩
    rcases hnonneg.eq_or_lt with rfl | hpos
    · exact .inl rfl
    · exact .inr (by rw [Int.sign_eq_one_of_pos hb, Int.sign_eq_one_of_pos hpos])

/-- The quotient and the remainder of a floor division, for a run and for the solver. -/
structure Divides (a b q r : Int) : Prop where
  floor : IsFloor a b q
  rest : r = a - b * q
  sign : r = 0 ∨ r.sign = b.sign
  small : |r| < |b|
  /-- The definitions that the solver is told of give the same. -/
  encoded : ∀ (M : Smt.Interpretation) (c : String → Smt.Value), (∀ d ∈ Smt.preamble, d.Holds M) →
    (Smt.Term.app .floorDiv [.int a, .int b]).value M c = some (.int q) ∧
      (Smt.Term.app .floorMod [.int a, .int b]).value M c = some (.int r)

theorem divides_fdiv (hb : b ≠ 0) : Divides a b (a.fdiv b) (a.fmod b) where
  floor := isFloor_fdiv a b
  rest := Int.fmod_def a b
  sign := (fmod_bounds hb).1
  small := (fmod_bounds hb).2
  encoded _ c hM := ⟨Smt.value_floorDiv hM hb c, Smt.value_floorMod hM hb c⟩

/-- Division and remainder on numbers of 64 bits. They fail for a zero divisor and for the one
quotient that is too great, and for nothing else; otherwise they are exact, and no step on the way
is too great or too small. -/
theorem floor_exact (ha : Fits a) (hb : Fits b) :
    (floorDiv a b = .error .divisionByZero ↔ b = 0) ∧
      (floorMod a b = .error .divisionByZero ↔ b = 0) ∧
      ((∃ op, floorDiv a b = .error (.overflow op)) ↔ a = minInt ∧ b = -1) ∧
      ((∃ op, floorMod a b = .error (.overflow op)) ↔ a = minInt ∧ b = -1) ∧
      (b ≠ 0 → ¬(a = minInt ∧ b = -1) → StepsFit a b ∧
        ∃ q r, floorDiv a b = .ok q ∧ floorMod a b = .ok r ∧ Divides a b q r) := by
  rw [floorDiv_eq ha, floorMod_eq ha]
  refine ⟨division_eq_divisionByZero, division_eq_divisionByZero, division_eq_overflow,
    division_eq_overflow, fun hzero h => ⟨stepsFit ha hb hzero h, a.fdiv b, a.fmod b, ?_⟩⟩
  exact ⟨division_eq_ok hzero h, division_eq_ok hzero h, divides_fdiv hzero⟩

/-- The least number divided by three. -/
theorem floor_exact_minInt : Fits minInt ∧ Fits 3 ∧ StepsFit minInt 3 ∧
    floorDiv minInt 3 = .ok (-3074457345618258603) ∧ floorMod minInt 3 = .ok 1 ∧
    Divides minInt 3 (-3074457345618258603) 1 ∧ ∀ G σ c,
      (Smt.Term.app .floorDiv [.int minInt, .int 3]).value (Smt.model G σ) c =
        some (.int (-3074457345618258603)) := by
  have hmin : Fits minInt := by decide
  have hthree : Fits 3 := by decide
  have hdiv : floorDiv minInt 3 = .ok (-3074457345618258603) := by rfl
  have hmod : floorMod minInt 3 = .ok 1 := by rfl
  obtain ⟨-, -, -, -, h⟩ := floor_exact hmin hthree
  obtain ⟨hsteps, q, r, hq, hr, h⟩ := h (by decide) (by decide)
  cases hq.symm.trans hdiv
  cases hr.symm.trans hmod
  exact ⟨hmin, hthree, hsteps, hdiv, hmod, h, fun G σ c => (h.encoded _ c Smt.holds_preamble).1⟩

end Exec

end Precond
