import Mathlib.Tactic
import Precond.Proofs.Evaluation

/-!
# Evaluations that succeed

What follows when `Exec.eval` comes to a value: the parts that it looked at have come to values, and
the operation on them is defined. Division in a run corrects the quotient that rounds toward zero;
where it succeeds it is the floor division of the integers (`Exec.floorDiv_eq_ok`,
`Exec.floorMod_eq_ok`).

`Exec.meaning_of_eval` is the agreement with the mathematical semantics: where a run finds a value,
that value is the meaning of the expression, whatever the convention about undefined operations.
-/

namespace Precond.Exec

variable {σ : Store}

/-! ## Successes -/

theorem bind_eq_ok {ε α β : Type} {x : Except ε α} {f : α → Except ε β} {b : β} :
    (x >>= f) = .ok b ↔ ∃ a, x = .ok a ∧ f a = .ok b := by
  cases x <;> simp [bind, Except.bind]

theorem pure_eq_ok {α : Type} {a b : α} : (pure a : Except Failure α) = .ok b ↔ a = b := by
  simp [pure, Except.pure]

theorem throw_ne_ok {α : Type} {failure : Failure} {a : α} :
    (throw failure : Except Failure α) ≠ .ok a := by
  simp [throw, throwThe, MonadExceptOf.throw]

theorem asInt_eq_ok {v : Value} {n : Int} : v.asInt = .ok n ↔ v = .int n := by
  cases v <;> simp [Value.asInt]

theorem asBool_eq_ok {v : Value} {b : Bool} : v.asBool = .ok b ↔ v = .bool b := by
  cases v <;> simp [Value.asBool]

theorem asList_eq_ok {v : Value} {items : List Value} :
    v.asList = .ok items ↔ v = .list items := by
  cases v <;> simp [Value.asList]

/-- Checking that a number is in range does not change it. -/
theorem checked_eq_ok {op : String} {n m : Int} (h : checked op n = .ok m) : m = n := by
  unfold checked at h
  split_ifs at h
  exact (Except.ok.inj h).symm

/-- An index is a place if it is in range. -/
theorem position_eq_ok {i : Int} {length place : Nat} :
    position i length = .ok place ↔ i = place ∧ place < length := by
  unfold position
  split_ifs with h
  · simp only [Except.ok.injEq]
    omega
  · simp only [false_iff]
    omega

/-! ## Division -/

/-- A quotient that a run computes is the floor of the exact one. -/
theorem floorDiv_eq_ok {a b q : Int} (h : floorDiv a b = .ok q) : b ≠ 0 ∧ q = a.fdiv b := by
  by_cases hb : b = 0
  · rw [hb] at h
    cases h
  simp only [floorDiv, if_neg hb, bind_eq_ok, pure_eq_ok] at h
  obtain ⟨t, ht, rfl⟩ := h
  obtain rfl := checked_eq_ok ht
  refine ⟨hb, ?_⟩
  have hdvd : a.tmod b ≠ 0 ↔ ¬b ∣ a := not_congr Int.dvd_iff_tmod_eq_zero.symm
  simp only [hdvd, Int.fdiv_eq_tdiv]
  rcases Int.lt_or_gt_of_ne hb with hb | hb
  · rw [Int.sign_eq_neg_one_of_neg hb]
    grind
  · rw [Int.sign_eq_one_of_pos hb]
    grind

/-- A remainder that a run computes is that of floor division. -/
theorem floorMod_eq_ok {a b r : Int} (h : floorMod a b = .ok r) : b ≠ 0 ∧ r = a.fmod b := by
  by_cases hb : b = 0
  · rw [hb] at h
    cases h
  simp only [floorMod, if_neg hb, bind_eq_ok, pure_eq_ok] at h
  obtain ⟨_, _, rfl⟩ := h
  refine ⟨hb, ?_⟩
  -- the remainder toward zero has the sign of the dividend
  have hdvd : b ∣ a ↔ a.tmod b = 0 := Int.dvd_iff_tmod_eq_zero
  have hpos : 0 ≤ a → 0 ≤ a.tmod b := Int.tmod_nonneg b
  have hneg : a < 0 → a.tmod b ≤ 0 := fun ha => by
    have := Int.tmod_nonneg b (show 0 ≤ -a by omega)
    rw [Int.neg_tmod] at this
    omega
  rw [Int.fmod_eq_tmod]
  grind

/-! ## Operations -/

/-- Where a run applies a binary operator, its value is the mathematical one. -/
theorem applyBinary_eq_ok {op : Op} {a b v : Value} (h : applyBinary op a b = .ok v) :
    op.binary? a b = some v := by
  cases op with
  | eq | ne =>
    simp only [applyBinary, bind_eq_ok, pure_eq_ok] at h
    obtain ⟨same, hsame, rfl⟩ := h
    cases a <;> cases b <;> simp_all [equal, Op.binary?, Value.kindName]
  | iff =>
    simp only [applyBinary, bind_eq_ok, pure_eq_ok, asBool_eq_ok] at h
    obtain ⟨p, rfl, q, rfl, rfl⟩ := h
    cases p <;> cases q <;> rfl
  | div =>
    simp only [applyBinary, bind_eq_ok, pure_eq_ok, asInt_eq_ok] at h
    obtain ⟨m, rfl, n, rfl, q, hq, rfl⟩ := h
    obtain ⟨hn, rfl⟩ := floorDiv_eq_ok hq
    simp [Op.binary?, hn]
  | mod =>
    simp only [applyBinary, bind_eq_ok, pure_eq_ok, asInt_eq_ok] at h
    obtain ⟨m, rfl, n, rfl, r, hr, rfl⟩ := h
    obtain ⟨hn, rfl⟩ := floorMod_eq_ok hr
    simp [Op.binary?, hn]
  | add | sub | mul =>
    simp only [applyBinary, bind_eq_ok, pure_eq_ok, asInt_eq_ok] at h
    obtain ⟨m, rfl, n, rfl, k, hk, rfl⟩ := h
    obtain rfl := checked_eq_ok hk
    rfl
  | lt | le | gt | ge =>
    simp only [applyBinary, bind_eq_ok, pure_eq_ok, asInt_eq_ok] at h
    obtain ⟨m, rfl, n, rfl, rfl⟩ := h
    rfl
  | _ => simp [applyBinary, bind_eq_ok, throw_ne_ok] at h

/-- Where a run applies a unary operator, its value is the mathematical one. -/
theorem applyUnary_eq_ok {op : Op} {a v : Value} (hop : op.isUnary = true)
    (h : applyUnary op a = .ok v) (I : Convention) : I.applyUnary op a = v := by
  cases op with
  | not =>
    simp only [applyUnary, bind_eq_ok, pure_eq_ok, asBool_eq_ok] at h
    obtain ⟨p, rfl, rfl⟩ := h
    rfl
  | neg =>
    simp only [applyUnary, bind_eq_ok, pure_eq_ok, asInt_eq_ok] at h
    obtain ⟨n, rfl, m, hm, rfl⟩ := h
    obtain rfl := checked_eq_ok hm
    rfl
  | _ => simp [Op.isUnary] at hop

/-- Where a run calls a function, its value is the mathematical one. -/
theorem applyBuiltin_eq_ok {f : String} {args : List Value} {v : Value}
    (h : applyBuiltin f args = .ok v) : builtin? f args = some v := by
  unfold applyBuiltin at h
  split at h
  · simp only [bind_eq_ok, pure_eq_ok, asList_eq_ok] at h
    obtain ⟨items, rfl, rfl⟩ := h
    rfl
  · simp only [bind_eq_ok, pure_eq_ok, asList_eq_ok, asInt_eq_ok, position_eq_ok] at h
    obtain ⟨items, rfl, i, rfl, place, ⟨rfl, hplace⟩, rfl⟩ := h
    simp [builtin?, hplace]
  · cases h

/-! ## Expressions -/

/-- An element that a run finds stands at a place of the list. -/
theorem eval_element_eq_ok {base index : Expr} {v : Value} (hindex : index.isSlice = false) :
    eval σ (.subscript base index) = .ok v ↔ ∃ items place, eval σ base = .ok (.list items) ∧
      eval σ index = .ok (.int (place : Nat)) ∧ items[place]? = some v := by
  simp only [eval_subscript hindex, bind_eq_ok, asList_eq_ok, asInt_eq_ok, position_eq_ok]
  constructor
  · rintro ⟨_, hbase, items, rfl, _, hi, i, rfl, place, ⟨rfl, -⟩, h⟩
    refine ⟨items, place, hbase, hi, ?_⟩
    split at h
    · next hv => rw [hv, pure_eq_ok.mp h]
    · exact absurd h throw_ne_ok
  · rintro ⟨items, place, hbase, hi, hv⟩
    obtain ⟨hplace, -⟩ := List.getElem?_eq_some_iff.mp hv
    exact ⟨_, hbase, items, rfl, _, hi, _, rfl, place, ⟨rfl, hplace⟩, by rw [hv]; rfl⟩

/-- A slice with an upper bound is taken from a list, between numbers. -/
theorem eval_slice_eq_ok {base l u s : Expr} {v : Value}
    (h : eval σ (.subscript base (.slice l u s)) = .ok v) :
    ∃ items lower upper step, eval σ base = .ok (.list items) ∧ eval σ l = .ok (.int lower) ∧
      eval σ u = .ok (.int upper) ∧ eval σ s = .ok (.int step) ∧
      slice items lower (some upper) step = .ok v := by
  simp only [eval_slice, bind_eq_ok, asList_eq_ok, asInt_eq_ok] at h
  obtain ⟨_, hbase, items, rfl, _, hl, lower, rfl, _, hu, upper, rfl, _, hs, step, rfl, h⟩ := h
  exact ⟨items, lower, upper, step, hbase, hl, hu, hs, h⟩

/-- Without an upper bound, the slice goes as far as the list does. -/
theorem eval_sliceFrom_eq_ok {base l s : Expr} {v : Value}
    (h : eval σ (.subscript base (.sliceFrom l s)) = .ok v) :
    ∃ items lower step, eval σ base = .ok (.list items) ∧ eval σ l = .ok (.int lower) ∧
      eval σ s = .ok (.int step) ∧ slice items lower none step = .ok v := by
  simp only [eval_sliceFrom, bind_eq_ok, asList_eq_ok, asInt_eq_ok] at h
  obtain ⟨_, hbase, items, rfl, _, hl, lower, rfl, _, hs, step, rfl, h⟩ := h
  exact ⟨items, lower, step, hbase, hl, hs, h⟩

mutual

/-- Where a run finds a value, it is the meaning of the expression. -/
theorem meaning_of_eval {I : Convention} {ρ : Assignment}
    (hρ : ∀ x v, σ.get? x = some v → ρ x = v) {e : Expr} {v : Value} (h : eval σ e = .ok v) :
    e.meaning I ρ = v := by
  match e with
  | .lit _ => simpa [eval, Expr.meaning] using h
  | .var x =>
    rw [eval] at h
    split at h
    · next hx => rw [Expr.meaning, hρ x _ hx, Except.ok.inj h]
    · cases h
  | .unary op e =>
    rw [eval] at h
    split_ifs at h with hop
    obtain ⟨a, ha, h⟩ := bind_eq_ok.mp h
    rw [Expr.meaning, meaning_of_eval hρ ha, applyUnary_eq_ok hop h]
  | .binary op l r =>
    have hl := @meaning_of_eval I ρ hρ l
    have hr := @meaning_of_eval I ρ hρ r
    cases op with
    | and | or | implies =>
      simp only [eval, bind_eq_ok, asBool_eq_ok] at h
      obtain ⟨_, ha, p, rfl, h⟩ := h
      cases p <;> simp only [Bool.false_eq_true, if_true, if_false, bind_eq_ok, asBool_eq_ok,
        pure_eq_ok] at h <;> grind [Expr.meaning, Convention.applyBinary, Value.isTrue]
    | _ =>
      rw [eval_binary rfl] at h
      simp only [bind_eq_ok] at h
      obtain ⟨a, ha, b, hb, h⟩ := h
      simp only [Expr.meaning, hl ha, hr hb, Convention.applyBinary, applyBinary_eq_ok h,
        Option.getD_some]
  | .subscript base index =>
    have hbase := @meaning_of_eval I ρ hρ base
    have hi := @meaning_of_eval I ρ hρ index
    cases index with
    | slice l u s =>
      obtain ⟨items, lower, upper, step, hb, hl, hu, hs, h⟩ := eval_slice_eq_ok h
      simp [Expr.meaning, hbase hb, meaning_of_eval hρ hl, meaning_of_eval hρ hu,
        meaning_of_eval hρ hs, Convention.applySubscript, Value.subscript?, h, Except.toOption]
    | sliceFrom l s =>
      obtain ⟨items, lower, step, hb, hl, hs, h⟩ := eval_sliceFrom_eq_ok h
      simp [Expr.meaning, hbase hb, meaning_of_eval hρ hl, meaning_of_eval hρ hs,
        Convention.applySubscript, Value.subscript?, h, Except.toOption]
    | _ =>
      obtain ⟨items, place, hb, hi', hv⟩ := (eval_element_eq_ok rfl).mp h
      rw [Expr.meaning, hbase hb, hi hi']
      simp [Convention.applySubscript, Value.subscript?, hv]
  | .slice .. | .sliceFrom .. | .forAll .. => simp [eval] at h
  | .call f args =>
    rw [eval] at h
    obtain ⟨vs, hvs, h⟩ := bind_eq_ok.mp h
    simp only [Expr.meaning, meaningAll_of_evalAll hρ hvs, Convention.applyCall,
      applyBuiltin_eq_ok h, Option.getD_some]

theorem meaningAll_of_evalAll {I : Convention} {ρ : Assignment}
    (hρ : ∀ x v, σ.get? x = some v → ρ x = v) {es : List Expr} {vs : List Value}
    (h : evalAll σ es = .ok vs) : Expr.meaningAll I es ρ = vs := by
  match es with
  | [] => simpa [evalAll, Expr.meaningAll] using h
  | e :: es =>
    simp only [evalAll, bind_eq_ok, pure_eq_ok] at h
    obtain ⟨v, hv, vs, hvs, rfl⟩ := h
    rw [Expr.meaningAll, meaning_of_eval hρ hv, meaningAll_of_evalAll hρ hvs]

end

end Precond.Exec
