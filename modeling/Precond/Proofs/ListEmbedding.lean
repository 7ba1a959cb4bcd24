import Mathlib.Tactic
import Precond.Exec.Value
import Precond.Proofs.SmtMeaning

/-!
# Finite lists as total arrays

The solver's arrays are total and have no length of their own; the length is a function of which it
is only known that storing an element, at whatever index, does not change it. `embed` puts the
values of a run into the solver's values so that such a function exists: outside its bounds, an
embedded list of length `n` marks the multiples of `n + 1`. Marks for different lengths differ at
infinitely many places (`IsMarkedFor.unique`), and a store changes only one, so the length can be
read off the marks (`arrayLength_elements`) and a store leaves it (`arrayLength_update`).
-/

namespace Precond.Smt

namespace Value

/-! ## Marks -/

/-- One of two values of each sort. -/
def mark : SmtSort → Bool → Value
  | .int, b => .int (if b then 1 else 0)
  | .bool, b => .bool b
  | .array elem, b => .array fun _ => mark elem b

/-- Which of the two values it is. -/
def marked : Value → Bool
  | .int n => n = 1
  | .bool b => b
  | .array a => (a 0).marked

@[simp] theorem marked_mark (s : SmtSort) (b : Bool) : (mark s b).marked = b := by
  induction s with
  | int => cases b <;> simp [mark, marked]
  | bool => rfl
  | array elem ih => exact ih

/-- Both marks of a sort are values of it. -/
theorem hasSort_mark (s : SmtSort) (b : Bool) : (mark s b).HasSort s := by
  induction s with
  | int | bool => trivial
  | array elem ih => exact fun _ => ih

end Value

/-! ## Lengths of arrays -/

/-- At all but finitely many places, the array marks the multiples of `n + 1`. -/
def IsMarkedFor (a : Int → Value) (n : Nat) : Prop :=
  {i : Int | (a i).marked ≠ decide ((n + 1 : Int) ∣ i)}.Finite

/-- The multiples of two numbers differ at infinitely many places. -/
theorem infinite_multiples {n m : Nat} (h : n < m) :
    {i : Int | decide ((n + 1 : Int) ∣ i) ≠ decide ((m + 1 : Int) ∣ i)}.Infinite := by
  -- multiples of `n + 1` that are `n + 1` modulo `m + 1`
  refine Set.infinite_of_injective_forall_mem
    (f := fun k : Nat => ((n + 1) * (1 + k * (m + 1)) : Int)) (fun j k hjk => ?_) fun k => ?_
  · have hn : (n + 1 : Int) ≠ 0 := by omega
    have hm : (m + 1 : Int) ≠ 0 := by omega
    have hsum := mul_left_cancel₀ hn hjk
    exact_mod_cast mul_right_cancel₀ hm (add_left_cancel hsum)
  · have hdvd : (n + 1 : Int) ∣ (n + 1) * (1 + k * (m + 1)) := dvd_mul_right _ _
    have hndvd : ¬(m + 1 : Int) ∣ (n + 1) * (1 + k * (m + 1)) := by
      intro hm
      have hrest : (m + 1 : Int) ∣ (n + 1) * k * (m + 1) := dvd_mul_left _ _
      have hn : (m + 1 : Int) ∣ n + 1 := by
        have hdiff : (n + 1 : Int) * (1 + k * (m + 1)) - (n + 1) * k * (m + 1) = n + 1 := by ring
        exact hdiff ▸ dvd_sub hm hrest
      have := Int.le_of_dvd (by omega) hn
      omega
    simp [hdvd, hndvd]

/-- An array is marked for one number at most. -/
theorem IsMarkedFor.unique {a : Int → Value} {n m : Nat} (hn : IsMarkedFor a n)
    (hm : IsMarkedFor a m) : n = m := by
  have hunion : ∀ {n m : Nat}, IsMarkedFor a n → IsMarkedFor a m → ¬n < m := by
    intro n m hn hm hlt
    refine infinite_multiples hlt ((hn.union hm).subset fun i hi => ?_)
    -- where the multiples differ, the mark is wrong for one of them
    by_cases hmark : (a i).marked = decide ((n + 1 : Int) ∣ i)
    · exact Or.inr fun hmark' => hi (hmark.symm.trans hmark')
    · exact Or.inl hmark
  have := hunion hn hm
  have := hunion hm hn
  omega

open Classical in
/-- The number for which an array is marked. -/
noncomputable def arrayLength (a : Int → Value) : Nat :=
  if h : ∃ n, IsMarkedFor a n then h.choose else 0

theorem arrayLength_eq {a : Int → Value} {n : Nat} (h : IsMarkedFor a n) : arrayLength a = n := by
  have hex : ∃ n, IsMarkedFor a n := ⟨n, h⟩
  rw [arrayLength, dif_pos hex]
  exact hex.choose_spec.unique h

/-- A change at one place does not matter to the marks. -/
theorem IsMarkedFor.update {a : Int → Value} {n : Nat} (h : IsMarkedFor a n) (i : Int) (v : Value) :
    IsMarkedFor (Function.update a i v) n := by
  refine (h.insert i).subset fun j hj => ?_
  by_cases hji : j = i
  · exact Or.inl hji
  · refine Or.inr ?_
    rwa [Set.mem_ofPred_eq, Function.update_of_ne hji] at hj

/-- A store does not change the length. -/
theorem arrayLength_update (a : Int → Value) (i : Int) (v : Value) :
    arrayLength (Function.update a i v) = arrayLength a := by
  by_cases hex : ∃ n, IsMarkedFor a n
  · obtain ⟨n, hn⟩ := hex
    rw [arrayLength_eq hn, arrayLength_eq (hn.update i v)]
  · have hex' : ¬∃ n, IsMarkedFor (Function.update a i v) n := by
      rintro ⟨n, hn⟩
      refine hex ⟨n, ?_⟩
      simpa using hn.update i (a i)
    rw [arrayLength, arrayLength, dif_neg hex, dif_neg hex']

/-! ## Values of a run -/

/-- The elements of an array for a list, given what stands for an element. Outside its bounds it has
the marks of its length. -/
def elements (elem : SmtSort) (embed : Exec.Value → Value) (items : List Exec.Value) (i : Int) :
    Value :=
  (if 0 ≤ i then items[i.toNat]? else none).elim
    (.mark elem (decide ((items.length + 1 : Int) ∣ i))) embed

/-- The value of the solver for a value of a run. -/
def embed : SmtSort → Exec.Value → Value
  | .int, .int n => .int n
  | .bool, .bool b => .bool b
  | .array elem, .list items => .array (elements elem (embed elem) items)
  | s, _ => .mark s false

variable {elem : SmtSort} {items : List Exec.Value}

/-- What stands for a value of a run is of the sort asked for, even if the value is not. -/
theorem hasSort_embed (s : SmtSort) (v : Exec.Value) : (embed s v).HasSort s := by
  induction s generalizing v with
  | int | bool => cases v <;> trivial
  | array elem ih =>
    cases v with
    | list items =>
      intro i
      unfold elements
      cases if 0 ≤ i then items[i.toNat]? else none with
      | none => exact Value.hasSort_mark elem _
      | some w => exact ih w
    | _ => exact Value.hasSort_mark (.array elem) false

theorem elements_of_getElem? {f : Exec.Value → Value} {place : Nat} {v : Exec.Value}
    (h : items[place]? = some v) : elements elem f items place = f v := by
  simp [elements, h]

/-- Storing at a place of a list stores at that place of its array. -/
theorem update_elements {f : Exec.Value → Value} {place : Nat} (h : place < items.length)
    (v : Exec.Value) :
    Function.update (elements elem f items) place (f v) = elements elem f (items.set place v) := by
  funext i
  by_cases hi : i = place
  · rw [hi, Function.update_self, elements_of_getElem? (List.getElem?_set_self h)]
  · rw [Function.update_of_ne hi]
    unfold elements
    rw [List.length_set]
    split_ifs with hnonneg
    · rw [List.getElem?_set_ne (by omega)]
    · rfl

/-- The length of a list can be read off its array. -/
theorem arrayLength_elements (f : Exec.Value → Value) (items : List Exec.Value) :
    arrayLength (elements elem f items) = items.length := by
  refine arrayLength_eq ((Set.finite_Ico 0 (items.length : Int)).subset fun i hi => ?_)
  by_contra hout
  rw [Set.mem_Ico, not_and_or, not_le, not_lt] at hout
  -- outside its bounds the array has the right marks
  have hnone : (if 0 ≤ i then items[i.toNat]? else none) = none := by
    split_ifs with hnonneg
    · exact List.getElem?_eq_none (by omega)
    · rfl
  refine hi ?_
  rw [elements, hnone, Option.elim_none, Value.marked_mark]

end Precond.Smt
