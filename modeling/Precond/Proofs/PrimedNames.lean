import Mathlib.Data.Finset.Card
import Mathlib.Tactic
import Precond.Logic.Subst

/-!
# Primed names

`Name.Primes w x` says that `x` is `w` with primes added. A name that does not end in a prime is no
such `x` (`Name.not_primes_of_not_primed`).

`Name.primed` bounds its search for a name that is not taken. `Name.Finds` is the search without a
bound, candidate by candidate: it only adds primes (`Name.Finds.primes`) and ends with a name that
is not taken (`Name.Finds.not_taken`). Each candidate that is taken is one of the names to be
avoided and uses it up, so the bound is enough (`Name.finds_primed`).
-/

namespace Precond.Name

/-! ## Adding primes -/

/-- The name ends in a prime. -/
def Primed (x : String) : Prop := x.toList.getLast? = some '\''

instance (x : String) : Decidable (Primed x) := inferInstanceAs (Decidable (_ = _))

/-- The second name is the first one with primes added, at least one. -/
def Primes (w x : String) : Prop := ∃ n, x.toList = w.toList ++ List.replicate (n + 1) '\''

theorem primes_push (w : String) : Primes w (w.push '\'') := ⟨0, by simp⟩

/-- Primes add up. -/
theorem Primes.trans {w x y : String} (hx : Primes w x) (hy : Primes x y) : Primes w y := by
  obtain ⟨m, hm⟩ := hx
  obtain ⟨n, hn⟩ := hy
  refine ⟨m + n + 1, ?_⟩
  rw [hn, hm, List.append_assoc, List.replicate_append_replicate]
  congr 2
  omega

theorem Primes.length_lt {w x : String} (h : Primes w x) : w.length < x.length := by
  obtain ⟨n, hn⟩ := h
  have := congrArg List.length hn
  simp only [List.length_append, List.length_replicate, String.length_toList] at this
  omega

theorem Primes.asymm {w x : String} (h : Primes w x) : ¬Primes x w := fun h' =>
  absurd h.length_lt (by have := h'.length_lt; omega)

/-- A name that does not end in a prime is none with primes added. -/
theorem not_primes_of_not_primed {w x : String} (hx : ¬Primed x) : ¬Primes w x := by
  rintro ⟨n, hn⟩
  apply hx
  unfold Primed
  rw [hn, List.replicate_succ']
  simp

/-! ## The search for a name -/

/-- The search for a primed name looks at `k` candidates: all but the last one, `z`, are taken. -/
inductive Finds (taken : String → Prop) : String → Nat → String → Prop
  | here {x} (h : ¬taken (x.push '\'')) : Finds taken x 1 (x.push '\'')
  | next {x k z} (h : taken (x.push '\'')) (hrest : Finds taken (x.push '\'') k z) :
      Finds taken x (k + 1) z

namespace Finds

variable {taken : String → Prop} {x z z' : String} {k k' : Nat}

/-- The name that is found is not taken. -/
theorem not_taken (h : Finds taken x k z) : ¬taken z := by
  induction h with
  | here h => exact h
  | next _ _ ih => exact ih

theorem primes (h : Finds taken x k z) : Primes x z := by
  induction h with
  | here => exact primes_push _
  | next _ _ ih => exact (primes_push _).trans ih

/-- There is one name that a search finds. -/
theorem unique (h : Finds taken x k z) (h' : Finds taken x k' z') : k = k' ∧ z = z' := by
  induction h generalizing k' with
  | here hfree =>
    cases h' with
    | here => exact ⟨rfl, rfl⟩
    | next htaken _ => exact absurd htaken hfree
  | next htaken _ ih =>
    cases h' with
    | here hfree => exact absurd htaken hfree
    | next _ h' =>
      obtain ⟨rfl, rfl⟩ := ih h'
      exact ⟨rfl, rfl⟩

end Finds

/-! ## The bound of the search -/

/-- The names of a list that are longer than `x`. -/
def countLonger (x : String) (taken : List String) : Nat :=
  taken.countP fun t => decide (x.length < t.length)

/-- Each candidate that is taken is longer, so fewer are left. -/
theorem countLonger_push_lt {x : String} {taken : List String} (h : x.push '\'' ∈ taken) :
    countLonger (x.push '\'') taken < countLonger x taken := by
  obtain ⟨front, back, rfl⟩ := List.append_of_mem h
  have hmono : ∀ l : List String, countLonger (x.push '\'') l ≤ countLonger x l := fun l =>
    List.countP_mono_left fun t _ ht => by
      simp only [String.length_push, decide_eq_true_eq] at ht ⊢
      omega
  have hfront := hmono front
  have hback := hmono back
  simp only [countLonger, List.countP_append, List.countP_cons, String.length_push]
    at hfront hback ⊢
  simp
  omega

/-- By induction on the bound: the search finds a name within it. -/
theorem finds_primedWithin {taken : List String} {n : Nat} {x : String}
    (h : countLonger x taken ≤ n) :
    ∃ k ≤ countLonger x taken + 1, Finds (· ∈ taken) x k (primedWithin taken n x) := by
  induction n generalizing x with
  | zero =>
    refine ⟨1, by omega, .here fun hmem => ?_⟩
    have hlt := countLonger_push_lt hmem
    omega
  | succ n ih =>
    simp only [primedWithin]
    split_ifs with hmem
    · have hlt := countLonger_push_lt hmem
      have hle : countLonger (x.push '\'') taken ≤ n := by omega
      obtain ⟨k, hk, hfinds⟩ := ih hle
      exact ⟨k + 1, by omega, .next hmem hfinds⟩
    · exact ⟨1, by omega, .here hmem⟩

/-- The search looks at no more candidates than there are different names to be avoided, and one. -/
theorem finds_primed (taken : List String) (x : String) :
    ∃ k ≤ taken.toFinset.card + 1, Finds (· ∈ taken) x k (primed taken x) := by
  obtain ⟨k, -, hfinds⟩ := finds_primedWithin (List.countP_le_length : countLonger x taken ≤ _)
  -- without repetitions in the list, the search is the same and the list is as long as the bound
  obtain ⟨k', hk', hfinds'⟩ := finds_primedWithin (le_refl (countLonger x taken.dedup))
  simp only [List.mem_dedup] at hfinds'
  obtain ⟨rfl, -⟩ := hfinds.unique hfinds'
  have hlength : countLonger x taken.dedup ≤ taken.dedup.length := List.countP_le_length
  exact ⟨k, hk'.trans (by rw [List.card_toFinset]; omega), hfinds⟩

end Precond.Name
