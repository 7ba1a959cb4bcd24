import Mathlib.Order.Bounds.Basic
import Mathlib.Tactic
import Precond.Name.Similar

/-!
# Edit distance

`Name.Edits n a b` says that `n` edits, each of which inserts, deletes or replaces one character
somewhere, turn `a` into `b`. `Name.cost a b` is the recursion for the least number of them that
looks at the first characters only. As many edits as the cost are enough (`Name.edits_cost`). Fewer
are not, although edits may be made anywhere and in any order, since one edit changes the cost by at
most one (`Name.cost_le_of_edit`).

`Name.distance` goes through the texts from the left, so a row is about their initial parts, and the
last characters of these are compared. So the row behind some characters lists the costs of reversed
texts (`Name.costs`), and one more character keeps this (`Name.nextRow_costs`). Edits do not mind
being reversed (`Name.Edits.reverse`).

Among several names, the nearest one within a threshold is the nearest one of all, if that is within
the threshold (`Name.nearest?_filter`).
-/

namespace Precond.Name

/-! ## Edits -/

/-- One character is inserted, deleted or replaced. -/
inductive Edit : List Char → List Char → Prop
  | insert (front back : List Char) (c : Char) : Edit (front ++ back) (front ++ c :: back)
  | delete (front back : List Char) (c : Char) : Edit (front ++ c :: back) (front ++ back)
  | replace (front back : List Char) (c d : Char) : Edit (front ++ c :: back) (front ++ d :: back)

/-- A number of edits turns the first text into the second one. -/
inductive Edits : Nat → List Char → List Char → Prop
  | none {a : List Char} : Edits 0 a a
  | next {n : Nat} {a b c : List Char} (h : Edit a b) (hrest : Edits n b c) : Edits (n + 1) a c

/-- An edit can be made behind a character. -/
theorem Edit.cons {a b : List Char} (h : Edit a b) (c : Char) : Edit (c :: a) (c :: b) := by
  cases h with
  | insert front back d => exact .insert (c :: front) back d
  | delete front back d => exact .delete (c :: front) back d
  | replace front back d e => exact .replace (c :: front) back d e

/-- Texts that differ by an edit do so from behind too. -/
theorem Edit.reverse {a b : List Char} (h : Edit a b) : Edit a.reverse b.reverse := by
  cases h with
  | insert front back c => simpa using Edit.insert back.reverse front.reverse c
  | delete front back c => simpa using Edit.delete back.reverse front.reverse c
  | replace front back c d => simpa using Edit.replace back.reverse front.reverse c d

namespace Edits

variable {n : Nat} {a b : List Char}

theorem cons (h : Edits n a b) (c : Char) : Edits n (c :: a) (c :: b) := by
  induction h with
  | none => exact .none
  | next h _ ih => exact .next (h.cons c) ih

theorem insert (h : Edits n a b) (d : Char) : Edits (n + 1) a (d :: b) :=
  .next (.insert [] a d) (h.cons d)

theorem delete (h : Edits n a b) (c : Char) : Edits (n + 1) (c :: a) b :=
  .next (.delete [] a c) h

theorem replace (h : Edits n a b) (c d : Char) : Edits (n + 1) (c :: a) (d :: b) :=
  .next (.replace [] a c d) (h.cons d)

theorem insertAll (b : List Char) : Edits b.length [] b := by
  induction b with
  | nil => exact .none
  | cons d b ih => exact ih.insert d

theorem deleteAll (a : List Char) : Edits a.length a [] := by
  induction a with
  | nil => exact .none
  | cons c a ih => exact ih.delete c

/-- Edits can be made from behind as well. -/
theorem reverse (h : Edits n a b) : Edits n a.reverse b.reverse := by
  induction h with
  | none => exact .none
  | next h _ ih => exact .next h.reverse ih

theorem reverse_iff : Edits n a.reverse b.reverse ↔ Edits n a b :=
  ⟨fun h => by simpa using h.reverse, reverse⟩

end Edits

/-! ## The cost of two texts -/

/-- The least number of edits by which the first characters are made the same and then the rest. -/
def cost : List Char → List Char → Nat
  | [], b => b.length
  | a, [] => a.length
  | c :: a, d :: b =>
    min (min (cost a (d :: b) + 1) (cost (c :: a) b + 1)) (cost a b + if c = d then 0 else 1)
termination_by a b => a.length + b.length

theorem cost_nil_left (b : List Char) : cost [] b = b.length := by rw [cost]

theorem cost_nil_right (a : List Char) : cost a [] = a.length := by
  cases a <;> simp [cost]

/-- Behind two characters the cost is the least of three: delete the first, insert the second, or
replace it if they differ. -/
theorem cost_cons_cons (c d : Char) (a b : List Char) : cost (c :: a) (d :: b) =
    min (min (cost a (d :: b) + 1) (cost (c :: a) b + 1)) (cost a b + if c = d then 0 else 1) := by
  rw [cost]

theorem cost_self (a : List Char) : cost a a = 0 := by
  induction a with
  | nil => rw [cost_nil_left, List.length_nil]
  | cons c a ih => simp [cost_cons_cons, ih]

/-- As many edits as the cost are enough. -/
theorem edits_cost (a b : List Char) : Edits (cost a b) a b := by
  induction a, b using cost.induct with
  | case1 b =>
    rw [cost_nil_left]
    exact .insertAll b
  | case2 a _ =>
    rw [cost_nil_right]
    exact .deleteAll a
  | case3 c a d b hdelete hinsert hreplace =>
    rw [cost_cons_cons]
    refine min_rec' (Edits · _ _) (min_rec' (Edits · _ _) (hdelete.delete c) (hinsert.insert d)) ?_
    split_ifs with hcd
    · exact hcd ▸ hreplace.cons c
    · exact hreplace.replace c d

/-! ## One edit changes the cost by one at most -/

/-- A character more in the first text costs one edit at most. -/
theorem cost_cons_left_le (c : Char) (a b : List Char) : cost (c :: a) b ≤ cost a b + 1 := by
  cases b with
  | nil => simp [cost_nil_right]
  | cons d b =>
    rw [cost_cons_cons]
    omega

theorem cost_cons_right_le (a : List Char) (d : Char) (b : List Char) :
    cost a (d :: b) ≤ cost a b + 1 := by
  cases a with
  | nil => simp [cost_nil_left]
  | cons c a =>
    rw [cost_cons_cons]
    omega

/-- A character less in the first text costs one edit at most. -/
theorem cost_le_cons_left (c : Char) (a b : List Char) : cost a b ≤ cost (c :: a) b + 1 := by
  induction b with
  | nil =>
    simp only [cost_nil_right, List.length_cons]
    omega
  | cons d b ih =>
    have hinsert := cost_cons_right_le a d b
    rw [cost_cons_cons]
    omega

/-- Another first character costs one edit at most. -/
theorem cost_replace_le (c d : Char) (a b : List Char) :
    cost (c :: a) b ≤ cost (d :: a) b + 1 := by
  induction b with
  | nil => simp [cost_nil_right]
  | cons e b ih =>
    rw [cost_cons_cons, cost_cons_cons]
    split_ifs <;> omega

/-- What holds of the cost of two texts to all others holds of the texts with one more character in
front. -/
theorem cost_cons_le_of_forall {a a' : List Char} (h : ∀ b, cost a b ≤ cost a' b + 1) (c : Char)
    (b : List Char) : cost (c :: a) b ≤ cost (c :: a') b + 1 := by
  induction b with
  | nil => simpa [cost_nil_right] using h []
  | cons d b ih =>
    have hdelete := h (d :: b)
    have hreplace := h b
    rw [cost_cons_cons, cost_cons_cons]
    omega

/-- A bound for two texts holds behind the same characters too. -/
theorem cost_append_le_of_forall {a a' : List Char} (h : ∀ b, cost a b ≤ cost a' b + 1)
    (front b : List Char) : cost (front ++ a) b ≤ cost (front ++ a') b + 1 := by
  induction front generalizing b with
  | nil => exact h b
  | cons c front ih => exact cost_cons_le_of_forall ih c b

/-- An edit of the first text changes the cost by one at most. -/
theorem cost_le_of_edit {a a' : List Char} (h : Edit a a') (b : List Char) :
    cost a b ≤ cost a' b + 1 := by
  cases h with
  | insert front back c => exact cost_append_le_of_forall (cost_le_cons_left c back) front b
  | delete front back c => exact cost_append_le_of_forall (cost_cons_left_le c back) front b
  | replace front back c d => exact cost_append_le_of_forall (cost_replace_le c d back) front b

/-- No fewer edits than the cost are enough. -/
theorem cost_le_of_edits {n : Nat} {a b : List Char} (h : Edits n a b) : cost a b ≤ n := by
  induction h with
  | none => exact (cost_self _).le
  | next h _ ih => exact (cost_le_of_edit h _).trans (Nat.succ_le_succ ih)

/-! ## Rows of the table -/

/-- The costs of a text to the texts that arise from `seen` when the characters of a list are put in
front one after the other. -/
def costs (read seen : List Char) : List Char → List Nat
  | [] => [cost read seen]
  | t :: ts => cost read seen :: costs read (t :: seen) ts

/-- A row begins with the cost of the texts so far. -/
theorem costs_eq_cons (read seen ts : List Char) :
    ∃ rest, costs read seen ts = cost read seen :: rest := by
  cases ts with
  | nil => exact ⟨[], rfl⟩
  | cons t ts => exact ⟨_, rfl⟩

theorem costs_nil (seen ts : List Char) :
    costs [] seen ts = List.range' seen.length (ts.length + 1) := by
  induction ts generalizing seen with
  | nil => simp [costs, cost_nil_left]
  | cons t ts ih => simp [costs, cost_nil_left, ih, List.range'_succ]

/-- A row ends with the cost of the whole text. -/
theorem getLastD_costs (read seen ts : List Char) (d : Nat) :
    (costs read seen ts).getLastD d = cost read (ts.reverse ++ seen) := by
  induction ts generalizing seen d with
  | nil => rfl
  | cons t ts ih =>
    rw [costs, List.getLastD_cons, ih, List.reverse_cons, List.append_assoc, List.singleton_append]

/-- The entries of the next row, from left to right. -/
theorem rowFrom_costs (c : Char) (read seen ts : List Char) :
    cost (c :: read) seen :: rowFrom c (cost (c :: read) seen) ts (costs read seen ts) =
      costs (c :: read) seen ts := by
  induction ts generalizing seen with
  | nil => rfl
  | cons t ts ih =>
    obtain ⟨rest, hrest⟩ := costs_eq_cons read (t :: seen) ts
    rw [costs, costs, ← ih, hrest, rowFrom, cost_cons_cons]

/-- Each character read makes the next row of costs. -/
theorem nextRow_costs (target read : List Char) (c : Char) :
    nextRow target (costs read [] target) c = costs (c :: read) [] target := by
  obtain ⟨rest, hrest⟩ := costs_eq_cons read [] target
  have hfirst : (costs read [] target).headD 0 + 1 = cost (c :: read) [] := by
    simp [hrest, cost_nil_right]
  rw [nextRow, hfirst, rowFrom_costs]

/-- When all characters are read, the row is the one of the whole text. -/
theorem foldl_nextRow_costs (target read a : List Char) :
    a.foldl (nextRow target) (costs read [] target) = costs (a.reverse ++ read) [] target := by
  induction a generalizing read with
  | nil => rfl
  | cons c a ih => simp [nextRow_costs, ih]

/-- The distance is the cost of the texts from behind. -/
theorem distance_eq_cost (a b : String) :
    distance a b = cost a.toList.reverse b.toList.reverse := by
  have hrow : List.range (b.length + 1) = costs [] [] b.toList := by
    rw [costs_nil, List.range_eq_range', List.length_nil, String.length_toList]
  rw [distance, hrow, foldl_nextRow_costs, getLastD_costs, List.append_nil, List.append_nil]

/-- The distance is the least number of edits that turn one text into the other. -/
theorem isLeast_distance (a b : String) :
    IsLeast {n | Edits n a.toList b.toList} (distance a b) := by
  rw [distance_eq_cost]
  refine ⟨Edits.reverse_iff.1 (edits_cost _ _), fun n h => ?_⟩
  exact cost_le_of_edits (Edits.reverse h)

/-! ## The nearest name -/

/-- Of equal candidates the earlier one stays. -/
theorem nearest?_cons (p : Nat × String) (l : List (Nat × String)) :
    nearest? (p :: l) = some ((nearest? l).elim p fun q => if q.1 < p.1 then q else p) := by
  rw [nearest?]
  cases nearest? l with
  | none => rfl
  | some q => exact (apply_ite some _ _ _).symm

/-- A threshold can be looked at before or after the nearest one is chosen. -/
theorem nearest?_filter (l : List (Nat × String)) (threshold : Nat) :
    nearest? (l.filter (·.1 ≤ threshold)) = (nearest? l).filter (·.1 ≤ threshold) := by
  induction l with
  | nil => rfl
  | cons p l ih =>
    by_cases hp : p.1 ≤ threshold
    · rw [List.filter_cons_of_pos (by simpa using hp), nearest?_cons, nearest?_cons, ih]
      cases nearest? l with
      | none => simp [Option.filter_some, hp]
      | some q => grind
    · rw [List.filter_cons_of_neg (by simpa using hp), ih, nearest?_cons]
      cases nearest? l with
      | none => simp [Option.filter_some, hp]
      | some q => grind

/-- Only where there are no candidates is none the nearest. -/
theorem nearest?_eq_none_iff {l : List (Nat × String)} : nearest? l = none ↔ l = [] := by
  cases l with
  | nil => simp [nearest?]
  | cons p l => simp [nearest?_cons]

/-- The pairs before the nearest one are farther away, and those behind it are no nearer. -/
theorem exists_split_of_nearest? {l : List (Nat × String)} {p : Nat × String}
    (h : nearest? l = some p) : ∃ front back, l = front ++ p :: back ∧
      (∀ q ∈ front, p.1 < q.1) ∧ ∀ q ∈ back, p.1 ≤ q.1 := by
  induction l generalizing p with
  | nil => cases h
  | cons r l ih =>
    rw [nearest?_cons, Option.some_inj] at h
    cases hl : nearest? l with
    | none =>
      obtain rfl : r = p := by rwa [hl] at h
      obtain rfl := nearest?_eq_none_iff.1 hl
      exact ⟨[], [], rfl, by simp, by simp⟩
    | some q =>
      obtain ⟨front, back, rfl, hfront, hback⟩ := ih hl
      rw [hl, Option.elim_some] at h
      split_ifs at h with hqr
      · subst h
        exact ⟨r :: front, back, rfl, List.forall_mem_cons.2 ⟨hqr, hfront⟩, hback⟩
      · subst h
        have hrq : r.1 ≤ q.1 := Nat.le_of_not_lt hqr
        refine ⟨[], _, rfl, by simp, List.forall_mem_append.2 ⟨fun s hs => ?_, ?_⟩⟩
        · exact hrq.trans (hfront s hs).le
        · exact List.forall_mem_cons.2 ⟨hrq, fun s hs => hrq.trans (hback s hs)⟩

theorem nearest?_of_split {front back : List (Nat × String)} {p : Nat × String}
    (hfront : ∀ q ∈ front, p.1 < q.1) (hback : ∀ q ∈ back, p.1 ≤ q.1) :
    nearest? (front ++ p :: back) = some p := by
  induction front with
  | nil =>
    rw [List.nil_append, nearest?_cons]
    cases hb : nearest? back with
    | none => rfl
    | some q =>
      obtain ⟨before, behind, rfl, -⟩ := exists_split_of_nearest? hb
      rw [Option.elim_some, if_neg (hback q (by simp)).not_gt]
  | cons r front ih =>
    obtain ⟨hr, hfront⟩ := List.forall_mem_cons.1 hfront
    rw [List.cons_append, nearest?_cons, ih hfront, Option.elim_some, if_pos hr]

/-- The candidate is the first one of least distance: those before it are farther away, and those
behind it are no nearer. -/
def IsNearest (name : String) (candidates : List String) (c : String) : Prop :=
  ∃ front back, candidates = front ++ c :: back ∧
    (∀ d ∈ front, distance name c < distance name d) ∧
    ∀ d ∈ back, distance name c ≤ distance name d

theorem nearest?_map_eq_some_iff {name c : String} {candidates : List String} {n : Nat} :
    nearest? (candidates.map fun d => (distance name d, d)) = some (n, c) ↔
      n = distance name c ∧ IsNearest name candidates c := by
  constructor
  · intro h
    obtain ⟨front, back, hsplit, hfront, hback⟩ := exists_split_of_nearest? h
    obtain ⟨front, rest, rfl, rfl, hrest⟩ := List.map_eq_append_iff.1 hsplit
    obtain ⟨c, back, rfl, hc, rfl⟩ := List.map_eq_cons_iff.1 hrest
    cases hc
    exact ⟨rfl, front, back, rfl, by simpa using hfront, by simpa using hback⟩
  · rintro ⟨rfl, front, back, rfl, hfront, hback⟩
    rw [List.map_append, List.map_cons]
    exact nearest?_of_split (by simpa using hfront) (by simpa using hback)

/-- A name is suggested if it is the nearest one and near enough. -/
theorem similar?_eq_some_iff {name c : String} {candidates : List String} {threshold : Nat} :
    similar? name candidates threshold = some c ↔
      IsNearest name candidates c ∧ distance name c ≤ threshold := by
  rw [similar?, nearest?_filter, Option.map_eq_some_iff]
  simp only [Option.filter_eq_some_iff, Prod.exists, nearest?_map_eq_some_iff, decide_eq_true_eq]
  constructor
  · rintro ⟨n, d, ⟨⟨rfl, hnearest⟩, hle⟩, rfl⟩
    exact ⟨hnearest, hle⟩
  · rintro ⟨hnearest, hle⟩
    exact ⟨_, c, ⟨⟨rfl, hnearest⟩, hle⟩, rfl⟩

/-- No name is suggested if all are too far away. -/
theorem similar?_eq_none_iff {name : String} {candidates : List String} {threshold : Nat} :
    similar? name candidates threshold = none ↔ ∀ c ∈ candidates, threshold < distance name c := by
  rw [similar?, Option.map_eq_none_iff, nearest?_eq_none_iff, List.filter_eq_nil_iff]
  simp

/-- The distance is the true one, and the name that is suggested is the first one of least distance,
if that is within the threshold. -/
theorem suggests_by_edits :
    (∀ a b : String, IsLeast {n | Edits n a.toList b.toList} (distance a b)) ∧
      ∀ (name : String) (candidates : List String) (threshold : Nat),
        (∀ c, similar? name candidates threshold = some c ↔
          IsNearest name candidates c ∧ distance name c ≤ threshold) ∧
        (similar? name candidates threshold = none ↔
          ∀ c ∈ candidates, threshold < distance name c) :=
  ⟨isLeast_distance, fun _ _ _ => ⟨fun _ => similar?_eq_some_iff, similar?_eq_none_iff⟩⟩

end Precond.Name
