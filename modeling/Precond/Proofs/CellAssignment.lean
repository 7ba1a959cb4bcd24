import Mathlib.Tactic
import Precond.Host.Lowering
import Precond.Proofs.ComputedValues

/-!
# Assignments to cells

The target `x[i][j]` of an assignment is a cell of nested lists. It is reached from the value of `x`
along a path of indices (`Exec.Value.at?`), and the assignment becomes one of a whole list to `x`,
in which all indices but the last one are read several times. `Exec.Value.put` is what the list
becomes.

Lowering takes a target apart at its last index, so paths are looked at from behind
(`Host.Expr.LeadsTo`): `LeadsTo.eval_lower` is about reading a cell, `LeadsTo.eval_assignment` about
the list that is assigned. An index that is out of range is found where the list that it is asked of
is read first.
-/

namespace Precond

namespace Exec

namespace Value

/-! ## Paths into nested lists -/

/-- The element of a list at an index. -/
def item? (n : Int) : Value → Option Value
  | .list items => if 0 ≤ n then items[n.toNat]? else none
  | _ => none

/-- The element that a path of indices leads to. -/
def at? : List Int → Value → Option Value
  | [], a => some a
  | n :: path, a => (a.item? n).bind (at? path)

/-- The value with another one in place of the element that a path leads to. -/
def put : Value → List Int → Value → Value
  | _, [], v => v
  | .list items, n :: path, v =>
    .list ((items[n.toNat]?).elim items fun item => items.set n.toNat (put item path v))
  | a, _ :: _, _ => a

/-- On the way along a path, the index `n` is asked of the list `items`. -/
def Asks (a : Value) (path : List Int) (n : Int) (items : List Value) : Prop :=
  ∃ front back, path = front ++ n :: back ∧ a.at? front = some (.list items)

/-- Whatever is asked for an element on the way along a path is a list, as it is where lists are
nested at least as deep as the path is long. -/
def HoldsLists (path : List Int) (a : Value) : Prop :=
  ∀ front n back w, path = front ++ n :: back → a.at? front = some w → ∃ items, w = .list items

/-- The value `b` is `a` with the element that a path leads to changed to `v`. -/
structure Changed (path : List Int) (v a b : Value) : Prop where
  /-- The path leads to the new element. -/
  element : b.at? path = some v
  /-- Paths that are no part of it, and of which it is no part, lead to what they led to. -/
  others : ∀ other, ¬other <+: path → ¬path <+: other → b.at? other = a.at? other
  /-- The lists on the way keep their lengths. -/
  lengths : ∀ front n back items, path = front ++ n :: back → a.at? front = some (.list items) →
    ∃ items', b.at? front = some (.list items') ∧ items'.length = items.length

variable {a b v w : Value} {path : List Int} {m n : Int} {items : List Value}

/-- Only lists have elements, and only at the places that they have. -/
theorem item?_eq_some (h : a.item? n = some w) :
    ∃ items place, a = .list items ∧ n = (place : Nat) ∧ items[place]? = some w := by
  cases a with
  | list items =>
    simp only [item?] at h
    split_ifs at h with hn
    exact ⟨items, n.toNat, rfl, (Int.toNat_of_nonneg hn).symm, h⟩
  | int | bool => cases h

@[simp] theorem item?_list (items : List Value) (place : Nat) :
    (list items).item? place = items[place]? := by
  simp [item?]

/-- After an element is set, its index leads to the new value, and any other one to what it led to.
-/
theorem item?_set (items : List Value) (place : Nat) (v : Value) :
    (list (items.set place v)).item? n =
      if n = place ∧ place < items.length then some v else (list items).item? n := by
  by_cases hn : 0 ≤ n
  · obtain ⟨other, rfl⟩ := Int.eq_ofNat_of_zero_le hn
    simp only [item?_list, List.getElem?_set, Int.natCast_inj]
    grind
  · have hplace : ¬(n = place ∧ place < items.length) := by omega
    simp [item?, hn, hplace]

/-- A path is followed in two parts. -/
theorem at?_append (path more : List Int) (a : Value) :
    a.at? (path ++ more) = (a.at? path).bind (at? more) := by
  induction path generalizing a with
  | nil => rfl
  | cons n path ih =>
    rw [List.cons_append, at?, at?, Option.bind_assoc]
    exact congrArg _ (funext ih)

theorem at?_concat (path : List Int) (n : Int) (a : Value) :
    a.at? (path ++ [n]) = (a.at? path).bind (item? n) := by
  rw [at?_append]
  congr 1
  funext w
  exact Option.bind_fun_some _

/-- A longer path asks what the shorter one asks, and its last index of the list that the shorter
one leads to. -/
theorem asks_concat : a.Asks (path ++ [n]) m items ↔
    a.Asks path m items ∨ m = n ∧ a.at? path = some (.list items) := by
  constructor
  · rintro ⟨front, back, hpath, hfront⟩
    rcases List.eq_nil_or_concat back with rfl | ⟨back, k, rfl⟩
    · obtain ⟨rfl, hn⟩ := List.append_inj' hpath rfl
      exact .inr ⟨(List.cons.inj hn).1.symm, hfront⟩
    · rw [List.concat_eq_append, ← List.cons_append, ← List.append_assoc] at hpath
      exact .inl ⟨front, back, (List.append_inj' hpath rfl).1, hfront⟩
  · rintro (⟨front, back, rfl, hfront⟩ | ⟨rfl, hpath⟩)
    · exact ⟨front, back ++ [n], by simp, hfront⟩
    · exact ⟨path, [], rfl, hpath⟩

theorem HoldsLists.of_concat (h : a.HoldsLists (path ++ [n])) : a.HoldsLists path :=
  fun front k back w hpath => h front k (back ++ [n]) w (by simp [hpath])

/-- A path whose indices are all in range leads to an element. -/
theorem exists_at? (hlists : a.HoldsLists path)
    (hrange : ∀ n items, a.Asks path n items → 0 ≤ n ∧ n < items.length) :
    ∃ w, a.at? path = some w := by
  induction path using List.reverseRecOn with
  | nil => exact ⟨a, rfl⟩
  | append_singleton path n ih =>
    obtain ⟨w, hw⟩ := ih hlists.of_concat fun k items h => hrange k items (asks_concat.2 (.inl h))
    obtain ⟨items, rfl⟩ := hlists path n [] w rfl hw
    obtain ⟨hn, hlength⟩ := hrange n items (asks_concat.2 (.inr ⟨rfl, hw⟩))
    obtain ⟨place, rfl⟩ := Int.eq_ofNat_of_zero_le hn
    exact ⟨items[place], by simp [at?_concat, hw]⟩

/-! ## Changing an element -/

theorem put_cons {place : Nat} {item : Value} (h : items[place]? = some item)
    (path : List Int) (v : Value) :
    (list items).put (place :: path) v = .list (items.set place (item.put path v)) := by
  simp [put, h]

/-- A change behind the first part of a path is a change of what that part leads to. -/
theorem at?_put_append (front back : List Int) (h : a.at? front = some w) (v : Value) :
    (a.put (front ++ back) v).at? front = some (w.put back v) := by
  induction front generalizing a with
  | nil =>
    cases h
    rfl
  | cons n front ih =>
    obtain ⟨item, hitem, hfront⟩ := Option.bind_eq_some_iff.1 h
    obtain ⟨items, place, rfl, rfl, hplace⟩ := item?_eq_some hitem
    have hlength := (List.getElem?_eq_some_iff.1 hplace).1
    rw [List.cons_append, put_cons hplace, at?, item?_set, if_pos ⟨rfl, hlength⟩]
    exact ih hfront

/-- To change an element far inside is to change the one that the front of the path leads to. -/
theorem put_append (front back : List Int) (h : a.at? front = some w) (v : Value) :
    a.put (front ++ back) v = a.put front (w.put back v) := by
  induction front generalizing a with
  | nil =>
    cases h
    rfl
  | cons n front ih =>
    obtain ⟨item, hitem, hfront⟩ := Option.bind_eq_some_iff.1 h
    obtain ⟨items, place, rfl, rfl, hplace⟩ := item?_eq_some hitem
    rw [List.cons_append, put_cons hplace, put_cons hplace, ih hfront]

/-- A change is not seen on paths that part from its own. -/
theorem at?_put_of_not_prefix (h : a.at? path = some w) (v : Value) {other : List Int}
    (hother : ¬other <+: path) (hpath : ¬path <+: other) :
    (a.put path v).at? other = a.at? other := by
  induction path generalizing a other with
  | nil => exact absurd List.nil_prefix hpath
  | cons n path ih =>
    obtain ⟨item, hitem, hrest⟩ := Option.bind_eq_some_iff.1 h
    obtain ⟨items, place, rfl, rfl, hplace⟩ := item?_eq_some hitem
    cases other with
    | nil => exact absurd List.nil_prefix hother
    | cons m other =>
      rw [put_cons hplace, at?, at?, item?_set]
      split_ifs with hm
      · obtain ⟨rfl, -⟩ := hm
        rw [List.prefix_cons_inj] at hother hpath
        rw [item?_list, hplace]
        exact ih hrest hother hpath
      · rfl

/-- A list keeps its length when something inside it is changed. -/
theorem length_put (items : List Value) (v : Value) (n : Int) (path : List Int) :
    ∃ items', (list items).put (n :: path) v = .list items' ∧ items'.length = items.length := by
  refine ⟨_, rfl, ?_⟩
  cases items[n.toNat]? <;> simp

/-- Putting a value where a path leads changes that element and no other. -/
theorem changed_put (h : a.at? path = some w) (v : Value) : Changed path v a (a.put path v) where
  element := by simpa [put] using at?_put_append path [] h v
  others _ hother hpath := at?_put_of_not_prefix h v hother hpath
  lengths := by
    rintro front n back items rfl hfront
    obtain ⟨items', hitems', hlength⟩ := length_put items v n back
    exact ⟨items', by rw [at?_put_append _ _ hfront, hitems'], hlength⟩

end Value

/-! ## Reading and storing an element -/

variable {store : Store} {base index value : Expr} {items : List Value} {n : Int} {w : Value}

theorem position_outOfRange (h : ¬(0 ≤ n ∧ n < items.length)) :
    position n items.length = .error (.indexOutOfBounds n items.length) :=
  if_neg h

/-- Reading behind the end of a list, or in front of it, fails. -/
theorem eval_element_outOfRange (hbase : eval store base = .ok (.list items))
    (hindex : eval store index = .ok (.int n)) (hn : ¬(0 ≤ n ∧ n < items.length)) :
    eval store (.subscript base index) = .error (.indexOutOfBounds n items.length) := by
  rw [eval_subscript (isSlice_of_eval_eq_ok hindex), hbase, hindex]
  simp only [Value.asList, Value.asInt, position_outOfRange hn, bind, Except.bind]

theorem eval_element_error {failure : Failure} (hbase : eval store base = .error failure)
    (hindex : index.isSlice = false) :
    eval store (.subscript base index) = .error failure := by
  rw [eval_subscript hindex, hbase]
  rfl

/-- A value is stored into a list only after it was evaluated, and then the index has to be in
range. -/
theorem eval_store (hbase : eval store base = .ok (.list items))
    (hindex : eval store index = .ok (.int n)) :
    eval store (.call "store" [base, index, value]) = (do
      let v ← eval store value
      let place ← position n items.length
      return .list (items.set place v)) := by
  simp only [eval, evalAll, hbase, hindex]
  cases eval store value <;> rfl

theorem eval_store_error {failure : Failure} (hbase : eval store base = .error failure) :
    eval store (.call "store" [base, index, value]) = .error failure := by
  simp only [eval, evalAll, hbase]
  rfl

end Exec

namespace Host

open Exec

variable {store : Store} {x : String} {a : Value} {target : Expr} {path : List Int}

/-! ## Targets -/

/-- The expression has a value in a store. -/
def Expr.Evaluates (store : Store) (e : Expr) (v : Value) : Prop :=
  ∃ e', e.lower = .ok e' ∧ eval store e' = .ok v

/-- The target is `x` with indices behind it whose values are the members of the path. -/
inductive Expr.LeadsTo (store : Store) (x : String) : Expr → List Int → Prop
  | name {place} : LeadsTo store x (.name place x) []
  | subscript {span base index path n} (hbase : LeadsTo store x base path)
      (hindex : index.Evaluates store (.int n)) :
      LeadsTo store x (.subscript span base index) (path ++ [n])

namespace Expr

theorem Evaluates.isSlice_eq_false {e : Expr} {v : Value} (h : e.Evaluates store v) :
    e.isSlice = false := by
  obtain ⟨e', hlower, heval⟩ := h
  cases e with
  | slice span l u s =>
    obtain ⟨l, -, hlower⟩ := bind_eq_ok.1 hlower
    obtain ⟨u, -, hlower⟩ := bind_eq_ok.1 hlower
    obtain ⟨s, -, hlower⟩ := bind_eq_ok.1 hlower
    cases hlower
    cases u <;> cases heval
  | _ => rfl

/-- Reading a cell gives the element that the path leads to, and fails at an index out of range. -/
theorem LeadsTo.eval_lower (h : LeadsTo store x target path) (hx : store.get? x = some a)
    (hlists : a.HoldsLists path) :
    ∃ e, target.lower = .ok e ∧ (∀ w, a.at? path = some w → eval store e = .ok w) ∧
      ∀ n items, a.Asks path n items → ¬(0 ≤ n ∧ n < items.length) →
        eval store e = .error (.indexOutOfBounds n items.length) := by
  induction h with
  | name =>
    refine ⟨.var x, rfl, ?_, ?_⟩
    · rintro _ ⟨⟩
      simp [eval, hx]
    · rintro n items ⟨front, back, hpath, -⟩
      simp at hpath
  | @subscript span base index path n _ hindex ih =>
    obtain ⟨b, hb, hread, hfail⟩ := ih hlists.of_concat
    obtain ⟨i, hi, hn⟩ := hindex
    have hslice := isSlice_of_eval_eq_ok hn
    refine ⟨.subscript b i, by rw [lower, hb, hi]; rfl, ?_, ?_⟩
    · intro w hw
      rw [Value.at?_concat] at hw
      obtain ⟨c, hc, hw⟩ := Option.bind_eq_some_iff.1 hw
      obtain ⟨items, place, rfl, rfl, hplace⟩ := Value.item?_eq_some hw
      exact (eval_element_eq_ok hslice).2 ⟨items, place, hread _ hc, hn, hplace⟩
    · intro m items hasks hm
      rcases Value.asks_concat.1 hasks with hasks | ⟨rfl, hpath⟩
      · exact eval_element_error (hfail m items hasks hm) hslice
      · exact eval_element_outOfRange (hread _ hpath) hn hm

/-- An assignment to a cell assigns the list in which the element is changed. It fails as its value
does, and at an index out of range if its value does not fail before. -/
theorem LeadsTo.eval_assignment (h : LeadsTo store x target path) (hx : store.get? x = some a)
    (hlists : a.HoldsLists path) (value : Precond.Expr) :
    ∃ e, target.assignment value = .ok (x, e) ∧
      (∀ w, a.at? path = some w → eval store e = (eval store value).map (a.put path)) ∧
      ∀ n items, a.Asks path n items → ¬(0 ≤ n ∧ n < items.length) →
        (∃ v, eval store value = .ok v) ∨
          eval store value = .error (.indexOutOfBounds n items.length) →
        eval store e = .error (.indexOutOfBounds n items.length) := by
  induction h generalizing value with
  | name =>
    refine ⟨value, rfl, ?_, ?_⟩
    · rintro _ ⟨⟩
      cases eval store value <;> rfl
    · rintro n items ⟨front, back, hpath, -⟩
      simp at hpath
  | @subscript span base index path n hbase hindex ih =>
    obtain ⟨b, hb, hread, hfail⟩ := hbase.eval_lower hx hlists.of_concat
    have hslice := hindex.isSlice_eq_false
    obtain ⟨i, hi, hn⟩ := hindex
    obtain ⟨e, he, hstore, hmiss⟩ := ih hlists.of_concat (.call "store" [b, i, value])
    refine ⟨e, by rw [assignment, hslice, hb, hi]; exact he, ?_, ?_⟩
    · intro w hw
      rw [Value.at?_concat] at hw
      obtain ⟨c, hc, hw⟩ := Option.bind_eq_some_iff.1 hw
      obtain ⟨items, place, rfl, rfl, hplace⟩ := Value.item?_eq_some hw
      have hlength := (List.getElem?_eq_some_iff.1 hplace).1
      rw [hstore _ hc, eval_store (hread _ hc) hn, position_eq_ok.2 ⟨rfl, hlength⟩]
      cases eval store value with
      | error failure => rfl
      | ok v =>
        have hput := Value.put_append path [(place : Int)] hc v
        rw [Value.put_cons hplace] at hput
        exact congrArg Except.ok hput.symm
    · intro m items hasks hm hvalue
      rcases Value.asks_concat.1 hasks with hasks | ⟨rfl, hpath⟩
      · exact hmiss m items hasks hm (.inr (eval_store_error (hfail m items hasks hm)))
      · rw [hstore _ hpath, eval_store (hread _ hpath) hn, position_outOfRange hm]
        rcases hvalue with ⟨v, hv⟩ | hv
        · rw [hv]
          rfl
        · rw [hv]
          rfl

end Expr

/-- Running an assignment to a cell. If every index is in range, the variable gets the value with
that one element changed, and the other variables keep theirs. An index that is out of range makes
the run fail, and nothing is changed. -/
theorem Stmt.changes_one_cell {accepted : List String} {span : Span} {value : Expr} {v : Value}
    (htarget : target.LeadsTo store x path) (hvalue : value.Evaluates store v)
    (hx : store.get? x = some a) (hlists : a.HoldsLists path) (supply : Supply) (limit : Nat) :
    ∃ s, (Stmt.lower accepted (.assign span target value)).run.run supply = (.ok s, supply) ∧
      ((∀ n items, a.Asks path n items → 0 ≤ n ∧ n < items.length) →
        ∃ b store', exec limit s store = (.ok .normal, store') ∧ store'.get? x = some b ∧
          (∀ y, y ≠ x → store'.get? y = store.get? y) ∧ Value.Changed path v a b) ∧
      ∀ n items, a.Asks path n items → ¬(0 ≤ n ∧ n < items.length) →
        exec limit s store = (.error (.indexOutOfBounds n items.length), store) := by
  obtain ⟨e', hlower, hv⟩ := hvalue
  obtain ⟨e, he, hput, hmiss⟩ := htarget.eval_assignment hx hlists e'
  refine ⟨.assign x e, ?_, fun hrange => ?_, fun n items hasks hn => ?_⟩
  · rw [Stmt.lower, hlower]
    change (Naming.ofExcept (target.assignment e') >>= fun p =>
      pure (Precond.Stmt.assign p.1 p.2)).run.run supply = _
    rw [he]
    rfl
  · obtain ⟨w, hw⟩ := Value.exists_at? hlists hrange
    have heval : eval store e = .ok (a.put path v) := by
      rw [hput w hw, hv]
      rfl
    refine ⟨a.put path v, store.insert x (a.put path v), by simp [exec, heval], by simp,
      fun y hy => by simp [hy], Value.changed_put hw v⟩
  · simp [exec, hmiss n items hasks hn (.inl ⟨v, hv⟩)]

/-- The element `x[i][j]` of a list of rows. -/
def Expr.entry (x : String) (i j : Expr) : Expr :=
  .subscript (.point 0) (.subscript (.point 0) (.name (.point 0) x) i) j

/-- A number as it is written. -/
def Expr.number (n : Nat) : Expr := .int (.point 0) n

/-- The rows `[[1, 2], [3, 4]]`. -/
def twoRows : Value := .list [.list [.int 1, .int 2], .list [.int 3, .int 4]]

/-- In `x[x[0][0]][0] = x[1][1]` an index and the value read the list that is changed. -/
theorem Stmt.changes_one_cell_twoRows :
    ∃ s b store', (Stmt.lower [] (.assign (.point 0)
        (.entry "x" (.entry "x" (.number 0) (.number 0)) (.number 0))
        (.entry "x" (.number 1) (.number 1)))).run.run {} = (.ok s, {}) ∧
      exec 0 s (.ofList [("x", twoRows), ("y", .int 7)]) = (.ok .normal, store') ∧
      store'.get? "x" = some b ∧ store'.get? "y" = some (.int 7) ∧
      Value.Changed [1, 0] (.int 4) twoRows b := by
  have htarget : Expr.LeadsTo (.ofList [("x", twoRows), ("y", .int 7)]) "x"
      (.entry "x" (.entry "x" (.number 0) (.number 0)) (.number 0)) [1, 0] :=
    .subscript (.subscript .name ⟨_, rfl, rfl⟩) ⟨_, rfl, rfl⟩
  have hlists : twoRows.HoldsLists [1, 0] := by
    rintro (_ | ⟨_, _ | ⟨_, front⟩⟩) n back w hpath hw
    · exact ⟨_, (Option.some.inj hw).symm⟩
    · obtain ⟨rfl, -⟩ := List.cons.inj hpath
      exact ⟨_, (Option.some.inj hw).symm⟩
    · simp at hpath
  obtain ⟨s, hs, hrun, -⟩ := @Stmt.changes_one_cell _ _ _ _ _ [] (.point 0)
    (.entry "x" (.number 1) (.number 1)) (.int 4) htarget ⟨_, rfl, rfl⟩ rfl hlists {} 0
  obtain ⟨b, store', hexec, hb, hothers, hchanged⟩ := hrun (by
    rintro n items ⟨_ | ⟨_, _ | ⟨_, front⟩⟩, back, hpath, hitems⟩
    · cases hpath
      cases hitems
      decide
    · cases hpath
      cases hitems
      decide
    · simp at hpath)
  exact ⟨s, b, store', hs, hexec, hb, hothers "y" (by decide), hchanged⟩

end Host

end Precond
