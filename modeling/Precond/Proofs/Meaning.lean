import Mathlib.Tactic
import Precond.Exec.Eval
import Precond.Proofs.Readings

/-!
# The meaning of expressions

`Expr.meaning` gives every expression a value under an `Assignment` of values to all names. Numbers
are mathematical integers, lists are finite, and a quantifier is true when its body is true for
every value it ranges over. A run computes with 64 bits and stops where an operation is not defined;
here every operation has a value. Where mathematics gives none (a division by zero, a place outside
a list, operands of the wrong kind) it is taken from a `Convention`, about which nothing is assumed.

A slice stands for the list of its bounds, so that a subscript is an operation on two values. The
connectives look only at whether their operands are `True`, which makes them total.

The meaning is one of the readings of an expression (`Expr.meaning_eq_read`), so it depends on the
free variables only (`Expr.meaning_congr`). A conjunction is true when all its members are
(`Expr.holds_conjoin`).
-/

namespace Precond

open Exec (Value)

/-! ## Values and types -/

/-- Whether a value is of a type. An open part of a type says nothing about the value. -/
def Ty.admits : Ty → Value → Bool
  | .int, .int _ => true
  | .bool, .bool _ => true
  | .array elem, .list items => items.all elem.admits
  | .unknown, _ => true
  | _, _ => false

/-- Whether a value is `True`. -/
def Exec.Value.isTrue : Value → Bool
  | .bool b => b
  | _ => false

open Classical in
/-- The truth value of a proposition. -/
noncomputable def Exec.Value.ofProp (p : Prop) : Value := .bool (decide p)

@[simp] theorem Exec.Value.isTrue_ofProp {p : Prop} : (ofProp p).isTrue = true ↔ p := by
  classical
  simp [ofProp, isTrue]

/-- Values of all names. -/
abbrev Assignment := String → Value

/-- What the operations give where mathematics says nothing, and what a quantifier without a type
ranges over. -/
structure Convention where
  unary : Op → Value → Value
  binary : Op → Value → Value → Value
  subscript : Value → Value → Value
  call : String → List Value → Value
  /-- The values of a quantified variable without a type. -/
  untyped : Value → Prop

/-! ## Operations -/

/-- The value of a binary operator, where mathematics gives one. -/
def Op.binary? : Op → Value → Value → Option Value
  | .add, .int m, .int n => some (.int (m + n))
  | .sub, .int m, .int n => some (.int (m - n))
  | .mul, .int m, .int n => some (.int (m * n))
  | .div, .int m, .int n => if n = 0 then none else some (.int (m.fdiv n))
  | .mod, .int m, .int n => if n = 0 then none else some (.int (m.fmod n))
  | .lt, .int m, .int n => some (.bool (m < n))
  | .le, .int m, .int n => some (.bool (m ≤ n))
  | .gt, .int m, .int n => some (.bool (m > n))
  | .ge, .int m, .int n => some (.bool (m ≥ n))
  | .eq, a, b => if a.kindName = b.kindName then some (.bool (a = b)) else none
  | .ne, a, b => if a.kindName = b.kindName then some (.bool (a ≠ b)) else none
  | .iff, .bool p, .bool q => some (.bool (p = q))
  | _, _, _ => none

/-- The element at an index, or the part of a list between bounds. -/
def Exec.Value.subscript? : Value → Value → Option Value
  | .list items, .int i => if 0 ≤ i then items[i.toNat]? else none
  | .list items, .list [.int lower, .int upper, .int step] =>
    (Exec.slice items lower (some upper) step).toOption
  | .list items, .list [.int lower, .int step] => (Exec.slice items lower none step).toOption
  | _, _ => none

/-- The value of a call, where the function is built in and its arguments are in its domain. -/
def builtin? : String → List Value → Option Value
  | "len", [.list items] => some (.int items.length)
  | "store", [.list items, .int i, v] =>
    if 0 ≤ i ∧ i < items.length then some (.list (items.set i.toNat v)) else none
  | _, _ => none

namespace Convention

variable (I : Convention)

/-- The value of a unary operator. -/
def applyUnary (op : Op) (v : Value) : Value :=
  match op, v with
  | .not, v => .bool !v.isTrue
  | .neg, .int n => .int (-n)
  | op, v => I.unary op v

/-- The value of a binary operator. -/
def applyBinary (op : Op) (a b : Value) : Value :=
  match op with
  | .and => .bool (a.isTrue && b.isTrue)
  | .or => .bool (a.isTrue || b.isTrue)
  | .implies => .bool (!a.isTrue || b.isTrue)
  | op => (op.binary? a b).getD (I.binary op a b)

/-- The value of a subscript. -/
def applySubscript (base index : Value) : Value :=
  (base.subscript? index).getD (I.subscript base index)

/-- The value of a call. -/
def applyCall (f : String) (args : List Value) : Value := (builtin? f args).getD (I.call f args)

/-- Whether a quantifier that carries `ty` ranges over a value. -/
def Ranges (ty : Option Ty) (v : Value) : Prop :=
  match ty with
  | some ty => ty.admits v = true
  | none => I.untyped v

/-- The operations, and what quantifiers range over, as a reading of expressions. -/
noncomputable def reading : Reading Value where
  literal := .ofLiteral
  binary := I.applyBinary
  unary := I.applyUnary
  subscript := I.applySubscript
  slice l u s := .list [l, u, s]
  sliceFrom l s := .list [l, s]
  call := I.applyCall
  ranges := I.Ranges
  isTrue v := v.isTrue = true
  truth := .ofProp
  isTrue_truth _ := Value.isTrue_ofProp

end Convention

/-! ## Expressions -/

namespace Expr

mutual

/-- The value of an expression under an assignment. -/
noncomputable def meaning (I : Convention) : Expr → Assignment → Value
  | .var x, ρ => ρ x
  | .lit v, _ => .ofLiteral v
  | .binary op l r, ρ => I.applyBinary op (meaning I l ρ) (meaning I r ρ)
  | .unary op e, ρ => I.applyUnary op (meaning I e ρ)
  | .subscript base index, ρ => I.applySubscript (meaning I base ρ) (meaning I index ρ)
  | .slice l u s, ρ => .list [meaning I l ρ, meaning I u ρ, meaning I s ρ]
  | .sliceFrom l s, ρ => .list [meaning I l ρ, meaning I s ρ]
  | .call f args, ρ => I.applyCall f (meaningAll I args ρ)
  | .forAll x ty body, ρ =>
    .ofProp (∀ v, I.Ranges ty v → (meaning I body (Function.update ρ x v)).isTrue = true)

/-- The values of a list of expressions under an assignment. -/
noncomputable def meaningAll (I : Convention) : List Expr → Assignment → List Value
  | [], _ => []
  | e :: es, ρ => meaning I e ρ :: meaningAll I es ρ

end

/-- An expression is true under an assignment. -/
def Holds (I : Convention) (ρ : Assignment) (e : Expr) : Prop := (e.meaning I ρ).isTrue = true

variable {I : Convention} {ρ : Assignment}

mutual

/-- The meaning is one of the readings of an expression. -/
theorem meaning_eq_read (e : Expr) (ρ : Assignment) : e.meaning I ρ = e.read I.reading ρ := by
  match e with
  | .var _ | .lit _ => rfl
  | .binary _ l r | .subscript l r | .sliceFrom l r =>
    simp only [meaning, read, meaning_eq_read l, meaning_eq_read r]
    rfl
  | .unary _ e =>
    simp only [meaning, read, meaning_eq_read e]
    rfl
  | .slice l u s =>
    simp only [meaning, read, meaning_eq_read l, meaning_eq_read u, meaning_eq_read s]
    rfl
  | .call _ args =>
    simp only [meaning, read, meaningAll_eq_readAll args]
    rfl
  | .forAll x ty body =>
    simp only [meaning, read, meaning_eq_read body]
    rfl

theorem meaningAll_eq_readAll (es : List Expr) (ρ : Assignment) :
    meaningAll I es ρ = readAll I.reading es ρ := by
  match es with
  | [] => rfl
  | e :: es => rw [meaningAll, readAll, meaning_eq_read e, meaningAll_eq_readAll es]

end

/-- The meaning depends on the free variables only. -/
theorem meaning_congr {ρ ρ' : Assignment} (e : Expr) (h : ∀ x ∈ e.freeVars, ρ x = ρ' x) :
    e.meaning I ρ = e.meaning I ρ' := by
  rw [meaning_eq_read, meaning_eq_read, read_congr e h]

/-! ## Truth -/

@[simp] theorem holds_bool {b : Bool} : Holds I ρ (bool b) ↔ b = true := by
  simp [Holds, bool, meaning, Value.ofLiteral, Value.isTrue]

/-- A conjunction is true if both sides are. -/
@[simp] theorem holds_and {l r : Expr} : Holds I ρ (and l r) ↔ Holds I ρ l ∧ Holds I ρ r := by
  simp [Holds, and, meaning, Convention.applyBinary, Value.isTrue]

@[simp] theorem holds_implies {l r : Expr} :
    Holds I ρ (implies l r) ↔ (Holds I ρ l → Holds I ρ r) := by
  simp only [Holds, implies, meaning, Convention.applyBinary]
  cases (l.meaning I ρ).isTrue <;> simp [Value.isTrue]

@[simp] theorem holds_not {e : Expr} : Holds I ρ (not e) ↔ ¬Holds I ρ e := by
  simp [Holds, not, meaning, Convention.applyUnary, Value.isTrue]

/-- A quantifier is true if its body is, for all values that it ranges over. -/
@[simp] theorem holds_forAll {x : String} {ty : Option Ty} {body : Expr} :
    Holds I ρ (.forAll x ty body) ↔
      ∀ v, I.Ranges ty v → Holds I (Function.update ρ x v) body := by
  simp [Holds, meaning]

/-- A conjunction that nests to the left is true if all its members are. -/
theorem holds_foldl_and {e : Expr} {es : List Expr} :
    Holds I ρ (es.foldl and e) ↔ Holds I ρ e ∧ ∀ d ∈ es, Holds I ρ d := by
  induction es generalizing e with
  | nil => simp
  | cons d es ih => simp [ih, and_assoc]

/-- A conjunction is true when all its members are. -/
@[simp] theorem holds_conjoin {es : List Expr} :
    Holds I ρ (conjoin es) ↔ ∀ e ∈ es, Holds I ρ e := by
  cases es with
  | nil => simp [conjoin]
  | cons e es => simp [conjoin, holds_foldl_and]

end Expr

end Precond
