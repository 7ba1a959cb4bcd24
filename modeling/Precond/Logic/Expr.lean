import Precond.Logic.Op
import Precond.Logic.Ty

/-!
# Expressions

The expressions of assertions, contracts and programs. The universal quantifier is the only binder;
an existential one is written through it. A quantifier carries the type of its variable once that
is known.

`Expr.render` writes an expression with all its parentheses. `Expr.freeVars` lists the free
variables as they occur, and `Expr.freeNames` lists each of them once, in order of the names.
`Expr.height` bounds the recursion of the operations that do not follow the structure of an
expression directly.

An `Obligation` is a formula that has to be valid for a function to meet its contract, with where it
comes from.
-/

namespace Precond

/-- A constant. -/
inductive Literal where
  | int (n : Int)
  | bool (b : Bool)
  deriving DecidableEq, Repr

/-- An expression. -/
inductive Expr where
  | var (name : String)
  | lit (value : Literal)
  | binary (op : Op) (left right : Expr)
  | unary (op : Op) (operand : Expr)
  /-- The element at an index, or the part of a list that a slice picks. -/
  | subscript (base index : Expr)
  /-- The positions from `lower` up to `upper` in strides of `step`. -/
  | slice (lower upper step : Expr)
  /-- The positions from `lower` to the end in strides of `step`. -/
  | sliceFrom (lower step : Expr)
  | call (name : String) (args : List Expr)
  /-- True when the body is true for every value of the variable. -/
  | forAll (var : String) (ty : Option Ty) (body : Expr)
  deriving Repr, Inhabited

namespace Expr

/-! ## Equality -/

mutual

/-- Whether two expressions are the same. -/
def same : Expr → Expr → Bool
  | .var x, .var y => x == y
  | .lit a, .lit b => a == b
  | .binary o l r, .binary p l' r' => o == p && same l l' && same r r'
  | .unary o e, .unary p f => o == p && same e f
  | .subscript a i, .subscript b j => same a b && same i j
  | .slice l u s, .slice l' u' s' => same l l' && same u u' && same s s'
  | .sliceFrom l s, .sliceFrom l' s' => same l l' && same s s'
  | .call f as, .call g bs => f == g && sameAll as bs
  | .forAll x t b, .forAll y u c => x == y && t == u && same b c
  | _, _ => false

/-- Whether two lists of expressions are the same. -/
def sameAll : List Expr → List Expr → Bool
  | [], [] => true
  | a :: as, b :: bs => same a b && sameAll as bs
  | _, _ => false

end

mutual

theorem eq_of_same {a b : Expr} (h : same a b = true) : a = b := by
  match a, b with
  | .var x, .var y => simp_all [same]
  | .lit x, .lit y => simp_all [same]
  | .binary .., .binary .. =>
    simp only [same, Bool.and_eq_true, beq_iff_eq] at h
    rw [h.1.1, eq_of_same h.1.2, eq_of_same h.2]
  | .unary .., .unary .. =>
    simp only [same, Bool.and_eq_true, beq_iff_eq] at h
    rw [h.1, eq_of_same h.2]
  | .subscript .., .subscript .. =>
    simp only [same, Bool.and_eq_true] at h
    rw [eq_of_same h.1, eq_of_same h.2]
  | .slice .., .slice .. =>
    simp only [same, Bool.and_eq_true] at h
    rw [eq_of_same h.1.1, eq_of_same h.1.2, eq_of_same h.2]
  | .sliceFrom .., .sliceFrom .. =>
    simp only [same, Bool.and_eq_true] at h
    rw [eq_of_same h.1, eq_of_same h.2]
  | .call .., .call .. =>
    simp only [same, Bool.and_eq_true, beq_iff_eq] at h
    rw [h.1, eq_of_sameAll h.2]
  | .forAll .., .forAll .. =>
    simp only [same, Bool.and_eq_true, beq_iff_eq] at h
    rw [h.1.1, h.1.2, eq_of_same h.2]

theorem eq_of_sameAll {as bs : List Expr} (h : sameAll as bs = true) : as = bs := by
  match as, bs with
  | [], [] => rfl
  | a :: as, b :: bs =>
    simp only [sameAll, Bool.and_eq_true] at h
    rw [eq_of_same h.1, eq_of_sameAll h.2]

end

mutual

theorem same_refl (a : Expr) : same a a = true := by
  match a with
  | .var _ | .lit _ => simp [same]
  | .binary _ l r => simp [same, same_refl l, same_refl r]
  | .unary _ e => simp [same, same_refl e]
  | .subscript b i => simp [same, same_refl b, same_refl i]
  | .slice l u s => simp [same, same_refl l, same_refl u, same_refl s]
  | .sliceFrom l s => simp [same, same_refl l, same_refl s]
  | .call _ as => simp [same, sameAll_refl as]
  | .forAll _ _ b => simp [same, same_refl b]

theorem sameAll_refl (as : List Expr) : sameAll as as = true := by
  match as with
  | [] => simp [sameAll]
  | a :: as => simp [sameAll, same_refl a, sameAll_refl as]

end

theorem same_iff {a b : Expr} : same a b = true ↔ a = b :=
  ⟨eq_of_same, fun h => h ▸ same_refl a⟩

instance : DecidableEq Expr := fun _ _ => decidable_of_iff _ same_iff

/-! ## Building expressions -/

/-- An integer constant. -/
def int (n : Int) : Expr := .lit (.int n)

/-- A truth value. -/
def bool (b : Bool) : Expr := .lit (.bool b)

/-- Negation. -/
def not (e : Expr) : Expr := .unary .not e

/-- Conjunction. -/
def and (l r : Expr) : Expr := .binary .and l r

/-- Implication. -/
def implies (l r : Expr) : Expr := .binary .implies l r

/-- The existential quantifier: it is not so that the body fails for every value. -/
def thereExists (x : String) (ty : Option Ty) (body : Expr) : Expr := not (.forAll x ty (not body))

/-- A slice with its missing parts filled in: the lower bound is `0` and the stride `1`. -/
def sliceOf (lower upper step : Option Expr) : Expr :=
  match upper with
  | some u => .slice (lower.getD (int 0)) u (step.getD (int 1))
  | none => .sliceFrom (lower.getD (int 0)) (step.getD (int 1))

/-- The conjunction of a list, nested to the left; `True` for the empty list. -/
def conjoin : List Expr → Expr
  | [] => bool true
  | e :: es => es.foldl and e

/-- Whether an expression is a slice, which has a meaning only inside a subscript. -/
def isSlice : Expr → Bool
  | .slice .. | .sliceFrom .. => true
  | _ => false

/-! ## Height -/

mutual

/-- The number of nodes on the longest path down an expression. -/
def height : Expr → Nat
  | .var _ | .lit _ => 1
  | .binary _ l r => max (height l) (height r) + 1
  | .unary _ e => height e + 1
  | .subscript b i => max (height b) (height i) + 1
  | .slice l u s => max (height l) (max (height u) (height s)) + 1
  | .sliceFrom l s => max (height l) (height s) + 1
  | .call _ args => heightAll args + 1
  | .forAll _ _ b => height b + 1

/-- The greatest height in a list. -/
def heightAll : List Expr → Nat
  | [] => 0
  | e :: es => max (height e) (heightAll es)

end

/-! ## Free variables -/

mutual

/-- The free variables as they occur, from left to right. -/
def freeVars : Expr → List String
  | .var x => [x]
  | .lit _ => []
  | .binary _ l r => freeVars l ++ freeVars r
  | .unary _ e => freeVars e
  | .subscript b i => freeVars b ++ freeVars i
  | .slice l u s => freeVars l ++ freeVars u ++ freeVars s
  | .sliceFrom l s => freeVars l ++ freeVars s
  | .call _ args => freeVarsAll args
  | .forAll x _ b => (freeVars b).filter (· ≠ x)

/-- The free variables of a list of expressions as they occur. -/
def freeVarsAll : List Expr → List String
  | [] => []
  | e :: es => freeVars e ++ freeVarsAll es

end

/-! ## Printing -/

mutual

/-- The way an expression is written, with all its parentheses. -/
def render : Expr → String
  | .var x => x
  | .lit (.int n) => toString n
  | .lit (.bool true) => "True"
  | .lit (.bool false) => "False"
  | .binary op l r => s!"({render l} {op.symbol} {render r})"
  | .unary .not e => s!"(not {render e})"
  | .unary op e => s!"({op.symbol}{render e})"
  | .subscript b i => s!"{render b}[{render i}]"
  | .slice l u s => s!"{render l}:{render u}:{render s}"
  | .sliceFrom l s => s!"{render l}::{render s}"
  | .call f args => f ++ "(" ++ ", ".intercalate (renderAll args) ++ ")"
  | .forAll x (some ty) b => s!"(∀{x}: {ty.render}. {render b})"
  | .forAll x none b => s!"(∀{x}. {render b})"

/-- The way the expressions of a list are written. -/
def renderAll : List Expr → List String
  | [] => []
  | e :: es => render e :: renderAll es

end

end Expr

/-! ## Sets of names -/

namespace Name

/-- A list of names with `x` added at its place in the order, unless it is there. -/
def addSorted (x : String) : List String → List String
  | [] => [x]
  | y :: ys => if x = y then y :: ys else if x < y then x :: y :: ys else y :: addSorted x ys

/-- The distinct names of a list in increasing order. -/
def sorted (xs : List String) : List String := xs.foldl (fun acc x => addSorted x acc) []

theorem mem_addSorted {x y : String} {ys : List String} :
    y ∈ addSorted x ys ↔ y = x ∨ y ∈ ys := by
  induction ys with
  | nil => simp [addSorted]
  | cons z zs ih =>
    unfold addSorted
    split
    · next h => simp [h]
    · split
      · simp
      · simp only [List.mem_cons, ih]
        grind

theorem mem_sorted {x : String} {xs : List String} : x ∈ sorted xs ↔ x ∈ xs := by
  have hfold (acc : List String) :
      x ∈ xs.foldl (fun acc y => addSorted y acc) acc ↔ x ∈ acc ∨ x ∈ xs := by
    induction xs generalizing acc with
    | nil => simp
    | cons y ys ih => rw [List.foldl_cons, ih, mem_addSorted, List.mem_cons, or_assoc, or_left_comm]
  simp [sorted, hfold]

end Name

/-- The free variables of an expression, each once, in order of the names. -/
def Expr.freeNames (e : Expr) : List String := Name.sorted e.freeVars

/-! ## Obligations -/

/-- Where an obligation comes from. -/
inductive Obligation.Kind where
  /-- The contract's assumptions imply the weakest precondition of the body. -/
  | precondition
  /-- A further condition, by its number. -/
  | sideCondition (index : Nat)
  deriving DecidableEq, Repr

/-- What the origin of an obligation is called. -/
def Obligation.Kind.render : Obligation.Kind → String
  | .precondition => "precondition"
  | .sideCondition index => s!"side condition #{index}"

/-- A formula that has to be valid. -/
structure Obligation where
  /-- Where it comes from. -/
  kind : Obligation.Kind
  /-- What has to be valid. -/
  formula : Expr
  deriving DecidableEq, Repr

end Precond
