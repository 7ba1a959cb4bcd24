import Mathlib.Tactic
import Precond.Logic.Expr

/-!
# Readings of expressions

A `Reading` says what every part of an expression stands for: values of any kind, an operation for
each way to build an expression, and for each annotation the values that a quantifier ranges over.
Nothing is assumed of it but that a proposition has a truth value. `Expr.read` is the value that an
expression has in a reading, where a quantifier is true when its body is true for every value it
ranges over (`Expr.isTrue_read_forAll`).

Whatever the reading, the value depends on the free variables only (`Expr.read_congr`).
-/

namespace Precond

/-- What the parts of expressions stand for, with values in `α`. -/
structure Reading (α : Type*) where
  literal : Literal → α
  binary : Op → α → α → α
  unary : Op → α → α
  subscript : α → α → α
  slice : α → α → α → α
  sliceFrom : α → α → α
  call : String → List α → α
  /-- The values that a quantifier with an annotation, or without one, ranges over. -/
  ranges : Option Ty → α → Prop
  /-- The values that count as true. -/
  isTrue : α → Prop
  /-- The truth value of a proposition. -/
  truth : Prop → α
  isTrue_truth : ∀ p, isTrue (truth p) ↔ p

namespace Expr

variable {α : Type*}

mutual

/-- The value of an expression in a reading. -/
def read (R : Reading α) : Expr → (String → α) → α
  | .var x, ρ => ρ x
  | .lit v, _ => R.literal v
  | .binary op l r, ρ => R.binary op (read R l ρ) (read R r ρ)
  | .unary op e, ρ => R.unary op (read R e ρ)
  | .subscript base index, ρ => R.subscript (read R base ρ) (read R index ρ)
  | .slice l u s, ρ => R.slice (read R l ρ) (read R u ρ) (read R s ρ)
  | .sliceFrom l s, ρ => R.sliceFrom (read R l ρ) (read R s ρ)
  | .call f args, ρ => R.call f (readAll R args ρ)
  | .forAll x ty body, ρ =>
    R.truth (∀ v, R.ranges ty v → R.isTrue (read R body (Function.update ρ x v)))

/-- The values of a list of expressions in a reading. -/
def readAll (R : Reading α) : List Expr → (String → α) → List α
  | [], _ => []
  | e :: es, ρ => read R e ρ :: readAll R es ρ

end

variable {R : Reading α} {ρ : String → α}

/-- A quantifier is true when its body is true for every value it ranges over. -/
theorem isTrue_read_forAll {x : String} {ty : Option Ty} {body : Expr} :
    R.isTrue ((Expr.forAll x ty body).read R ρ) ↔
      ∀ v, R.ranges ty v → R.isTrue (body.read R (Function.update ρ x v)) := by
  rw [read, R.isTrue_truth]

theorem readAll_eq_map (es : List Expr) : readAll R es ρ = es.map (·.read R ρ) := by
  induction es with
  | nil => rfl
  | cons e es ih => rw [readAll, ih, List.map_cons]

mutual

/-- The value depends on the free variables only. -/
theorem read_congr {ρ ρ' : String → α} (e : Expr) (h : ∀ x ∈ e.freeVars, ρ x = ρ' x) :
    e.read R ρ = e.read R ρ' := by
  match e with
  | .var x => simpa [read, freeVars] using h
  | .lit _ => simp [read]
  | .binary _ l r | .subscript l r | .sliceFrom l r =>
    simp only [freeVars, List.mem_append] at h
    simp only [read, read_congr l fun x hx => h x (Or.inl hx),
      read_congr r fun x hx => h x (Or.inr hx)]
  | .unary _ e =>
    simp only [read, read_congr e fun x hx => h x (by simpa [freeVars] using hx)]
  | .slice l u s =>
    simp only [freeVars, List.mem_append, or_assoc] at h
    simp only [read, read_congr l fun x hx => h x (Or.inl hx),
      read_congr u fun x hx => h x (Or.inr (Or.inl hx)),
      read_congr s fun x hx => h x (Or.inr (Or.inr hx))]
  | .call _ args =>
    simp only [read, readAll_congr args fun x hx => h x (by simpa [freeVars] using hx)]
  | .forAll x ty body =>
    have hbody : ∀ v, body.read R (Function.update ρ x v) =
        body.read R (Function.update ρ' x v) := by
      intro v
      refine read_congr body fun y hy => ?_
      by_cases hyx : y = x
      · subst hyx
        simp
      · have hfree : y ∈ (Expr.forAll x ty body).freeVars := by simp [freeVars, hy, hyx]
        simp [hyx, h y hfree]
    simp only [read, hbody]

theorem readAll_congr {ρ ρ' : String → α} (es : List Expr)
    (h : ∀ x ∈ freeVarsAll es, ρ x = ρ' x) : readAll R es ρ = readAll R es ρ' := by
  match es with
  | [] => simp [readAll]
  | e :: es =>
    simp only [freeVarsAll, List.mem_append] at h
    simp only [readAll, read_congr e fun x hx => h x (Or.inl hx),
      readAll_congr es fun x hx => h x (Or.inr hx)]

end

/-- The value of a variable that is not free does not matter. -/
theorem read_update_of_notMem {e : Expr} {x : String} (h : x ∉ e.freeVars) (v : α) :
    e.read R (Function.update ρ x v) = e.read R ρ := by
  refine read_congr e fun y hy => ?_
  have hyx : y ≠ x := by
    rintro rfl
    exact h hy
  simp [hyx]

end Expr

end Precond
