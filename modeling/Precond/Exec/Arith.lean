import Precond.Exec.Value

/-!
# Arithmetic of a run

Numbers of a run fit in 64 bits. `checked` turns a result that does not into an overflow. Division
rounds toward negative infinity and the remainder has the sign of the divisor; both are computed
from the quotient and remainder that round toward zero, with a correction where the signs differ.

`slice` picks every `step`-th element between two bounds. A negative bound counts from the end, and
bounds outside the list are moved to its ends.
-/

namespace Precond.Exec

/-- The least number of 64 bits. -/
def minInt : Int := -9223372036854775808

/-- The greatest number of 64 bits. -/
def maxInt : Int := 9223372036854775807

/-- Whether a number fits in 64 bits. -/
def Fits (n : Int) : Prop := minInt ≤ n ∧ n ≤ maxInt

instance (n : Int) : Decidable (Fits n) := inferInstanceAs (Decidable (_ ∧ _))

/-- A result, unless it does not fit in 64 bits. -/
def checked (op : String) (n : Int) : Except Failure Int :=
  if Fits n then .ok n else .error (.overflow op)

/-- The quotient rounded toward negative infinity. -/
def floorDiv (a b : Int) : Except Failure Int := do
  if b = 0 then throw .divisionByZero
  let q ← checked "//" (a.tdiv b)
  return if a.tmod b ≠ 0 ∧ decide (a < 0) ≠ decide (b < 0) then q - 1 else q

/-- The remainder with the sign of the divisor. There is none where the quotient overflows. -/
def floorMod (a b : Int) : Except Failure Int := do
  if b = 0 then throw .divisionByZero
  let _ ← checked "%" (a.tdiv b)
  let r := a.tmod b
  return if r ≠ 0 ∧ decide (r < 0) ≠ decide (b < 0) then r + b else r

/-- The place of an index in a list of the given length. -/
def position (index : Int) (length : Nat) : Except Failure Nat :=
  if 0 ≤ index ∧ index < length then .ok index.toNat
  else .error (.indexOutOfBounds index length)

/-- The first element after `skip` others, and every `step`-th one after it. -/
def everyNth {α : Type} (step : Nat) : Nat → List α → List α
  | _, [] => []
  | 0, x :: xs => x :: everyNth step (step - 1) xs
  | skip + 1, _ :: xs => everyNth step skip xs

/-- A bound of a slice as a place between the elements: a negative one counts from the end, and one
outside the list is moved to the nearer end. -/
def sliceBound (bound : Int) (length : Nat) : Nat :=
  let b := if bound < 0 then bound + length else bound
  min b.toNat length

/-- The elements from `lower` up to `upper`, or to the end, in strides of `step`. -/
def slice (items : List Value) (lower : Int) (upper : Option Int) (step : Int) :
    Except Failure Value :=
  if step ≤ 0 then .error (.notExecutable "a slice with a non-positive step")
  else
    let lo := sliceBound lower items.length
    let hi := upper.elim items.length (sliceBound · items.length)
    .ok (.list (everyNth step.toNat 0 ((items.take hi).drop lo)))

end Precond.Exec
