import Precond.Exec.Eval
import Precond.Program.Stmt

/-!
# Running statements

`exec` runs a statement on a store. A run ends normally, is stopped by a false assumption, or
fails; in each case the store it has reached is given as well. A loop is run directly: its
invariants are tested at each head, and it may take only so many turns.
-/

namespace Precond.Exec

/-- How a run that does not fail ends. -/
inductive Ending where
  /-- It ran to its end. -/
  | normal
  /-- A false assumption stopped it. -/
  | blocked
  deriving DecidableEq, Repr

/-- How a run ends and the store it has reached. -/
abbrev Result := Except Failure Ending × Store

/-- Fails at the first of the conditions that is false. -/
def assertAll (store : Store) : List Expr → Except Failure Unit
  | [] => .ok ()
  | e :: es => do
    if ← holds store e then assertAll store es else throw (.assertionFailed e)

/-- Runs a loop that may still test its condition `turns` times; `limit` is what it reports. -/
def iterate (limit : Nat) (invariants : List Expr) (cond : Expr) (body : Store → Result) :
    Nat → Store → Result
  | 0, store => (.error (.loopLimit limit), store)
  | turns + 1, store =>
    match assertAll store invariants with
    | .error failure => (.error failure, store)
    | .ok () =>
      match holds store cond with
      | .error failure => (.error failure, store)
      | .ok false => (.ok .normal, store)
      | .ok true =>
        match body store with
        | (.ok .normal, store) => iterate limit invariants cond body turns store
        | (ending, store) => (ending, store)

/-- Runs a statement; a loop may take at most `limit` turns. -/
def exec (limit : Nat) : Stmt → Store → Result
  | .skip, store => (.ok .normal, store)
  | .assign x e, store =>
    match eval store e with
    | .ok v => (.ok .normal, store.insert x v)
    | .error failure => (.error failure, store)
  | .seq s t, store =>
    match exec limit s store with
    | (.ok .normal, store) => exec limit t store
    | (ending, store) => (ending, store)
  | .branch c s t, store =>
    match holds store c with
    | .ok true => exec limit s store
    | .ok false => exec limit t store
    | .error failure => (.error failure, store)
  | .assume e, store =>
    match holds store e with
    | .ok true => (.ok .normal, store)
    | .ok false => (.ok .blocked, store)
    | .error failure => (.error failure, store)
  | .assert e, store =>
    match holds store e with
    | .ok true => (.ok .normal, store)
    | .ok false => (.error (.assertionFailed e), store)
    | .error failure => (.error failure, store)
  | .loop invariants cond body, store =>
    iterate limit invariants cond (exec limit body) (limit + 1) store
  | .havoc x, store => (.error (.notExecutable s!"havoc of `{x}`"), store)

/-- The number of turns that a loop may take unless said otherwise. -/
def defaultLoopLimit : Nat := 100000

end Precond.Exec
