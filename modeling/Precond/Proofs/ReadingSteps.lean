import Mathlib.Tactic
import Precond.Proofs.WeakestPrecondition
import Precond.Verify.Session

/-!
# Steps of reading a function

A function is read in steps: the clauses of its contract, then the statements of its body, in the
order of the text. A `Step` either reads an assertion or carries over a part of the program without
one. `Does c steps` says that a computation goes through the steps as if there were nothing else: it
fails with the error of the first step that fails (`firstError`) and succeeds if none does.

Carrying over statements goes through `Stmt.stepsAll` (`Stmt.does_lowerAll`), and so a function is
prepared only if none of `Subject.steps` fails (`Subject.prepare_eq_error`).
-/

namespace Precond.Host

open Grammar

/-! ## Steps -/

/-- A step of reading a function that may fail. -/
inductive Step where
  /-- A part of the program is carried over without an assertion. -/
  | carry (result : Except Error Unit)
  /-- An assertion is read, of which the text begins at the given offset of the program. -/
  | read (text : String) (start : Nat)
  deriving DecidableEq

/-- The error of a result. -/
def errorOf? {α : Type} : Except Error α → Option Error
  | .ok _ => none
  | .error e => some e

/-- The error of a step that fails. Errors in a text are moved to where the text begins. -/
def Step.error? : Step → Option Error
  | .carry result => errorOf? result
  | .read text start => (errorOf? (Assertion.ofText text)).map (·.shift start)

/-- The error of the first step that fails. -/
def firstError (steps : List Step) : Option Error := steps.findSome? Step.error?

/-- The first error is one of the first steps, or else one of the others. -/
theorem firstError_append (steps steps' : List Step) :
    firstError (steps ++ steps') = (firstError steps).or (firstError steps') :=
  List.findSome?_append

/-- The computation fails with the error of the first step that fails, and succeeds if none does. -/
def Does {α : Type} (c : Naming α) (steps : List Step) : Prop :=
  ∀ supply, ∃ r supply', c.run.run supply = (r, supply') ∧ errorOf? r = firstError steps

section Does

variable {α β : Type}

theorem does_pure (x : α) : Does (pure x) [] := fun supply => ⟨.ok x, supply, rfl, rfl⟩

theorem does_ofExcept (r : Except Error α) :
    Does (Naming.ofExcept r) [.carry (r.map fun _ => ())] := by
  intro supply
  refine ⟨r, supply, rfl, ?_⟩
  cases r <;> rfl

/-- To read an assertion is a step, whose errors are moved to where its text begins. -/
theorem does_read (text : String) (start : Nat) :
    Does (ExceptT.adapt (Error.shift start) (Assertion.parse text)) [.read text start] := by
  intro supply
  cases hread : Assertion.ofText text with
  | error e =>
    refine ⟨.error (e.shift start), supply, ?_, ?_⟩
    · rw [Assertion.parse, hread]
      rfl
    · simp [firstError, Step.error?, errorOf?, hread]
  | ok e =>
    refine ⟨.ok (e.alphaRename supply).1, (e.alphaRename supply).2, ?_, ?_⟩
    · rw [Assertion.parse, hread]
      rfl
    · simp [firstError, Step.error?, errorOf?, hread]

/-- Computations in a row go through their steps in a row. -/
theorem Does.bind {c : Naming α} {f : α → Naming β} {steps steps' : List Step}
    (hc : Does c steps) (hf : ∀ x, Does (f x) steps') : Does (c >>= f) (steps ++ steps') := by
  intro supply
  obtain ⟨r, mid, hr, he⟩ := hc supply
  cases r with
  | error e =>
    refine ⟨.error e, mid, ?_, ?_⟩
    · rw [ExceptT.run_bind, StateT.run_bind, hr]
      rfl
    · rw [firstError_append, ← he]
      rfl
  | ok x =>
    obtain ⟨r', supply', hr', he'⟩ := hf x mid
    refine ⟨r', supply', (Naming.run_bind_ok hr).trans hr', ?_⟩
    rw [firstError_append, ← he, he']
    rfl

/-- Drawing names does not fail. -/
theorem does_lift (m : StateM Supply α) : Does (liftM m) [] :=
  fun supply => ⟨.ok (m supply).1, (m supply).2, rfl, rfl⟩

/-- A computation that draws no names is one step. -/
theorem does_carry {c : Naming α} {r : Except Error α}
    (h : ∀ supply, c.run.run supply = (r, supply)) :
    Does c [.carry ((c.run.run {}).1.map fun _ => ())] := by
  intro supply
  refine ⟨r, supply, h supply, ?_⟩
  rw [h]
  cases r <;> rfl

end Does

/-! ## Statements -/

namespace Stmt

/-- The annotation for a purpose that a statement is. -/
def noteFor? (accepted : List String) (purpose : String) (s : Stmt) : Option Note :=
  match s.asNote accepted with
  | .ok (some a) => if a.purpose = purpose then some a else none
  | _ => none

/-- The step of carrying over a statement without statements inside it. -/
def lineSteps (accepted : List String) (s : Stmt) : List Step :=
  match s.noteFor? accepted "assume" with
  | some a => [.read a.text a.start]
  | none => [.carry (((s.lower accepted).run.run {}).1.map fun _ => ())]

mutual

/-- The steps of carrying over a statement. -/
def steps (accepted : List String) : Stmt → List Step
  | .branch _ cond body orelse =>
    .carry (cond.lower.map fun _ => ()) :: (stepsAll accepted body ++ stepsAll accepted orelse)
  | .loop _ cond body => .carry (cond.lower.map fun _ => ()) :: stepsLoop accepted body
  | s => lineSteps accepted s

/-- The steps of carrying over the statements of a list. -/
def stepsAll (accepted : List String) : List Stmt → List Step
  | [] => []
  | s :: ss => steps accepted s ++ stepsAll accepted ss

/-- The steps of carrying over the body of a loop, with its invariants. -/
def stepsLoop (accepted : List String) : List Stmt → List Step
  | [] => []
  | s :: ss =>
    (match s.noteFor? accepted "invariant" with
    | some a => [.read a.text a.start]
    | none => steps accepted s) ++ stepsLoop accepted ss

end

variable {accepted : List String}

/-- An expression on a line of its own is an assumption, or it is refused. -/
theorem does_expr (span : Span) (e : Expr) :
    Does (lower accepted (.expr span e)) (lineSteps accepted (.expr span e)) := by
  cases hnote : asNote accepted (.expr span e) with
  | error err =>
    have hsteps : noteFor? accepted "assume" (.expr span e) = none := by simp [noteFor?, hnote]
    rw [lineSteps, hsteps]
    refine does_carry (r := .error err) fun supply => ?_
    rw [lower, hnote]
    rfl
  | ok note =>
    have hlower : lower accepted (.expr span e) = lowerNote span e note := by
      rw [lower, hnote]
      rfl
    cases note with
    | none =>
      have hsteps : noteFor? accepted "assume" (.expr span e) = none := by simp [noteFor?, hnote]
      obtain ⟨err, herr⟩ : ∃ err, ∀ supply,
          (lower accepted (.expr span e)).run.run supply = (.error err, supply) := by
        rw [hlower]
        cases e <;> exact ⟨_, fun _ => rfl⟩
      rw [lineSteps, hsteps]
      exact does_carry herr
    | some a =>
      by_cases hassume : a.purpose = "assume"
      · have hsteps : noteFor? accepted "assume" (.expr span e) = some a := by
          simp [noteFor?, hnote, hassume]
        rw [lineSteps, hsteps, hlower, lowerNote, if_pos hassume]
        exact (does_read a.text a.start).bind fun e => does_pure _
      · have hsteps : noteFor? accepted "assume" (.expr span e) = none := by
          simp [noteFor?, hnote, hassume]
        obtain ⟨err, herr⟩ : ∃ err, ∀ supply,
            (lower accepted (.expr span e)).run.run supply = (.error err, supply) := by
          rw [hlower, lowerNote, if_neg hassume]
          split_ifs <;> exact ⟨_, fun _ => rfl⟩
        rw [lineSteps, hsteps]
        exact does_carry herr

/-- Where an annotation is malformed, so is the statement. -/
theorem run_lower_of_asNote {s : Stmt} {err : Error} (h : s.asNote accepted = .error err)
    (supply : Supply) : (lower accepted s).run.run supply = (.error err, supply) := by
  cases s with
  | expr span e =>
    rw [lower, h]
    rfl
  | _ => cases h

theorem ofExcept_ok_bind {α β : Type} (a : α) (f : α → Naming β) :
    (Naming.ofExcept (.ok a) >>= f) = f a := rfl

/-- The body of a loop, given what its statements do. -/
theorem does_lowerLoop {ss : List Stmt}
    (hss : ∀ s ∈ ss, Does (lower accepted s) (steps accepted s)) :
    Does (lowerLoop accepted ss) (stepsLoop accepted ss) := by
  induction ss with
  | nil => exact does_pure _
  | cons s ss ih =>
    obtain ⟨hs, hrest⟩ := List.forall_mem_cons.1 hss
    have hloop := ih hrest
    cases hnote : s.asNote accepted with
    | error err =>
      have hfor : noteFor? accepted "invariant" s = none := by simp [noteFor?, hnote]
      intro supply
      obtain ⟨r, supply', hr, he⟩ := hs supply
      cases (run_lower_of_asNote hnote supply).symm.trans hr
      refine ⟨.error err, supply, ?_, ?_⟩
      · rw [lowerLoop, hnote]
        rfl
      · rw [stepsLoop, hfor, firstError_append, ← he]
        rfl
    | ok note =>
      have hfor : noteFor? accepted "invariant" s = note.filter (·.purpose = "invariant") := by
        cases note <;> simp [noteFor?, hnote, Option.filter]
      have hlower : lowerLoop accepted (s :: ss) =
          (note.filter (·.purpose = "invariant")).elim
            (do
              let s ← lower accepted s
              let loop ← lowerLoop accepted ss
              return (loop.1, s :: loop.2))
            fun a => do
              let e ← a.parse
              let loop ← lowerLoop accepted ss
              return (e :: loop.1, loop.2) := by
        rw [lowerLoop, hnote, ofExcept_ok_bind]
        cases note.filter (·.purpose = "invariant") <;> rfl
      rw [hlower, stepsLoop, hfor, ← List.append_nil (stepsLoop accepted ss)]
      cases note.filter (·.purpose = "invariant") with
      | some a => exact (does_read a.text a.start).bind fun e => hloop.bind fun p => does_pure _
      | none => exact hs.bind fun s' => hloop.bind fun p => does_pure _

mutual

/-- A statement is carried over by its steps. -/
theorem does_lower (accepted : List String) :
    (s : Stmt) → Does (lower accepted s) (steps accepted s)
  | .pass _ => does_carry fun _ => rfl
  | .give _ _ => does_carry fun _ => rfl
  | .assert _ cond => by
    refine does_carry (r := cond.lower.map .assert) fun supply => ?_
    rw [lower]
    cases cond.lower <;> rfl
  | .assign _ target value => by
    refine does_carry (r := do
      let v ← value.lower
      let (x, e) ← target.assignment v
      return .assign x e) fun supply => ?_
    rw [lower]
    cases value.lower with
    | error e => rfl
    | ok v =>
      change (Naming.ofExcept (target.assignment v) >>= _).run.run supply =
        (target.assignment v >>= _, supply)
      cases target.assignment v <;> rfl
  | .branch _ cond body orelse => by
    have h := (does_ofExcept cond.lower).bind fun c => (does_lowerAll accepted body).bind fun b =>
      (does_lowerAll accepted orelse).bind fun o =>
        does_pure (Precond.Stmt.branch c (.sequence b) (.sequence o))
    rw [List.append_nil] at h
    exact h
  | .loop _ cond body => by
    have hbody : ∀ s ∈ body, Does (lower accepted s) (steps accepted s) :=
      fun s _ => does_lower accepted s
    have h := (does_ofExcept cond.lower).bind fun c => (does_lowerLoop hbody).bind fun p =>
      does_pure (Precond.Stmt.loop p.1 c (.sequence p.2))
    rw [List.append_nil] at h
    exact h
  | .expr span e => does_expr span e

theorem does_lowerAll (accepted : List String) :
    (ss : List Stmt) → Does (lowerAll accepted ss) (stepsAll accepted ss)
  | [] => does_pure _
  | s :: ss => by
    have h := (does_lower accepted s).bind fun s' => (does_lowerAll accepted ss).bind fun ss' =>
      does_pure (s' :: ss')
    rw [List.append_nil] at h
    exact h

end

theorem does_lowerBlock (accepted : List String) (body : List Stmt) :
    Does (lowerBlock accepted body) (stepsAll accepted body) := by
  have h := (does_lowerAll accepted body).bind fun ss => does_pure (Precond.Stmt.sequence ss)
  rw [List.append_nil] at h
  exact h

end Stmt

/-! ## Functions -/

namespace Subject

/-- The steps of reading a function: its contract first, then its body. -/
def steps (f : Subject) (accepted : List String) : List Step :=
  f.requires.map (fun clause => .read clause.node clause.span.start) ++
    (f.ensures.map (fun clause => .read clause.node clause.span.start) ++
      Stmt.stepsAll accepted f.body)

/-- Each clause of a contract is read in a step of its own. -/
theorem does_parseClauses (clauses : List (Spanned String)) :
    Does (parseClauses clauses)
      (clauses.map fun clause => .read clause.node clause.span.start) := by
  induction clauses with
  | nil => exact does_pure _
  | cons clause clauses ih =>
    have h := (does_read clause.node clause.span.start).bind fun e => ih.bind fun es =>
      does_pure (e :: es)
    rw [List.append_nil] at h
    exact h

/-- A function whose result is typed is read by its steps. -/
theorem does_contracted {f : Subject} (hresult : f.result.isSome) (accepted : List String) :
    Does (f.contracted accepted) (f.steps accepted) := by
  have hbody : Does (Stmt.lowerBody accepted f.body) (Stmt.stepsAll accepted f.body) := by
    have h := (Stmt.does_lowerBlock accepted f.body).bind fun s => does_lift s.cutLoops
    rw [List.append_nil] at h
    exact h
  have h := (does_parseClauses f.requires).bind fun requires =>
    (does_parseClauses f.ensures).bind fun ensures => hbody.bind fun body =>
      does_pure (Contracted.mk requires body ensures)
  rw [List.append_nil] at h
  rw [contracted, if_neg (by simpa [Option.isSome_iff_ne_none] using hresult)]
  exact h

/-- What fails while a function is read is what preparing it reports. -/
theorem prepare_eq_error {f : Subject} (hresult : f.result.isSome) {accepted : List String}
    {e : Error} (h : firstError (f.steps accepted) = some e) :
    f.prepare accepted = .error e := by
  obtain ⟨r, supply, hr, he⟩ := does_contracted hresult accepted {}
  rw [h] at he
  cases r with
  | ok c => cases he
  | error e' =>
    cases he
    change ((f.contracted accepted >>= _).run.run {}).1 = _
    rw [ExceptT.run_bind, StateT.run_bind, hr]
    rfl

end Subject

end Precond.Host
