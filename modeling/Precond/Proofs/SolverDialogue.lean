import Mathlib.Tactic
import Precond.Verify.Run

/-!
# Dialogues with a solver

What passes between the verifier and a solver is a list of `Exchange`s, each something sent with its
answer. `Backend.recorded` is a solver that behaves as another one does and keeps a record of what it
was sent; a step that fails is recorded too. Since the verifier works with any solver, its dialogue
with a solver is what the recorded one has on record in the end.

`Traces c c' allows` says that `c'`, which is `c` with a recorded solver, comes to the same result
and leaves the solver in the same state, and that its dialogue is one that `allows` describes. It is
kept by doing one thing after another (`Traces.bind`), so a dialogue is described step by step, like
the computation that has it.
-/

namespace Precond

namespace Smt

variable {σ α : Type}

/-- Something that is sent to a solver. -/
inductive Request where
  | spawn
  | tell (command : Command)
  | check
  | model

/-- Whether a request is a push. -/
@[simp] def Request.isPush : Request → Bool
  | .tell .push => true
  | _ => false

/-- Whether a request is a pop. -/
@[simp] def Request.isPop : Request → Bool
  | .tell .pop => true
  | _ => false

/-- Something that was sent to a solver, with its answer. -/
inductive Exchange where
  | spawned (answer : Except SolverError Unit)
  | told (command : Command) (answer : Except SolverError Unit)
  | checked (answer : Except SolverError Verdict)
  | modelled (answer : Except SolverError Model)

namespace Exchange

/-- What was sent. -/
@[simp] def request : Exchange → Request
  | .spawned _ => .spawn
  | .told c _ => .tell c
  | .checked _ => .check
  | .modelled _ => .model

/-- Why the step failed, if it did. -/
@[simp] def failure? : Exchange → Option SolverError
  | .spawned (.error e) | .told _ (.error e) | .checked (.error e) | .modelled (.error e) => some e
  | _ => none

/-- The verdict, if the step was a check that got one. -/
@[simp] def verdict? : Exchange → Option Verdict
  | .checked (.ok v) => some v
  | _ => none

end Exchange

/-- The verdicts of a dialogue in order. -/
def verdicts (dialogue : List Exchange) : List Verdict := dialogue.filterMap Exchange.verdict?

/-- No step of a dialogue failed. -/
def Succeeds (dialogue : List Exchange) : Prop := ∀ x ∈ dialogue, x.failure? = none

@[simp] theorem verdicts_append (d d' : List Exchange) :
    verdicts (d ++ d') = verdicts d ++ verdicts d' := List.filterMap_append

@[simp] theorem verdicts_nil : verdicts [] = [] := rfl

@[simp] theorem verdicts_cons (x : Exchange) (d : List Exchange) :
    verdicts (x :: d) = x.verdict?.toList ++ verdicts d := by
  cases h : x.verdict? with
  | none => exact List.filterMap_cons_none h
  | some v => exact List.filterMap_cons_some h

@[simp] theorem succeeds_nil : Succeeds [] := by simp [Succeeds]

@[simp] theorem succeeds_cons {x : Exchange} {d : List Exchange} :
    Succeeds (x :: d) ↔ x.failure? = none ∧ Succeeds d := List.forall_mem_cons

/-- A dialogue succeeds if both of its parts do. -/
theorem succeeds_append {d d' : List Exchange} :
    Succeeds (d ++ d') ↔ Succeeds d ∧ Succeeds d' := List.forall_mem_append

/-! ## Recording -/

/-- A step that puts what was answered on record. -/
def record (step : Solving σ α) (entry : Except SolverError α → Exchange) :
    Solving (σ × List Exchange) α :=
  ExceptT.mk fun (s, log) =>
    let (answer, s) := step.run.run s
    (answer, (s, log ++ [entry answer]))

/-- The solver with a record of what it is sent. -/
def Backend.recorded (backend : Backend σ) : Backend (σ × List Exchange) where
  spawn := record backend.spawn .spawned
  tell c := record (backend.tell c) (.told c)
  check := record backend.check .checked
  model := record backend.model .modelled

end Smt

/-! ## Traced computations -/

open Smt

variable {σ α β : Type}

/-- With a recorded solver the computation comes to the same, and its dialogue and result are
allowed. -/
def Traces (c : Verifying σ α) (c' : Verifying (σ × List Exchange) α)
    (allows : List Exchange → Except Error α → Prop) : Prop :=
  ∀ s log, ∃ d, c'.run.run (s, log) = ((c.run.run s).1, ((c.run.run s).2, log ++ d)) ∧
    allows d (c.run.run s).1

namespace Traces

variable {c : Verifying σ α} {c' : Verifying (σ × List Exchange) α}
  {f : α → Verifying σ β} {f' : α → Verifying (σ × List Exchange) β}

/-- What is allowed may be weakened. -/
theorem mono {allows allows' : List Exchange → Except Error α → Prop} (h : Traces c c' allows)
    (himp : ∀ d r, allows d r → allows' d r) : Traces c c' allows' := by
  intro s log
  obtain ⟨d, hrun, hd⟩ := h s log
  exact ⟨d, hrun, himp d _ hd⟩

/-- One thing after another: the second dialogue goes on where the first one ended, unless the first
computation failed. -/
theorem bind {first : List Exchange → Except Error α → Prop}
    {allows : List Exchange → Except Error β → Prop} (hc : Traces c c' first)
    (hfail : ∀ d e, first d (.error e) → allows d (.error e))
    (hok : ∀ d a, first d (.ok a) → Traces (f a) (f' a) fun d' r => allows (d ++ d') r) :
    Traces (c >>= f) (c' >>= f') allows := by
  intro s log
  obtain ⟨d, hrun, hd⟩ := hc s log
  rw [ExceptT.run_bind, StateT.run_bind, ExceptT.run_bind, StateT.run_bind, hrun]
  rcases hcase : c.run.run s with ⟨e | a, s'⟩
  · rw [hcase] at hd
    exact ⟨d, rfl, hfail d e hd⟩
  · rw [hcase] at hd
    obtain ⟨d', hrun', hd'⟩ := hok d a hd s' (log ++ d)
    refine ⟨d ++ d', ?_, hd'⟩
    rw [List.append_assoc] at hrun'
    exact hrun'

theorem pure {a : α} {allows : List Exchange → Except Error α → Prop} (h : allows [] (.ok a)) :
    Traces (Pure.pure a : Verifying σ α) (Pure.pure a) allows :=
  fun s log => ⟨[], by rw [List.append_nil]; rfl, h⟩

/-- A failure is the result, without any dialogue. -/
theorem throw {e : Error} {allows : List Exchange → Except Error α → Prop}
    (h : allows [] (.error e)) : Traces (throw e : Verifying σ α) (throw e) allows :=
  fun s log => ⟨[], by rw [List.append_nil]; rfl, h⟩

/-- A failure that is caught is a result like any other. -/
theorem caught {allows : List Exchange → Except Error α → Prop} (h : Traces c c' allows) :
    Traces (ExceptT.mk (.ok <$> c.run)) (ExceptT.mk (.ok <$> c'.run))
      fun d r => ∃ result, r = .ok result ∧ allows d result := by
  intro s log
  obtain ⟨d, hrun, hd⟩ := h s log
  refine ⟨d, ?_, (c.run.run s).1, rfl, hd⟩
  simp only [ExceptT.run_mk, StateT.run_map, hrun]
  rfl

/-- A step leaves its exchange on record. -/
theorem ofSolving {step : Solving σ α} {entry : Except SolverError α → Exchange}
    {allows : List Exchange → Except Error α → Prop}
    (hfail : ∀ e, allows [entry (.error e)] (.error (.solver e)))
    (hok : ∀ a, allows [entry (.ok a)] (.ok a)) :
    Traces (Verifying.ofSolving step) (Verifying.ofSolving (record step entry)) allows := by
  have hstep : Traces (Verifying.ofSolving step) (Verifying.ofSolving (record step entry))
      fun d r => ∃ answer, d = [entry answer] ∧ r = answer.mapError .solver :=
    fun s log => ⟨[entry (step.run.run s).1], rfl, _, rfl, rfl⟩
  refine hstep.mono ?_
  rintro d r ⟨e | a, rfl, rfl⟩
  · exact hfail e
  · exact hok a

/-- A step with what follows it, which is nothing if the step fails. -/
theorem step {step : Solving σ α} {entry : Except SolverError α → Exchange}
    {allows : List Exchange → Except Error β → Prop}
    (hfail : ∀ e, allows [entry (.error e)] (.error (.solver e)))
    (hok : ∀ a, Traces (f a) (f' a) fun d r => allows (entry (.ok a) :: d) r) :
    Traces (Verifying.ofSolving step >>= f) (Verifying.ofSolving (record step entry) >>= f')
      allows := by
  have hstep : Traces (Verifying.ofSolving step) (Verifying.ofSolving (record step entry))
      fun d r => (∃ e, d = [entry (.error e)] ∧ r = .error (.solver e)) ∨
        ∃ a, d = [entry (.ok a)] ∧ r = .ok a :=
    ofSolving (fun e => Or.inl ⟨e, rfl, rfl⟩) fun a => Or.inr ⟨a, rfl, rfl⟩
  refine hstep.bind ?_ ?_
  · rintro d e (⟨e, rfl, he⟩ | ⟨a, rfl, ha⟩)
    · cases he
      exact hfail e
    · cases ha
  · rintro d a (⟨e, rfl, he⟩ | ⟨a, rfl, ha⟩)
    · cases he
    · cases ha
      exact hok a

end Traces

end Precond
