import Mathlib.Tactic
import Precond.Proofs.DischargeProtocol

/-!
# The two modes of a run

A run gets to the functions of a module in one order, whatever its mode. `Run.visits` is what
happens if each of them is verified in turn, whatever comes of the ones before it. A run goes
through these visits up to the first one that ends it (`Run.reached`), which a failure does after
which going on makes no sense, or in fail-fast mode any failure; its result can be read off them
(`Run.conclusion`). Since the visits do not depend on the mode (`Run.visits_inMode`), two runs that
differ in their mode alone are compared by looking at one list.
-/

namespace Precond

open Smt

variable {σ : Type}

/-- The functions of a module with the names of their scopes, in the order of the program. -/
def Host.Module.functions (m : Host.Module) : List (String × Host.Subject) :=
  Host.functionsOf m.scopes

/-- If the first of two computations fails, the second one is left out. -/
theorem Verifying.run_bind {α β : Type} (c : Verifying σ α) (f : α → Verifying σ β)
    (s : σ) :
    (c >>= f).run.run s =
      match c.run.run s with
      | (.ok a, s') => (f a).run.run s'
      | (.error e, s') => (.error e, s') := by
  rw [ExceptT.run_bind, StateT.run_bind]
  rcases c.run.run s with ⟨_ | _, _⟩ <;> rfl

theorem Finding.status_ofError_ne {scope function : String} {e : Error} :
    (Finding.ofError scope function e).status ≠ .verified := by
  cases e <;> simp [Finding.ofError]

/-- The first of the functions that the report does not show as verified is recorded with the
error `e`. -/
def Report.FirstFailure (report : Report) (functions : List (String × Host.Subject)) (e : Error) :
    Prop :=
  ∃ before scope f after front back, functions = before ++ (scope, f) :: after ∧
    report.findings = front ++ Finding.ofError scope f.name e :: back ∧
    front.length = before.length ∧ (∀ x ∈ front, x.status = .verified) ∧
    (Finding.ofError scope f.name e).status ≠ .verified

namespace Run

/-- The run in the given mode. -/
def inMode (run : Run σ) (mode : RunMode) : Run σ := { run with mode }

/-! ## Visits in turn -/

/-- What comes of a function that is verified by a recorded solver, and the solver after it. The
dialogue is what is new on record. -/
def visit (run : Run σ) (scope : String) (f : Host.Subject) (s : σ × List Exchange) :
    Visit × (σ × List Exchange) :=
  let (result, s') := (run.recorded.verifySubject f).run.run s
  (⟨scope, f, s'.2.drop s.2.length, result⟩, s')

/-- What comes of functions that are verified in turn, whatever comes of the ones before them. -/
def visits (run : Run σ) : List (String × Host.Subject) → σ × List Exchange → List Visit
  | [], _ => []
  | (scope, f) :: fs, s => (run.visit scope f s).1 :: run.visits fs (run.visit scope f s).2

/-- The failure of a visit, if it ends the run. -/
def ending? (run : Run σ) (v : Visit) : Option Error :=
  match v.result with
  | .ok _ => none
  | .error e => if run.endsWith e then some e else none

/-- The visits up to the first one that ends the run. -/
def reached (run : Run σ) : List Visit → List Visit
  | [] => []
  | v :: vs => if (run.ending? v).isSome then [v] else v :: run.reached vs

/-- What the run comes to, if these are the visits. -/
def conclusion (run : Run σ) (visits : List Visit) : Except Error (List Finding) :=
  match visits.findSome? run.ending? with
  | some e => .error e
  | none => .ok (visits.map Visit.finding)

variable {run : Run σ} {fs : List (String × Host.Subject)} {s : σ × List Exchange}

/-- The visits of all functions do not depend on the mode. -/
theorem visits_inMode (run : Run σ) (mode : RunMode) (fs : List (String × Host.Subject))
    (s : σ × List Exchange) : (run.inMode mode).visits fs s = run.visits fs s := by
  induction fs generalizing s with
  | nil => rfl
  | cons p fs ih => exact congrArg _ (ih _)

/-- Every function is visited, in order. -/
theorem map_visits (run : Run σ) (fs : List (String × Host.Subject)) (s : σ × List Exchange) :
    (run.visits fs s).map (fun v => (v.scope, v.subject)) = fs := by
  induction fs generalizing s with
  | nil => rfl
  | cons p fs ih => exact congrArg _ (ih _)

/-- A visit follows the protocol, and its dialogue is added to what is on record. -/
theorem visit_spec (run : Run σ) (scope : String) (f : Host.Subject) (s : σ × List Exchange) :
    (run.visit scope f s).1.Follows run.accepted ∧
      (run.visit scope f s).2.2 = s.2 ++ (run.visit scope f s).1.dialogue := by
  obtain ⟨d, hrun, hd⟩ := traces_verifySubject run scope f s.1 s.2
  have hvisit : run.visit scope f s = (⟨scope, f, d, ((run.verifySubject f).run.run s.1).1⟩,
      ((run.verifySubject f).run.run s.1).2, s.2 ++ d) := by
    simp [visit, hrun]
  rw [hvisit]
  exact ⟨hd, rfl⟩

/-- Each visit follows the protocol. -/
theorem follows_of_mem_visits {v : Visit} (hv : v ∈ run.visits fs s) :
    v.Follows run.accepted := by
  induction fs generalizing s with
  | nil => cases hv
  | cons p fs ih =>
    rcases List.mem_cons.1 hv with rfl | hv
    · exact (run.visit_spec p.1 p.2 s).1
    · exact ih hv

/-! ## What a run comes to -/

/-- What is found out about some functions. -/
def verifyInOrder (run : Run σ) : List (String × Host.Subject) → Verifying σ (List Finding)
  | [] => return []
  | (scope, f) :: fs => do
    let finding ← run.finding scope f
    let findings ← verifyInOrder run fs
    return finding :: findings

/-- Functions are verified in order, so a list may be split. -/
theorem verifyInOrder_append (run : Run σ) (fs gs : List (String × Host.Subject)) :
    run.verifyInOrder (fs ++ gs) = (do
      let first ← run.verifyInOrder fs
      let rest ← run.verifyInOrder gs
      return first ++ rest) := by
  induction fs with
  | nil => simp [verifyInOrder]
  | cons p fs ih => simp [verifyInOrder, ih]

theorem verifySubjects_eq (run : Run σ) (scope : String) (fs : List Host.Subject) :
    run.verifySubjects scope fs = run.verifyInOrder (fs.map fun f => (scope, f)) := by
  induction fs with
  | nil => rfl
  | cons f fs ih => simp [verifySubjects, verifyInOrder, ih]

/-- Scopes are verified function by function. -/
theorem verifyScopes_eq (run : Run σ) (scopes : List Host.Scope) :
    run.verifyScopes scopes = run.verifyInOrder (Host.functionsOf scopes) := by
  induction scopes with
  | nil => rfl
  | cons s ss ih =>
    rw [verifyScopes, verifySubjects_eq, ih, Host.functionsOf_cons, verifyInOrder_append]

/-- The visit of a function decides what is found out about it. -/
theorem finding_run (run : Run σ) (scope : String) (f : Host.Subject) (s : σ × List Exchange) :
    (run.recorded.finding scope f).run.run s =
      ((run.ending? (run.visit scope f s).1).elim
        (.ok (run.visit scope f s).1.finding) .error, (run.visit scope f s).2) := by
  have hcaught : (ExceptT.mk (.ok <$> (run.recorded.verifySubject f).run) :
      Verifying (σ × List Exchange) _).run.run s =
        (.ok (run.visit scope f s).1.result, (run.visit scope f s).2) := rfl
  rw [finding, Verifying.run_bind, hcaught, ending?, Visit.finding]
  cases (run.visit scope f s).1.result with
  | ok n => rfl
  | error e =>
    have hends : run.recorded.endsWith e = run.endsWith e := rfl
    simp only [hends]
    cases run.endsWith e <;> rfl

/-- The first visit that ends the run is what the run comes to. -/
theorem conclusion_cons_of_ending {v : Visit} {e : Error} (h : run.ending? v = some e)
    (vs : List Visit) : run.conclusion (v :: vs) = .error e := by
  simp only [conclusion, List.findSome?_cons, h]

theorem conclusion_cons {v : Visit} (h : run.ending? v = none) (vs : List Visit) :
    run.conclusion (v :: vs) = (run.conclusion vs).map (v.finding :: ·) := by
  simp only [conclusion, List.findSome?_cons, h]
  cases vs.findSome? run.ending? <;> rfl

/-- A run over some functions goes through their visits up to the first one that ends it. -/
theorem verifyInOrder_run (run : Run σ) (fs : List (String × Host.Subject))
    (s : σ × List Exchange) :
    ∃ t, (run.recorded.verifyInOrder fs).run.run s =
      (run.conclusion (run.visits fs s),
        (t, s.2 ++ (run.reached (run.visits fs s)).flatMap (·.dialogue))) := by
  induction fs generalizing s with
  | nil => exact ⟨s.1, by simp only [visits, reached, List.flatMap_nil, List.append_nil]; rfl⟩
  | cons p fs ih =>
    obtain ⟨scope, f⟩ := p
    have hlog := (run.visit_spec scope f s).2
    rw [verifyInOrder, Verifying.run_bind, finding_run, visits, reached]
    cases hv : run.ending? (run.visit scope f s).1 with
    | some e =>
      refine ⟨(run.visit scope f s).2.1, ?_⟩
      rw [conclusion_cons_of_ending hv, Option.isSome_some, if_pos rfl, List.flatMap_singleton,
        ← hlog]
      rfl
    | none =>
      obtain ⟨t, ht⟩ := ih (run.visit scope f s).2
      refine ⟨t, ?_⟩
      rw [conclusion_cons hv, Option.isSome_none, if_neg Bool.false_ne_true, List.flatMap_cons,
        ← List.append_assoc, ← hlog]
      simp only [Option.elim_none, Verifying.run_bind, ht]
      cases run.conclusion (run.visits fs (run.visit scope f s).2) <;> rfl

/-- What a run over some scopes comes to, and what is on record then, can be read off its visits. -/
theorem verifyScopes_run (run : Run σ) (scopes : List Host.Scope) (s : σ) :
    ((do return ⟨← run.verifyScopes scopes⟩ : Verifying σ Report).run.run s).1 =
        (run.conclusion (run.visits (Host.functionsOf scopes) (s, []))).map Report.mk ∧
      ((do return ⟨← run.recorded.verifyScopes scopes⟩ :
          Verifying (σ × List Exchange) Report).run.run (s, [])).2.2 =
        (run.reached (run.visits (Host.functionsOf scopes) (s, []))).flatMap (·.dialogue) := by
  obtain ⟨t, ht⟩ := verifyInOrder_run run (Host.functionsOf scopes) (s, [])
  have hrecorded : (do return ⟨← run.recorded.verifyScopes scopes⟩ :
      Verifying (σ × List Exchange) Report).run.run (s, []) =
      ((run.conclusion (run.visits (Host.functionsOf scopes) (s, []))).map Report.mk,
        (t, (run.reached (run.visits (Host.functionsOf scopes) (s, []))).flatMap
          (·.dialogue))) := by
    have hscopes : run.recorded.verifyScopes scopes =
        run.recorded.verifyInOrder (Host.functionsOf scopes) := verifyScopes_eq _ _
    rw [hscopes, Verifying.run_bind, ht]
    cases run.conclusion (run.visits (Host.functionsOf scopes) (s, [])) <;> rfl
  obtain ⟨d, hplain, -⟩ := traces_report run scopes s []
  refine ⟨?_, congrArg (·.2.2) hrecorded⟩
  exact (congrArg Prod.fst hplain).symm.trans (congrArg Prod.fst hrecorded)

/-- What all scopes come to is told by the visits, and the dialogue is that of the visits that were
reached. -/
theorem verifyAll_run (run : Run σ) (s : σ) :
    (run.verifyAll.run.run s).1 =
        (run.conclusion (run.visits run.module.functions (s, []))).map Report.mk ∧
      (run.recorded.verifyAll.run.run (s, [])).2.2 =
        (run.reached (run.visits run.module.functions (s, []))).flatMap (·.dialogue) := by
  rw [verifyAll_eq, verifyAll_eq]
  exact run.verifyScopes_run run.module.scopes s

/-- A run ends early at the first visit that ends it. -/
theorem conclusion_eq_error {vs : List Visit} {e : Error} :
    run.conclusion vs = .error e ↔ ∃ before v after, vs = before ++ v :: after ∧
      run.ending? v = some e ∧ ∀ u ∈ before, run.ending? u = none := by
  rw [← List.findSome?_eq_some_iff, conclusion]
  cases vs.findSome? run.ending? <;> simp

/-- A run that does not end early reports on all visits. -/
theorem conclusion_eq_ok {vs : List Visit} {findings : List Finding} :
    run.conclusion vs = .ok findings ↔
      (∀ v ∈ vs, run.ending? v = none) ∧ vs.map Visit.finding = findings := by
  rw [← List.findSome?_eq_none_iff, conclusion]
  cases vs.findSome? run.ending? <;> simp

/-- Nothing is reached behind the visit that ends the run. -/
theorem reached_append {before after : List Visit} {v : Visit} {e : Error}
    (hbefore : ∀ u ∈ before, run.ending? u = none) (hv : run.ending? v = some e) :
    run.reached (before ++ v :: after) = before ++ [v] := by
  induction before with
  | nil => simp [reached, hv]
  | cons u before ih =>
    rw [List.forall_mem_cons] at hbefore
    simp [reached, hbefore.1, ih hbefore.2]

theorem reached_eq_self {vs : List Visit} (h : ∀ v ∈ vs, run.ending? v = none) :
    run.reached vs = vs := by
  induction vs with
  | nil => rfl
  | cons v vs ih =>
    rw [List.forall_mem_cons] at h
    simp [reached, h.1, ih h.2]

/-! ## The modes -/

theorem ending?_failFast {v : Visit} {e : Error} :
    (run.inMode .failFast).ending? v = some e ↔ v.result = .error e := by
  cases hv : v.result <;> simp [ending?, endsWith, inMode, hv]

/-- Only a fatal failure ends a run that collects failures. -/
theorem ending?_collect {v : Visit} {e : Error} :
    (run.inMode .collect).ending? v = some e ↔ v.result = .error e ∧ e.isFatal = true := by
  cases hv : v.result with
  | ok n => simp [ending?, hv]
  | error e' =>
    simp only [ending?, endsWith, inMode, hv, reduceCtorEq, decide_false, Bool.or_false]
    split_ifs with hfatal
    · simp only [Option.some.injEq, Except.error.injEq]
      exact ⟨fun h => ⟨h, h ▸ hfatal⟩, And.left⟩
    · simp only [Except.error.injEq, false_iff, not_and]
      exact fun h => h ▸ hfatal

/-- Nothing ends a fail-fast run where all functions are verified. -/
theorem ending?_failFast_eq_none {v : Visit} :
    (run.inMode .failFast).ending? v = none ↔ v.finding.status = .verified := by
  cases hv : v.result with
  | ok n => simp [ending?, Visit.finding, hv, Finding.ofProven]
  | error e =>
    simp [ending?, Visit.finding, hv, endsWith, inMode, Finding.status_ofError_ne]

/-- What the run comes to in a mode, from a state of the solver. -/
def resultIn (run : Run σ) (mode : RunMode) (s : σ) : Except Error Report :=
  ((run.inMode mode).verifyAll.run.run s).1

/-- What the run in a mode says to its solvers, and what they answer. -/
def dialogueIn (run : Run σ) (mode : RunMode) (s : σ) : List Exchange :=
  ((run.inMode mode).recorded.verifyAll.run.run (s, [])).2.2

theorem resultIn_eq (run : Run σ) (mode : RunMode) (s : σ) :
    run.resultIn mode s = ((run.inMode mode).conclusion
      (run.visits run.module.functions (s, []))).map Report.mk := by
  rw [← run.visits_inMode mode]
  exact ((run.inMode mode).verifyAll_run s).1

theorem dialogueIn_eq (run : Run σ) (mode : RunMode) (s : σ) :
    run.dialogueIn mode s = ((run.inMode mode).reached
      (run.visits run.module.functions (s, []))).flatMap (·.dialogue) := by
  rw [← run.visits_inMode mode]
  exact ((run.inMode mode).verifyAll_run s).2

theorem map_mk_eq_ok {r : Except Error (List Finding)} {report : Report} :
    r.map Report.mk = .ok report ↔ r = .ok report.findings := by
  obtain ⟨findings⟩ := report
  cases r <;> simp [Except.map]

/-- How the two modes are related, where `visits` are the visits of all functions in turn. -/
structure ModesAgree (run : Run σ) (s : σ) (visits : List Visit) : Prop where
  /-- The functions are visited in the order of the program. -/
  order : visits.map (fun v => (v.scope, v.subject)) = run.module.functions
  follows : ∀ v ∈ visits, v.Follows run.accepted
  /-- A report in which all functions are verified does not depend on the mode. -/
  verified : ∀ report, run.resultIn .collect s = .ok report → report.allVerified = true →
    run.resultIn .failFast s = .ok report ∧
      run.dialogueIn .failFast s = run.dialogueIn .collect s
  /-- The first failure in a report is what a fail-fast run ends with. -/
  failed : ∀ report, run.resultIn .collect s = .ok report → report.allVerified = false →
    ∃ e, report.FirstFailure run.module.functions e ∧ run.resultIn .failFast s = .error e
  /-- Where a run that collects failures ends early, a fail-fast run ends there or before. -/
  fatal : ∀ e, run.resultIn .collect s = .error e → e.isFatal = true ∧
    ∃ before v after, visits = before ++ v :: after ∧ v.result = .error e ∧
      run.dialogueIn .collect s = (before ++ [v]).flatMap (·.dialogue) ∧
      (run.resultIn .failFast s = .error e ∨
        ∃ u ∈ before, ∃ e', u.result = .error e' ∧ run.resultIn .failFast s = .error e')
  /-- A fail-fast run says nothing after the first failure. -/
  silent : ∀ before v after e, visits = before ++ v :: after →
    (∀ u ∈ before, u.finding.status = .verified) → v.result = .error e →
      run.resultIn .failFast s = .error e ∧
        run.dialogueIn .failFast s = (before ++ [v]).flatMap (·.dialogue)
  /-- A run that collects failures and does not end early goes through all visits. -/
  heard : ∀ report, run.resultIn .collect s = .ok report →
    run.dialogueIn .collect s = visits.flatMap (·.dialogue)

variable {s₀ : σ} {visits before after : List Visit} {v : Visit} {e : Error}

/-- A run reports on all visits if none of them ends it. -/
theorem resultIn_eq_ok {mode : RunMode} {report : Report} :
    run.resultIn mode s₀ = .ok report ↔
      (∀ v ∈ run.visits run.module.functions (s₀, []), (run.inMode mode).ending? v = none) ∧
        (run.visits run.module.functions (s₀, [])).map Visit.finding = report.findings := by
  rw [resultIn_eq, map_mk_eq_ok, conclusion_eq_ok]

theorem resultIn_eq_error {mode : RunMode} :
    run.resultIn mode s₀ = .error e ↔ ∃ before v after,
      run.visits run.module.functions (s₀, []) = before ++ v :: after ∧
        (run.inMode mode).ending? v = some e ∧
          ∀ u ∈ before, (run.inMode mode).ending? u = none := by
  rw [resultIn_eq, ← conclusion_eq_error]
  cases (run.inMode mode).conclusion (run.visits run.module.functions (s₀, [])) <;>
    simp [Except.map]

/-- A fail-fast run ends with the first failure, and nothing is said after it. -/
theorem failFast_of_first_failure
    (hvisits : run.visits run.module.functions (s₀, []) = before ++ v :: after)
    (hbefore : ∀ u ∈ before, u.finding.status = .verified) (hv : v.result = .error e) :
    run.resultIn .failFast s₀ = .error e ∧
      run.dialogueIn .failFast s₀ = (before ++ [v]).flatMap (·.dialogue) := by
  have hcontinues : ∀ u ∈ before, (run.inMode .failFast).ending? u = none := fun u hu =>
    ending?_failFast_eq_none.2 (hbefore u hu)
  have hends : (run.inMode .failFast).ending? v = some e := ending?_failFast.2 hv
  refine ⟨resultIn_eq_error.2 ⟨before, v, after, hvisits, hends, hcontinues⟩, ?_⟩
  rw [dialogueIn_eq, hvisits, reached_append hcontinues hends]

/-- Visits that are not all of verified functions have a first one that failed. -/
theorem exists_first_failure (h : ¬∀ v ∈ visits, v.finding.status = .verified) :
    ∃ before v after e, visits = before ++ v :: after ∧
      (∀ u ∈ before, u.finding.status = .verified) ∧ v.result = .error e := by
  induction visits with
  | nil => simp at h
  | cons v vs ih =>
    cases hv : v.result with
    | error e => exact ⟨[], v, vs, e, rfl, by simp, hv⟩
    | ok n =>
      have hverified : v.finding.status = .verified := by
        rw [Visit.finding, hv]
        rfl
      rw [List.forall_mem_cons, not_and] at h
      obtain ⟨before, u, after, e, rfl, hbefore, hu⟩ := ih (h hverified)
      exact ⟨v :: before, u, after, e, rfl, List.forall_mem_cons.2 ⟨hverified, hbefore⟩, hu⟩

/-- A report in which all functions are verified does not depend on the mode. -/
theorem verified_agrees {report : Report} (h : run.resultIn .collect s₀ = .ok report)
    (hverified : report.allVerified = true) :
    run.resultIn .failFast s₀ = .ok report ∧
      run.dialogueIn .failFast s₀ = run.dialogueIn .collect s₀ := by
  obtain ⟨hcollect, hfindings⟩ := resultIn_eq_ok.1 h
  have hfailFast : ∀ v ∈ run.visits run.module.functions (s₀, []),
      (run.inMode .failFast).ending? v = none := by
    intro v hv
    rw [ending?_failFast_eq_none]
    rw [Report.allVerified, ← hfindings, List.all_map, List.all_eq_true] at hverified
    simpa using hverified v hv
  refine ⟨resultIn_eq_ok.2 ⟨hfailFast, hfindings⟩, ?_⟩
  rw [dialogueIn_eq, dialogueIn_eq, reached_eq_self hfailFast, reached_eq_self hcollect]

/-- A fail-fast run ends with the first failure of the report. -/
theorem failed_agrees {report : Report} (h : run.resultIn .collect s₀ = .ok report)
    (hfailed : report.allVerified = false) :
    ∃ e, report.FirstFailure run.module.functions e ∧ run.resultIn .failFast s₀ = .error e := by
  obtain ⟨-, hfindings⟩ := resultIn_eq_ok.1 h
  have hnot : ¬∀ v ∈ run.visits run.module.functions (s₀, []), v.finding.status = .verified := by
    intro hall
    rw [Report.allVerified, ← hfindings, List.all_map, List.all_eq_false] at hfailed
    obtain ⟨v, hv, hstatus⟩ := hfailed
    simp [hall v hv] at hstatus
  obtain ⟨before, v, after, e, hvisits, hbefore, hv⟩ := exists_first_failure hnot
  have horder := run.map_visits run.module.functions (s₀, [])
  have hfinding : v.finding = .ofError v.scope v.subject.name e := by rw [Visit.finding, hv]
  rw [hvisits, List.map_append, List.map_cons] at hfindings horder
  refine ⟨e, ⟨_, v.scope, v.subject, _, before.map Visit.finding, after.map Visit.finding,
    horder.symm, ?_, ?_, ?_, ?_⟩, (failFast_of_first_failure hvisits hbefore hv).1⟩
  · rw [← hfindings, hfinding]
  · simp
  · simpa using hbefore
  · exact Finding.status_ofError_ne

/-- Where a run that collects failures ends early, a fail-fast run ends there or before. -/
theorem fatal_agrees (h : run.resultIn .collect s₀ = .error e) :
    e.isFatal = true ∧ ∃ before v after,
      run.visits run.module.functions (s₀, []) = before ++ v :: after ∧ v.result = .error e ∧
        run.dialogueIn .collect s₀ = (before ++ [v]).flatMap (·.dialogue) ∧
        (run.resultIn .failFast s₀ = .error e ∨
          ∃ u ∈ before, ∃ e', u.result = .error e' ∧ run.resultIn .failFast s₀ = .error e') := by
  obtain ⟨before, v, after, hvisits, hv, hcontinues⟩ := resultIn_eq_error.1 h
  obtain ⟨hresult, hfatal⟩ := ending?_collect.1 hv
  have hdialogue : run.dialogueIn .collect s₀ = (before ++ [v]).flatMap (·.dialogue) := by
    rw [dialogueIn_eq, hvisits, reached_append hcontinues hv]
  refine ⟨hfatal, before, v, after, hvisits, hresult, hdialogue, ?_⟩
  by_cases hbefore : ∀ u ∈ before, u.finding.status = .verified
  · exact Or.inl (failFast_of_first_failure hvisits hbefore hresult).1
  · obtain ⟨earlier, u, later, e', rfl, hearlier, hu⟩ := exists_first_failure hbefore
    refine Or.inr ⟨u, by simp, e', hu, ?_⟩
    rw [List.append_assoc, List.cons_append] at hvisits
    exact (failFast_of_first_failure hvisits hearlier hu).1

/-- The two modes agree on every module and with every solver. -/
theorem modes_agree (run : Run σ) (s : σ) :
    run.ModesAgree s (run.visits run.module.functions (s, [])) where
  order := run.map_visits _ _
  follows _ := follows_of_mem_visits
  verified _ := verified_agrees
  failed _ := failed_agrees
  fatal _ := fatal_agrees
  silent _ _ _ _ := failFast_of_first_failure
  heard _ h := by rw [dialogueIn_eq, reached_eq_self (resultIn_eq_ok.1 h).1]

end Run

end Precond
