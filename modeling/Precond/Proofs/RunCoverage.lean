import Mathlib.Tactic
import Precond.Proofs.ModuleScopes
import Precond.Proofs.PreparedFunctions
import Precond.Smt.Process

/-!
# Every marked function is verified once

A run over a module that was read reports each marked function of the text once, in the order of the
text and under the name of its scope (`Run.covers_of_load`). A run goes through the names of the
scopes and looks each scope up, which makes no difference (`Run.verifyNames_map_name`).

A solver is `Smt.Backend.Afresh` if what it does for a function does not depend on what happened
before it was started. With such a solver the result of a run does not depend on the state in which
it begins (`Run.forgets_verifyInOrder`), so the scopes can be verified one by one.
-/

namespace Precond

open Smt

variable {σ α β : Type}

/-! ## Reports -/

/-- Each finding is counted once. -/
theorem Report.sum_count (r : Report) :
    r.count .verified + r.count .violated + r.count .unknown + r.count .error =
      r.findings.length := by
  obtain ⟨findings⟩ := r
  simp only [count]
  induction findings with
  | nil => rfl
  | cons x findings ih =>
    simp only [List.countP_cons, List.length_cons, ← ih]
    cases x.status <;> simp <;> omega

theorem Visit.place_finding (v : Visit) :
    (v.finding.scope, v.finding.function) = (v.scope, v.subject.name) := by
  unfold Visit.finding
  cases v.result with
  | ok => rfl
  | error e => cases e <;> rfl

/-! ## Solvers that start afresh -/

/-- From states that are related by `pre` the computation comes to the same, and to states that are
related by `post` unless it fails. -/
def Carries {ε : Type} (pre post : σ → σ → Prop) (c : ExceptT ε (StateM σ) α) : Prop :=
  ∀ s s', pre s s' → (c.run.run s).1 = (c.run.run s').1 ∧
    ∀ a, (c.run.run s).1 = .ok a → post (c.run.run s).2 (c.run.run s').2

/-- Any two states. -/
def Anyhow (_ _ : σ) : Prop := True

/-- A solver that is started begins afresh: whether it starts does not depend on the state before,
and from then on its answers depend only on what is said to it. States are `alike` if the solver
goes on from them in the same way. -/
structure Smt.Backend.Afresh (backend : Backend σ) (alike : σ → σ → Prop) : Prop where
  spawn : Carries Anyhow alike backend.spawn
  tell : ∀ command, Carries alike alike (backend.tell command)
  check : Carries alike alike backend.check
  model : Carries alike alike backend.model

namespace Carries

variable {ε : Type} {pre mid post : σ → σ → Prop} {c : ExceptT ε (StateM σ) α}
  {f : α → ExceptT ε (StateM σ) β}

theorem pure (a : α) : Carries pre pre (Pure.pure a : ExceptT ε (StateM σ) α) :=
  fun _ _ h => ⟨rfl, fun _ _ => h⟩

theorem throw (e : ε) : Carries pre post (MonadExcept.throw e : ExceptT ε (StateM σ) α) :=
  fun _ _ _ => ⟨rfl, nofun⟩

theorem mk (r : Except ε α) : Carries pre pre (ExceptT.mk (Pure.pure r) : ExceptT ε (StateM σ) α) :=
  fun _ _ h => ⟨rfl, fun _ _ => h⟩

theorem ofSolving {step : Solving σ α} (h : Carries pre post step) :
    Carries pre post (Verifying.ofSolving step) := by
  intro s s' hpre
  obtain ⟨hsame, hpost⟩ := h s s' hpre
  refine ⟨congrArg (·.mapError Error.solver) hsame, fun a ha => ?_⟩
  change (step.run.run s).1.mapError Error.solver = .ok a at ha
  cases hstep : (step.run.run s).1 with
  | ok b => exact hpost b hstep
  | error e =>
    rw [hstep] at ha
    cases ha

/-- Computations in a row carry the relation through. -/
theorem bind (hc : Carries pre mid c) (hf : ∀ a, Carries mid post (f a)) :
    Carries pre post (c >>= f) := by
  intro s s' hpre
  obtain ⟨hsame, hmid⟩ := hc s s' hpre
  rw [ExceptT.run_bind, StateT.run_bind, StateT.run_bind]
  rcases hs : c.run.run s with ⟨e | a, t⟩ <;> rcases hs' : c.run.run s' with ⟨e' | a', t'⟩ <;>
    simp only [hs, hs'] at hsame hmid
  · exact ⟨hsame ▸ rfl, nofun⟩
  · cases hsame
  · cases hsame
  · cases hsame
    exact hf a t t' (hmid a rfl)

/-- What is done for each member of a list carries the relation through if each of them does. -/
theorem forM {γ : Type} {l : List γ} {f : γ → ExceptT ε (StateM σ) PUnit}
    (hf : ∀ x, Carries pre pre (f x)) : Carries pre pre (l.forM f) := by
  induction l with
  | nil => exact pure _
  | cons x l ih => exact (hf x).bind fun _ => ih

/-- The state between two computations does not matter if the second one may begin in any state. -/
theorem fst_run_bind {c : Verifying σ α} {f : α → Verifying σ β}
    (hf : ∀ a, Carries Anyhow post (f a)) (s s' : σ) :
    ((c >>= f).run.run s).1 = (c.run.run s).1 >>= fun a => ((f a).run.run s').1 := by
  rw [Verifying.run_bind]
  rcases c.run.run s with ⟨_ | a, t⟩
  · rfl
  · exact (hf a t s' trivial).1

end Carries

/-- An obligation is discharged in the same way from states that are alike. -/
theorem Prepared.carries_discharge1 {backend : Backend σ} {alike : σ → σ → Prop}
    (h : backend.Afresh alike) (p : Prepared) (o : Obligation) (t : Term) :
    Carries alike alike (p.discharge1 backend o t) := by
  have htell := fun command => (h.tell command).ofSolving
  refine (htell _).bind fun _ => (htell _).bind fun _ => h.check.ofSolving.bind fun verdict => ?_
  cases verdict with
  | unsat => exact htell _
  | sat => exact h.model.ofSolving.bind fun _ => (htell _).bind fun _ => .throw _
  | unknown => exact (htell _).bind fun _ => .throw _

/-- A function is discharged in the same way from states that are alike. -/
theorem Prepared.carries_discharge {backend : Backend σ} {alike : σ → σ → Prop}
    (h : backend.Afresh alike) (p : Prepared) : Carries alike alike (p.discharge backend) := by
  refine (Carries.mk p.encoded).bind ?_
  rintro ⟨declarations, goals⟩
  have hdeclared : Carries alike alike
      (declarations.forM fun d => Verifying.ofSolving (backend.tell (.declare d))) :=
    .forM fun d => (h.tell _).ofSolving
  have hgoals : Carries alike alike
      (goals.forM fun goal => p.discharge1 backend goal.1 goal.2) :=
    .forM fun goal => p.carries_discharge1 h goal.1 goal.2
  exact hdeclared.bind fun _ => hgoals.bind fun _ => .pure _

namespace Run

variable {run : Run σ} {alike : σ → σ → Prop}

/-- As a solver is started for it, a function is verified in the same way from any states. -/
theorem carries_verifySubject (h : run.backend.Afresh alike) (f : Host.Subject) :
    Carries Anyhow alike (run.verifySubject f) :=
  (Carries.mk _).bind fun p => h.spawn.ofSolving.bind fun _ => p.carries_discharge h

/-- What is found out about a function does not depend on the state. -/
theorem carries_finding (h : run.backend.Afresh alike) (scope : String) (f : Host.Subject) :
    Carries Anyhow Anyhow (run.finding scope f) := by
  have hcaught : Carries Anyhow Anyhow
      (ExceptT.mk (.ok <$> (run.verifySubject f).run) : Verifying σ (Except Error Nat)) :=
    fun s s' hs => ⟨congrArg Except.ok (carries_verifySubject h f s s' hs).1, fun _ _ => trivial⟩
  refine hcaught.bind fun result => ?_
  cases result with
  | ok proven => exact .pure _
  | error e =>
    dsimp only
    split_ifs
    · exact .throw e
    · exact .pure _

/-- What a run over some functions comes to does not depend on the state in which it begins. -/
theorem carries_verifyInOrder (h : run.backend.Afresh alike)
    (fs : List (String × Host.Subject)) : Carries Anyhow Anyhow (run.verifyInOrder fs) := by
  induction fs with
  | nil => exact .pure _
  | cons p fs ih => exact (carries_finding h p.1 p.2).bind fun _ => ih.bind fun _ => .pure _

theorem carries_verifySubjects (h : run.backend.Afresh alike) (scope : String)
    (fs : List Host.Subject) : Carries Anyhow Anyhow (run.verifySubjects scope fs) := by
  rw [verifySubjects_eq]
  exact carries_verifyInOrder h _

/-- What is found out about some scopes does not depend on the state. -/
theorem carries_verifyScopes (h : run.backend.Afresh alike) (scopes : List Host.Scope) :
    Carries Anyhow Anyhow (run.verifyScopes scopes) := by
  rw [verifyScopes_eq]
  exact carries_verifyInOrder h _

/-! ## Scopes one by one -/

/-- With a solver that starts afresh, the scopes can be verified one by one, from any states. -/
theorem fst_run_verifyScopes (h : run.backend.Afresh alike) {scopes : List Host.Scope}
    (hscopes : ∀ s ∈ scopes, s ∈ run.module.scopes) (start : Host.Scope → σ) (s : σ) :
    ((run.verifyScopes scopes).run.run s).1 =
      (scopes.mapM fun scope => ((run.verifyScope scope.name).run.run (start scope)).1).map
        fun reports => reports.flatMap (·.findings) := by
  induction scopes with
  | nil => rfl
  | cons scope scopes ih =>
    rw [List.forall_mem_cons] at hscopes
    have hscope : ((run.verifyScope scope.name).run.run (start scope)).1 =
        ((run.verifySubjects scope.name scope.subjects).run.run s).1.map Report.mk := by
      have hsame := (carries_verifySubjects h scope.name scope.subjects (start scope) s trivial).1
      have hone : run.verifyScopes [scope] = run.verifySubjects scope.name scope.subjects := by
        simp [verifyScopes]
      rw [verifyScope_eq (Host.Module.scope?_name hscopes.1), hone, ← hsame,
        Carries.fst_run_bind (fun findings => Carries.pure _) (start scope) s]
      cases ((run.verifySubjects scope.name scope.subjects).run.run (start scope)).1 <;> rfl
    rw [verifyScopes, Carries.fst_run_bind (fun first => (carries_verifyScopes h scopes).bind
      fun rest => .pure _) s s]
    simp only [Carries.fst_run_bind (fun rest => Carries.pure _) s s, ih hscopes.2]
    rw [List.mapM_cons, hscope]
    cases ((run.verifySubjects scope.name scope.subjects).run.run s).1 with
    | error e => rfl
    | ok first =>
      cases scopes.mapM fun scope => ((run.verifyScope scope.name).run.run (start scope)).1 <;> rfl

/-! ## What is reported -/

/-- A report has one entry for each function, in the order of the program. -/
theorem places_of_verifyAll {s : σ} {report : Report}
    (h : (run.verifyAll.run.run s).1 = .ok report) :
    report.findings.map (fun x => (x.scope, x.function)) =
      run.module.functions.map fun p => (p.1, p.2.name) := by
  have hresult : run.resultIn run.mode s = .ok report := h
  rw [← (resultIn_eq_ok.1 hresult).2, List.map_map]
  conv_rhs => rw [← run.map_visits run.module.functions (s, []), List.map_map]
  exact List.map_congr_left fun v _ => Visit.place_finding v

/-- The run verifies the expected functions, each once, under the name of its scope. -/
structure Covers (run : Run σ) (expected : List (String × Host.Function)) : Prop where
  /-- It does not matter that a scope is looked up by its name. -/
  byName : run.verifyNames (run.module.scopes.map (·.name)) = run.verifyScopes run.module.scopes
  entries : ∀ s report, (run.verifyAll.run.run s).1 = .ok report →
    report.findings.map (fun x => (x.scope, x.function)) =
      expected.map fun p => (p.1, p.2.name.node)
  counts : ∀ s report, (run.verifyAll.run.run s).1 = .ok report →
    report.count .verified + report.count .violated + report.count .unknown +
      report.count .error = expected.length
  /-- With a solver that starts afresh, the report is put together from the reports of the scopes,
  in whatever states these are verified. -/
  scopewise : ∀ alike, run.backend.Afresh alike → ∀ (start : Host.Scope → σ) s,
    (run.verifyAll.run.run s).1 =
      (run.module.scopes.mapM fun scope =>
        ((run.verifyScope scope.name).run.run (start scope)).1).map
          fun reports => ⟨reports.flatMap (·.findings)⟩

/-- A run over the module of a program covers its marked functions. -/
theorem covers_of_holds {defaultScope : String} {items : List Host.Item}
    (h : run.module.Holds defaultScope items) : run.Covers (Host.marked defaultScope [] items) := by
  have hplaces : run.module.functions.map (fun p => (p.1, p.2.name)) =
      (Host.marked defaultScope [] items).map fun p => (p.1, p.2.name.node) := by
    rw [← List.forall₂_eq_eq_eq, List.forall₂_map_left_iff, List.forall₂_map_right_iff]
    exact h.functions.imp fun p q hpq => Prod.ext hpq.1 hpq.2.name
  refine ⟨run.verifyNames_map_name _ fun s hs => hs, fun s report hreport => ?_, fun s report hreport => ?_, ?_⟩
  · rw [places_of_verifyAll hreport, hplaces]
  · rw [report.sum_count]
    have hlength := congrArg List.length ((places_of_verifyAll hreport).trans hplaces)
    simpa using hlength
  · intro alike hafresh start s
    rw [verifyAll_eq, Carries.fst_run_bind (fun findings => Carries.pure _) s s,
      fst_run_verifyScopes hafresh (fun scope hscope => hscope) start s]
    cases run.module.scopes.mapM fun scope =>
      ((run.verifyScope scope.name).run.run (start scope)).1 <;> rfl

end Run

/-! ## Solver processes -/

namespace Smt.Conversation

/-- The process has the same lines yet to write. -/
def SameUnread (c c' : Conversation) : Prop := c.unread = c'.unread

theorem carries_send (line : String) : Carries SameUnread SameUnread (send line) :=
  fun _ _ h => ⟨rfl, fun _ _ => h⟩

theorem carries_receive : Carries SameUnread SameUnread receive := by
  rintro ⟨unread, traffic⟩ ⟨_, traffic'⟩ ⟨⟩
  cases unread with
  | nil => exact ⟨rfl, nofun⟩
  | cons line unread => exact ⟨rfl, fun _ _ => rfl⟩

theorem carries_command (line : String) : Carries SameUnread SameUnread (command line) := by
  refine (carries_send line).bind fun _ => carries_receive.bind fun answer => ?_
  split_ifs
  · exact .pure ()
  · exact .throw _

/-- The answer over several lines depends on the lines that are yet to come only. -/
theorem carries_receiveBalanced (depth : Int) (text : List Char) (n : Nat) :
    Carries SameUnread SameUnread (receiveBalanced depth text n) := by
  induction n generalizing depth text with
  | zero => exact .throw _
  | succ n ih =>
    refine carries_receive.bind fun line => ?_
    dsimp only
    split_ifs
    · exact .pure _
    · exact ih _ _

theorem carries_receiveSexp : Carries SameUnread SameUnread receiveSexp := by
  intro c c' h
  have hrun : ∀ c : Conversation, receiveSexp.run.run c =
      (receiveBalanced 0 [] (c.unread.length + 1)).run.run c := fun _ => rfl
  rw [hrun, hrun, h]
  exact carries_receiveBalanced 0 [] _ c c' h

theorem carries_check : Carries SameUnread SameUnread check := by
  refine (carries_send _).bind fun _ => carries_receive.bind fun answer => ?_
  split
  · exact .pure _
  · exact .pure _
  · exact ((carries_send _).bind fun _ => carries_receiveSexp.bind fun _ => .pure _).bind
      fun _ => .pure _
  · exact .pure _
  · exact .throw _

theorem carries_model : Carries SameUnread SameUnread Conversation.model := by
  refine (carries_send _).bind fun _ => carries_receiveSexp.bind fun text => ?_
  split_ifs
  · exact .throw _
  · exact .mk _

/-- A process is started in the same way whatever was said before, and then has the same lines to
write. -/
theorem carries_start (path : String) (timeout : Option Nat) (output : Except String String) :
    Carries Anyhow SameUnread (start path timeout output) := by
  cases output with
  | error reason => exact .throw _
  | ok text =>
    have hbegin : Carries Anyhow SameUnread
        (modify fun c => { c with unread := Text.splitLines text.toList } :
          Solving Conversation Unit) :=
      fun _ _ _ => ⟨rfl, fun _ _ => rfl⟩
    refine hbegin.bind fun _ => (carries_command _).bind fun _ => (carries_command _).bind
      fun _ => ?_
    cases timeout with
    | none => exact .pure _
    | some ms => exact carries_command _

end Smt.Conversation

/-- A process starts afresh: what it does depends only on the lines that it writes. -/
theorem Smt.afresh_process (path : String) (timeout : Option Nat) (output : Except String String) :
    (process path timeout output).Afresh Conversation.SameUnread where
  spawn := Conversation.carries_start path timeout output
  tell _ := Conversation.carries_command _
  check := Conversation.carries_check
  model := Conversation.carries_model

/-! ## Programs -/

namespace Run

open Host

/-- A module that was read holds the marked functions of the text, each in the scope that was opened
last before it, and a run over it verifies each of them once. -/
theorem covers_of_load {source defaultScope : String} {m : Module}
    (h : Module.load source defaultScope = .ok m) :
    ∃ items, parseItems source = .ok items ∧ m.Holds defaultScope items ∧
      ∀ {σ : Type} (run : Run σ), run.module = m → run.Covers (marked defaultScope [] items) := by
  obtain ⟨items, hitems, hholds⟩ := Module.holds_of_load h
  refine ⟨items, hitems, hholds, fun run hrun => covers_of_holds ?_⟩
  rwa [hrun]

/-- A program with an empty scope, a function without a mark, and a name in two scopes. -/
def threeScopes : String :=
  "@verify()\ndef f(): pass\ndef h(): pass\nscope(\"a\")\nscope(\"b\")\n@verify()\ndef f(): pass\n"

/-- Whether a module was read that has the given functions in scopes of the given names. -/
def readsAs (r : Except Error Module) (functions : List (String × String)) : Bool :=
  match r with
  | .ok m => m.functions.map (fun p => (p.1, p.2.name)) = functions
  | .error _ => false

/-- The program has two marked functions, which a run covers. -/
theorem covers_threeScopes : ∃ m items, Module.load threeScopes "main" = .ok m ∧
    m.functions.map (fun p => (p.1, p.2.name)) = [("main", "f"), ("b", "f")] ∧
    parseItems threeScopes = .ok items ∧ m.Holds "main" items ∧
    ∀ output, let run : Run Conversation := ⟨m, .collect, [], process "z3" none output⟩
      run.Covers (marked "main" [] items) ∧ ∀ (start : Scope → Conversation) s,
        (run.verifyAll.run.run s).1 = (m.scopes.mapM fun scope =>
          ((run.verifyScope scope.name).run.run (start scope)).1).map
            fun reports => ⟨reports.flatMap (·.findings)⟩ := by
  have hreads : readsAs (Module.load threeScopes "main") [("main", "f"), ("b", "f")] = true := by
    rw [threeScopes, Module.load_ofList]
    decide +kernel
  cases hload : Module.load threeScopes "main" with
  | error e => simp [hload, readsAs] at hreads
  | ok m =>
    obtain ⟨items, hitems, hholds, hcovers⟩ := covers_of_load hload
    have hfunctions : m.functions.map (fun p => (p.1, p.2.name)) = [("main", "f"), ("b", "f")] := by
      simpa [hload, readsAs] using hreads
    refine ⟨m, items, rfl, hfunctions, hitems, hholds, fun output => ?_⟩
    have hrun := hcovers ⟨m, .collect, [], process "z3" none output⟩ rfl
    exact ⟨hrun, hrun.scopewise _ (afresh_process "z3" none output)⟩

end Run

end Precond
