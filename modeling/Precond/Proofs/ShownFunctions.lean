import Mathlib.Tactic
import Precond.Cli.Command
import Precond.Proofs.ModuleScopes
import Precond.Proofs.PreparedFunctions

/-!
# Showing functions before a check

A check can be asked to show the functions it is about. They are prepared for this before the run
starts, which prepares them once more. `Cli.Comes` says what a computation comes to and what it adds
to the text that was printed before, and `Cli.AddsOutput` that two computations differ in some text
at the front only. Functions that can be prepared are shown one by one (`Cli.comes_showModule`), so
that a check which shows them differs from one that does not in this way
(`Cli.addsOutput_of_prepared`).

A function that cannot be prepared (`Cli.StopsAt`) ends a check that shows functions, before
anything is verified. The run itself would record it in the report, if failures are collected, and
would end with it in fail-fast mode only if no function before it fails
(`Cli.StopsAt.runReport_failFast`). None of this is a success, so the exit code is the same.
-/

namespace Precond

open Smt Host

variable {σ α β : Type}

/-! ## Computations that print -/

namespace Cli

/-- Whatever was printed before, the computation comes to the result and adds the text. -/
def Comes (c : Printing α) (result : Except Error α) (added : String) : Prop :=
  ∀ text, c.run.run text = (result, text ++ added)

namespace Comes

variable {c : Printing α} {f : α → Printing β}

theorem unique {r r' : Except Error α} {added added' : String} (h : Comes c r added)
    (hother : Comes c r' added') : r = r' ∧ added = added' := by
  obtain ⟨hr, hadded⟩ := Prod.mk.inj ((h "").symm.trans (hother ""))
  exact ⟨hr, by simpa using hadded⟩

theorem pure (a : α) : Comes (Pure.pure a) (.ok a) "" := fun text => by
  rw [String.append_empty]
  rfl

theorem give (r : Except Error α) : Comes (Cli.give r) r "" := fun text => by
  rw [String.append_empty]
  rfl

theorem print (text : String) : Comes (Cli.print text) (.ok ()) text := fun _ => rfl

/-- What two computations in a row print is what the first one prints and then what the second one
does. -/
theorem bind {a : α} {r : Except Error β} {added added' : String} (hc : Comes c (.ok a) added)
    (hf : Comes (f a) r added') : Comes (c >>= f) r (added ++ added') := by
  intro text
  rw [Verifying.run_bind, hc text]
  exact (hf _).trans (by rw [String.append_assoc])

/-- If the first computation fails, the second one is left out. -/
theorem bind_error {e : Error} {added : String} (hc : Comes c (.error e) added) :
    Comes (c >>= f) (.error e) added := by
  intro text
  rw [Verifying.run_bind, hc text]

/-- A value that is given behind a step. -/
theorem bind_pure {a : α} {b : β} {added : String} (hc : Comes c (.ok a) added) :
    Comes (c >>= fun _ => Pure.pure b) (.ok b) added := by
  simpa using hc.bind (f := fun _ => Pure.pure b) (pure b)

/-- A step that prints nothing. -/
theorem give_bind {a : α} {r : Except Error β} {added : String} (hf : Comes (f a) r added) :
    Comes (Cli.give (.ok a) >>= f) r added := by
  simpa using (give (.ok a)).bind hf

/-- A step that is taken only if something is asked for. -/
theorem step {b : Bool} {c : Printing Unit} {d : Printing β} {r : Except Error β}
    (hc : ∃ added, Comes c (.ok ()) added) (hd : ∃ added, Comes d r added) :
    ∃ added, Comes (if b then c >>= fun _ => d else d) r added := by
  obtain ⟨added, hc⟩ := hc
  obtain ⟨added', hd⟩ := hd
  cases b with
  | true => exact ⟨added ++ added', hc.bind hd⟩
  | false => exact ⟨added', hd⟩

variable {γ : Type} {g : γ → Printing Unit}

/-- What is printed for each of some things in turn. -/
theorem forM {xs : List γ} (h : ∀ x ∈ xs, ∃ added, Comes (g x) (.ok ()) added) :
    ∃ added, Comes (xs.forM g) (.ok ()) added := by
  induction xs with
  | nil => exact ⟨"", pure ()⟩
  | cons x xs ih =>
    rw [List.forall_mem_cons] at h
    obtain ⟨added, hx⟩ := h.1
    obtain ⟨added', hxs⟩ := ih h.2
    exact ⟨added ++ added', hx.bind hxs⟩

/-- What is printed in turn, up to the first failure. -/
theorem forM_error {before after : List γ} {x : γ} {e : Error} {added : String}
    (hbefore : ∀ y ∈ before, ∃ added, Comes (g y) (.ok ()) added)
    (hx : Comes (g x) (.error e) added) :
    ∃ added, Comes ((before ++ x :: after).forM g) (.error e) added := by
  induction before with
  | nil => exact ⟨added, hx.bind_error⟩
  | cons y before ih =>
    rw [List.forall_mem_cons] at hbefore
    obtain ⟨first, hy⟩ := hbefore.1
    obtain ⟨rest, hrest⟩ := ih hbefore.2
    exact ⟨first ++ rest, hy.bind hrest⟩

end Comes

/-! ## Functions that are shown -/

/-- The functions that a check is about: those of the scope of a name, or all. -/
def selected (m : Module) (only : Option String) : List (String × Subject) :=
  functionsOf (m.scopes.filter fun s => only.all (s.name = ·))

/-- The options of a check that shows nothing. -/
def CheckOptions.quiet (o : CheckOptions) : CheckOptions :=
  { o with showBodies := false, showObligations := false }

variable {o : CheckOptions} {s : Settings} {m : Module} {scope : String} {f : Subject}

theorem showModule_eq (o : CheckOptions) (s : Settings) (m : Module) :
    showModule o s m = (selected m o.scope).forM fun p => showSubject o s p.1 p.2 := by
  rw [showModule, selected, functionsOf]
  generalize m.scopes.filter _ = scopes
  induction scopes with
  | nil => rfl
  | cons scope scopes ih =>
    simp only [List.flatMap_cons, List.forM_eq_forM, List.forM_append, List.forM_map,
      List.forM_cons] at ih ⊢
    rw [ih]

theorem comes_showSubject_error {e : Error} (h : f.prepare s.accepted = .error e) :
    Comes (showSubject o s scope f) (.error e) "" := by
  rw [showSubject, h]
  exact (Comes.give _).bind_error

/-- A function that can be prepared is shown. -/
theorem comes_showSubject {p : Prepared} (h : f.prepare s.accepted = .ok p) :
    ∃ added, Comes (showSubject o s scope f) (.ok ()) added := by
  have hobligations : ∃ added, Comes (if o.showObligations then
      p.obligations.forM fun ob => printLine s!"{ob.kind.render}: {ob.formula.render}"
      else Pure.pure ()) (.ok ()) added := by
    split_ifs
    · exact Comes.forM fun _ _ => ⟨_, .print _⟩
    · exact ⟨_, .pure _⟩
  obtain ⟨added, hshown⟩ := Comes.step ⟨_, .print p.body.render⟩ hobligations
  rw [showSubject, h]
  exact ⟨_, Comes.give_bind ((Comes.print _).bind hshown)⟩

/-- Functions that can all be prepared are all shown. -/
theorem comes_showModule
    (h : ∀ p ∈ selected m o.scope, ∃ prepared, p.2.prepare s.accepted = .ok prepared) :
    ∃ added, Comes (showModule o s m) (.ok ()) added := by
  rw [showModule_eq]
  refine Comes.forM fun p hp => ?_
  obtain ⟨prepared, hprepared⟩ := h p hp
  exact comes_showSubject hprepared

/-- Of the functions `fs`, those in `before` can be prepared, and the next one cannot. -/
structure StopsAt (accepted : List String) (fs before : List (String × Subject)) (scope : String)
    (f : Subject) (e : Error) : Prop where
  split : ∃ after, fs = before ++ (scope, f) :: after
  prepared : ∀ p ∈ before, ∃ prepared, p.2.prepare accepted = .ok prepared
  unprepared : f.prepare accepted = .error e

/-- Functions that cannot all be prepared have a first one that cannot. -/
theorem exists_stopsAt {accepted : List String} {fs : List (String × Subject)}
    (h : ¬∀ p ∈ fs, ∃ prepared, p.2.prepare accepted = .ok prepared) :
    ∃ before scope f e, StopsAt accepted fs before scope f e := by
  induction fs with
  | nil => simp at h
  | cons p fs ih =>
    cases hp : p.2.prepare accepted with
    | error e => exact ⟨[], p.1, p.2, e, ⟨fs, rfl⟩, by simp, hp⟩
    | ok prepared =>
      rw [List.forall_mem_cons, not_and] at h
      obtain ⟨before, scope, f, e, ⟨after, rfl⟩, hbefore, hf⟩ := ih (h ⟨prepared, hp⟩)
      exact ⟨p :: before, scope, f, e, ⟨after, rfl⟩,
        List.forall_mem_cons.2 ⟨⟨prepared, hp⟩, hbefore⟩, hf⟩

/-- Functions are shown up to the first one that cannot be prepared. -/
theorem StopsAt.comes_showModule {before : List (String × Subject)} {e : Error}
    (h : StopsAt s.accepted (selected m o.scope) before scope f e) :
    ∃ added, Comes (showModule o s m) (.error e) added := by
  obtain ⟨after, hsplit⟩ := h.split
  rw [showModule_eq, hsplit]
  refine Comes.forM_error (fun p hp => ?_) (comes_showSubject_error h.unprepared)
  obtain ⟨prepared, hprepared⟩ := h.prepared p hp
  exact comes_showSubject hprepared

end Cli

/-! ## Functions that are visited -/

theorem Visit.Follows.result_of_unprepared {accepted : List String} {v : Visit} {e : Error}
    (h : v.Follows accepted) (he : v.subject.prepare accepted = .error e) :
    v.result = .error e := by
  cases h with
  | unprepared hp _ hresult => exact hresult.trans (by rw [Except.error.inj (hp.symm.trans he)])
  | unstarted hp => cases hp.symm.trans he
  | discharged h =>
    obtain ⟨p, _, hp, -⟩ := h
    cases hp.symm.trans he

namespace Run

variable {run : Run σ} {before after : List (String × Subject)} {scope : String} {f : Subject}
  {e : Error} {t : σ × List Exchange}

theorem visits_append (run : Run σ) (fs gs : List (String × Subject)) (t : σ × List Exchange) :
    ∃ t', run.visits (fs ++ gs) t = run.visits fs t ++ run.visits gs t' := by
  induction fs generalizing t with
  | nil => exact ⟨t, rfl⟩
  | cons p fs ih =>
    obtain ⟨t', ht⟩ := ih (run.visit p.1 p.2 t).2
    exact ⟨t', congrArg _ ht⟩

/-- The visit of a function that cannot be prepared, among the others. -/
theorem visits_unprepared (hf : f.prepare run.accepted = .error e) :
    ∃ v rest, run.visits (before ++ (scope, f) :: after) t = run.visits before t ++ v :: rest ∧
      v.result = .error e ∧ v.finding = .ofError scope f.name e := by
  obtain ⟨t', ht⟩ := run.visits_append before ((scope, f) :: after) t
  have hfollows : (run.visit scope f t').1.Follows run.accepted := (run.visit_spec scope f t').1
  have hresult := hfollows.result_of_unprepared hf
  exact ⟨_, _, ht, hresult, by rw [Visit.finding, hresult]; rfl⟩

/-- A run in fail-fast mode ends with a function that cannot be prepared, if those before it are
verified. -/
theorem conclusion_of_unprepared (hmode : run.mode = .failFast)
    (hbefore : ∀ u ∈ run.visits before t, u.finding.status = .verified)
    (hf : f.prepare run.accepted = .error e) :
    run.conclusion (run.visits (before ++ (scope, f) :: after) t) = .error e := by
  have hrun : run.inMode .failFast = run := by rw [inMode, ← hmode]
  obtain ⟨v, rest, hvisits, hresult, -⟩ := visits_unprepared hf
  refine conclusion_eq_error.2 ⟨_, v, rest, hvisits, ?_, fun u hu => ?_⟩
  · exact hrun ▸ ending?_failFast.2 hresult
  · exact hrun ▸ ending?_failFast_eq_none.2 (hbefore u hu)

/-- A run in fail-fast mode ends with the first failure, whatever comes after it. -/
theorem conclusion_of_failure (hmode : run.mode = .failFast)
    (hbefore : ¬∀ u ∈ run.visits before t, u.finding.status = .verified)
    (after : List (String × Subject)) :
    ∃ u ∈ run.visits before t, ∃ e, u.result = .error e ∧
      run.conclusion (run.visits (before ++ after) t) = .error e := by
  have hrun : run.inMode .failFast = run := by rw [inMode, ← hmode]
  obtain ⟨earlier, u, later, e, hvisits, hearlier, hu⟩ := exists_first_failure hbefore
  obtain ⟨t', ht⟩ := run.visits_append before after t
  refine ⟨u, by simp [hvisits], e, hu, ?_⟩
  rw [hvisits, List.append_assoc, List.cons_append] at ht
  refine conclusion_eq_error.2 ⟨earlier, u, _, ht, ?_, fun v hv => ?_⟩
  · exact hrun ▸ ending?_failFast.2 hu
  · exact hrun ▸ ending?_failFast_eq_none.2 (hearlier v hv)

/-- A report has a record of each function that cannot be prepared. -/
theorem mem_of_unprepared {findings : List Finding}
    (h : run.conclusion (run.visits (before ++ (scope, f) :: after) t) = .ok findings)
    (hf : f.prepare run.accepted = .error e) :
    Finding.ofError scope f.name e ∈ findings := by
  obtain ⟨v, rest, hvisits, -, hfinding⟩ := visits_unprepared hf
  obtain ⟨-, rfl⟩ := conclusion_eq_ok.1 h
  rw [hvisits, ← hfinding]
  exact List.mem_map_of_mem (by simp)

/-- Only a failure after which going on makes no sense ends a run that collects failures. -/
theorem isFatal_of_conclusion {visits : List Visit} (hmode : run.mode = .collect)
    (h : run.conclusion visits = .error e) : e.isFatal = true := by
  have hrun : run.inMode .collect = run := by rw [inMode, ← hmode]
  obtain ⟨_, v, _, -, hv, -⟩ := conclusion_eq_error.1 h
  exact (ending?_collect.1 (hrun.symm ▸ hv)).2

end Run

theorem Report.allVerified_of_mem {report : Report} {scope function : String} {e : Error}
    (h : Finding.ofError scope function e ∈ report.findings) : report.allVerified = false := by
  rw [allVerified, List.all_eq_false]
  exact ⟨_, h, by simpa using Finding.status_ofError_ne⟩

namespace Cli

variable {o : CheckOptions} {s : Settings} {m : Module} {scope : String} {f : Subject} {e : Error}
  {solver : Settings → Backend σ} {start : σ} {w : World} {file source : String}

/-- The report of a run can be read off its visits. -/
theorem runReport_eq (run : Run σ) {only : Option String}
    (hf : (scope, f) ∈ selected run.module only) (start : σ) :
    runReport run only start =
      (run.conclusion (run.visits (selected run.module only) (start, []))).map Report.mk := by
  cases only with
  | none =>
    have hall : selected run.module none = run.module.functions := by
      simp [selected, Module.functions]
    rw [hall]
    exact (run.verifyAll_run start).1
  | some name =>
    obtain ⟨found, hfound, -⟩ := List.mem_flatMap.1 hf
    obtain ⟨hmem, hname⟩ := List.mem_filter.1 hfound
    obtain rfl : found.name = name := by simpa using hname
    have hone : selected run.module (some found.name) = functionsOf [found] :=
      congrArg functionsOf (filter_name_of_nodup run.module.distinct hmem)
    rw [hone, runReport]
    change ((run.verifyScope found.name).run.run start).1 = _
    rw [Run.verifyScope_eq (Module.scope?_name hmem)]
    exact (run.verifyScopes_run [found] start).1

/-! ## Checks with and without showing -/

/-- What is printed of a report. -/
def reportText (o : CheckOptions) (report : Report) : String :=
  if o.json then report.toJson.pretty ++ "\n" else report.render

/-- The result of a check whose run comes to `r`. -/
def verdict (r : Except Error Report) : Except Error Bool := r.map (·.allVerified)

/-- What a check prints behind its run: a report, if there is one. -/
def runText (o : CheckOptions) : Except Error Report → String
  | .ok report => reportText o report
  | .error _ => ""

/-- The second computation comes to the result of the first and prints the same, behind what it
prints before that. -/
def AddsOutput (c c' : Printing α) : Prop :=
  ∃ result added text, Comes c result text ∧ Comes c' result (added ++ text)

theorem AddsOutput.of_comes {c c' : Printing α} {r : Except Error α} {text : String}
    (h : Comes c r text) (hother : Comes c' r text) : AddsOutput c c' :=
  ⟨r, "", text, h, by rwa [String.empty_append]⟩

/-- Where output is only added, the results are the same. -/
theorem AddsOutput.result_eq {c c' : Printing α} {r r' : Except Error α} {text text' : String}
    (h : AddsOutput c c') (hc : Comes c r text) (hc' : Comes c' r' text') : r = r' := by
  obtain ⟨result, added, _, hresult, hresult'⟩ := h
  exact (hc.unique hresult).1.trans (hresult'.unique hc').1

/-- Only a true result is a success. -/
theorem exit_eq_of_comes {c c' : Printing Bool} {r r' : Except Error Bool} {text text' : String}
    (h : Comes c r text) (hother : Comes c' r' text') (hresult : r = .ok true ↔ r' = .ok true) :
    (Outcome.of c).exit = (Outcome.of c').exit := by
  have hc : c.run "" = (r, "" ++ text) := h ""
  have hc' : c'.run "" = (r', "" ++ text') := hother ""
  rw [Outcome.of, Outcome.of, hc, hc']
  rcases r with _ | _ | _ <;> rcases r' with _ | _ | _ <;> simp at hresult ⊢

theorem comes_report (o : CheckOptions) (r : Except Error Report) :
    Comes (do
      let report ← give r
      if o.json then printLine report.toJson.pretty else print report.render
      return report.allVerified) (verdict r) (runText o r) := by
  cases r with
  | error e => exact (Comes.give _).bind_error
  | ok report =>
    refine Comes.give_bind ?_
    rw [runText, reportText]
    split_ifs
    · exact (Comes.print _).bind_pure
    · exact (Comes.print _).bind_pure

theorem comes_checkWith_settings (hs : checkSettings w file o = .error e) :
    Comes (checkWith solver start w file o source) (.error e) "" := by
  rw [checkWith, hs]
  exact (Comes.give _).bind_error

theorem comes_checkWith_load (hs : checkSettings w file o = .ok s)
    (hm : Module.load source (Path.stem file) = .error e) :
    Comes (checkWith solver start w file o source) (.error e) "" := by
  rw [checkWith, hs, hm]
  exact Comes.give_bind (Comes.give _).bind_error

/-- A check that shows nothing. -/
theorem comes_checkWith_quiet (solver : Settings → Backend σ) (start : σ)
    (hs : checkSettings w file o = .ok s) (hm : Module.load source (Path.stem file) = .ok m) :
    Comes (checkWith solver start w file o.quiet source)
      (verdict (runReport (runOn s m (solver s)) o.scope start))
      (runText o (runReport (runOn s m (solver s)) o.scope start)) := by
  have hquiet : checkSettings w file o.quiet = .ok s := hs
  rw [checkWith, hquiet, hm]
  exact Comes.give_bind (Comes.give_bind (comes_report o _))

/-- A check that shows functions, where nothing goes wrong before its run. -/
theorem comes_checkWith {added : String} (hs : checkSettings w file o = .ok s)
    (hm : Module.load source (Path.stem file) = .ok m)
    (hshow : (o.showBodies || o.showObligations) = true)
    (hshown : Comes (showModule o s m) (.ok ()) added) :
    Comes (checkWith solver start w file o source)
      (verdict (runReport (runOn s m (solver s)) o.scope start))
      (added ++ runText o (runReport (runOn s m (solver s)) o.scope start)) := by
  rw [checkWith, hs, hm]
  refine Comes.give_bind (Comes.give_bind ?_)
  rw [hshow]
  exact hshown.bind (comes_report o _)

/-- A check that shows functions ends where they cannot be shown. -/
theorem comes_checkWith_error {added : String} (hs : checkSettings w file o = .ok s)
    (hm : Module.load source (Path.stem file) = .ok m)
    (hshow : (o.showBodies || o.showObligations) = true)
    (hshown : Comes (showModule o s m) (.error e) added) :
    Comes (checkWith solver start w file o source) (.error e) added := by
  rw [checkWith, hs, hm]
  refine Comes.give_bind (Comes.give_bind ?_)
  rw [hshow]
  exact hshown.bind_error

theorem quiet_eq (h : ¬(o.showBodies || o.showObligations) = true) : o.quiet = o := by
  cases o
  simp_all [CheckOptions.quiet]

/-- What showing functions changes in a check, where `shown` and `quiet` are the check with and
without it. -/
structure ShowingAgrees (solver : Settings → Backend σ) (start : σ) (w : World) (file : String)
    (o : CheckOptions) (source : String) (shown quiet : Printing Bool) : Prop where
  /-- The exit code never depends on it. -/
  exit : (Outcome.of shown).exit = (Outcome.of quiet).exit
  /-- If the functions can all be prepared, or it does not come to that, there is only more output
  before the report or the error. -/
  prepared : (∀ s m, checkSettings w file o = .ok s →
    Module.load source (Path.stem file) = .ok m → ∀ p ∈ selected m o.scope,
      ∃ prepared, p.2.prepare s.accepted = .ok prepared) → AddsOutput quiet shown
  /-- The first function that cannot be prepared ends a check that shows functions. -/
  stops : ∀ s m before scope f e, checkSettings w file o = .ok s →
    Module.load source (Path.stem file) = .ok m →
    StopsAt s.accepted (selected m o.scope) before scope f e →
    (o.showBodies || o.showObligations) = true → ∃ added, Comes shown (.error e) added
  /-- It also ends a fail-fast check that shows nothing, unless a function before it does. -/
  failFast : ∀ s m before scope f e, checkSettings w file o = .ok s →
    Module.load source (Path.stem file) = .ok m →
    StopsAt s.accepted (selected m o.scope) before scope f e → s.failFast = true →
    (∀ u ∈ (runOn s m (solver s)).visits before (start, []), u.finding.status = .verified) ∧
        Comes quiet (.error e) "" ∨
      ∃ u ∈ (runOn s m (solver s)).visits before (start, []), ∃ e', u.result = .error e' ∧
        Comes quiet (.error e') ""
  /-- A check that collects failures and shows nothing records it in the report, unless going on
  makes no sense. -/
  collect : ∀ s m before scope f e, checkSettings w file o = .ok s →
    Module.load source (Path.stem file) = .ok m →
    StopsAt s.accepted (selected m o.scope) before scope f e → s.failFast = false →
    (∃ report, Finding.ofError scope f.name e ∈ report.findings ∧
        Comes quiet (.ok false) (reportText o report)) ∨
      ∃ e', e'.isFatal = true ∧ Comes quiet (.error e') ""

section Stops

variable {before : List (String × Subject)}

/-- What the run comes to, where a function cannot be prepared. -/
theorem StopsAt.runReport_eq (h : StopsAt s.accepted (selected m o.scope) before scope f e)
    (backend : Backend σ) (start : σ) :
    ∃ after, runReport (runOn s m backend) o.scope start =
      ((runOn s m backend).conclusion ((runOn s m backend).visits
        (before ++ (scope, f) :: after) (start, []))).map Report.mk := by
  obtain ⟨after, hsplit⟩ := h.split
  have hmem : (scope, f) ∈ selected m o.scope := by simp [hsplit]
  refine ⟨after, ?_⟩
  rw [← hsplit]
  exact Cli.runReport_eq (runOn s m backend) hmem start

/-- A report has a record of a function that cannot be prepared. -/
theorem StopsAt.mem_findings {backend : Backend σ} {report : Report}
    (h : StopsAt s.accepted (selected m o.scope) before scope f e)
    (hreport : runReport (runOn s m backend) o.scope start = .ok report) :
    Finding.ofError scope f.name e ∈ report.findings := by
  obtain ⟨after, hrun⟩ := h.runReport_eq backend start
  rw [hrun, Run.map_mk_eq_ok] at hreport
  exact Run.mem_of_unprepared hreport h.unprepared

/-- A fail-fast run ends with the function that cannot be prepared, or with a failure before it. -/
theorem StopsAt.runReport_failFast
    (h : StopsAt s.accepted (selected m o.scope) before scope f e) (hmode : s.failFast = true)
    (backend : Backend σ) (start : σ) :
    (∀ u ∈ (runOn s m backend).visits before (start, []), u.finding.status = .verified) ∧
        runReport (runOn s m backend) o.scope start = .error e ∨
      ∃ u ∈ (runOn s m backend).visits before (start, []), ∃ e', u.result = .error e' ∧
        runReport (runOn s m backend) o.scope start = .error e' := by
  obtain ⟨after, hrun⟩ := h.runReport_eq backend start
  have hfailFast : (runOn s m backend).mode = .failFast := by simp [runOn, Settings.mode, hmode]
  rw [hrun]
  by_cases hbefore : ∀ u ∈ (runOn s m backend).visits before (start, []),
      u.finding.status = .verified
  · rw [Run.conclusion_of_unprepared hfailFast hbefore h.unprepared]
    exact Or.inl ⟨hbefore, rfl⟩
  · obtain ⟨u, hu, e', he', hends⟩ :=
      Run.conclusion_of_failure hfailFast hbefore ((scope, f) :: after)
    rw [hends]
    exact Or.inr ⟨u, hu, e', he', rfl⟩

/-- Only a failure after which going on makes no sense ends a run that collects failures. -/
theorem StopsAt.isFatal_of_runReport {backend : Backend σ} {e' : Error}
    (h : StopsAt s.accepted (selected m o.scope) before scope f e) (hmode : s.failFast = false)
    (hrun : runReport (runOn s m backend) o.scope start = .error e') : e'.isFatal = true := by
  obtain ⟨after, hreport⟩ := h.runReport_eq backend start
  have hcollect : (runOn s m backend).mode = .collect := by simp [runOn, Settings.mode, hmode]
  rw [hreport] at hrun
  cases hconclusion : (runOn s m backend).conclusion ((runOn s m backend).visits
      (before ++ (scope, f) :: after) (start, [])) with
  | ok findings => simp [hconclusion, Except.map] at hrun
  | error e'' =>
    rw [hconclusion] at hrun
    cases hrun
    exact Run.isFatal_of_conclusion hcollect hconclusion

/-- A check is no success if a function cannot be prepared. -/
theorem StopsAt.exit_eq (h : StopsAt s.accepted (selected m o.scope) before scope f e)
    (hs : checkSettings w file o = .ok s) (hm : Module.load source (Path.stem file) = .ok m)
    (solver : Settings → Backend σ) (start : σ) :
    (Outcome.of (checkWith solver start w file o source)).exit =
      (Outcome.of (checkWith solver start w file o.quiet source)).exit := by
  by_cases hshow : (o.showBodies || o.showObligations) = true
  · obtain ⟨added, hshown⟩ := h.comes_showModule
    refine exit_eq_of_comes (comes_checkWith_error hs hm hshow hshown)
      (comes_checkWith_quiet solver start hs hm) ?_
    cases hrun : runReport (runOn s m (solver s)) o.scope start with
    | ok report => simp [verdict, Except.map, Report.allVerified_of_mem (h.mem_findings hrun)]
    | error e' => simp [verdict, Except.map]
  · rw [quiet_eq hshow]

end Stops

/-- If the functions can all be prepared, showing them adds output and changes nothing else. -/
theorem addsOutput_of_prepared (solver : Settings → Backend σ) (start : σ)
    (h : ∀ s m, checkSettings w file o = .ok s → Module.load source (Path.stem file) = .ok m →
      ∀ p ∈ selected m o.scope, ∃ prepared, p.2.prepare s.accepted = .ok prepared) :
    AddsOutput (checkWith solver start w file o.quiet source)
      (checkWith solver start w file o source) := by
  cases hs : checkSettings w file o with
  | error e => exact .of_comes (comes_checkWith_settings hs) (comes_checkWith_settings hs)
  | ok s =>
    cases hm : Module.load source (Path.stem file) with
    | error e => exact .of_comes (comes_checkWith_load hs hm) (comes_checkWith_load hs hm)
    | ok m =>
      have hquiet := comes_checkWith_quiet solver start hs hm
      by_cases hshow : (o.showBodies || o.showObligations) = true
      · obtain ⟨added, hshown⟩ := comes_showModule (h s m hs hm)
        exact ⟨_, added, _, hquiet, comes_checkWith hs hm hshow hshown⟩
      · rw [quiet_eq hshow] at hquiet ⊢
        exact .of_comes hquiet hquiet

/-- The two checks differ if a function cannot be prepared and the one that shows nothing does not
come to its error. -/
theorem not_addsOutput_of_stopsAt {before : List (String × Subject)} {r : Except Error Bool}
    (hs : checkSettings w file o = .ok s) (hm : Module.load source (Path.stem file) = .ok m)
    (h : StopsAt s.accepted (selected m o.scope) before scope f e)
    (hshow : (o.showBodies || o.showObligations) = true)
    (hrun : verdict (runReport (runOn s m (solver s)) o.scope start) = r) (hr : r ≠ .error e) :
    ¬AddsOutput (checkWith solver start w file o.quiet source)
      (checkWith solver start w file o source) := by
  intro hadds
  obtain ⟨added, hshown⟩ := h.comes_showModule
  have hquiet := comes_checkWith_quiet solver start hs hm
  rw [hrun] at hquiet
  exact hr (hadds.result_eq hquiet (comes_checkWith_error hs hm hshow hshown))

/-! ### A function without a result type -/

/-- Two scopes with a function each, the second one without a result type. -/
def halfTyped : String :=
  "scope('a')\n@verify()\ndef f() -> int: pass\nscope('b')\n@verify()\ndef g(): pass\n"

/-- The first function of `halfTyped`. -/
def functionF : Subject where
  name := "f"
  params := []
  result := some (.mk "int" [] ⟨32, 35⟩)
  requires := []
  ensures := []
  body := [.pass ⟨37, 41⟩]
  span := ⟨11, 41⟩

/-- The second function of `halfTyped`. -/
def functionG : Subject where
  name := "g"
  params := []
  result := none
  requires := []
  ensures := []
  body := [.pass ⟨72, 76⟩]
  span := ⟨53, 76⟩

/-- The error of the second function of `halfTyped`. -/
def errorG : Error := .missingReturnType "g" (some ⟨53, 76⟩)

theorem load_halfTyped :
    Module.load halfTyped (Path.stem "p.py") = .ok ⟨[⟨"a", [functionF]⟩, ⟨"b", [functionG]⟩], by decide⟩ := by
  have hstem : Path.stem "p.py" = "p" := by decide +kernel
  rw [halfTyped, hstem, Module.load_ofList]
  rfl

theorem prepare_functionF : ∃ p, functionF.prepare ["assume", "invariant"] = .ok p := ⟨_, rfl⟩

theorem prepare_functionG : functionG.prepare ["assume", "invariant"] = .error errorG := rfl

/-- A world without files and solvers. -/
def bareWorld : World :=
  ⟨fun _ => .error Files.missing, fun _ => false, fun _ => .error Files.missing⟩

/-- A solver that refutes everything. -/
def refuting : Backend Unit := ⟨pure (), fun _ => pure (), pure .unsat, pure {}⟩

theorem stopsAt_halfTyped :
    StopsAt ["assume", "invariant"] [("a", functionF), ("b", functionG)] [("a", functionF)] "b"
      functionG errorG :=
  ⟨⟨[], rfl⟩, by simpa using prepare_functionF, prepare_functionG⟩

/-- With every solver, showing the functions of a program does not change the exit code of a check.
It changes nothing else if they can be prepared, or if the first one that cannot would end the check
anyway. `checkProgram` is the case of the solver that the settings name. -/
theorem showing_agrees (solver : Settings → Backend σ) (start : σ) (w : World) (file : String)
    (o : CheckOptions) (source : String) :
    ShowingAgrees solver start w file o source (checkWith solver start w file o source)
      (checkWith solver start w file o.quiet source) where
  exit := by
    by_cases hprepared : ∀ s m, checkSettings w file o = .ok s →
        Module.load source (Path.stem file) = .ok m → ∀ p ∈ selected m o.scope,
          ∃ prepared, p.2.prepare s.accepted = .ok prepared
    · obtain ⟨r, added, text, hquiet, hshown⟩ := addsOutput_of_prepared solver start hprepared
      exact exit_eq_of_comes hshown hquiet Iff.rfl
    -- Showing may bring about another failure, but where it does neither check is a success.
    · push Not at hprepared
      obtain ⟨s, m, hs, hm, p, hp, hunprepared⟩ := hprepared
      obtain ⟨before, scope, f, e, h⟩ := exists_stopsAt fun hall =>
        (hall p hp).elim fun prepared => hunprepared prepared
      exact h.exit_eq hs hm solver start
  prepared := addsOutput_of_prepared solver start
  stops s m before scope f e hs hm h hshow := by
    obtain ⟨added, hshown⟩ := h.comes_showModule
    exact ⟨added, comes_checkWith_error hs hm hshow hshown⟩
  failFast s m before scope f e hs hm h hmode := by
    have hquiet := comes_checkWith_quiet solver start hs hm
    rcases h.runReport_failFast hmode (solver s) start with
      ⟨hbefore, hrun⟩ | ⟨u, hu, e', he', hrun⟩
    · exact Or.inl ⟨hbefore, by rwa [hrun] at hquiet⟩
    · exact Or.inr ⟨u, hu, e', he', by rwa [hrun] at hquiet⟩
  collect s m before scope f e hs hm h hmode := by
    have hquiet := comes_checkWith_quiet solver start hs hm
    cases hrun : runReport (runOn s m (solver s)) o.scope start with
    | ok report =>
      have hmem := h.mem_findings hrun
      rw [hrun, verdict, Except.map, Report.allVerified_of_mem hmem] at hquiet
      exact Or.inl ⟨report, hmem, hquiet⟩
    | error e' =>
      rw [hrun] at hquiet
      exact Or.inr ⟨e', h.isFatal_of_runReport hmode hrun, hquiet⟩

/-- The scope `a` can be shown and nothing else changes, and without a scope the error of the
function in `b` ends a fail-fast check with and without showing. -/
theorem showing_agrees_halfTyped :
    AddsOutput (checkWith (fun _ => refuting) () bareWorld "p.py" { scope := some "a" } halfTyped)
        (checkWith (fun _ => refuting) () bareWorld "p.py"
          { scope := some "a", showBodies := true } halfTyped) ∧
      Comes (checkWith (fun _ => refuting) () bareWorld "p.py" {} halfTyped)
        (.error errorG) "" ∧
      ∃ added, Comes (checkWith (fun _ => refuting) () bareWorld "p.py"
        { showObligations := true } halfTyped) (.error errorG) added := by
  have hall := showing_agrees (fun _ => refuting) () bareWorld "p.py" { showObligations := true }
    halfTyped
  refine ⟨?_, ?_, hall.stops _ _ _ _ _ _ rfl load_halfTyped stopsAt_halfTyped rfl⟩
  · refine (showing_agrees (fun _ => refuting) () bareWorld "p.py"
      { scope := some "a", showBodies := true } halfTyped).prepared ?_
    intro s m hs hm p hp
    cases hs
    cases load_halfTyped.symm.trans hm
    obtain rfl : p = ("a", functionF) := List.mem_singleton.1 hp
    exact prepare_functionF
  · rcases hall.failFast _ _ _ _ _ _ rfl load_halfTyped stopsAt_halfTyped rfl with
      ⟨-, h⟩ | ⟨u, hu, e, he, -⟩
    · exact h
    · obtain rfl := List.mem_singleton.1 hu
      cases he

/-- A function without a result type is recorded by a check that collects failures, but if functions
are shown it ends the check. A fail-fast check without a solver ends with the first function, but if
functions are shown it ends with the second. -/
theorem shown_ends_early :
    ¬AddsOutput
        (checkProgram bareWorld "p.py" { scope := some "b", collect := true } halfTyped)
        (checkProgram bareWorld "p.py" { scope := some "b", collect := true, showBodies := true }
          halfTyped) ∧
      ¬AddsOutput (checkProgram bareWorld "p.py" {} halfTyped)
        (checkProgram bareWorld "p.py" { showBodies := true } halfTyped) := by
  constructor
  · have hstops : StopsAt ["assume", "invariant"] [("b", functionG)] [] "b" functionG errorG :=
      ⟨⟨[], rfl⟩, by simp, prepare_functionG⟩
    exact not_addsOutput_of_stopsAt
      (o := { scope := some "b", collect := true, showBodies := true }) (r := .ok false)
      rfl load_halfTyped hstops rfl rfl (by simp)
  · exact not_addsOutput_of_stopsAt (o := { showBodies := true })
      (r := .error (.solver (.spawn "z3" Files.missing)))
      rfl load_halfTyped stopsAt_halfTyped rfl rfl (by simp [errorG])

end Cli

end Precond
