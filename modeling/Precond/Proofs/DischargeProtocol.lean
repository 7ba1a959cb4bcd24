import Mathlib.Tactic
import Precond.Proofs.ComputedValues
import Precond.Proofs.SolverDialogue

/-!
# The discharge protocol

What `Prepared.discharge` says to a solver, for every solver. The `script` of some goals depends on
the verdicts only: each goal is opened by a push and the negated term, checked, and closed by a pop,
and after the first goal that is not refuted nothing more is sent. A dialogue either goes through
the whole script or ends at the first step that fails (`Breaks`); which of the two happened, and
with what verdicts, decides the result (`Decides`).

`Prepared.Conducts` states the protocol of a function, and `Run.Visits` that of a run, in which every
function has a solver of its own.
-/

namespace Precond

open Smt

variable {σ α β : Type}

/-! ## Scripts -/

/-- What is sent to have goals refuted, if the checks get the given verdicts in turn. -/
def script : List (Obligation × Term) → List Verdict → List Request
  | [], _ => []
  | (_, t) :: goals, verdicts =>
    .tell .push :: .tell (.add t.negate) :: .check ::
      match verdicts with
      | [] => []
      | .unsat :: verdicts => .tell .pop :: script goals verdicts
      | .sat :: _ => [.model, .tell .pop]
      | .unknown _ :: _ => [.tell .pop]

/-- The script of one goal is how that of several ones begins. -/
theorem script_singleton_isPrefix (g : Obligation × Term) (goals : List (Obligation × Term))
    (vs : List Verdict) : script [g] vs <+: script (g :: goals) vs := by
  rcases vs with _ | ⟨_ | _ | _, vs⟩ <;> simp [script]

/-- A goal that is refuted is followed by the script of the others. -/
theorem script_cons_unsat (g : Obligation × Term) (goals : List (Obligation × Term))
    (vs : List Verdict) :
    script (g :: goals) (.unsat :: vs) = script [g] [.unsat] ++ script goals vs := by
  simp [script]

/-- Goals that are all refuted have a push and a pop each. -/
theorem countP_script_unsat (goals : List (Obligation × Term)) :
    (script goals (List.replicate goals.length .unsat)).countP Request.isPush = goals.length ∧
      (script goals (List.replicate goals.length .unsat)).countP Request.isPop = goals.length := by
  induction goals with
  | nil => simp [script]
  | cons g goals ih => simpa [script, List.replicate_succ, List.countP_cons] using ih

/-- The dialogue is broken off by its last step, which fails. -/
def Breaks (sent : List Request) (d : List Exchange) (r : Except Error α) : Prop :=
  ∃ before x e, d = before ++ [x] ∧ Succeeds before ∧ x.failure? = some e ∧
    d.map (·.request) <+: sent ∧ r = .error (.solver e)

/-- A step that fails is the one that breaks the dialogue off. -/
theorem Breaks.failed {sent : List Request} {d before after : List Exchange} {x : Exchange}
    {e : SolverError} {r : Except Error α} (h : Breaks sent d r) (hd : d = before ++ x :: after)
    (hx : x.failure? = some e) : after = [] ∧ r = .error (.solver e) := by
  obtain ⟨earlier, last, e', hlast, hearlier, hfailure, -, rfl⟩ := h
  rcases List.eq_nil_or_concat after with rfl | ⟨after, y, rfl⟩
  · obtain ⟨-, heq⟩ := List.append_inj' (hd.symm.trans hlast) rfl
    obtain rfl := List.singleton_inj.1 heq
    obtain rfl : e = e' := Option.some.inj (hx.symm.trans hfailure)
    exact ⟨rfl, rfl⟩
  · have hd' : earlier ++ [last] = (before ++ x :: after) ++ [y] := by simpa [hlast] using hd
    obtain ⟨rfl, -⟩ := List.append_inj' hd' rfl
    cases hx.symm.trans (hearlier x (by simp))

/-- A dialogue that was broken off did not succeed. -/
theorem Breaks.not_succeeds {sent : List Request} {d : List Exchange} {r : Except Error α}
    (h : Breaks sent d r) : ¬Succeeds d := by
  obtain ⟨before, x, e, rfl, -, hx, -, -⟩ := h
  intro hd
  cases hx.symm.trans (hd x (by simp))

/-- Everything was sent, and no step failed. -/
def Completes (sent : List Request) (d : List Exchange) : Prop :=
  Succeeds d ∧ d.map (·.request) = sent

/-- A dialogue that was broken off during a script was so during a longer one. -/
theorem Breaks.mono {sent sent' : List Request} {d : List Exchange} {e : Error}
    (h : Breaks sent d (.error e : Except Error α)) (hsent : sent <+: sent') :
    Breaks sent' d (.error e : Except Error β) := by
  obtain ⟨before, x, e, hd, hbefore, hx, hprefix, hr⟩ := h
  cases hr
  exact ⟨before, x, e, hd, hbefore, hx, hprefix.trans hsent, rfl⟩

/-- Two scripts are sent one after the other. -/
theorem Completes.append {sent sent' : List Request} {d d' : List Exchange}
    (h : Completes sent d) (h' : Completes sent' d') : Completes (sent ++ sent') (d ++ d') :=
  ⟨succeeds_append.2 ⟨h.1, h'.1⟩, by rw [List.map_append, h.2, h'.2]⟩

/-- The first script is sent, and the second one is broken off. -/
theorem Completes.append_breaks {sent sent' : List Request} {d d' : List Exchange}
    {r : Except Error α} (h : Completes sent d) (h' : Breaks sent' d' r) :
    Breaks (sent ++ sent') (d ++ d') r := by
  obtain ⟨before, x, e, rfl, hbefore, hx, hprefix, hr⟩ := h'
  refine ⟨d ++ before, x, e, (List.append_assoc ..).symm, succeeds_append.2 ⟨h.1, hbefore⟩, hx, ?_,
    hr⟩
  rw [List.map_append, h.2]
  exact List.prefix_append_right_inj sent |>.2 hprefix

/-! ## Goals -/

/-- How a dialogue about goals can go, after an opening, and what comes out of it: `value` if all
goals are refuted. -/
inductive Decides (name : String) (opening : List Request) (goals : List (Obligation × Term))
    (value : α) (d : List Exchange) : Except Error α → Prop where
  | broken {r : Except Error α} (h : Breaks (opening ++ script goals (verdicts d)) d r) :
    Decides name opening goals value d r
  | proven (h : Completes (opening ++ script goals (verdicts d)) d)
    (hverdicts : verdicts d = List.replicate goals.length .unsat) :
    Decides name opening goals value d (.ok value)
  | violated {k : Nat} {o : Obligation} {t : Term} {m : Model}
    (h : Completes (opening ++ script goals (verdicts d)) d) (hgoal : goals[k]? = some (o, t))
    (hverdicts : verdicts d = List.replicate k .unsat ++ [.sat])
    (hmodel : [.modelled (.ok m), .told .pop (.ok ())] <:+ d) :
    Decides name opening goals value d (.error (.violated name o.kind o.formula m))
  | undecided {k : Nat} {o : Obligation} {t : Term} {reason : String}
    (h : Completes (opening ++ script goals (verdicts d)) d) (hgoal : goals[k]? = some (o, t))
    (hverdicts : verdicts d = List.replicate k .unsat ++ [.unknown reason]) :
    Decides name opening goals value d (.error (.undecided name o.formula reason))

theorem breaks_concat {sent : List Request} (before : List Exchange) (x : Exchange)
    {e : SolverError} (hbefore : Succeeds before) (hx : x.failure? = some e)
    (hsent : (before ++ [x]).map (·.request) <+: sent) :
    Breaks sent (before ++ [x]) (.error (.solver e) : Except Error α) :=
  ⟨before, x, e, rfl, hbefore, hx, hsent, rfl⟩

section Goals

variable {name : String} {g : Obligation × Term} {goals : List (Obligation × Term)}
  {d d' : List Exchange}

/-- A goal that is not refuted ends the dialogue. -/
theorem Decides.stop {e : Error} (h : Decides name [] [g] () d (.error e)) :
    Decides name [] (g :: goals) () d (.error e) := by
  cases h with
  | broken h => exact .broken (h.mono (script_singleton_isPrefix g goals _))
  | @violated k _ _ _ h hgoal hverdicts hmodel =>
    obtain ⟨rfl, rfl⟩ : k = 0 ∧ g = _ := by simpa [List.getElem?_singleton] using hgoal
    refine .violated (k := 0) ?_ rfl hverdicts hmodel
    simpa [hverdicts, script] using h
  | @undecided k _ _ _ h hgoal hverdicts =>
    obtain ⟨rfl, rfl⟩ : k = 0 ∧ g = _ := by simpa [List.getElem?_singleton] using hgoal
    refine .undecided (k := 0) ?_ rfl hverdicts
    simpa [hverdicts, script] using h

/-- A goal that is refuted is followed by the others. -/
theorem Decides.next {r : Except Error Unit} (h : Decides name [] [g] () d (.ok ()))
    (h' : Decides name [] goals () d' r) : Decides name [] (g :: goals) () (d ++ d') r := by
  have hfirst : Completes (script [g] [.unsat]) d ∧ verdicts d = [.unsat] := by
    cases h with
    | broken h =>
      obtain ⟨_, _, _, _, _, _, _, hr⟩ := h
      cases hr
    | proven h hverdicts => exact ⟨by simpa [hverdicts] using h, hverdicts⟩
  obtain ⟨hcompletes, hunsat⟩ := hfirst
  have hscript : [] ++ script (g :: goals) (verdicts (d ++ d')) =
      script [g] [.unsat] ++ ([] ++ script goals (verdicts d')) := by
    rw [verdicts_append, hunsat, List.singleton_append, script_cons_unsat]
    rfl
  cases h' with
  | broken h' => exact .broken (hscript ▸ hcompletes.append_breaks h')
  | proven h' hverdicts =>
    refine .proven (hscript ▸ hcompletes.append h') ?_
    rw [verdicts_append, hunsat, hverdicts]
    rfl
  | @violated k _ _ _ h' hgoal hverdicts hmodel =>
    refine .violated (k := k + 1) (hscript ▸ hcompletes.append h') hgoal ?_
      (hmodel.trans (List.suffix_append d d'))
    rw [verdicts_append, hunsat, hverdicts]
    rfl
  | @undecided k _ _ _ h' hgoal hverdicts =>
    refine .undecided (k := k + 1) (hscript ▸ hcompletes.append h') hgoal ?_
    rw [verdicts_append, hunsat, hverdicts]
    rfl

/-- What is sent before the goals changes neither the verdicts nor the result. -/
theorem Decides.opened {opening : List Request} {value : α} {r : Except Error α}
    (h : Decides name [] goals value d' r) (hd : Completes opening d) (hverdicts : verdicts d = [])
    (value' : β) : Decides name opening goals value' (d ++ d') (r.map fun _ => value') := by
  have hsame : verdicts (d ++ d') = verdicts d' := by rw [verdicts_append, hverdicts, List.nil_append]
  cases h with
  | broken h =>
    obtain ⟨_, _, _, _, _, _, _, rfl⟩ := id h
    exact .broken (hsame ▸ (hd.append_breaks h).mono List.prefix_rfl)
  | proven h hv => exact .proven (hsame ▸ hd.append h) (hsame ▸ hv)
  | violated h hgoal hv hmodel =>
    exact .violated (hsame ▸ hd.append h) hgoal (hsame ▸ hv)
      (hmodel.trans (List.suffix_append d d'))
  | undecided h hgoal hv => exact .undecided (hsame ▸ hd.append h) hgoal (hsame ▸ hv)

end Goals

/-! ## What a dialogue about goals comes to -/

/-- Behind goals that are refuted, only the last verdict can be another one. -/
theorem getElem?_replicate_concat {k j : Nat} {v w : Verdict} (hw : w ≠ .unsat)
    (h : (List.replicate k .unsat ++ [v])[j]? = some w) : j = k ∧ w = v := by
  rcases Nat.lt_trichotomy j k with hj | rfl | hj
  · simp [List.getElem?_append_left, hj, hw.symm] at h
  · exact ⟨rfl, by simpa using h.symm⟩
  · rw [List.getElem?_eq_none (by simp; omega)] at h
    cases h

namespace Decides

variable {name : String} {opening : List Request} {goals : List (Obligation × Term)} {value : α}
  {d : List Exchange} {r : Except Error α}

/-- What is sent begins like the script. -/
theorem sent (h : Decides name opening goals value d r) :
    d.map (·.request) <+: opening ++ script goals (verdicts d) := by
  cases h with
  | broken h =>
    obtain ⟨_, _, _, _, _, _, hprefix, _⟩ := h
    exact hprefix
  | proven h | violated h | undecided h => exact h.2 ▸ List.prefix_rfl

/-- The whole script is sent if nothing fails. -/
theorem complete (h : Decides name opening goals value d r) (hd : Succeeds d) :
    d.map (·.request) = opening ++ script goals (verdicts d) := by
  cases h with
  | broken h => exact absurd hd h.not_succeeds
  | proven h | violated h | undecided h => exact h.2

/-- A failure is the end of the dialogue, and the result. -/
theorem failed {before after : List Exchange} {x : Exchange} {e : SolverError}
    (h : Decides name opening goals value d r) (hd : d = before ++ x :: after)
    (hx : x.failure? = some e) : after = [] ∧ r = .error (.solver e) := by
  cases h with
  | broken h => exact h.failed hd hx
  | proven h | violated h | undecided h => cases hx.symm.trans (h.1 x (by simp [hd]))

/-- There is a value only if all goals were refuted. -/
theorem verdicts_of_ok {a : α} (h : Decides name opening goals value d (.ok a)) :
    Succeeds d ∧ verdicts d = List.replicate goals.length .unsat := by
  cases h with
  | broken h =>
    obtain ⟨_, _, _, _, _, _, _, hr⟩ := h
    cases hr
  | proven h hverdicts => exact ⟨h.1, hverdicts⟩

/-- A dialogue comes to the value if and only if nothing failed and every verdict refutes a goal. -/
theorem eq_ok_iff {a : α} (h : Decides name opening goals value d r) :
    r = .ok a ↔ Succeeds d ∧ (∀ v ∈ verdicts d, v = .unsat) ∧ a = value := by
  constructor
  · rintro rfl
    obtain ⟨hd, hverdicts⟩ := h.verdicts_of_ok
    refine ⟨hd, fun v hv => List.eq_of_mem_replicate (hverdicts ▸ hv), ?_⟩
    cases h with
    | broken h => exact absurd hd h.not_succeeds
    | proven => rfl
  · rintro ⟨hd, hunsat, rfl⟩
    cases h with
    | broken h => exact absurd hd h.not_succeeds
    | proven => rfl
    | violated _ _ hverdicts _ => cases hunsat .sat (by simp [hverdicts])
    | @undecided _ _ _ reason _ _ hverdicts =>
      cases hunsat (.unknown reason) (by simp [hverdicts])

/-- A goal with a counterexample is reported with its model, which was asked for at the end. -/
theorem of_sat {k : Nat} (h : Decides name opening goals value d r) (hd : Succeeds d)
    (hsat : (verdicts d)[k]? = some Verdict.sat) :
    ∃ (o : Obligation) (t : Term) (m : Model), goals[k]? = some (o, t) ∧
      [.modelled (.ok m), .told .pop (.ok ())] <:+ d ∧
        r = .error (.violated name o.kind o.formula m) := by
  cases h with
  | broken h => exact absurd hd h.not_succeeds
  | proven _ hverdicts => simp [hverdicts, List.getElem?_replicate] at hsat
  | @violated _ o t m _ hgoal hverdicts hmodel =>
    obtain ⟨rfl, -⟩ := getElem?_replicate_concat (by simp) (hverdicts ▸ hsat)
    exact ⟨o, t, m, hgoal, hmodel, rfl⟩
  | undecided _ _ hverdicts =>
    cases (getElem?_replicate_concat (by simp) (hverdicts ▸ hsat)).2

/-- A goal that is not decided is reported with the reason. -/
theorem of_unknown {k : Nat} {reason : String} (h : Decides name opening goals value d r)
    (hd : Succeeds d) (hunknown : (verdicts d)[k]? = some (Verdict.unknown reason)) :
    ∃ (o : Obligation) (t : Term), goals[k]? = some (o, t) ∧
      r = .error (.undecided name o.formula reason) := by
  cases h with
  | broken h => exact absurd hd h.not_succeeds
  | proven _ hverdicts => simp [hverdicts, List.getElem?_replicate] at hunknown
  | violated _ _ hverdicts _ =>
    cases (getElem?_replicate_concat (by simp) (hverdicts ▸ hunknown)).2
  | @undecided _ o t _ _ hgoal hverdicts =>
    obtain ⟨rfl, heq⟩ := getElem?_replicate_concat (by simp) (hverdicts ▸ hunknown)
    cases heq
    exact ⟨o, t, hgoal, rfl⟩

end Decides

/-! ## Steps of a discharge -/

section Steps

variable (p : Prepared) (backend : Backend σ)

/-- One goal is opened, checked and closed. -/
theorem traces_discharge1 (o : Obligation) (t : Term) :
    Traces (p.discharge1 backend o t) (p.discharge1 backend.recorded o t)
      (Decides p.name [] [(o, t)] ()) := by
  refine Traces.step (fun e => ?_) fun _ => Traces.step (fun e => ?_) fun _ =>
    Traces.step (fun e => ?_) fun verdict => ?_
  · exact .broken (breaks_concat [] _ (by simp) rfl (by simp [script]))
  · exact .broken (breaks_concat [_] _ (by simp) rfl (by simp [script]))
  · exact .broken (breaks_concat [_, _] _ (by simp) rfl (by simp [script]))
  cases verdict with
  | unsat =>
    refine Traces.ofSolving (fun e => ?_) fun _ => ?_
    · exact .broken (breaks_concat [_, _, _] _ (by simp) rfl (by simp [script]))
    · exact .proven ⟨by simp, by simp [script]⟩ rfl
  | sat =>
    refine Traces.step (fun e => ?_) fun m => Traces.step (fun e => ?_) fun _ => Traces.throw ?_
    · exact .broken (breaks_concat [_, _, _] _ (by simp) rfl (by simp [script]))
    · exact .broken (breaks_concat [_, _, _, _] _ (by simp) rfl (by simp [script]))
    · exact .violated (k := 0) ⟨by simp, by simp [script]⟩ rfl rfl (List.suffix_append [_, _, _] _)
  | unknown reason =>
    refine Traces.step (fun e => ?_) fun _ => Traces.throw ?_
    · exact .broken (breaks_concat [_, _, _] _ (by simp) rfl (by simp [script]))
    · exact .undecided (k := 0) ⟨by simp, by simp [script]⟩ rfl rfl

/-- The goals are taken one after another. -/
theorem traces_goals (goals : List (Obligation × Term)) :
    Traces (goals.forM fun (o, t) => p.discharge1 backend o t)
      (goals.forM fun (o, t) => p.discharge1 backend.recorded o t)
      (Decides p.name [] goals ()) := by
  induction goals with
  | nil => exact Traces.pure (.proven ⟨by simp, rfl⟩ rfl)
  | cons g goals ih =>
    refine (traces_discharge1 p backend g.1 g.2).bind (fun d e hd => hd.stop) fun d _ hd => ?_
    exact ih.mono fun d' r hd' => hd.next hd'

/-- The declarations are made before anything else. -/
theorem traces_declarations (ds : List Declaration) :
    Traces (ds.forM fun d => Verifying.ofSolving (backend.tell (.declare d)))
      (ds.forM fun d => Verifying.ofSolving (backend.recorded.tell (.declare d)))
      fun d r => Breaks (ds.map fun d => .tell (.declare d)) d r ∨
        (Completes (ds.map fun d => .tell (.declare d)) d ∧ verdicts d = [] ∧ r = .ok ()) := by
  induction ds with
  | nil => exact Traces.pure (Or.inr ⟨⟨by simp, rfl⟩, rfl, rfl⟩)
  | cons decl ds ih =>
    refine Traces.step (fun e => ?_) fun _ => ih.mono ?_
    · exact Or.inl (breaks_concat [] _ (by simp) rfl (by simp))
    · have hhead : Completes [.tell (.declare decl)] [.told (.declare decl) (.ok ())] :=
        ⟨by simp, rfl⟩
      rintro d r (h | ⟨h, hverdicts, hr⟩)
      · exact Or.inl (hhead.append_breaks h)
      · exact Or.inr ⟨hhead.append h, by simpa using hverdicts, hr⟩

end Steps

/-! ## Functions -/

/-- The obligations of a function with their terms, and what has to be declared for them. -/
def Prepared.Encodes (p : Prepared) (ds : List Declaration) (goals : List (Obligation × Term)) :
    Prop :=
  declarations p.env (p.obligations.map (·.formula)) = .ok ds ∧
    goals.map (·.1) = p.obligations ∧ ∀ g ∈ goals, encode p.env [] g.1.formula = .ok g.2

/-- The terms of all formulas, each beside its obligation. -/
theorem encodeAll_zip_iff {env : TypeEnv} {obligations : List Obligation}
    {goals : List (Obligation × Term)} :
    (∃ ts, encodeAll env [] (obligations.map (·.formula)) = .ok ts ∧ obligations.zip ts = goals) ↔
      goals.map (·.1) = obligations ∧ ∀ g ∈ goals, encode env [] g.1.formula = .ok g.2 := by
  induction obligations generalizing goals with
  | nil => cases goals <;> simp [encodeAll]
  | cons o os ih =>
    simp only [List.map_cons, encodeAll, Exec.bind_eq_ok]
    constructor
    · rintro ⟨_, ⟨t, ht, ts, hts, hr⟩, rfl⟩
      obtain rfl := Except.ok.inj hr
      obtain ⟨hobligations, hterms⟩ := ih.1 ⟨ts, hts, rfl⟩
      exact ⟨by simp [hobligations], by simpa using ⟨ht, fun o t hg => hterms (o, t) hg⟩⟩
    · rintro ⟨hobligations, hterms⟩
      obtain ⟨g, goals, rfl, rfl, hrest⟩ := List.map_eq_cons_iff.1 hobligations
      obtain ⟨ts, hts, rfl⟩ := ih.2 ⟨hrest, fun g' hg' => hterms g' (List.mem_cons_of_mem _ hg')⟩
      exact ⟨_, ⟨g.2, hterms g List.mem_cons_self, ts, hts, rfl⟩, rfl⟩

theorem encoded_eq_ok_iff {p : Prepared} {ds : List Declaration}
    {goals : List (Obligation × Term)} : p.encoded = .ok (ds, goals) ↔ p.Encodes ds goals := by
  rw [Prepared.Encodes, ← encodeAll_zip_iff]
  simp only [Prepared.encoded, Exec.bind_eq_ok]
  constructor
  · rintro ⟨ts, hts, _, hds, hr⟩
    obtain ⟨rfl, rfl⟩ := Prod.mk.inj (Except.ok.inj hr)
    exact ⟨hds, ts, hts, rfl⟩
  · rintro ⟨hds, ts, hts, rfl⟩
    exact ⟨ts, hts, ds, hds, rfl⟩

/-- A function is discharged by its script, and its result is what the answers call for. -/
structure Prepared.Conducts (p : Prepared) (d : List Exchange) (r : Except Error Nat) : Prop where
  /-- Nothing is sent unless everything can be encoded and declared. -/
  silent : (¬∃ ds goals, p.Encodes ds goals) → d = [] ∧ ∃ e, r = .error e
  /-- What is sent begins like the script. -/
  sent : ∀ ds goals, p.Encodes ds goals →
    d.map (·.request) <+: ds.map (fun c => .tell (.declare c)) ++ script goals (verdicts d)
  /-- Without a failure the whole script is sent. -/
  complete : ∀ ds goals, p.Encodes ds goals → Succeeds d →
    d.map (·.request) = ds.map (fun c => .tell (.declare c)) ++ script goals (verdicts d)
  /-- A step that fails is the last one, and its failure is the result. -/
  failed : ∀ before x after e, d = before ++ x :: after → x.failure? = some e →
    after = [] ∧ r = .error (.solver e)
  /-- The obligations are proven exactly if all steps succeed and all checks are answered `unsat`. -/
  proven : ∀ n, r = .ok n ↔ (∃ ds goals, p.Encodes ds goals) ∧ Succeeds d ∧
    (∀ v ∈ verdicts d, v = .unsat) ∧ n = p.obligations.length
  /-- Then every obligation was checked, and every push has its pop. -/
  balanced : ∀ n, r = .ok n → (verdicts d).length = n ∧
    (d.map (·.request)).countP Request.isPush = n ∧ (d.map (·.request)).countP Request.isPop = n
  /-- A check that is answered `sat` is a violation of its obligation, with the model given. -/
  violated : ∀ k : Nat, Succeeds d → (verdicts d)[k]? = some Verdict.sat →
    ∃ (o : Obligation) (m : Model), p.obligations[k]? = some o ∧
      [.modelled (.ok m), .told .pop (.ok ())] <:+ d ∧
      r = .error (.violated p.name o.kind o.formula m)
  /-- A check that is answered `unknown` leaves its obligation undecided. -/
  undecided : ∀ (k : Nat) (reason : String), Succeeds d → (verdicts d)[k]? = some (Verdict.unknown reason) →
    ∃ o : Obligation, p.obligations[k]? = some o ∧ r = .error (.undecided p.name o.formula reason)

section Functions

variable {p : Prepared} {d : List Exchange} {r : Except Error Nat}

theorem conducts_of_not_encodes {e : Error} (h : p.encoded = .error e) :
    p.Conducts [] (.error e) := by
  have hnone : ∀ ds goals, ¬p.Encodes ds goals := by
    intro ds goals hp
    rw [← encoded_eq_ok_iff, h] at hp
    cases hp
  constructor <;> simp [hnone]

theorem conducts_of_decides {ds : List Declaration} {goals : List (Obligation × Term)}
    (hp : p.Encodes ds goals)
    (h : Decides p.name (ds.map fun c => .tell (.declare c)) goals goals.length d r) :
    p.Conducts d r := by
  have hunique : ∀ ds' goals', p.Encodes ds' goals' → ds' = ds ∧ goals' = goals := by
    intro ds' goals' hp'
    rw [← encoded_eq_ok_iff] at hp hp'
    exact Prod.mk.inj (Except.ok.inj (hp'.symm.trans hp))
  have hgoals : ∀ (k : Nat) o t, goals[k]? = some (o, t) → p.obligations[k]? = some o := by
    intro k o t hk
    rw [← hp.2.1, List.getElem?_map, hk]
    rfl
  have hlength : p.obligations.length = goals.length := by rw [← hp.2.1, List.length_map]
  constructor
  case silent => exact fun hnot => absurd ⟨ds, goals, hp⟩ hnot
  case sent =>
    intro ds' goals' hp'
    obtain ⟨rfl, rfl⟩ := hunique _ _ hp'
    exact h.sent
  case complete =>
    intro ds' goals' hp' hd
    obtain ⟨rfl, rfl⟩ := hunique _ _ hp'
    exact h.complete hd
  case failed => exact fun before x after e hd hx => h.failed hd hx
  case proven =>
    intro n
    rw [h.eq_ok_iff, hlength]
    exact ⟨fun hr => ⟨⟨ds, goals, hp⟩, hr⟩, And.right⟩
  case balanced =>
    rintro n rfl
    obtain ⟨hd, hverdicts⟩ := h.verdicts_of_ok
    obtain ⟨-, -, rfl⟩ := h.eq_ok_iff.1 rfl
    have hopening : ∀ f : Request → Bool, (∀ c, f (.tell (.declare c)) = false) →
        (ds.map fun c => Request.tell (.declare c)).countP f = 0 := by
      intro f hf
      simp [List.countP_eq_zero, hf]
    rw [h.complete hd, List.countP_append, List.countP_append, hopening _ fun _ => rfl,
      hopening _ fun _ => rfl, hverdicts, (countP_script_unsat goals).1,
      (countP_script_unsat goals).2]
    simp
  case violated =>
    intro k hd hsat
    obtain ⟨o, t, m, hk, hmodel, hr⟩ := h.of_sat hd hsat
    exact ⟨o, m, hgoals k o t hk, hmodel, hr⟩
  case undecided =>
    intro k reason hd hunknown
    obtain ⟨o, t, hk, hr⟩ := h.of_unknown hd hunknown
    exact ⟨o, hgoals k o t hk, hr⟩

/-- The discharge of a function follows the protocol, whatever the solver does. -/
theorem traces_discharge (p : Prepared) (backend : Backend σ) :
    Traces (p.discharge backend) (p.discharge backend.recorded) p.Conducts := by
  cases hp : p.encoded with
  | error e =>
    rw [Prepared.discharge, Prepared.discharge, hp]
    exact Traces.throw (conducts_of_not_encodes hp)
  | ok encoded =>
    obtain ⟨ds, goals⟩ := encoded
    rw [Prepared.discharge, Prepared.discharge, hp]
    refine ((traces_declarations backend ds).bind ?_ fun d _ hd => ?_).mono fun d r =>
      conducts_of_decides (encoded_eq_ok_iff.1 hp)
    · rintro d e (h | ⟨-, -, hr⟩)
      · exact .broken (h.mono (List.prefix_append _ _))
      · cases hr
    · obtain h | ⟨hdeclared, hverdicts, -⟩ := hd
      · obtain ⟨_, _, _, _, _, _, _, hr⟩ := h
        cases hr
      refine (traces_goals p backend goals).bind (fun d' e hd' => ?_) fun d' _ hd' =>
        Traces.pure ?_
      · exact hd'.opened hdeclared hverdicts goals.length
      · rw [List.append_nil]
        exact hd'.opened hdeclared hverdicts goals.length

end Functions

/-! ## Scopes by name -/

namespace Host

/-- The functions of scopes with the names of these, in their order. -/
def functionsOf (scopes : List Scope) : List (String × Subject) :=
  scopes.flatMap fun s => s.subjects.map fun f => (s.name, f)

theorem functionsOf_cons (s : Scope) (scopes : List Scope) :
    functionsOf (s :: scopes) = s.subjects.map (fun f => (s.name, f)) ++ functionsOf scopes :=
  List.flatMap_cons

/-- Where all names are different, a scope is the only one of its name. -/
theorem filter_name_of_nodup {scopes : List Scope} (h : (scopes.map (·.name)).Nodup) {s : Scope}
    (hs : s ∈ scopes) : scopes.filter (·.name = s.name) = [s] := by
  induction scopes with
  | nil => cases hs
  | cons first scopes ih =>
    rw [List.map_cons, List.nodup_cons] at h
    rcases List.mem_cons.1 hs with rfl | hs
    · have hnone : scopes.filter (·.name = s.name) = [] := by
        rw [List.filter_eq_nil_iff]
        intro other hother heq
        exact h.1 (of_decide_eq_true heq ▸ List.mem_map_of_mem hother)
      rw [List.filter_cons_of_pos (by simp), hnone]
    · have hne : first.name ≠ s.name := fun heq => h.1 (heq ▸ List.mem_map_of_mem hs)
      rw [List.filter_cons_of_neg (by simpa using hne), ih h.2 hs]

/-- A scope of a module is found by its name. -/
theorem Module.scope?_name {m : Module} {s : Scope} (hs : s ∈ m.scopes) :
    m.scope? s.name = some s := by
  rw [scope?, ← List.head?_filter, filter_name_of_nodup m.distinct hs, List.head?_singleton]

theorem Module.scope?_eq_some {m : Module} {name : String} {s : Scope}
    (h : m.scope? name = some s) : s ∈ m.scopes ∧ s.name = name :=
  ⟨List.mem_of_find?_eq_some h, by simpa using List.find?_some h⟩

end Host

/-! ## Runs -/

/-- A function that a run got to, with its dialogue and its result. -/
structure Visit where
  /-- The name of its scope. -/
  scope : String
  subject : Host.Subject
  dialogue : List Exchange
  /-- The number of obligations that were proven, or what went wrong. -/
  result : Except Error Nat

namespace Visit

/-- What is found out about the function. -/
def finding (v : Visit) : Finding :=
  match v.result with
  | .ok proven => .ofProven v.scope v.subject.name proven
  | .error e => .ofError v.scope v.subject.name e

/-- The function was discharged by a solver of its own, after it was prepared. -/
def Discharged (accepted : List String) (v : Visit) : Prop :=
  ∃ p d, v.subject.prepare accepted = .ok p ∧ v.dialogue = .spawned (.ok ()) :: d ∧
    p.Conducts d v.result

/-- A solver is started if the function can be prepared, and the function is discharged if the
solver starts. -/
inductive Follows (accepted : List String) (v : Visit) : Prop where
  | unprepared {e : Error} (h : v.subject.prepare accepted = .error e) (hd : v.dialogue = [])
    (hresult : v.result = .error e)
  | unstarted {p : Prepared} {e : SolverError} (h : v.subject.prepare accepted = .ok p)
    (hd : v.dialogue = [.spawned (.error e)]) (hresult : v.result = .error (.solver e))
  | discharged (h : v.Discharged accepted)

/-- Only a function that was discharged is found verified. -/
theorem discharged_of_verified {accepted : List String} {v : Visit} (h : v.Follows accepted)
    (hv : v.finding.status = .verified) :
    v.Discharged accepted ∧ v.result = .ok v.finding.proven := by
  have hresult : ∃ n, v.result = .ok n := by
    rw [finding] at hv
    cases hr : v.result with
    | ok n => exact ⟨n, rfl⟩
    | error e => cases e <;> simp [hr, Finding.ofError] at hv
  obtain ⟨n, hn⟩ := hresult
  cases h with
  | unprepared _ _ hresult => cases hn.symm.trans hresult
  | unstarted _ _ hresult => cases hn.symm.trans hresult
  | discharged h => exact ⟨h, by simp [finding, hn, Finding.ofProven]⟩

end Visit

namespace Run

/-- The run with a recorded solver. -/
def recorded (run : Run σ) : Run (σ × List Exchange) :=
  ⟨run.module, run.mode, run.accepted, run.backend.recorded⟩

/-- How the functions of a run are visited: in order, until one fails in a way that ends the run. -/
structure Course (run : Run σ) (subjects : List (String × Host.Subject)) (visits : List Visit)
    (r : Except Error (List Finding)) : Prop where
  follows : ∀ v ∈ visits, v.Follows run.accepted
  order : visits.map (fun v => (v.scope, v.subject)) <+: subjects
  reported : ∀ findings, r = .ok findings →
    visits.map (fun v => (v.scope, v.subject)) = subjects ∧ findings = visits.map Visit.finding
  ended : ∀ e, r = .error e →
    ∃ v, visits.getLast? = some v ∧ v.result = .error e ∧ run.endsWith e = true

/-- A dialogue made of the dialogues of the functions that are visited. -/
def Visits (run : Run σ) (subjects : List (String × Host.Subject)) (d : List Exchange)
    (r : Except Error (List Finding)) : Prop :=
  ∃ visits : List Visit, d = visits.flatMap (·.dialogue) ∧ run.Course subjects visits r

variable {run : Run σ} {subjects subjects' : List (String × Host.Subject)} {d d' : List Exchange}

theorem visits_nil : run.Visits [] [] (.ok []) :=
  ⟨[], rfl, by simp, by simp, by simp, by simp⟩

theorem visits_reported {v : Visit} (h : v.Follows run.accepted) :
    run.Visits [(v.scope, v.subject)] v.dialogue (.ok [v.finding]) :=
  ⟨[v], by simp, by simpa using h, by simp, by simp, by simp⟩

theorem visits_ended {v : Visit} {e : Error} (h : v.Follows run.accepted)
    (hresult : v.result = .error e) (he : run.endsWith e = true) :
    run.Visits [(v.scope, v.subject)] v.dialogue (.error e) :=
  ⟨[v], by simp, by simpa using h, by simp, by simp, by simp [hresult, he]⟩

/-- A run that has ended visits none of the functions that follow. -/
theorem Visits.stop {e : Error} (h : run.Visits subjects d (.error e)) :
    run.Visits (subjects ++ subjects') d (.error e) := by
  obtain ⟨visits, rfl, h⟩ := h
  exact ⟨visits, rfl, h.follows, h.order.trans (List.prefix_append _ _), by simp, h.ended⟩

/-- A run that has not ended goes on to the next functions. -/
theorem Visits.append {findings : List Finding} {r : Except Error (List Finding)}
    (h : run.Visits subjects d (.ok findings)) (h' : run.Visits subjects' d' r) :
    run.Visits (subjects ++ subjects') (d ++ d') (r.map (findings ++ ·)) := by
  obtain ⟨visits, rfl, h⟩ := h
  obtain ⟨visits', rfl, h'⟩ := h'
  obtain ⟨rfl, rfl⟩ := h.reported _ rfl
  refine ⟨visits ++ visits', List.flatMap_append.symm, ?_, ?_, ?_, ?_⟩
  · exact List.forall_mem_append.2 ⟨h.follows, h'.follows⟩
  · rw [List.map_append]
    exact (List.prefix_append_right_inj _).2 h'.order
  · intro findings hr
    cases r with
    | error e => cases hr
    | ok findings' =>
      obtain ⟨rfl, rfl⟩ := h'.reported _ rfl
      cases hr
      simp
  · intro e hr
    cases r with
    | ok findings' => cases hr
    | error e' =>
      cases hr
      obtain ⟨v, hlast, hv⟩ := h'.ended _ rfl
      exact ⟨v, by simp [List.getLast?_append, hlast], hv⟩

/-- A function is prepared first, and then discharged by a solver of its own. -/
theorem traces_verifySubject (run : Run σ) (scope : String) (f : Host.Subject) :
    Traces (run.verifySubject f) (run.recorded.verifySubject f)
      fun d r => Visit.Follows run.accepted ⟨scope, f, d, r⟩ := by
  rw [verifySubject, verifySubject]
  cases hp : f.prepare run.accepted with
  | error e =>
    rw [recorded, hp]
    exact Traces.throw (.unprepared hp rfl rfl)
  | ok p =>
    rw [recorded, hp]
    refine Traces.step (fun e => ?_) fun _ => ?_
    · exact .unstarted hp rfl rfl
    · exact (traces_discharge p run.backend).mono fun d r hd =>
        .discharged ⟨p, d, hp, rfl, hd⟩

theorem traces_finding (run : Run σ) (scope : String) (f : Host.Subject) :
    Traces (run.finding scope f) (run.recorded.finding scope f)
      fun d r => run.Visits [(scope, f)] d (r.map fun finding => [finding]) := by
  have hsubject := (traces_verifySubject run scope f).caught
  refine hsubject.bind ?_ ?_
  · rintro d e ⟨_, hr, -⟩
    cases hr
  · rintro d result ⟨_, hr, hd⟩
    cases hr
    rw [← List.append_nil d] at hd
    cases result with
    | ok proven => exact Traces.pure (visits_reported hd)
    | error e =>
      by_cases he : run.endsWith e = true
      · have he' : run.recorded.endsWith e = true := he
        simp only [he, he', if_true]
        exact Traces.throw (visits_ended hd rfl he)
      · have he' : ¬run.recorded.endsWith e = true := he
        simp only [he, he']
        exact Traces.pure (visits_reported hd)

/-- The functions of a scope are visited one after another. -/
theorem traces_verifySubjects (run : Run σ) (scope : String) (fs : List Host.Subject) :
    Traces (run.verifySubjects scope fs) (run.recorded.verifySubjects scope fs)
      (run.Visits (fs.map fun f => (scope, f))) := by
  induction fs with
  | nil => exact Traces.pure visits_nil
  | cons f fs ih =>
    refine (traces_finding run scope f).bind (fun d e hd => hd.stop) fun d finding hd => ?_
    refine ih.bind (fun d' e hd' => hd.append hd') fun d' findings hd' => Traces.pure ?_
    rw [List.append_nil]
    exact hd.append hd'

/-- What is found out about the functions of some scopes. -/
def verifyScopes (run : Run σ) : List Host.Scope → Verifying σ (List Finding)
  | [] => return []
  | s :: ss => do
    let first ← run.verifySubjects s.name s.subjects
    let rest ← verifyScopes run ss
    return first ++ rest

/-- Going through the names of scopes is going through the scopes: the names are different, so no
scope is found in the place of another. -/
theorem verifyNames_map_name (run : Run σ) (scopes : List Host.Scope)
    (h : ∀ s ∈ scopes, s ∈ run.module.scopes) :
    run.verifyNames (scopes.map (·.name)) = run.verifyScopes scopes := by
  induction scopes with
  | nil => rfl
  | cons s ss ih =>
    rw [List.forall_mem_cons] at h
    rw [List.map_cons, verifyNames, verifyScopes, Host.Module.scope?_name h.1, ih h.2]

theorem verifyAll_eq (run : Run σ) :
    run.verifyAll = (do return ⟨← run.verifyScopes run.module.scopes⟩) := by
  rw [verifyAll, run.verifyNames_map_name _ fun s hs => hs]

theorem verifyScope_eq {name : String} {scope : Host.Scope}
    (h : run.module.scope? name = some scope) :
    run.verifyScope name = (do return ⟨← run.verifyScopes [scope]⟩) := by
  obtain ⟨hmem, rfl⟩ := Host.Module.scope?_eq_some h
  have hone : run.verifyNames [scope.name] = run.verifyScopes [scope] :=
    run.verifyNames_map_name [scope] (by simpa using hmem)
  simp only [verifyScope, h, hone]

/-- The functions of all scopes are visited, scope by scope. -/
theorem traces_verifyScopes (run : Run σ) (scopes : List Host.Scope) :
    Traces (run.verifyScopes scopes) (run.recorded.verifyScopes scopes)
      (run.Visits (Host.functionsOf scopes)) := by
  induction scopes with
  | nil => exact Traces.pure visits_nil
  | cons s ss ih =>
    refine (traces_verifySubjects run s.name s.subjects).bind (fun d e hd => hd.stop)
      fun d first hd => ?_
    refine ih.bind (fun d' e hd' => hd.append hd') fun d' rest hd' => Traces.pure ?_
    rw [List.append_nil]
    exact hd.append hd'

/-- What a run over the functions of some scopes says to its solvers and reports. -/
def Reports (run : Run σ) (scopes : List Host.Scope) (d : List Exchange)
    (r : Except Error Report) : Prop :=
  ∃ visits : List Visit, d = visits.flatMap (·.dialogue) ∧
    run.Course (Host.functionsOf scopes) visits (r.map Report.findings) ∧
    ∀ report, r = .ok report → ∀ finding ∈ report.findings, finding.status = .verified →
      ∃ v ∈ visits, v.finding = finding ∧ v.Discharged run.accepted ∧
        v.result = .ok finding.proven

theorem traces_report (run : Run σ) (scopes : List Host.Scope) :
    Traces (do return ⟨← run.verifyScopes scopes⟩)
      (do return ⟨← run.recorded.verifyScopes scopes⟩) (run.Reports scopes) := by
  refine (traces_verifyScopes run scopes).bind ?_ ?_
  · rintro d e ⟨visits, rfl, h⟩
    exact ⟨visits, rfl, h, by simp⟩
  · rintro d findings ⟨visits, rfl, h⟩
    refine Traces.pure ⟨visits, List.append_nil _, h, ?_⟩
    rintro _ hr finding hmem hverified
    cases hr
    obtain ⟨-, rfl⟩ := h.reported findings rfl
    obtain ⟨v, hv, rfl⟩ := List.mem_map.1 hmem
    exact ⟨v, hv, rfl, Visit.discharged_of_verified (h.follows v hv) hverified⟩

/-- Whatever a solver answers and wherever it fails, every discharge follows the protocol, and in a
run each function is discharged by a solver that is started after the function was prepared; it is
reported as verified only if its discharge proved all obligations. -/
theorem discharge_follows_protocol (run : Run σ) :
    (∀ p : Prepared, Traces (p.discharge run.backend) (p.discharge run.backend.recorded)
      p.Conducts) ∧
    Traces run.verifyAll run.recorded.verifyAll (run.Reports run.module.scopes) ∧
    ∀ name, Traces (run.verifyScope name) (run.recorded.verifyScope name) fun d r =>
      (∀ scope, run.module.scope? name = some scope → run.Reports [scope] d r) ∧
        (run.module.scope? name = none → d = [] ∧ ∃ e, r = .error e) := by
  refine ⟨fun p => traces_discharge p run.backend, ?_, fun name => ?_⟩
  · rw [verifyAll_eq, verifyAll_eq]
    exact traces_report run _
  cases hscope : run.module.scope? name with
  | none =>
    rw [verifyScope, verifyScope, recorded, hscope]
    exact Traces.throw ⟨by simp, fun _ => ⟨rfl, _, rfl⟩⟩
  | some scope =>
    have hrecorded : run.recorded.module.scope? name = some scope := hscope
    rw [verifyScope_eq hscope, verifyScope_eq hrecorded]
    refine (traces_report run [scope]).mono fun d r h => ⟨?_, by simp⟩
    rintro _ hs
    cases hs
    exact h

end Run

end Precond
