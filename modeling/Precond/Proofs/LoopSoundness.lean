import Mathlib.Tactic
import Precond.Proofs.LoopCutting
import Precond.Proofs.WeakestPrecondition

/-!
# Verified programs run safely

The obligations of a function speak about its body with the loops cut. This file is about the body
as it is run, where loops are executed directly and their invariants are tested at each head.

A run of a statement changes only the variables that it writes, and keeps their types
(`Exec.exec_preserves`). So every head of a loop that a run reaches is among the states that the cut
loop's `havoc`s choose from, and what the cut statement establishes is established by the run
(`Stmt.Cut.safe`). The induction is on the statement; inside it, a loop's turns are counted by
`Exec.safe_iterate`, whose invariant says that the loop's variables are the only ones to have
changed, that they have their types, and that the loop's invariant was shown.

With exactness of the weakest precondition this gives `cutLoops_sound`: if the obligations are true,
no run of the original body fails an assertion, and the postcondition is true where one ends.
-/

namespace Precond

namespace Exec

/-! ## Stores -/

/-- The values that a store gives to all names; a name without one has a default value. -/
def Store.assignment (σ : Store) : Assignment := fun x => (σ.get? x).getD default

/-- The store gives every variable of `G` a value of its type. -/
def Store.HasTypes (σ : Store) (G : TypeEnv) : Prop :=
  ∀ x ty, G.get? x = some ty → ∃ v, σ.get? x = some v ∧ ty.admits v = true

theorem Store.assignment_insert (σ : Store) (x : String) (v : Value) :
    Store.assignment (σ.insert x v) = Function.update σ.assignment x v := by
  funext y
  by_cases hy : y = x <;> simp [Store.assignment, hy]

/-- An assignment of a value of the right type keeps the types of a store. -/
theorem Store.HasTypes.insert {σ : Store} {G : TypeEnv} {x : String} {ty : Ty} {v : Value}
    (h : σ.HasTypes G) (hx : G.get? x = some ty) (hv : ty.admits v = true) :
    Store.HasTypes (σ.insert x v) G := by
  intro y t hy
  rw [Bindings.get?_insert]
  split_ifs with hyx
  · obtain rfl := Option.some.inj (hx.symm.trans (hyx ▸ hy))
    exact ⟨v, rfl, hv⟩
  · exact h y t hy

theorem Store.HasTypes.respects {σ : Store} {G : TypeEnv} (h : σ.HasTypes G) : σ.Respects G := by
  intro x ty v hx hv
  obtain ⟨w, hw, hadmits⟩ := h x ty hx
  rwa [Option.some.inj (hv.symm.trans hw)]

/-- Under the assignment of a store an expression means what it comes to there. -/
theorem meaning_assignment {σ : Store} {e : Expr} {v : Value} (I : Convention)
    (h : eval σ e = .ok v) : e.meaning I σ.assignment = v :=
  meaning_of_eval (fun x v hx => by simp [Store.assignment, hx]) h

/-- A condition that a run has tested, or one that it cannot tell from it, has that truth value. -/
theorem holds_assignment_iff {σ : Store} {e e' : Expr} {b : Bool} (I : Convention)
    (he : e'.Echoes e) (h : holds σ e = .ok b) :
    Expr.Holds I σ.assignment e' ↔ b = true := by
  rw [holds_eq_ok, ← eval_congr_outline he.outline] at h
  rw [Expr.Holds, meaning_assignment I h, Value.isTrue]

/-! ## What a run changes -/

variable {limit : Nat} {P : Store → Prop}

/-- What the body of a loop preserves, all its turns do. -/
theorem iterate_preserves {invariants : List Expr} {cond : Expr} {body : Store → Result}
    (hbody : ∀ σ, P σ → P (body σ).2) {turns : Nat} {σ : Store} (hσ : P σ) :
    P (iterate limit invariants cond body turns σ).2 := by
  induction turns generalizing σ with
  | zero => exact hσ
  | succ turns ih =>
    rw [iterate]
    split
    · exact hσ
    · split
      · exact hσ
      · exact hσ
      · have hnext := hbody σ hσ
        split
        · next hrun => exact ih (by rwa [hrun] at hnext)
        · next hrun => rwa [hrun] at hnext

/-- What every assignment of a statement preserves, a run of the statement preserves, however it
ends. -/
theorem exec_preserves {p : String → Expr → Prop}
    (hassign : ∀ x e σ v, p x e → P σ → eval σ e = .ok v → P (σ.insert x v)) {s : Stmt}
    (hs : s.EveryAssign p) {σ : Store} (hσ : P σ) : P (exec limit s σ).2 := by
  induction s generalizing σ with
  | skip | havoc => exact hσ
  | assign x e =>
    rw [exec]
    split
    · next hv => exact hassign x e σ _ hs hσ hv
    · exact hσ
  | seq s t ihs iht =>
    have hfirst := ihs hs.1 hσ
    rw [exec]
    split
    · next hrun => exact iht hs.2 (by rwa [hrun] at hfirst)
    · next hrun => rwa [hrun] at hfirst
  | branch c s t ihs iht =>
    rw [exec]
    split
    · exact ihs hs.1 hσ
    · exact iht hs.2 hσ
    · exact hσ
  | assume e | assert e =>
    rw [exec]
    split <;> exact hσ
  | loop invariants cond body ih => exact iterate_preserves (fun τ hτ => ih hs hτ) hσ

/-- A run changes only the variables that the statement writes. -/
theorem get?_exec_of_notMem {s : Stmt} {x : String} (hx : x ∉ s.writtenVars) (σ : Store) :
    (exec limit s σ).2.get? x = σ.get? x := by
  refine @exec_preserves limit (fun τ => τ.get? x = σ.get? x) _ ?_ s (Stmt.everyAssign_ne hx) σ rfl
  intro y e τ v hxy hτ _
  simpa [hxy] using hτ

/-- A run keeps the types of the variables. -/
theorem hasTypes_exec {G : TypeEnv} {s : Stmt} (hs : s.AssignsFit G) {σ : Store}
    (hσ : σ.HasTypes G) : Store.HasTypes (exec limit s σ).2 G := by
  refine @exec_preserves limit (Store.HasTypes · G) _ ?_ s hs σ hσ
  rintro x e τ v ⟨ty, hx, hty⟩ hτ hv
  exact hτ.insert hx (hty.admits hτ.respects hv)

/-! ## Invariants that are tested -/

theorem holds_and (σ : Store) (l r : Expr) :
    holds σ (.and l r) = (do if ← holds σ l then holds σ r else return false) := by
  rw [holds, eval_and]
  rcases holds σ l with f | (_ | _)
  · rfl
  · rfl
  · cases holds σ r <;> rfl

theorem holds_foldl_and_false {σ : Store} {e : Expr} {es : List Expr} (h : holds σ e = .ok false) :
    holds σ (es.foldl .and e) = .ok false := by
  induction es generalizing e with
  | nil => exact h
  | cons d es ih =>
    refine ih ?_
    rw [holds_and, h]
    rfl

/-- Testing conditions one by one comes to testing their conjunction. -/
theorem holds_foldl_and {σ : Store} {e : Expr} {es : List Expr} (h : holds σ e = .ok true) :
    (assertAll σ es = .ok () → holds σ (es.foldl .and e) = .ok true) ∧
      ∀ c, assertAll σ es = .error (.assertionFailed c) →
        holds σ (es.foldl .and e) = .ok false := by
  induction es generalizing e with
  | nil => exact ⟨fun _ => h, fun c hc => by cases hc⟩
  | cons d es ih =>
    have hand : holds σ (.and e d) = holds σ d := by
      rw [holds_and, h]
      rfl
    rw [assertAll, List.foldl_cons]
    cases hd : holds σ d with
    | error f =>
      refine ⟨fun hc => (by cases hc), fun c hc => ?_⟩
      obtain rfl : f = .assertionFailed c := Except.error.inj hc
      exact absurd hd (noAssertion_holds σ d c)
    | ok b =>
      cases b with
      | true => exact ih (hand.trans hd)
      | false => exact ⟨fun hc => (by cases hc), fun _ _ => holds_foldl_and_false (hand.trans hd)⟩

/-- A conjunction of invariants is true if all are found true, and false if one is found false. -/
theorem holds_conjoin {σ : Store} {es : List Expr} :
    (assertAll σ es = .ok () → holds σ (.conjoin es) = .ok true) ∧
      ∀ c, assertAll σ es = .error (.assertionFailed c) → holds σ (.conjoin es) = .ok false := by
  cases es with
  | nil => exact ⟨fun _ => rfl, fun c hc => by cases hc⟩
  | cons e es =>
    rw [assertAll, Expr.conjoin]
    cases he : holds σ e with
    | error f =>
      refine ⟨fun hc => (by cases hc), fun c hc => ?_⟩
      obtain rfl : f = .assertionFailed c := Except.error.inj hc
      exact absurd he (noAssertion_holds σ e c)
    | ok b =>
      cases b with
      | true => exact holds_foldl_and he
      | false => exact ⟨fun hc => (by cases hc), fun _ _ => holds_foldl_and_false he⟩

/-! ## Safe runs -/

/-- The run failed no assertion, and if it ended normally it did so where `Q` is true. -/
def Result.Safe (Q : Store → Prop) : Result → Prop
  | (.ok .normal, σ) => Q σ
  | (.error (.assertionFailed _), _) => False
  | _ => True

/-- A failure of an evaluation is none of an assertion. -/
theorem Result.safe_error {α : Type} {Q : Store → Prop} {r : Except Failure α} {f : Failure}
    (hr : NoAssertion r) (h : r = .error f) (σ : Store) : Result.Safe Q (.error f, σ) := by
  cases f with
  | assertionFailed c => exact hr c h
  | _ => trivial

theorem Result.Safe.imp {Q : Store → Prop} {r : Result} (h : Result.Safe P r)
    (hPQ : P r.2 → Q r.2) : Result.Safe Q r := by
  rcases r with ⟨f | (_ | _), σ⟩
  · cases f with
    | assertionFailed c => exact h
    | _ => trivial
  · exact hPQ h
  · trivial

/-- A run that goes on where a safe one ended normally is safe. -/
theorem Result.Safe.andThen {Q : Store → Prop} {r : Result} {next : Store → Result} :
    Result.Safe P r → (∀ σ, P σ → Result.Safe Q (next σ)) →
      Result.Safe Q (match r with
        | (.ok .normal, σ) => next σ
        | (ending, σ) => (ending, σ)) := by
  intro h hnext
  rcases r with ⟨f | (_ | _), σ⟩
  · cases f with
    | assertionFailed c => exact h
    | _ => trivial
  · exact hnext σ h
  · trivial

/-- A loop runs safely if some `P` holds at every head: it rules out that an invariant fails, a turn
of the body preserves it, and it gives `Q` where the condition is false. -/
theorem safe_iterate {invariants : List Expr} {cond : Expr} {body : Store → Result}
    {Q : Store → Prop}
    (hinvariant : ∀ σ c, P σ → assertAll σ invariants ≠ .error (.assertionFailed c))
    (hexit : ∀ σ, P σ → assertAll σ invariants = .ok () → holds σ cond = .ok false → Q σ)
    (hturn : ∀ σ, P σ → assertAll σ invariants = .ok () → holds σ cond = .ok true →
      Result.Safe P (body σ))
    {turns : Nat} {σ : Store} (hσ : P σ) :
    Result.Safe Q (iterate limit invariants cond body turns σ) := by
  induction turns generalizing σ with
  | zero => trivial
  | succ turns ih =>
    rw [iterate]
    cases hassert : assertAll σ invariants with
    | error f =>
      cases f with
      | assertionFailed c => exact hinvariant σ c hσ hassert
      | _ => trivial
    | ok _ =>
      cases hcond : holds σ cond with
      | error f => exact Result.safe_error (noAssertion_holds σ cond) hcond σ
      | ok b =>
        cases b with
        | false => exact hexit σ hσ hassert hcond
        | true => exact (hturn σ hσ hassert hcond).andThen fun τ hτ => ih hτ

end Exec

/-! ## What a cut loop establishes -/

namespace Stmt

open Exec (Store Value)

variable {I : Convention} {G : TypeEnv} {Q : Assignment → Prop} {ρ : Assignment}

/-- A chain of statements establishes what its members do, one after the other. -/
theorem establishes_sequence (l : List Stmt) :
    Establishes I G (sequence l) Q ρ ↔ l.foldr (Establishes I G) Q ρ := by
  have hfoldl : ∀ (l : List Stmt) (s : Stmt),
      Establishes I G (l.foldl .seq s) Q ρ ↔ Establishes I G s (l.foldr (Establishes I G) Q) ρ := by
    intro l
    induction l with
    | nil => exact fun s => Iff.rfl
    | cons t l ih =>
      intro s
      rw [List.foldl_cons, ih, establishes_seq]
      rfl
  match l with
  | [] => exact establishes_skip
  | [s] =>
    have hskip : Establishes I G .skip Q = Q := funext fun ρ => propext establishes_skip
    rw [sequence, establishes_seq, hskip]
    rfl
  | s :: t :: rest =>
    rw [sequence, hfoldl, establishes_seq]
    rfl

/-- Values of their types, given to the named variables, are among those that the `havoc`s
choose. -/
theorem of_foldr_havoc {names : List String} {ρ' : Assignment}
    (h : (names.map Stmt.havoc).foldr (Establishes I G) Q ρ)
    (htyped : ∀ x ∈ names, ∃ ty, G.get? x = some ty ∧ ty.admits (ρ' x) = true)
    (hrest : ∀ x ∉ names, ρ' x = ρ x) : Q ρ' := by
  induction names generalizing ρ with
  | nil =>
    obtain rfl : ρ' = ρ := funext fun x => hrest x List.not_mem_nil
    exact h
  | cons x names ih =>
    obtain ⟨ty, hx, hv⟩ := htyped x List.mem_cons_self
    rw [List.map_cons, List.foldr_cons, establishes_havoc hx] at h
    refine ih (h (ρ' x) hv) (fun y hy => htyped y (List.mem_cons_of_mem x hy)) fun y hy => ?_
    by_cases hyx : y = x
    · rw [hyx, Function.update_self]
    · rw [Function.update_of_ne hyx, hrest y (by simp [hyx, hy])]

/-- What it means for the straight-line form of a loop to establish `Q`: the invariant is true on
entry, and at every head that the loop's variables allow for, a turn of the body makes it true again
and `Q` is true if there is none. -/
theorem establishes_straightened {written : List String} {entry head cond again : Expr}
    {body : Stmt} (h : Establishes I G (straightened written entry head cond again body) Q ρ) :
    Expr.Holds I ρ entry ∧ ∀ ρ' : Assignment,
      (∀ x ∈ written, ∃ ty, G.get? x = some ty ∧ ty.admits (ρ' x) = true) →
      (∀ x ∉ written, ρ' x = ρ x) → Expr.Holds I ρ' head →
        (Expr.Holds I ρ' cond → Establishes I G body (Expr.Holds I · again) ρ') ∧
        (¬Expr.Holds I ρ' cond → Q ρ') := by
  simp only [straightened, establishes_sequence, List.foldr_append, List.foldr_cons,
    List.foldr_nil] at h
  rw [establishes_assert] at h
  refine ⟨h.2, fun ρ' htyped hrest hhead => ?_⟩
  have hrun := of_foldr_havoc h.1 htyped hrest
  rw [establishes_assume, establishes_branch] at hrun
  obtain ⟨htaken, hexit⟩ := hrun hhead
  refine ⟨fun hcond => ?_, fun hcond => establishes_skip.mp (hexit hcond)⟩
  have hbody := htaken hcond
  simp only [establishes_sequence, List.foldr_cons, List.foldr_nil] at hbody
  exact hbody.mono fun _ hend => (establishes_assert.mp hend).2

/-! ## Soundness -/

/-- What the straight-line form of a loop establishes, a run of the loop establishes, if that is so
of the bodies. -/
theorem safe_loop {limit : Nat} {invariants : List Expr} {cond entry head cond' again : Expr}
    {body body' : Stmt} (hentry : entry.Echoes (.conjoin invariants))
    (hhead : head.Echoes (.conjoin invariants)) (hagain : again.Echoes (.conjoin invariants))
    (hcond : cond'.Echoes cond) (hfit : body.AssignsFit G) (hsettled : G.Settles body.writtenVars)
    (hbody : ∀ {Q : Assignment → Prop} {σ : Store}, σ.HasTypes G →
      Establishes I G body' Q σ.assignment →
        Exec.Result.Safe (fun τ => Q τ.assignment) (Exec.exec limit body σ))
    {σ : Store} (hσ : σ.HasTypes G)
    (hc : Establishes I G (straightened body.writtenVars entry head cond' again body') Q
      σ.assignment) :
    Exec.Result.Safe (fun τ => Q τ.assignment)
      (Exec.exec limit (.loop invariants cond body) σ) := by
  obtain ⟨hstart, hheads⟩ := establishes_straightened hc
  -- at each head: only the loop's variables have changed, and its invariant was shown
  let P : Store → Prop := fun τ => (∀ x ∉ body.writtenVars, τ.get? x = σ.get? x) ∧
    τ.HasTypes G ∧ ∃ e : Expr, e.Echoes (.conjoin invariants) ∧ Expr.Holds I τ.assignment e
  have hreached : ∀ τ, P τ → Exec.assertAll τ invariants = .ok () →
      (Expr.Holds I τ.assignment cond' →
        Establishes I G body' (Expr.Holds I · again) τ.assignment) ∧
      (¬Expr.Holds I τ.assignment cond' → Q τ.assignment) := by
    rintro τ ⟨hframe, htypes, -⟩ hok
    refine hheads τ.assignment (fun x hx => ?_) (fun x hx => ?_)
      ((Exec.holds_assignment_iff I hhead (Exec.holds_conjoin.1 hok)).mpr rfl)
    · obtain ⟨ty, hty, -⟩ := hsettled x hx
      obtain ⟨v, hv, hadmits⟩ := htypes x ty hty
      exact ⟨ty, hty, by simpa [Store.assignment, hv] using hadmits⟩
    · simp only [Store.assignment, hframe x hx]
  refine @Exec.safe_iterate limit P _ _ _ _ ?_ ?_ ?_ _ σ
    ⟨fun _ _ => rfl, hσ, entry, hentry, hstart⟩
  · rintro τ d ⟨-, -, e, he, htrue⟩ hfailed
    have hfalse := Exec.holds_conjoin.2 d hfailed
    exact Bool.false_ne_true ((Exec.holds_assignment_iff I he hfalse).mp htrue)
  · intro τ hτ hok hb
    exact (hreached τ hτ hok).2 fun hd =>
      Bool.false_ne_true ((Exec.holds_assignment_iff I hcond hb).mp hd)
  · intro τ hτ hok hb
    have hturn := (hreached τ hτ hok).1 ((Exec.holds_assignment_iff I hcond hb).mpr rfl)
    refine (hbody hτ.2.1 hturn).imp fun hshown => ?_
    exact ⟨fun x hx => (Exec.get?_exec_of_notMem hx τ).trans (hτ.1 x hx),
      Exec.hasTypes_exec hfit hτ.2.1, again, hagain, hshown⟩

/-- What the cut statement establishes, a run of the statement establishes. -/
theorem Cut.safe {limit : Nat} {s c : Stmt} (h : Cut s c) (hfit : s.AssignsFit G)
    (hsettled : G.Settles s.writtenVars) {σ : Store} (hσ : σ.HasTypes G)
    (hc : Establishes I G c Q σ.assignment) :
    Exec.Result.Safe (fun τ => Q τ.assignment) (Exec.exec limit s σ) := by
  induction h generalizing Q σ with
  | skip => exact establishes_skip.mp hc
  | havoc => trivial
  | @assign x e e' he =>
    rw [Exec.exec]
    cases hv : Exec.eval σ e with
    | error f => exact Exec.Result.safe_error (Exec.noAssertion_eval σ e) hv σ
    | ok v =>
      have hv' : e'.meaning I σ.assignment = v :=
        Exec.meaning_assignment I ((Exec.eval_congr_outline he.outline σ).trans hv)
      rw [establishes_assign, hv', ← Store.assignment_insert] at hc
      exact hc
  | @assume e e' he =>
    rw [Exec.exec]
    cases hb : Exec.holds σ e with
    | error f => exact Exec.Result.safe_error (Exec.noAssertion_holds σ e) hb σ
    | ok b =>
      cases b with
      | true => exact establishes_assume.mp hc ((Exec.holds_assignment_iff I he hb).mpr rfl)
      | false => trivial
  | @assert e e' he =>
    rw [establishes_assert] at hc
    rw [Exec.exec]
    cases hb : Exec.holds σ e with
    | error f => exact Exec.Result.safe_error (Exec.noAssertion_holds σ e) hb σ
    | ok b =>
      cases b with
      | true => exact hc.1
      | false => exact absurd ((Exec.holds_assignment_iff I he hb).mp hc.2) Bool.false_ne_true
  | @seq s s' t t' _ _ ihs iht =>
    rw [establishes_seq] at hc
    rw [Exec.exec]
    simp only [TypeEnv.Settles, mem_writtenVars_seq, or_imp, forall_and] at hsettled
    have hfirst : Exec.Result.Safe
        (fun τ => τ.HasTypes G ∧ Establishes I G t' Q τ.assignment) (Exec.exec limit s σ) :=
      (ihs hfit.1 hsettled.1 hσ hc).imp fun h => ⟨Exec.hasTypes_exec hfit.1 hσ, h⟩
    exact hfirst.andThen fun τ hτ => iht hfit.2 hsettled.2 hτ.1 hτ.2
  | @branch d d' s s' t t' he _ _ ihs iht =>
    rw [establishes_branch] at hc
    rw [Exec.exec]
    simp only [TypeEnv.Settles, mem_writtenVars_branch, or_imp, forall_and] at hsettled
    cases hb : Exec.holds σ d with
    | error f => exact Exec.Result.safe_error (Exec.noAssertion_holds σ d) hb σ
    | ok b =>
      have htruth := Exec.holds_assignment_iff I he hb
      cases b with
      | true => exact ihs hfit.1 hsettled.1 hσ (hc.1 (htruth.mpr rfl))
      | false => exact iht hfit.2 hsettled.2 hσ (hc.2 fun hd => Bool.false_ne_true (htruth.mp hd))
  | @loop _ _ body _ _ _ _ _ hentry hhead hagain hcond _ ih =>
    have hfit : body.AssignsFit G := hfit
    exact safe_loop hentry hhead hagain hcond hfit hsettled (ih hfit hsettled) hσ hc

end Stmt

/-- The obligations of a body without loops are one: the requirements imply its precondition. -/
theorem run_obligations {G : TypeEnv} {requires ensures : List Expr} {body : Stmt} {pre : Expr}
    {supply supply' : Supply}
    (h : (body.wp G (.conjoin ensures)).run.run supply = (.ok ⟨pre, []⟩, supply')) :
    (obligations G requires ensures body).run.run supply =
      (.ok [⟨.precondition, .implies (.conjoin requires) pre⟩], supply') := by
  rw [obligations, Naming.run_bind_ok h]
  rfl

/-- Verification with cut loops is sound. Let `G` give the variables of a body settled types, let no
variable that is written end in a prime, and let the supply cover the free variables. If a contract
is accepted with the cut body, then nothing is left of the loops, there are obligations, and if they
are true under all assignments of values of the types in `G`, then a run of the original body from a
store of those types in which the requirements are true fails no assertion, whatever the limit of
turns, and where it ends normally the guarantees are true. -/
theorem cutLoops_sound {G G' : TypeEnv} {s : Stmt} {requires ensures : List Expr} {supply : Supply}
    {f : Contracted} (hsettled : G.Settles (s.freeVars ++ s.writtenVars))
    (hprimed : ∀ x ∈ s.writtenVars, ¬Name.Primed x)
    (hcovers : ∀ x ∈ s.freeVars ++ Expr.freeVarsAll ensures, supply.Covers x)
    (hcheck : (Contracted.check ⟨requires, (s.cutLoops.run supply).1, ensures⟩).run.run G =
      (.ok f, G')) :
    (s.cutLoops.run supply).1.hasLoop = false ∧
    ∃ obs supply', (obligations G f.requires f.ensures f.body).run.run (s.cutLoops.run supply).2 =
        (.ok obs, supply') ∧
      ∀ I, (∀ o ∈ obs, ∀ ρ : Assignment, (∀ x ty, G.get? x = some ty → ty.admits (ρ x) = true) →
          Expr.Holds I ρ o.formula) →
        ∀ limit (σ : Exec.Store), σ.HasTypes G →
          (∀ r ∈ f.requires, Expr.Holds I σ.assignment r) →
          (∀ c σ', Exec.exec limit s σ ≠ (.error (.assertionFailed c), σ')) ∧
          ∀ σ', Exec.exec limit s σ = (.ok .normal, σ') →
            ∀ e ∈ f.ensures, Expr.Holds I σ'.assignment e := by
  rw [TypeEnv.settles_append] at hsettled
  have hcut := Stmt.cut_cutLoops s supply
  obtain ⟨huntyped, hfits⟩ := Contracted.check_accepts hcheck
  simp only [Contracted.untyped, Contracted.mk.injEq] at huntyped
  obtain ⟨-, hbody, hensures⟩ := huntyped
  have hfit : s.AssignsFit G := hcut.assignsFit <| hfits
    (fun x hx => hsettled.1 x (by_contra fun h => hcut.notMem_freeVars h hx))
    (fun x hx => hsettled.2 x (by_contra fun h => hcut.notMem_writtenVars h hx))
  -- the body that comes back from the check is cut as well
  have hcut' := hcut.of_untyped hbody
  have hwritten : ∀ x ∈ f.body.writtenVars, x ∈ s.writtenVars := fun x hx =>
    by_contra fun h => hcut'.notMem_writtenVars h hx
  have hle := Stmt.used_le_cutLoops s supply
  obtain ⟨pre, supply', hwp⟩ := Stmt.exists_wp hcut'.hasLoop
    (fun x hx => hsettled.2 x (hwritten x (Stmt.mem_writtenVars_of_mem_havocked hx)))
    (fun x hx => hprimed x (hwritten x hx))
    (fun x hx => (hcovers x (List.mem_append_left _
      (by_contra fun h => hcut'.notMem_freeVars h hx))).mono hle)
    (fun x hx => (hcovers x (List.mem_append_right _ (by
      rw [Expr.mem_freeVars_conjoin, ← Expr.freeVarsAll_untypedAll, hensures,
        Expr.freeVarsAll_untypedAll] at hx
      exact hx))).mono hle)
  refine ⟨hcut.hasLoop, _, supply', run_obligations hwp.run,
    fun I hvalid limit σ hσ hrequires => ?_⟩
  have htyped : ∀ x ty, G.get? x = some ty → ty.admits (σ.assignment x) = true := by
    intro x ty hx
    obtain ⟨v, hv, hadmits⟩ := hσ x ty hx
    simpa [Exec.Store.assignment, hv] using hadmits
  have hpre : Expr.Holds I σ.assignment pre :=
    Expr.holds_implies.mp (hvalid _ List.mem_cons_self σ.assignment htyped)
      (Expr.holds_conjoin.mpr hrequires)
  have hsafe := @Stmt.Cut.safe I G _ limit s f.body hcut' hfit hsettled.2 σ hσ
    ((hwp.holds I _).mp hpre)
  constructor
  · intro c σ' hfailed
    rwa [hfailed] at hsafe
  · intro σ' hended
    rw [hended] at hsafe
    exact Expr.holds_conjoin.mp hsafe

/-- A function that counts `i` up to `n`, which it never passes. -/
def countUp : Contracted where
  requires := [.binary .le (.var "i") (.var "n")]
  body := .loop [.binary .le (.var "i") (.var "n")] (.binary .lt (.var "i") (.var "n"))
    (.assign "i" (.binary .add (.var "i") (.int 1)))
  ensures := [.binary .eq (.var "i") (.var "n")]

/-- The types of its variables. -/
def countUpTypes : TypeEnv := .ofList [("i", .int), ("n", .int)]

/-- Its obligation: whatever value `i` has at the head of the loop, one more does not pass `n`, and
if it is not below `n` it is equal. -/
def countUpObligation : Expr :=
  let below (e : Expr) : Expr := .binary .le e (.var "n")
  let i : Expr := .var "i$1"
  let next : Expr := .binary .add i (.int 1)
  .implies (below (.var "i")) <| .and
    (.forAll "i$1" (some .int) <| .implies (below i) <| .and
      (.implies (.binary .lt i (.var "n"))
        (.and (.implies (.bool false) (.binary .eq next (.var "n"))) (below next)))
      (.implies (.not (.binary .lt i (.var "n"))) (.binary .eq i (.var "n"))))
    (below (.var "i"))

/-- The function has one obligation. -/
theorem obligations_countUp :
    (obligations countUpTypes countUp.requires countUp.ensures
      (countUp.body.cutLoops.run {}).1).run.run (countUp.body.cutLoops.run {}).2 =
        (.ok [⟨.precondition, countUpObligation⟩], { used := 1 }) := by
  rfl

/-- The obligation holds for all values of the right types. -/
theorem holds_countUpObligation {I : Convention} {ρ : Assignment}
    (hρ : ∀ x ty, countUpTypes.get? x = some ty → ty.admits (ρ x) = true) :
    Expr.Holds I ρ countUpObligation := by
  have hi := hρ "i" .int (by decide)
  have hn := hρ "n" .int (by decide)
  cases hρi : ρ "i" <;> simp only [hρi, Ty.admits, Bool.false_eq_true] at hi
  cases hρn : ρ "n" <;> simp only [hρn, Ty.admits, Bool.false_eq_true] at hn
  next a b =>
  simp only [countUpObligation, Expr.holds_implies, Expr.holds_and, Expr.holds_forAll,
    Expr.holds_not, Expr.holds_bool]
  intro h
  refine ⟨fun v hv => ?_, h⟩
  cases v <;> simp only [Convention.Ranges, Ty.admits, Bool.false_eq_true] at hv
  next c =>
  have hupdate : Function.update ρ "i$1" (.int c) "n" = .int b := by
    rw [Function.update_of_ne (by decide), hρn]
  simp only [Expr.Holds, Expr.meaning, Expr.int, Exec.Value.ofLiteral, Convention.applyBinary,
    Op.binary?, Exec.Value.kindName, Exec.Value.isTrue, Function.update_self, hupdate,
    Option.getD_some, if_true, decide_eq_true_eq, Exec.Value.int.injEq]
  grind

/-- The case of the counting loop: its contract is accepted and its obligation is true, so a run
that starts with `i ≤ n` fails no test of the invariant and ends with `i = n`. -/
theorem cutLoops_sound_countUp :
    (Contracted.check ⟨countUp.requires, (countUp.body.cutLoops.run {}).1, countUp.ensures⟩).run.run
        countUpTypes =
        (.ok ⟨countUp.requires, (countUp.body.cutLoops.run {}).1, countUp.ensures⟩, countUpTypes) ∧
      ∀ I limit (σ : Exec.Store), σ.HasTypes countUpTypes →
        (∀ r ∈ countUp.requires, Expr.Holds I σ.assignment r) →
        (∀ c σ', Exec.exec limit countUp.body σ ≠ (.error (.assertionFailed c), σ')) ∧
        ∀ σ', Exec.exec limit countUp.body σ = (.ok .normal, σ') →
          ∀ e ∈ countUp.ensures, Expr.Holds I σ'.assignment e := by
  have hcheck : (Contracted.check ⟨countUp.requires, (countUp.body.cutLoops.run {}).1,
      countUp.ensures⟩).run.run countUpTypes = (.ok ⟨countUp.requires,
        (countUp.body.cutLoops.run {}).1, countUp.ensures⟩, countUpTypes) := by
    rfl
  have hsettled : countUpTypes.Settles ["i", "n"] := by
    intro x hx
    rcases List.mem_pair.mp hx with rfl | rfl <;> exact ⟨.int, by decide, rfl⟩
  obtain ⟨-, obs, supply', hrun, hsound⟩ := cutLoops_sound
    (fun x hx => hsettled x (by revert x; decide)) (by decide)
    (fun x hx => Supply.covers_of_notMem (by revert x; decide) _) hcheck
  cases hrun.symm.trans obligations_countUp
  refine ⟨hcheck, fun I => hsound I fun o ho ρ hρ => ?_⟩
  rw [List.mem_singleton.mp ho]
  exact holds_countUpObligation hρ

end Precond
