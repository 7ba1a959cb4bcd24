import Precond.Proofs.Evaluation
import Precond.Proofs.WeakestPrecondition

/-!
# Evaluating a precondition in place of running a statement

For a statement without loops and `havoc`s the precondition can be evaluated in the store in which
the statement would be run. What it comes to tells how the run ends, runtime errors and the order of
evaluation included (`Exec.Foretells`): after a normal run the postcondition comes to exactly the
same, a run that an assumption stops gives `True`, and a run that fails an assertion never does. The
parts of the precondition that stand for code the run does not reach are not evaluated either, so no
error of theirs can show.

The induction over the statement is `Stmt.exists_wp_foretells`; `Stmt.eval_wp` states the result.
-/

namespace Precond

namespace Exec

/-! ## What a precondition tells -/

/-- What the value of a precondition tells about a run and the postcondition after it. -/
def Foretells (pre : Except Failure Value) (post : Expr) : Result → Prop
  | (.ok .normal, σ) => IsTruth (eval σ post) → pre = eval σ post
  | (.ok .blocked, _) => pre = .ok (.bool true)
  | (.error (.assertionFailed _), _) => IsTruth pre ∧ pre ≠ .ok (.bool true)
  | _ => True

variable {σ : Store} {post : Expr}

theorem isTruth_ok_bool (b : Bool) : IsTruth (.ok (.bool b)) := by
  intro v hv
  exact ⟨b, (Except.ok.inj hv).symm⟩

/-- Nothing is told about a run that stops at the evaluation of an expression. -/
theorem foretells_error {pre : Except Failure Value} {failure : Failure}
    (h : ∀ c, failure ≠ .assertionFailed c) : Foretells pre post (.error failure, σ) := by
  cases failure with
  | assertionFailed c => exact absurd rfl (h c)
  | _ => trivial

/-- The middle condition of two runs in a row passes on what it is told. -/
theorem Foretells.seq {limit : Nat} {s t : Stmt} {pre : Except Failure Value} {mid : Expr}
    (hs : Foretells pre mid (exec limit s σ))
    (ht : ∀ τ, Foretells (eval τ mid) post (exec limit t τ)) :
    Foretells pre post (exec limit (.seq s t) σ) := by
  rw [exec]
  rcases hrun : exec limit s σ with ⟨failure | (_ | _), τ⟩
  · rw [hrun] at hs
    cases failure <;> exact hs
  · rw [hrun] at hs
    have htτ := ht τ
    rcases hrunt : exec limit t τ with ⟨failure | (_ | _), υ⟩
    · rw [hrunt] at htτ
      simp only [hrunt]
      cases failure with
      | assertionFailed c =>
        obtain ⟨htruth, hne⟩ := htτ
        rw [Foretells, hs htruth]
        exact ⟨htruth, hne⟩
      | _ => trivial
    · rw [hrunt] at htτ
      simp only [hrunt]
      intro htruth
      have hmid := htτ htruth
      exact (hs (hmid ▸ htruth)).trans hmid
    · rw [hrunt] at htτ
      simp only [hrunt]
      have hmid : eval τ mid = .ok (.bool true) := htτ
      exact (hs (hmid ▸ isTruth_ok_bool true)).trans hmid
  · rw [hrun] at hs
    exact hs

/-- What is told by a condition is told by its truth value too. -/
theorem Foretells.map_holds {p : Expr} {r : Result} (h : Foretells (eval σ p) post r) :
    Foretells ((holds σ p).map .bool) post r := by
  obtain ⟨failure | (_ | _), τ⟩ := r
  · cases failure with
    | assertionFailed c =>
      obtain ⟨htruth, hne⟩ := h
      rw [Foretells, Exec.map_holds htruth]
      exact ⟨htruth, hne⟩
    | _ => trivial
  · intro htruth
    have heq := h htruth
    exact (Exec.map_holds (heq ▸ htruth)).trans heq
  · have heq : eval σ p = .ok (.bool true) := h
    exact (Exec.map_holds (heq ▸ isTruth_ok_bool true)).trans heq

/-- The precondition of an assertion foretells its run. -/
theorem foretells_assert {limit : Nat} {c : Expr} :
    Foretells (eval σ (.and post c)) post (exec limit (.assert c) σ) := by
  rw [exec, eval_and]
  rcases hc : holds σ c with failure | (_ | _)
  · exact foretells_error fun d h => noAssertion_holds σ c d (h ▸ hc)
  · -- the assertion fails, so the conjunction is false or stops before it
    rcases holds σ post with failure | (_ | _)
    · exact ⟨by simp [IsTruth, bind, Except.bind], by simp [bind, Except.bind]⟩
    · exact ⟨isTruth_ok_bool false, by simp [bind, Except.bind, pure, Except.pure]⟩
    · exact ⟨isTruth_ok_bool false, by simp [bind, Except.bind, pure, Except.pure]⟩
  · intro htruth
    rw [← Exec.map_holds htruth]
    rcases holds σ post with failure | (_ | _) <;> rfl

theorem foretells_assume {limit : Nat} {c : Expr} :
    Foretells (eval σ (.implies c post)) post (exec limit (.assume c) σ) := by
  rw [exec, eval_implies]
  rcases hc : holds σ c with failure | (_ | _)
  · exact foretells_error fun d h => noAssertion_holds σ c d (h ▸ hc)
  · rfl
  · intro htruth
    rw [← Exec.map_holds htruth]
    rcases holds σ post with failure | (_ | _) <;> rfl

end Exec

namespace Stmt

open Exec

/-! ## Statements -/

/-- The precondition foretells every run of the statement. -/
theorem exists_wp_foretells {s : Stmt} (hloop : s.hasLoop = false) (hhavoc : s.havocked = [])
    (env : TypeEnv) (post : Expr) (supply : Supply) :
    ∃ pre, (s.wp env post).run.run supply = (.ok ⟨pre, []⟩, supply) ∧
      ∀ limit σ, Foretells (eval σ pre) post (exec limit s σ) := by
  induction s generalizing post with
  | skip => exact ⟨post, rfl, fun limit σ _ => rfl⟩
  | assign x e =>
    refine ⟨post.subst x e, rfl, fun limit σ => ?_⟩
    rw [exec]
    cases he : eval σ e with
    | ok v => exact fun _ => eval_subst he
    | error failure => exact foretells_error fun c h => noAssertion_eval σ e c (h ▸ he)
  | assert c => exact ⟨.and post c, rfl, fun limit σ => foretells_assert⟩
  | assume c => exact ⟨.implies c post, rfl, fun limit σ => foretells_assume⟩
  | seq s t ihs iht =>
    simp only [hasLoop, Bool.or_eq_false_iff] at hloop
    simp only [havocked, List.append_eq_nil_iff] at hhavoc
    obtain ⟨q, hrunt, hteller⟩ := iht hloop.2 hhavoc.2 post
    obtain ⟨p, hruns, hsteller⟩ := ihs hloop.1 hhavoc.1 q
    exact ⟨p, run_wp_seq hrunt hruns, fun limit σ => (hsteller limit σ).seq (hteller limit)⟩
  | branch c s t ihs iht =>
    simp only [hasLoop, Bool.or_eq_false_iff] at hloop
    simp only [havocked, List.append_eq_nil_iff] at hhavoc
    obtain ⟨p, hruns, hsteller⟩ := ihs hloop.1 hhavoc.1 post
    obtain ⟨q, hrunt, hteller⟩ := iht hloop.2 hhavoc.2 post
    refine ⟨_, run_wp_branch hruns hrunt, fun limit σ => ?_⟩
    rw [exec]
    rcases hc : holds σ c with failure | (_ | _)
    · exact foretells_error fun d h => noAssertion_holds σ c d (h ▸ hc)
    · rw [eval_branch hc]
      exact (hteller limit σ).map_holds
    · rw [eval_branch hc]
      exact (hsteller limit σ).map_holds
  | havoc x => simp [havocked] at hhavoc
  | loop invariants c s ih => simp [hasLoop] at hloop

/-- The precondition agrees with the interpreter. Evaluated before a run that ends normally it comes
to what the postcondition comes to afterwards, be that a truth value or an error; it is `True`
before a run that an assumption stops, and not `True` before one that fails an assertion. For an
assignment this is the substitution law, which holds of all expressions. -/
theorem eval_wp {s : Stmt} (hloop : s.hasLoop = false) (hhavoc : s.havocked = [])
    (env : TypeEnv) (post : Expr) (supply : Supply) :
    (∃ pre, (s.wp env post).run.run supply = (.ok ⟨pre, []⟩, supply) ∧ ∀ limit σ σ',
      (exec limit s σ = (.ok .normal, σ') → IsTruth (eval σ' post) → eval σ pre = eval σ' post) ∧
      (exec limit s σ = (.ok .blocked, σ') → eval σ pre = .ok (.bool true)) ∧
      ∀ c, exec limit s σ = (.error (.assertionFailed c), σ') → eval σ pre ≠ .ok (.bool true)) ∧
    ∀ (σ : Store) (e r : Expr) (x : String) (v : Value), eval σ r = .ok v →
      eval σ (e.subst x r) = eval (σ.insert x v) e := by
  refine ⟨?_, fun σ e r x v hr => eval_subst hr⟩
  obtain ⟨pre, hrun, hteller⟩ := exists_wp_foretells hloop hhavoc env post supply
  refine ⟨pre, hrun, fun limit σ σ' => ⟨fun h htruth => ?_, fun h => ?_, fun c h => ?_⟩⟩
  · have := hteller limit σ
    rw [h] at this
    exact this htruth
  · have := hteller limit σ
    rwa [h] at this
  · have := hteller limit σ
    rw [h] at this
    exact this.2

/-- A division by zero in the branch that is not taken does not show in the precondition. -/
theorem eval_wp_guarded_division :
    ∃ pre, ((Stmt.branch (.binary .ne (.var "x") (.int 0))
        (.assign "y" (.binary .div (.int 10) (.var "x"))) (.assign "y" (.int 0))).wp .empty
          (.binary .ge (.var "y") (.int 0))).run.run {} = (.ok ⟨pre, []⟩, {}) ∧
      eval (.ofList [("x", .int 0)]) pre = .ok (.bool true) := by
  obtain ⟨⟨pre, hrun, htells⟩, -⟩ := eval_wp (s := .branch (.binary .ne (.var "x") (.int 0))
    (.assign "y" (.binary .div (.int 10) (.var "x"))) (.assign "y" (.int 0))) rfl rfl .empty
    (.binary .ge (.var "y") (.int 0)) {}
  have hexec : exec 0 (.branch (.binary .ne (.var "x") (.int 0))
      (.assign "y" (.binary .div (.int 10) (.var "x"))) (.assign "y" (.int 0)))
      (.ofList [("x", .int 0)]) = (.ok .normal, .ofList [("x", .int 0), ("y", .int 0)]) := by
    decide
  have hpost : eval (.ofList [("x", .int 0), ("y", .int 0)]) (.binary .ge (.var "y") (.int 0)) =
      .ok (.bool true) := by
    decide
  exact ⟨pre, hrun, ((htells 0 _ _).1 hexec (hpost ▸ isTruth_ok_bool true)).trans hpost⟩

end Stmt

end Precond
