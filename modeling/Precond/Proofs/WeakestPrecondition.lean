import Precond.Program.Wp
import Precond.Proofs.Runs
import Precond.Proofs.Substitution

/-!
# The weakest precondition is exact

`Stmt.wp` gives the condition under which a statement without loops establishes another one, no
stronger and no weaker (`Stmt.wp_exact`). The induction is on the statement, for all postconditions
(`Stmt.exists_wp`). Two things have to be carried along with the meaning (`Stmt.IsWeakest`): the
free variables of the precondition are variables of the statement or of the postcondition, and the
supply only grows. With them a name drawn for a `havoc` is not free in the condition that it is put
into, whatever names the binders have.

`Supply.Covers` says that a name is none that the supply has still to hand out.
-/

namespace Precond

/-- The supply will not hand out the name: a number at its end is one that was used. -/
def Supply.Covers (supply : Supply) (x : String) : Prop :=
  ∀ stem k, x = Name.numbered stem k → k ≤ supply.used

theorem Supply.Covers.mono {supply supply' : Supply} {x : String} (h : supply.Covers x)
    (hle : supply.used ≤ supply'.used) : supply'.Covers x :=
  fun stem k hx => (h stem k hx).trans hle

/-- A name that the supply covers is not the next one that it hands out. -/
theorem Supply.Covers.ne_fresh {supply : Supply} {x : String} (h : supply.Covers x)
    (stem : String) : x ≠ Name.numbered stem (supply.used + 1) := by
  intro hx
  have := h stem _ hx
  omega

/-- Every supply covers a name without a dollar sign. -/
theorem Supply.covers_of_notMem {x : String} (h : '$' ∉ x.toList) (supply : Supply) :
    supply.Covers x := by
  rintro stem k rfl
  have hdollar : '$' ∈ (toString "$").toList := by decide
  exact absurd (by simp [Name.numbered, hdollar]) h

/-! ## Computations that draw names -/

theorem Naming.run_bind_ok {α β : Type} {c : Naming α} {f : α → Naming β} {a : α}
    {supply supply' : Supply} (h : c.run.run supply = (.ok a, supply')) :
    (c >>= f).run.run supply = (f a).run.run supply' := by
  rw [ExceptT.run_bind, StateT.run_bind, h]
  rfl

/-- What follows a computation comes to a result only if the computation does. -/
theorem Naming.exists_of_run_bind {α β : Type} {c : Naming α} {f : α → Naming β} {b : β}
    {supply supply' : Supply} (h : (c >>= f).run.run supply = (.ok b, supply')) :
    ∃ a mid, c.run.run supply = (.ok a, mid) ∧ (f a).run.run mid = (.ok b, supply') := by
  rcases hc : c.run.run supply with ⟨e | a, mid⟩
  · rw [ExceptT.run_bind, StateT.run_bind, hc] at h
    cases h
  · rw [Naming.run_bind_ok hc] at h
    exact ⟨a, mid, rfl, h⟩

theorem Naming.run_ofExcept_eq_ok {α : Type} {r : Except Error α} {a : α}
    {supply supply' : Supply} :
    (Naming.ofExcept r).run.run supply = (.ok a, supply') ↔ r = .ok a ∧ supply = supply' := by
  change (r, supply) = (.ok a, supply') ↔ _
  rw [Prod.mk.injEq]

/-- Another wording of the failures does not change what comes out. -/
theorem Naming.run_adapt_eq_ok {α : Type} {c : Naming α} {f : Error → Error} {a : α}
    {supply supply' : Supply} :
    (ExceptT.adapt f c).run.run supply = (.ok a, supply') ↔
      c.run.run supply = (.ok a, supply') := by
  change ((c.run.run supply).1.mapError f, (c.run.run supply).2) = _ ↔ _
  rcases c.run.run supply with ⟨_ | _, _⟩ <;> constructor <;> rintro ⟨⟩
  all_goals rfl

namespace Stmt

variable {env : TypeEnv} {post : Expr} {supply supply' : Supply}

/-- The calculus goes through statements in a row from the last one on. -/
theorem run_wp_seq {s t : Stmt} {mid : Supply} {p q : Expr}
    (ht : (t.wp env post).run.run supply = (.ok ⟨q, []⟩, mid))
    (hs : (s.wp env q).run.run mid = (.ok ⟨p, []⟩, supply')) :
    ((Stmt.seq s t).wp env post).run.run supply = (.ok ⟨p, []⟩, supply') := by
  rw [wp, Naming.run_bind_ok ht, Naming.run_bind_ok hs]
  rfl

/-- The precondition of a conditional has one half for each branch. -/
theorem run_wp_branch {c : Expr} {s t : Stmt} {mid : Supply} {p q : Expr}
    (hs : (s.wp env post).run.run supply = (.ok ⟨p, []⟩, mid))
    (ht : (t.wp env post).run.run mid = (.ok ⟨q, []⟩, supply')) :
    ((Stmt.branch c s t).wp env post).run.run supply =
      (.ok ⟨.and (.implies c p) (.implies (.not c) q), []⟩, supply') := by
  rw [wp, Naming.run_bind_ok hs, Naming.run_bind_ok ht]
  rfl

theorem run_wp_havoc {x : String} :
    ((Stmt.havoc x).wp env post).run.run supply =
      (.ok ⟨.forAll (Name.numbered (Name.stem x) (supply.used + 1))
        ((env.get? x).filter Ty.isConcrete)
        (post.subst x (.var (Name.numbered (Name.stem x) (supply.used + 1)))), []⟩,
        { used := supply.used + 1 }) := by
  rw [wp]
  rfl

/-! ## Exactness -/

/-- The condition of a `havoc`, for a variable `y` that is not free in the postcondition. -/
theorem holds_havoc_iff {I : Convention} {ρ : Assignment} {x y : String} {ty : Ty}
    (hx : ¬Name.Primed x) (hy : y ∉ post.freeVars) :
    Expr.Holds I ρ (.forAll y (some ty) (post.subst x (.var y))) ↔
      ∀ v, ty.admits v = true → Expr.Holds I (Function.update ρ x v) post := by
  rw [Expr.holds_forAll]
  refine forall_congr' fun v => imp_congr_right fun _ => ?_
  have hprimes : ∀ w ∈ (Expr.var y).freeVars, ¬Name.Primes w x := fun w _ =>
    Name.not_primes_of_not_primed hx
  -- outside `post` the value of `y` is of no account
  have hmeaning : (post.subst x (.var y)).meaning I (Function.update ρ y v) =
      post.meaning I (Function.update ρ x v) := by
    rw [Expr.meaning_subst hprimes]
    refine Expr.meaning_congr post fun w hw => ?_
    have hwy : w ≠ y := by
      rintro rfl
      exact hy hw
    by_cases hwx : w = x
    · subst hwx
      simp [Expr.meaning]
    · simp [hwx, hwy]
  rw [Expr.Holds, hmeaning, Expr.Holds]

/-- The calculus gives `pre` for `post`, without side conditions; it is true exactly where the
statement establishes the postcondition, and it has no free variables of its own. -/
structure IsWeakest (env : TypeEnv) (s : Stmt) (post : Expr) (supply : Supply) (pre : Expr)
    (supply' : Supply) : Prop where
  run : (s.wp env post).run.run supply = (.ok ⟨pre, []⟩, supply')
  used_le : supply.used ≤ supply'.used
  freeVars : ∀ x ∈ pre.freeVars, x ∈ s.freeVars ∨ x ∈ post.freeVars
  holds : ∀ I ρ, Expr.Holds I ρ pre ↔ Establishes I env s (Expr.Holds I · post) ρ

section IsWeakest

variable {s t : Stmt} {p q : Expr} {mid : Supply}

/-- Substitution gives the weakest precondition of an assignment. -/
theorem isWeakest_assign {x : String} {e : Expr} (hx : ¬Name.Primed x) :
    IsWeakest env (.assign x e) post supply (post.subst x e) supply := by
  refine ⟨rfl, le_rfl, fun w hw => ?_, fun I ρ => ?_⟩
  · rcases Expr.freeVars_subst hw with ⟨hw, -⟩ | hw
    · exact Or.inr hw
    · exact Or.inl hw
  · rw [establishes_assign, Expr.Holds,
      Expr.meaning_subst fun w _ => Name.not_primes_of_not_primed hx]
    rfl

/-- The weakest precondition of statements in a row, from those of both. -/
theorem isWeakest_seq (ht : IsWeakest env t post supply q mid)
    (hs : IsWeakest env s q mid p supply') : IsWeakest env (.seq s t) post supply p supply' := by
  refine ⟨run_wp_seq ht.run hs.run, ht.used_le.trans hs.used_le, fun x hx => ?_, fun I ρ => ?_⟩
  · simp only [freeVars, List.mem_append]
    rcases hs.freeVars x hx with h | h
    · exact Or.inl (Or.inl h)
    · exact (ht.freeVars x h).imp_left Or.inr
  · rw [hs.holds, establishes_seq]
    simp only [ht.holds]

/-- The weakest precondition of a conditional, from those of its branches. -/
theorem isWeakest_branch {c : Expr} (hs : IsWeakest env s post supply p mid)
    (ht : IsWeakest env t post mid q supply') :
    IsWeakest env (.branch c s t) post supply (.and (.implies c p) (.implies (.not c) q))
      supply' := by
  refine ⟨run_wp_branch hs.run ht.run, hs.used_le.trans ht.used_le, fun x hx => ?_, fun I ρ => ?_⟩
  · simp only [Expr.and, Expr.implies, Expr.not, Expr.freeVars, List.mem_append] at hx
    simp only [freeVars, List.mem_append]
    have := hs.freeVars x
    have := ht.freeVars x
    tauto
  · simp only [Expr.holds_and, Expr.holds_implies, Expr.holds_not, hs.holds, ht.holds,
      establishes_branch]

/-- A fresh variable of the same type gives the weakest precondition of a variable that is havocked.
-/
theorem isWeakest_havoc {x : String} {ty : Ty} (hty : env.get? x = some ty)
    (hconcrete : ty.isConcrete = true) (hx : ¬Name.Primed x)
    (hpost : ∀ x ∈ post.freeVars, supply.Covers x) :
    ∃ pre, IsWeakest env (.havoc x) post supply pre { used := supply.used + 1 } := by
  have hfresh : Name.numbered (Name.stem x) (supply.used + 1) ∉ post.freeVars := fun hmem =>
    (hpost _ hmem).ne_fresh _ rfl
  refine ⟨_, run_wp_havoc, Nat.le_succ _, fun w hw => ?_, fun I ρ => ?_⟩
  · simp only [Expr.freeVars, List.mem_filter, decide_eq_true_eq] at hw
    rcases Expr.freeVars_subst hw.1 with ⟨h, -⟩ | h
    · exact Or.inr h
    · exact absurd (by simpa [Expr.freeVars] using h) hw.2
  · rw [hty, Option.filter_some, if_pos hconcrete, holds_havoc_iff hx hfresh,
      establishes_havoc hty]

end IsWeakest

/-- By induction on the statement: without loops there is a weakest precondition. -/
theorem exists_wp {s : Stmt} (hloop : s.hasLoop = false)
    (htyped : ∀ x ∈ s.havocked, ∃ ty, env.get? x = some ty ∧ ty.isConcrete = true)
    (hprimed : ∀ x ∈ s.writtenVars, ¬Name.Primed x)
    (hs : ∀ x ∈ s.freeVars, supply.Covers x) (hpost : ∀ x ∈ post.freeVars, supply.Covers x) :
    ∃ pre supply', IsWeakest env s post supply pre supply' := by
  induction s generalizing post supply with
  | skip =>
    refine ⟨post, supply, rfl, le_rfl, fun x hx => Or.inr hx, fun I ρ => ?_⟩
    rw [establishes_skip]
  | assign x e =>
    exact ⟨_, _, isWeakest_assign (hprimed x (by simp [writtenVars, addWritten, mem_addName]))⟩
  | assert c =>
    refine ⟨.and post c, supply, rfl, le_rfl, fun x hx => ?_, fun I ρ => ?_⟩
    · simp only [Expr.and, Expr.freeVars, List.mem_append] at hx
      exact hx.symm
    · rw [Expr.holds_and, establishes_assert]
  | assume c =>
    refine ⟨.implies c post, supply, rfl, le_rfl, fun x hx => ?_, fun I ρ => ?_⟩
    · simpa only [Expr.implies, Expr.freeVars, freeVars, List.mem_append] using hx
    · rw [Expr.holds_implies, establishes_assume]
  | seq s t ihs iht =>
    simp only [hasLoop, Bool.or_eq_false_iff] at hloop
    simp only [havocked, freeVars, List.mem_append] at htyped hs
    simp only [mem_writtenVars_seq] at hprimed
    obtain ⟨q, mid, ht⟩ := iht hloop.2 (fun x hx => htyped x (Or.inr hx))
      (fun x hx => hprimed x (Or.inr hx)) (fun x hx => hs x (Or.inr hx)) hpost
    have hq : ∀ x ∈ q.freeVars, mid.Covers x := fun x hx =>
      ((ht.freeVars x hx).elim (fun h => hs x (Or.inr h)) (hpost x)).mono ht.used_le
    obtain ⟨p, supply', hs⟩ := ihs hloop.1 (fun x hx => htyped x (Or.inl hx))
      (fun x hx => hprimed x (Or.inl hx)) (fun x hx => (hs x (Or.inl hx)).mono ht.used_le) hq
    exact ⟨p, supply', isWeakest_seq ht hs⟩
  | branch c s t ihs iht =>
    simp only [hasLoop, Bool.or_eq_false_iff] at hloop
    simp only [havocked, freeVars, List.mem_append, or_assoc] at htyped hs
    simp only [mem_writtenVars_branch] at hprimed
    obtain ⟨p, mid, hp⟩ := ihs hloop.1 (fun x hx => htyped x (Or.inl hx))
      (fun x hx => hprimed x (Or.inl hx)) (fun x hx => hs x (Or.inr (Or.inl hx))) hpost
    obtain ⟨q, supply', hq⟩ := iht hloop.2 (fun x hx => htyped x (Or.inr hx))
      (fun x hx => hprimed x (Or.inr hx))
      (fun x hx => (hs x (Or.inr (Or.inr hx))).mono hp.used_le)
      fun x hx => (hpost x hx).mono hp.used_le
    exact ⟨_, supply', isWeakest_branch hp hq⟩
  | havoc x =>
    obtain ⟨ty, hty, hconcrete⟩ := htyped x (by simp [havocked])
    have hx : ¬Name.Primed x := hprimed x (by simp [writtenVars, addWritten, mem_addName])
    obtain ⟨pre, hpre⟩ := isWeakest_havoc hty hconcrete hx hpost
    exact ⟨pre, _, hpre⟩
  | loop invariants c s ih => simp [hasLoop] at hloop

/-- The calculus is exact on statements without loops: the precondition, which comes without side
conditions, is true exactly where no run fails and every run that ends does so where the
postcondition is true. The variables that are havocked have types, no variable that is written ends
in a prime, and the supply has not still to hand out a free variable. -/
theorem wp_exact {s : Stmt} (hloop : s.hasLoop = false)
    (htyped : ∀ x ∈ s.havocked, ∃ ty, env.get? x = some ty ∧ ty.isConcrete = true)
    (hprimed : ∀ x ∈ s.writtenVars, ¬Name.Primed x)
    (hcovers : ∀ x ∈ s.freeVars ++ post.freeVars, supply.Covers x) :
    ∃ pre supply', (s.wp env post).run.run supply = (.ok ⟨pre, []⟩, supply') ∧
      ∀ I ρ, Expr.Holds I ρ pre ↔
        ¬Runs I env s ρ .failed ∧ ∀ ρ', Runs I env s ρ (.ended ρ') → Expr.Holds I ρ' post := by
  obtain ⟨pre, supply', hpre⟩ := exists_wp hloop htyped hprimed
    (fun x hx => hcovers x (List.mem_append_left _ hx))
    (fun x hx => hcovers x (List.mem_append_right _ hx))
  exact ⟨pre, supply', hpre.run, fun I ρ => (hpre.holds I ρ).trans establishes_iff⟩

/-- Chooses a number `n` and puts the one after it into `x`. -/
def chooseNext : Stmt :=
  .seq (.havoc "n") (.assign "x" (.binary .add (.var "n") (.int 1)))

/-- All numbers are less than `x`. -/
def allBelow : Expr := .forAll "n" (some .int) (.binary .lt (.var "n") (.var "x"))

/-- The case of a havocked variable that is read by an assignment and bound in the postcondition,
where the binder has to be renamed. -/
theorem wp_exact_renamed_binder :
    ∃ pre supply',
      (chooseNext.wp (.ofList [("n", .int)]) allBelow).run.run {} = (.ok ⟨pre, []⟩, supply') ∧
      ∀ I ρ, Expr.Holds I ρ pre ↔
        ¬Runs I (.ofList [("n", .int)]) chooseNext ρ .failed ∧
        ∀ ρ', Runs I (.ofList [("n", .int)]) chooseNext ρ (.ended ρ') →
          Expr.Holds I ρ' allBelow := by
  refine wp_exact rfl (fun x hx => ?_) (by decide) fun x hx => Supply.covers_of_notMem ?_ _
  · obtain rfl : x = "n" := by simpa [chooseNext, havocked] using hx
    exact ⟨.int, by decide, rfl⟩
  · have hnames : x = "n" ∨ x = "x" := by
      simpa [chooseNext, allBelow, freeVars, Expr.freeVars, Expr.int] using hx
    rcases hnames with rfl | rfl <;> decide

end Stmt

end Precond
