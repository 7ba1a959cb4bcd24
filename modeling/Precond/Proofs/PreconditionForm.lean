import Mathlib.Tactic
import Precond.Proofs.FunctionElaboration

/-!
# The form of a precondition

`Stmt.HasPre env s post supply pre supply'` is the calculus of preconditions as a relation: there
are no side conditions, so a precondition is all that it gives (`Stmt.hasPre_of_wp`).

A precondition has no free variables of its own (`HasPre.freeVars`). Its quantifiers come from the
statement, from the postcondition or from a `havoc`, which draws a name, so that nothing is ever
captured (`HasPre.binders`). It could stand in a text if its parts could (`HasPre.wellFormed`), its
quantifiers have settled types if all havocked variables have (`HasPre.annotated`), and it is a
truth value where it is ready (`HasPre.isCondition`).
-/

namespace Precond

open Checking

/-- The expression has plain free variables, and its quantifiers have drawn ones. -/
structure Expr.Named (supply : Supply) (e : Expr) : Prop where
  plain : ∀ x ∈ e.freeVars, Name.Plain x
  drawn : ∀ y ∈ e.binders, Name.Drawn 0 supply.used y

/-- The statement could come from a text, and its quantifiers have drawn variables. -/
structure Stmt.Named (supply : Supply) (s : Stmt) : Prop where
  written : s.Written
  drawn : ∀ y ∈ s.binders, Name.Drawn 0 supply.used y

namespace Stmt.Named

variable {supply supply' : Supply} {s t : Stmt} {c : Expr}

theorem mono (h : s.Named supply) (hle : supply.used ≤ supply'.used) : s.Named supply' :=
  ⟨h.written, fun y hy => (h.drawn y hy).mono le_rfl hle⟩

/-- The parts of a statement are named as it is. -/
theorem of_seq (h : (Stmt.seq s t).Named supply) : s.Named supply ∧ t.Named supply :=
  ⟨⟨h.written.1, fun y hy => h.drawn y (List.mem_append_left _ hy)⟩,
    h.written.2, fun y hy => h.drawn y (List.mem_append_right _ hy)⟩

theorem of_branch (h : (Stmt.branch c s t).Named supply) : s.Named supply ∧ t.Named supply :=
  ⟨⟨h.written.2.1, fun y hy => h.drawn y (List.mem_append_left _ (List.mem_append_right _ hy))⟩,
    h.written.2.2, fun y hy => h.drawn y (List.mem_append_right _ hy)⟩

end Stmt.Named

namespace Expr

variable {supply supply' : Supply} {e r : Expr} {x : String}

theorem Named.mono (h : e.Named supply) (hle : supply.used ≤ supply'.used) : e.Named supply' :=
  ⟨h.plain, fun y hy => (h.drawn y hy).mono le_rfl hle⟩

/-- No quantifier of a named expression captures a plain variable. -/
theorem Named.notMem_freeVars (h : e.Named supply) (hr : ∀ z ∈ r.freeVars, Name.Plain z) :
    ∀ y ∈ e.binders, y ∉ r.freeVars :=
  fun y hy hmem => (h.drawn y hy).not_plain (hr y hmem)

/-- Nor does it capture the next variable that is drawn. -/
theorem Named.notMem_fresh (h : e.Named supply) (x : String) :
    ∀ y ∈ e.binders, y ∉ (Expr.var ((Supply.fresh x).run supply).1).freeVars := by
  intro y hy
  simpa [freeVars] using (h.drawn y hy).ne (Name.drawn_fresh x supply) le_rfl

/-- The next name of a supply is not free in what is named. -/
theorem Named.fresh_notMem (h : e.Named supply) (x : String) :
    ((Supply.fresh x).run supply).1 ∉ e.freeVars :=
  fun hmem => (Name.drawn_fresh x supply).not_plain (h.plain _ hmem)

/-- Substitution keeps types on quantifiers. -/
theorem Substitutes.annotated_eq_true {e' : Expr} (h : Substitutes x r e e') (he : e.annotated = true)
    (hr : r.annotated = true) : e'.annotated = true := by
  induction h with
  | here => exact hr
  | other | lit | bound => exact he
  | binary _ _ iha ihb | subscript _ _ iha ihb | sliceFrom _ _ iha ihb =>
    simp only [annotated, Bool.and_eq_true] at he ⊢
    exact ⟨iha he.1 hr, ihb he.2 hr⟩
  | unary _ ih => exact ih he hr
  | slice _ _ _ ihl ihu ihs =>
    simp only [annotated, Bool.and_eq_true] at he ⊢
    exact ⟨⟨ihl he.1.1 hr, ihu he.1.2 hr⟩, ihs he.2 hr⟩
  | call hlength _ ih =>
    simp only [annotated, annotatedAll_eq_true] at he ⊢
    intro a' ha'
    obtain ⟨a, ha, hp⟩ := exists_mem_zip_right hlength ha'
    exact ih _ hp (he a ha) hr
  | kept _ _ _ ih =>
    simp only [annotated, Bool.and_eq_true] at he ⊢
    exact ⟨he.1, ih he.2 hr⟩
  | renamed _ _ _ _ _ ihrename ih =>
    simp only [annotated, Bool.and_eq_true] at he ⊢
    exact ⟨he.1, ih (ihrename he.2 rfl) hr⟩

theorem annotated_subst (he : e.annotated = true) (hr : r.annotated = true) :
    (e.subst x r).annotated = true := (substitutes_subst e x r).annotated_eq_true he hr

theorem annotated_conjoin {es : List Expr} (h : ∀ e ∈ es, e.annotated = true) :
    (conjoin es).annotated = true := by
  have hfoldl : ∀ (es : List Expr) (e : Expr), e.annotated = true →
      (∀ d ∈ es, d.annotated = true) → (es.foldl and e).annotated = true := by
    intro es
    induction es with
    | nil => exact fun e he _ => he
    | cons d es ih =>
      intro e he hes
      rw [List.forall_mem_cons] at hes
      exact ih _ (by simp [and, annotated, he, hes.1]) hes.2
  cases es with
  | nil => rfl
  | cons e es =>
    rw [List.forall_mem_cons] at h
    exact hfoldl es e h.1 h.2

end Expr

/-! ## The calculus as a relation -/

namespace Stmt

/-- The calculus gives a precondition, and draws names from the supply meanwhile. -/
inductive HasPre (env : TypeEnv) : Stmt → Expr → Supply → Expr → Supply → Prop
  | skip {post supply} : HasPre env .skip post supply post supply
  | assign {x e post supply} : HasPre env (.assign x e) post supply (post.subst x e) supply
  | assert {c post supply} : HasPre env (.assert c) post supply (.and post c) supply
  | assume {c post supply} : HasPre env (.assume c) post supply (.implies c post) supply
  | seq {s t post q p supply mid supply'} (ht : HasPre env t post supply q mid)
      (hs : HasPre env s q mid p supply') : HasPre env (.seq s t) post supply p supply'
  | branch {c s t post p q supply mid supply'} (hs : HasPre env s post supply p mid)
      (ht : HasPre env t post mid q supply') :
      HasPre env (.branch c s t) post supply (.and (.implies c p) (.implies (.not c) q)) supply'
  | havoc {x post supply} :
      HasPre env (.havoc x) post supply
        (.forAll ((Supply.fresh x).run supply).1 ((env.get? x).filter Ty.isConcrete)
          (post.subst x (.var ((Supply.fresh x).run supply).1))) ((Supply.fresh x).run supply).2

/-- What the calculus computes is what it relates, and no side conditions come up. -/
theorem hasPre_of_wp {env : TypeEnv} {s : Stmt} {post : Expr} {p : Precondition}
    {supply supply' : Supply} (h : (s.wp env post).run.run supply = (.ok p, supply')) :
    HasPre env s post supply p.formula supply' ∧ p.side = [] := by
  induction s generalizing post p supply supply' with
  | skip =>
    cases h
    exact ⟨.skip, rfl⟩
  | assign x e =>
    cases h
    exact ⟨.assign, rfl⟩
  | assert c =>
    cases h
    exact ⟨.assert, rfl⟩
  | assume c =>
    cases h
    exact ⟨.assume, rfl⟩
  | seq s t ihs iht =>
    obtain ⟨q, mid, ht, h⟩ := Naming.exists_of_run_bind h
    obtain ⟨p', mid', hs, h⟩ := Naming.exists_of_run_bind h
    cases h
    obtain ⟨ht', hq⟩ := iht ht
    obtain ⟨hs', hp⟩ := ihs hs
    exact ⟨.seq ht' hs', by simp [hq, hp, mergeConditions]⟩
  | branch c s t ihs iht =>
    obtain ⟨p', mid, hs, h⟩ := Naming.exists_of_run_bind h
    obtain ⟨q, mid', ht, h⟩ := Naming.exists_of_run_bind h
    cases h
    obtain ⟨hs', hp⟩ := ihs hs
    obtain ⟨ht', hq⟩ := iht ht
    exact ⟨.branch hs' ht', by simp [hq, hp, mergeConditions]⟩
  | havoc x =>
    rw [run_wp_havoc] at h
    cases h
    exact ⟨.havoc, rfl⟩
  | loop es c s ih => cases h

end Stmt

/-- The obligations of a function are one: the requirements imply the precondition of the body. -/
theorem exists_of_run_obligations {env : TypeEnv} {requires ensures : List Expr} {body : Stmt}
    {os : List Obligation} {supply supply' : Supply}
    (h : (obligations env requires ensures body).run.run supply = (.ok os, supply')) :
    ∃ pre, body.HasPre env (.conjoin ensures) supply pre supply' ∧
      os = [⟨.precondition, .implies (.conjoin requires) pre⟩] := by
  obtain ⟨p, mid, hp, h⟩ := Naming.exists_of_run_bind h
  cases h
  obtain ⟨hpre, hside⟩ := Stmt.hasPre_of_wp hp
  exact ⟨p.formula, hpre, by simp [hside, sideObligations]⟩

/-! ## What a precondition is made of -/

namespace Stmt.HasPre

variable {env : TypeEnv} {s : Stmt} {post pre : Expr} {supply supply' : Supply}

/-- The calculus only adds to the names that were drawn. -/
theorem used_le (h : HasPre env s post supply pre supply') : supply.used ≤ supply'.used := by
  induction h with
  | skip | assign | assert | assume => exact le_rfl
  | seq _ _ iht ihs => exact iht.trans ihs
  | branch _ _ ihs iht => exact ihs.trans iht
  | havoc => exact Nat.le_succ _

/-- A precondition has no free variables of its own. -/
theorem freeVars (h : HasPre env s post supply pre supply') :
    ∀ x ∈ pre.freeVars, x ∈ s.freeVars ∨ x ∈ post.freeVars := by
  induction h with
  | skip => exact fun x hx => Or.inr hx
  | assign =>
    intro x hx
    rcases Expr.freeVars_subst hx with ⟨hx, -⟩ | hx
    · exact Or.inr hx
    · exact Or.inl hx
  | assert =>
    intro x hx
    exact (List.mem_append.1 hx).symm
  | assume =>
    intro x hx
    exact List.mem_append.1 hx
  | seq _ _ iht ihs =>
    intro x hx
    rcases ihs x hx with hx | hx
    · exact Or.inl (List.mem_append_left _ hx)
    · exact (iht x hx).imp_left (List.mem_append_right _)
  | branch _ _ ihs iht =>
    intro x hx
    simp only [Expr.and, Expr.implies, Expr.not, Expr.freeVars, List.mem_append] at hx
    simp only [Stmt.freeVars, List.mem_append]
    rcases hx with (hx | hx) | (hx | hx)
    · exact Or.inl (Or.inl (Or.inl hx))
    · exact (ihs x hx).imp_left fun h => Or.inl (Or.inr h)
    · exact Or.inl (Or.inl (Or.inl hx))
    · exact (iht x hx).imp_left Or.inr
  | havoc =>
    intro x hx
    simp only [Expr.freeVars, List.mem_filter, decide_eq_true_eq] at hx
    rcases Expr.freeVars_subst hx.1 with ⟨h, -⟩ | h
    · exact Or.inr h
    · exact absurd (by simpa [Expr.freeVars] using h) hx.2

/-- The names of a precondition are as they should be if those of its quantifiers are. -/
theorem named_of_binders (h : HasPre env s post supply pre supply') (hs : s.Named supply)
    (hpost : post.Named supply)
    (hbinders : ∀ y ∈ pre.binders, y ∈ s.binders ++ post.binders ∨
      Name.Drawn supply.used supply'.used y) : pre.Named supply' := by
  refine ⟨fun x hx => (h.freeVars x hx).elim (hs.written.plain_freeVars x) (hpost.plain x),
    fun y hy => ?_⟩
  rcases hbinders y hy with hy | hy
  · exact (List.mem_append.1 hy).elim ((hs.mono h.used_le).drawn y)
      ((hpost.mono h.used_le).drawn y)
  · exact hy.mono (Nat.zero_le _) le_rfl

/-- The quantifiers of a precondition come from the statement, from the postcondition, or from a
`havoc` with a name drawn for it. -/
theorem binders (h : HasPre env s post supply pre supply') (hs : s.Named supply)
    (hpost : post.Named supply) :
    ∀ y ∈ pre.binders, y ∈ s.binders ++ post.binders ∨
      Name.Drawn supply.used supply'.used y := by
  induction h with
  | skip => exact fun y hy => Or.inl (List.mem_append_right _ hy)
  | assign =>
    rw [Expr.binders_subst hs.written.2.2 (hpost.notMem_freeVars hs.written.2.1.plain)]
    exact fun y hy => Or.inl (List.mem_append_right _ hy)
  | assert =>
    intro y hy
    exact Or.inl (List.mem_append.2 (List.mem_append.1 hy).symm)
  | assume => exact fun y hy => Or.inl hy
  | seq ht hs' iht ihs =>
    obtain ⟨hfirst, hsecond⟩ := hs.of_seq
    have hq := ht.named_of_binders hsecond hpost (iht hsecond hpost)
    intro y hy
    rcases ihs (hfirst.mono ht.used_le) hq y hy with hy | hy
    · rcases List.mem_append.1 hy with hy | hy
      · exact Or.inl (List.mem_append_left _ (List.mem_append_left _ hy))
      · refine (iht hsecond hpost y hy).imp (fun hy => ?_) (·.mono le_rfl hs'.used_le)
        rw [Stmt.binders, List.append_assoc]
        exact List.mem_append_right _ hy
    · exact Or.inr (hy.mono ht.used_le le_rfl)
  | branch hs' ht ihs iht =>
    obtain ⟨hthen, helse⟩ := hs.of_branch
    intro y hy
    have hthen' := ihs hthen hpost y
    have helse' := iht (helse.mono hs'.used_le) (hpost.mono hs'.used_le) y
    simp only [Expr.and, Expr.implies, Expr.not, Expr.binders, Stmt.binders,
      List.mem_append] at hy hthen' helse' ⊢
    rcases hy with (hy | hy) | (hy | hy)
    · exact Or.inl (Or.inl (Or.inl (Or.inl hy)))
    · exact (hthen' hy).imp (Or.imp_left fun h => Or.inl (Or.inr h)) (·.mono le_rfl ht.used_le)
    · exact Or.inl (Or.inl (Or.inl (Or.inl hy)))
    · exact (helse' hy).imp (Or.imp_left Or.inr) (·.mono hs'.used_le le_rfl)
  | @havoc x _ supply =>
    rw [Expr.binders, Expr.binders_subst rfl (hpost.notMem_fresh x)]
    rintro y (_ | ⟨_, hy⟩)
    · exact Or.inr (Name.drawn_fresh x supply)
    · exact Or.inl (List.mem_append_right _ hy)

theorem named (h : HasPre env s post supply pre supply') (hs : s.Named supply)
    (hpost : post.Named supply) : pre.Named supply' :=
  h.named_of_binders hs hpost (h.binders hs hpost)

/-- A precondition could stand in a text if its parts could. -/
theorem wellFormed (h : HasPre env s post supply pre supply') (henv : env.OfValues)
    (hs : s.Written) (hpost : post.WellFormed false) : pre.WellFormed false := by
  induction h with
  | skip => exact hpost
  | assign => exact hpost.subst hs.2.1.wellFormed
  | assert => exact .binary rfl hpost hs.wellFormed
  | assume => exact .binary rfl hs.wellFormed hpost
  | seq _ _ iht ihs => exact ihs hs.1 (iht hs.2 hpost)
  | branch _ _ ihs iht =>
    have hc := hs.1.wellFormed
    exact .binary rfl (.binary rfl hc (ihs hs.2.1 hpost))
      (.binary rfl (.unary rfl hc) (iht hs.2.2 hpost))
  | havoc =>
    refine .forAll (fun t ht => ?_) (hpost.subst .var)
    exact henv _ t (Option.filter_eq_some_iff.1 ht).1

/-- The quantifiers of a precondition have settled types, if the havocked variables have. -/
theorem annotated (h : HasPre env s post supply pre supply') (henv : env.Settles s.havocked)
    (hs : s.annotated = true) (hpost : post.annotated = true) : pre.annotated = true := by
  induction h with
  | skip => exact hpost
  | assign => exact Expr.annotated_subst hpost hs
  | assert | assume =>
    simp only [Stmt.annotated] at hs
    simp [Expr.and, Expr.implies, Expr.annotated, hpost, hs]
  | seq _ _ iht ihs =>
    simp only [Stmt.annotated, Bool.and_eq_true] at hs
    rw [havocked, TypeEnv.settles_append] at henv
    exact ihs henv.1 hs.1 (iht henv.2 hs.2 hpost)
  | branch _ _ ihs iht =>
    simp only [Stmt.annotated, Bool.and_eq_true] at hs
    rw [havocked, TypeEnv.settles_append] at henv
    simp [Expr.and, Expr.implies, Expr.not, Expr.annotated, hs.1.1, ihs henv.1 hs.1.2 hpost,
      iht henv.2 hs.2 hpost]
  | @havoc x _ _ =>
    obtain ⟨ty, hty, hconcrete⟩ := henv x (by simp [havocked])
    have hbody : ∀ y, (Expr.subst _ x (.var y)).annotated = true := fun y =>
      Expr.annotated_subst hpost rfl
    simp [Expr.annotated, hty, hconcrete, hbody]

/-- A precondition is a truth value where it is ready, if the statement is typed and the
postcondition is a truth value. -/
theorem isCondition (h : HasPre env s post supply pre supply') (htyped : s.Typed env)
    (hs : s.Named supply) (hpost : post.Named supply) (hcond : post.IsCondition env) :
    pre.IsCondition env := by
  induction h with
  | skip => exact hcond
  | @assign x e post _ =>
    intro hready
    have hcapture := hpost.notMem_freeVars hs.written.2.1.plain
    obtain ⟨he, hbefore⟩ := hready.of_subst hcapture
    -- the variable has the type of the value if it occurs
    have hx : x ∈ post.freeVars → ∃ t, env.get? x = some t ∧ e.Typed env t := fun hmem =>
      htyped (he hmem)
    refine (hcond (hbefore fun hmem => ?_)).subst hcapture hx
    obtain ⟨t, ht, het⟩ := hx hmem
    simpa [TypeEnv.Settles] using ⟨t, ht, het.isConcrete⟩
  | assert =>
    intro hready
    obtain ⟨hpost', hc⟩ := Expr.ready_binary.1 hready
    exact (hcond hpost').and (htyped hc)
  | assume =>
    intro hready
    obtain ⟨hc, hpost'⟩ := Expr.ready_binary.1 hready
    exact (htyped hc).implies (hcond hpost')
  | seq ht _ iht ihs =>
    obtain ⟨hfirst, hsecond⟩ := hs.of_seq
    exact ihs htyped.1 (hfirst.mono ht.used_le) (ht.named hsecond hpost)
      (iht htyped.2 hsecond hpost hcond)
  | branch hs' _ ihs iht =>
    intro hready
    obtain ⟨hthen, helse⟩ := hs.of_branch
    simp only [Expr.and, Expr.implies, Expr.not, Expr.ready_binary, Expr.ready_unary] at hready
    have hc := htyped.1 hready.1.1
    have hp := ihs htyped.2.1 hthen hpost hcond hready.1.2
    have hq := iht htyped.2.2 (helse.mono hs'.used_le) (hpost.mono hs'.used_le) hcond hready.2.2
    exact (hc.implies hp).and (hc.not.implies hq)
  | @havoc x post supply =>
    intro hready
    obtain ⟨t, ht, hconcrete, hbody⟩ := Expr.ready_forAll.1 hready
    obtain ⟨hx, -⟩ := Option.filter_eq_some_iff.1 ht
    set y := ((Supply.fresh x).run supply).1
    have hxy : x ≠ y := ((Name.drawn_fresh x supply).ne_of_plain hs.written).symm
    have hx' : Bindings.get? (env.insert y t) x = some t := by simpa [hxy] using hx
    have hfresh : y ∉ post.freeVars := hpost.fresh_notMem x
    have hcapture := hpost.notMem_fresh x
    have hsettled : TypeEnv.Settles (env.insert y t) [x] := by
      rintro z (_ | ⟨_, hz⟩)
      · exact ⟨t, hx', hconcrete⟩
      · cases hz
    have hbefore := (hbody.of_subst hcapture).2 fun _ => hsettled
    -- the name drawn for the variable is not free in the postcondition
    have hpost' := hcond (hbefore.congr fun z hz => by
      have hzy : z ≠ y := fun hzy => hfresh (hzy ▸ hz)
      simp [hzy])
    rw [ht]
    exact .forAll hconcrete ((hpost'.insert_of_notMem hfresh).subst hcapture fun _ =>
      ⟨t, hx', .var (by simp) hconcrete⟩)

end Stmt.HasPre

end Precond
