import Mathlib.Tactic
import Precond.Program.LoopCut
import Precond.Proofs.StatementTypes
import Precond.Proofs.Substitution

/-!
# The form of a cut statement

`Stmt.Cut s c` says that `c` is `s` with its loops replaced by straight-line code, where conditions
may have been given other quantifiers on the way. `Stmt.cutLoops` makes such a statement
(`Stmt.cut_cutLoops`), and type checking leaves it one (`Stmt.Cut.of_untyped`). What is needed of
the result is read off the relation: it has no loop, it reads and writes no other variables, and its
assignments are those of `s`.

`Expr.Echoes e' e` is the relation of their conditions: a run cannot tell them apart, and `e'` has
no free variables besides those of `e`.
-/

namespace Precond

/-! ## Conditions -/

namespace Expr

/-- A run cannot tell `e'` from `e`, and its free variables are free in `e`. -/
structure Echoes (e' e : Expr) : Prop where
  outline : e'.outline = e.outline
  freeVars : ∀ x ∈ e'.freeVars, x ∈ e.freeVars

variable {e e' e'' : Expr} {es es' : List Expr}

theorem eq_lit_of_untyped {v : Literal} (h : e.untyped = (Expr.lit v).untyped) : e = .lit v := by
  cases e <;> simp only [untyped, reduceCtorEq, Expr.lit.injEq] at h
  rw [h]

theorem Echoes.refl (e : Expr) : e.Echoes e := ⟨rfl, fun _ h => h⟩

/-- An expression with other types of its quantifiers is still an echo. -/
theorem Echoes.of_untyped (h : e'.Echoes e) (he : e''.untyped = e'.untyped) : e''.Echoes e := by
  refine ⟨(outline_eq_of_untyped he).trans h.outline, fun x hx => h.freeVars x ?_⟩
  rwa [← freeVars_eq_of_untyped he]

theorem outlineAll_eq_of_forall₂ (h : List.Forall₂ Echoes es' es) :
    outlineAll es' = outlineAll es := by
  induction h with
  | nil => rfl
  | cons he _ ih => rw [outlineAll, outlineAll, he.outline, ih]

theorem freeVarsAll_of_forall₂ (h : List.Forall₂ Echoes es' es) :
    ∀ x ∈ freeVarsAll es', x ∈ freeVarsAll es := by
  induction h with
  | nil => simp [freeVarsAll]
  | cons he _ ih =>
    intro x hx
    rw [freeVarsAll, List.mem_append] at hx ⊢
    exact hx.imp (he.freeVars x) (ih x)

/-- A conjunction echoes another one if its parts do. -/
theorem echoes_and {l l' r r' : Expr} (hl : l'.Echoes l) (hr : r'.Echoes r) :
    (and l' r').Echoes (and l r) := by
  refine ⟨by simp only [and, Expr.outline, hl.outline, hr.outline], fun x hx => ?_⟩
  simp only [and, Expr.freeVars, List.mem_append] at hx ⊢
  exact hx.imp (hl.freeVars x) (hr.freeVars x)

theorem echoes_foldl_and (he : e'.Echoes e) (h : List.Forall₂ Echoes es' es) :
    (es'.foldl and e').Echoes (es.foldl and e) := by
  induction h generalizing e e' with
  | nil => exact he
  | cons hd _ ih => exact ih (echoes_and he hd)

/-- Conjunctions of lists echo each other if their members do, one by one. -/
theorem echoes_conjoin (h : List.Forall₂ Echoes es' es) : (conjoin es').Echoes (conjoin es) := by
  cases h with
  | nil => exact .refl _
  | cons he h => exact echoes_foldl_and he h

theorem mem_freeVars_conjoin {x : String} :
    x ∈ (conjoin es).freeVars ↔ x ∈ freeVarsAll es := by
  have hfoldl : ∀ (es : List Expr) (e : Expr),
      x ∈ (es.foldl and e).freeVars ↔ x ∈ e.freeVars ∨ x ∈ freeVarsAll es := by
    intro es
    induction es with
    | nil => simp [freeVarsAll]
    | cons d es ih => simp [ih, and, Expr.freeVars, freeVarsAll, or_assoc]
  cases es with
  | nil => simp [conjoin, bool, Expr.freeVars, freeVarsAll]
  | cons e es => simp only [conjoin, hfoldl, freeVarsAll, List.mem_append]

end Expr

/-! ## Renaming quantifiers -/

namespace Supply

variable {α β : Type}

theorem run_bind (c : StateM Supply α) (f : α → StateM Supply β) (supply : Supply) :
    (c >>= f).run supply = (f (c.run supply).1).run (c.run supply).2 := rfl

theorem run_pure (a : α) (supply : Supply) : (pure a : StateM Supply α).run supply = (a, supply) :=
  rfl

theorem run_fresh (x : String) (supply : Supply) :
    (fresh x).run supply =
      (Name.numbered (Name.stem x) (supply.used + 1), { used := supply.used + 1 }) := rfl

end Supply

namespace Expr

open Supply (run_bind run_pure run_fresh)

mutual

/-- New names for the quantifiers make no difference to a run. -/
theorem alphaRename_echoes (e : Expr) (supply : Supply) :
    (e.alphaRename.run supply).1.Echoes e := by
  match e with
  | .var _ | .lit _ => exact .refl _
  | .binary _ l r | .subscript l r | .sliceFrom l r =>
    have hl := alphaRename_echoes l supply
    have hr := alphaRename_echoes r (l.alphaRename.run supply).2
    simp only [alphaRename, run_bind, run_pure]
    refine ⟨by simp only [Expr.outline, hl.outline, hr.outline], fun x hx => ?_⟩
    simp only [Expr.freeVars, List.mem_append] at hx ⊢
    exact hx.imp (hl.freeVars x) (hr.freeVars x)
  | .unary _ e =>
    have he := alphaRename_echoes e supply
    simp only [alphaRename, run_bind, run_pure]
    exact ⟨by simp only [Expr.outline, he.outline], he.freeVars⟩
  | .slice l u s =>
    have hl := alphaRename_echoes l supply
    have hu := alphaRename_echoes u (l.alphaRename.run supply).2
    have hs := alphaRename_echoes s (u.alphaRename.run (l.alphaRename.run supply).2).2
    simp only [alphaRename, run_bind, run_pure]
    refine ⟨by simp only [Expr.outline, hl.outline, hu.outline, hs.outline], fun x hx => ?_⟩
    simp only [Expr.freeVars, List.mem_append] at hx ⊢
    exact hx.imp (Or.imp (hl.freeVars x) (hu.freeVars x)) (hs.freeVars x)
  | .call _ args =>
    have hargs := alphaRenameAll_echoes args supply
    simp only [alphaRename, run_bind, run_pure]
    exact ⟨by simp only [Expr.outline, outlineAll_eq_of_forall₂ hargs],
      freeVarsAll_of_forall₂ hargs⟩
  | .forAll x ty body =>
    have hbody := alphaRename_echoes body supply
    simp only [alphaRename, run_bind, run_pure, run_fresh]
    refine ⟨rfl, fun w hw => ?_⟩
    -- the new variable is bound, so it does not matter whether it is fresh
    simp only [Expr.freeVars, List.mem_filter, decide_eq_true_eq] at hw ⊢
    rcases freeVars_subst hw.1 with ⟨h, hwx⟩ | h
    · exact ⟨hbody.freeVars w h, hwx⟩
    · exact absurd (by simpa [Expr.freeVars] using h) hw.2

/-- Renaming the quantifiers of a list is out of sight for a run. -/
theorem alphaRenameAll_echoes (es : List Expr) (supply : Supply) :
    List.Forall₂ Echoes ((alphaRenameAll es).run supply).1 es := by
  match es with
  | [] => exact .nil
  | e :: es =>
    simp only [alphaRenameAll, run_bind, run_pure]
    exact .cons (alphaRename_echoes e supply) (alphaRenameAll_echoes es _)

end

mutual

/-- Renaming only adds to the names that were drawn. -/
theorem used_le_alphaRename (e : Expr) (supply : Supply) :
    supply.used ≤ (e.alphaRename.run supply).2.used := by
  match e with
  | .var _ | .lit _ => exact le_rfl
  | .binary _ l r | .subscript l r | .sliceFrom l r =>
    exact (used_le_alphaRename l supply).trans (used_le_alphaRename r _)
  | .unary _ e => exact used_le_alphaRename e supply
  | .slice l u s =>
    exact (used_le_alphaRename l supply).trans
      ((used_le_alphaRename u _).trans (used_le_alphaRename s _))
  | .call _ args => exact used_le_alphaRenameAll args supply
  | .forAll _ _ body => exact (used_le_alphaRename body supply).trans (Nat.le_succ _)

theorem used_le_alphaRenameAll (es : List Expr) (supply : Supply) :
    supply.used ≤ ((alphaRenameAll es).run supply).2.used := by
  match es with
  | [] => exact le_rfl
  | e :: es => exact (used_le_alphaRename e supply).trans (used_le_alphaRenameAll es _)

end

end Expr

namespace Stmt

/-! ## Chains -/

/-- What holds of a sequence exactly when it holds of both parts holds of a chain exactly when it
holds of all members. -/
theorem sequence_iff {P : Stmt → Prop} (hskip : P .skip) (hseq : ∀ s t, P (.seq s t) ↔ P s ∧ P t)
    (l : List Stmt) : P (sequence l) ↔ ∀ s ∈ l, P s := by
  have hfoldl : ∀ (l : List Stmt) (s : Stmt), P (l.foldl .seq s) ↔ P s ∧ ∀ t ∈ l, P t := by
    intro l
    induction l with
    | nil => simp
    | cons t l ih => simp [ih, hseq, and_assoc]
  match l with
  | [] => simpa [sequence] using hskip
  | [s] => simp [sequence, hseq, hskip]
  | s :: t :: rest => simp [sequence, hfoldl, hseq, and_assoc]

/-- What is a chain of statements but for the types of quantifiers is a chain. -/
theorem exists_foldl_of_untyped {c s : Stmt} {l : List Stmt}
    (h : c.untyped = (l.foldl .seq s).untyped) :
    ∃ (s' : Stmt) (l' : List Stmt),
      c = l'.foldl .seq s' ∧ s'.untyped = s.untyped ∧ l'.map untyped = l.map untyped := by
  induction l generalizing s with
  | nil => exact ⟨c, [], rfl, h, rfl⟩
  | cons t l ih =>
    obtain ⟨st, l', rfl, hst, hl⟩ := ih h
    cases st <;> simp only [untyped, reduceCtorEq, Stmt.seq.injEq] at hst
    exact ⟨_, _ :: l', rfl, hst.1, by simp only [List.map_cons, hst.2, hl]⟩

/-- Types of quantifiers apart, a chain comes from a chain. -/
theorem exists_sequence_of_untyped {c : Stmt} {l : List Stmt}
    (h : c.untyped = (sequence l).untyped) :
    ∃ l', c = sequence l' ∧ l'.map untyped = l.map untyped := by
  match l with
  | [] =>
    cases c <;> simp only [sequence, untyped, reduceCtorEq] at h
    exact ⟨[], rfl, rfl⟩
  | [s] =>
    obtain ⟨s', l', rfl, hs, hl⟩ := @exists_foldl_of_untyped c s [.skip] h
    obtain ⟨t, rfl, ht⟩ := List.map_eq_singleton_iff.mp hl
    cases t <;> simp only [untyped, reduceCtorEq] at ht
    exact ⟨[s'], rfl, by simp only [List.map_cons, hs, List.map_nil]⟩
  | s :: t :: rest =>
    obtain ⟨st, l', rfl, hst, hl⟩ := exists_foldl_of_untyped h
    cases st <;> simp only [untyped, reduceCtorEq, Stmt.seq.injEq] at hst
    exact ⟨_ :: _ :: l', rfl, by simp only [List.map_cons, hst, hl]⟩

/-! ## Cut statements -/

/-- The straight-line form of a loop: `entry`, `head` and `again` are the invariant on entry, at an
arbitrary head and after a turn. -/
def straightened (written : List String) (entry head cond again : Expr) (body : Stmt) : Stmt :=
  sequence ([.assert entry] ++ written.map .havoc ++
    [.assume head, .branch cond (sequence [body, .assert again, .assume (.bool false)]) .skip])

/-- The second statement is the first one with its loops cut, up to the quantifiers of the
conditions. -/
inductive Cut : Stmt → Stmt → Prop
  | skip : Cut .skip .skip
  | havoc {x} : Cut (.havoc x) (.havoc x)
  | assign {x e e'} : e'.Echoes e → Cut (.assign x e) (.assign x e')
  | assume {e e'} : e'.Echoes e → Cut (.assume e) (.assume e')
  | assert {e e'} : e'.Echoes e → Cut (.assert e) (.assert e')
  | seq {s s' t t'} : Cut s s' → Cut t t' → Cut (.seq s t) (.seq s' t')
  | branch {c c' s s' t t'} :
      c'.Echoes c → Cut s s' → Cut t t' → Cut (.branch c s t) (.branch c' s' t')
  | loop {invariants cond body entry head cond' again body'} :
      entry.Echoes (.conjoin invariants) → head.Echoes (.conjoin invariants) →
      again.Echoes (.conjoin invariants) → cond'.Echoes cond → Cut body body' →
      Cut (.loop invariants cond body) (straightened body.writtenVars entry head cond' again body')

/-- A fresh copy of an invariant echoes it. -/
theorem freshInvariant_echoes (invariants : List Expr) (supply : Supply) :
    ((freshInvariant invariants).run supply).1.Echoes (.conjoin invariants) :=
  Expr.echoes_conjoin (Expr.alphaRenameAll_echoes invariants supply)

/-- By induction on the statement: what cutting makes of it is a cut of it. -/
theorem cut_cutLoops (s : Stmt) (supply : Supply) : Cut s (s.cutLoops.run supply).1 := by
  induction s generalizing supply with
  | skip => exact .skip
  | havoc x => exact .havoc
  | assign x e => exact .assign (.refl e)
  | assume e => exact .assume (.refl e)
  | assert e => exact .assert (.refl e)
  | seq s t ihs iht => exact .seq (ihs supply) (iht _)
  | branch c s t ihs iht => exact .branch (.refl c) (ihs supply) (iht _)
  | loop invariants cond body ih =>
    exact .loop (freshInvariant_echoes invariants _) (freshInvariant_echoes invariants _)
      (freshInvariant_echoes invariants _) (.refl cond) (ih supply)

theorem used_le_cutLoops (s : Stmt) (supply : Supply) :
    supply.used ≤ (s.cutLoops.run supply).2.used := by
  induction s generalizing supply with
  | skip | havoc | assign | assume | assert => exact le_rfl
  | seq s t ihs iht => exact (ihs supply).trans (iht _)
  | branch c s t ihs iht => exact (ihs supply).trans (iht _)
  | loop invariants cond body ih =>
    exact (ih supply).trans <| (Expr.used_le_alphaRenameAll invariants _).trans <|
      (Expr.used_le_alphaRenameAll invariants _).trans (Expr.used_le_alphaRenameAll invariants _)

/-! ## Types of quantifiers -/

theorem eq_map_havoc_of_untyped {l : List Stmt} {names : List String}
    (h : l.map untyped = (names.map Stmt.havoc).map untyped) : l = names.map .havoc := by
  induction names generalizing l with
  | nil => simpa using h
  | cons x names ih =>
    obtain ⟨s, l, rfl, hs, hl⟩ := List.map_eq_cons_iff.mp h
    cases s <;> simp only [untyped, reduceCtorEq, Stmt.havoc.injEq] at hs
    rw [hs, ih hl, List.map_cons]

/-- Types of quantifiers apart, the straight-line form of a loop comes from such a form. -/
theorem exists_straightened_of_untyped {c body : Stmt} {written : List String}
    {entry head cond again : Expr}
    (h : c.untyped = (straightened written entry head cond again body).untyped) :
    ∃ (entry' head' cond' again' : Expr) (body' : Stmt),
      c = straightened written entry' head' cond' again' body' ∧
      entry'.untyped = entry.untyped ∧ head'.untyped = head.untyped ∧
      cond'.untyped = cond.untyped ∧ again'.untyped = again.untyped ∧
      body'.untyped = body.untyped := by
  obtain ⟨l, rfl, hl⟩ := exists_sequence_of_untyped h
  simp only [List.map_append, List.map_eq_append_iff, List.map_cons, List.map_nil,
    List.map_eq_cons_iff, List.map_eq_nil_iff] at hl
  obtain ⟨_, _, rfl, ⟨_, havocs, rfl, ⟨first, _, rfl, hfirst, rfl⟩, hhavocs⟩, assumed, _, rfl,
    hassumed, branch, _, rfl, hbranch, rfl⟩ := hl
  obtain rfl := eq_map_havoc_of_untyped hhavocs
  cases first <;> simp only [untyped, reduceCtorEq, Stmt.assert.injEq] at hfirst
  cases assumed <;> simp only [untyped, reduceCtorEq, Stmt.assume.injEq] at hassumed
  cases branch with
  | branch cond' taken rest =>
    simp only [untyped, Stmt.branch.injEq] at hbranch
    obtain ⟨hcond, htaken, hrest⟩ := hbranch
    obtain ⟨l, rfl, hl⟩ := exists_sequence_of_untyped htaken
    simp only [List.map_cons, List.map_nil, List.map_eq_cons_iff, List.map_eq_nil_iff] at hl
    obtain ⟨body', _, rfl, hbody, last, _, rfl, hlast, stop, _, rfl, hstop, rfl⟩ := hl
    cases last <;> simp only [untyped, reduceCtorEq, Stmt.assert.injEq] at hlast
    cases stop <;> simp only [untyped, reduceCtorEq, Stmt.assume.injEq] at hstop
    cases rest <;> simp only [untyped, reduceCtorEq] at hrest
    obtain rfl := Expr.eq_lit_of_untyped hstop
    exact ⟨_, _, cond', _, body', rfl, hfirst, hassumed, hcond, hlast, hbody⟩
  | _ => simp only [untyped, reduceCtorEq] at hbranch

namespace Cut

variable {s c c' : Stmt}

/-- A cut statement stays one when its quantifiers get types. -/
theorem of_untyped (h : Cut s c) (hc : c'.untyped = c.untyped) : Cut s c' := by
  induction h generalizing c' with
  | skip =>
    cases c' <;> simp only [untyped, reduceCtorEq] at hc
    exact .skip
  | havoc =>
    cases c' <;> simp only [untyped, reduceCtorEq, Stmt.havoc.injEq] at hc
    rw [hc]
    exact .havoc
  | assign he =>
    cases c' <;> simp only [untyped, reduceCtorEq, Stmt.assign.injEq] at hc
    rw [hc.1]
    exact .assign (he.of_untyped hc.2)
  | assume he =>
    cases c' <;> simp only [untyped, reduceCtorEq, Stmt.assume.injEq] at hc
    exact .assume (he.of_untyped hc)
  | assert he =>
    cases c' <;> simp only [untyped, reduceCtorEq, Stmt.assert.injEq] at hc
    exact .assert (he.of_untyped hc)
  | seq _ _ ihs iht =>
    cases c' <;> simp only [untyped, reduceCtorEq, Stmt.seq.injEq] at hc
    exact .seq (ihs hc.1) (iht hc.2)
  | branch he _ _ ihs iht =>
    cases c' <;> simp only [untyped, reduceCtorEq, Stmt.branch.injEq] at hc
    exact .branch (he.of_untyped hc.1) (ihs hc.2.1) (iht hc.2.2)
  | loop hentry hhead hagain hcond _ ih =>
    obtain ⟨_, _, _, _, _, rfl, hentry', hhead', hcond', hagain', hbody⟩ :=
      exists_straightened_of_untyped hc
    exact .loop (hentry.of_untyped hentry') (hhead.of_untyped hhead') (hagain.of_untyped hagain')
      (hcond.of_untyped hcond') (ih hbody)

end Cut

/-! ## What a cut statement is made of -/

/-- What holds of a sequence, and of a branching, exactly when it holds of the parts holds of the
straight-line form of a loop exactly when it holds of the statements in it. -/
theorem straightened_iff {P : Stmt → Prop} {written : List String} {entry head cond again : Expr}
    {body : Stmt} (hskip : P .skip) (hseq : ∀ s t, P (.seq s t) ↔ P s ∧ P t) :
    P (straightened written entry head cond again body) ↔
      P (.assert entry) ∧ (∀ x ∈ written, P (.havoc x)) ∧ P (.assume head) ∧
        P (.branch cond (sequence [body, .assert again, .assume (.bool false)]) .skip) := by
  rw [straightened, sequence_iff hskip hseq]
  simp [or_imp, forall_and]

/-- A variable is havocked only if it is written. -/
theorem mem_writtenVars_of_mem_havocked {x : String} {s : Stmt} (h : x ∈ s.havocked) :
    x ∈ s.writtenVars := by
  induction s with
  | havoc y => simpa [havocked, writtenVars, addWritten, addName] using h
  | seq s t ihs iht =>
    rw [havocked, List.mem_append] at h
    exact mem_writtenVars_seq.mpr (h.imp ihs iht)
  | branch c s t ihs iht =>
    rw [havocked, List.mem_append] at h
    exact mem_writtenVars_branch.mpr (h.imp ihs iht)
  | loop invariants c s ih => exact ih h
  | _ => simp [havocked] at h

namespace Cut

variable {s c : Stmt}

/-- No loops are left. -/
theorem hasLoop (h : Cut s c) : c.hasLoop = false := by
  induction h with
  | seq _ _ ihs iht => simp [Stmt.hasLoop, ihs, iht]
  | branch _ _ _ ihs iht => simp [Stmt.hasLoop, ihs, iht]
  | @loop _ _ _ _ _ _ _ body' _ _ _ _ _ ih =>
    have hseq : ∀ s t : Stmt, (Stmt.seq s t).hasLoop = false ↔
        s.hasLoop = false ∧ t.hasLoop = false := by simp [Stmt.hasLoop]
    rw [@straightened_iff (·.hasLoop = false) _ _ _ _ _ _ rfl hseq]
    refine ⟨rfl, fun _ _ => rfl, rfl, ?_⟩
    simp [Stmt.hasLoop, sequence, ih]
  | _ => rfl

/-- A cut statement reads no other variables. -/
theorem notMem_freeVars {x : String} (h : Cut s c) (hx : x ∉ s.freeVars) : x ∉ c.freeVars := by
  induction h with
  | skip | havoc => exact hx
  | assign he | assume he | assert he => exact mt (he.freeVars x) hx
  | seq _ _ ihs iht =>
    simp only [freeVars, List.mem_append, not_or] at hx ⊢
    exact ⟨ihs hx.1, iht hx.2⟩
  | branch he _ _ ihs iht =>
    simp only [freeVars, List.mem_append, not_or] at hx ⊢
    exact ⟨⟨mt (he.freeVars x) hx.1.1, ihs hx.1.2⟩, iht hx.2⟩
  | loop hentry hhead hagain hcond _ ih =>
    simp only [freeVars, List.mem_append, not_or, ← Expr.mem_freeVars_conjoin] at hx
    rw [@straightened_iff (x ∉ ·.freeVars) _ _ _ _ _ _ (by simp [freeVars])
      (by simp [freeVars])]
    refine ⟨mt (hentry.freeVars x) hx.1.1, by simp [freeVars], mt (hhead.freeVars x) hx.1.1, ?_⟩
    simp only [freeVars, sequence, List.foldl, List.mem_append, not_or]
    have hbody := And.intro (ih hx.2) (mt (hagain.freeVars x) hx.1.1)
    exact ⟨⟨mt (hcond.freeVars x) hx.1.2, hbody, List.not_mem_nil⟩, List.not_mem_nil⟩

/-- A cut statement writes no other variables. -/
theorem notMem_writtenVars {x : String} (h : Cut s c) (hx : x ∉ s.writtenVars) :
    x ∉ c.writtenVars := by
  induction h with
  | seq _ _ ihs iht =>
    simp only [mem_writtenVars_seq, not_or] at hx ⊢
    exact ⟨ihs hx.1, iht hx.2⟩
  | branch _ _ _ ihs iht =>
    simp only [mem_writtenVars_branch, not_or] at hx ⊢
    exact ⟨ihs hx.1, iht hx.2⟩
  | loop _ _ _ _ _ ih =>
    rw [@straightened_iff (x ∉ ·.writtenVars) _ _ _ _ _ _ (by simp [writtenVars, addWritten])
      (by simp [mem_writtenVars_seq])]
    refine ⟨List.not_mem_nil, fun y hy => ?_, List.not_mem_nil, ?_⟩
    · simp only [writtenVars, addWritten, mem_addName, List.not_mem_nil, false_or]
      rintro rfl
      exact hx hy
    · simp only [mem_writtenVars_branch, sequence, List.foldl, mem_writtenVars_seq, not_or]
      exact ⟨⟨⟨ih hx, List.not_mem_nil⟩, List.not_mem_nil⟩, List.not_mem_nil⟩
  | _ => exact hx

/-- The assignments of a cut statement are those of the statement. -/
theorem assignsFit {G : TypeEnv} (h : Cut s c) (hc : c.AssignsFit G) : s.AssignsFit G := by
  induction h with
  | assign he =>
    obtain ⟨ty, hx, hty⟩ := hc
    exact ⟨ty, hx, hty.of_outline he.outline.symm⟩
  | seq _ _ ihs iht => exact ⟨ihs hc.1, iht hc.2⟩
  | branch _ _ _ ihs iht => exact ⟨ihs hc.1, iht hc.2⟩
  | loop _ _ _ _ _ ih =>
    rw [@straightened_iff (·.AssignsFit G) _ _ _ _ _ _ trivial fun _ _ => Iff.rfl] at hc
    exact ih hc.2.2.2.1.1.1
  | _ => trivial

end Cut

end Stmt

end Precond
