import Mathlib.Tactic
import Precond.Proofs.AcceptedTypes
import Precond.Proofs.Runs
import Precond.Typing.Function

/-!
# What the type checker accepts, for statements and functions

`Stmt.Elaborates s env s' env'` is the type checking of a statement, with a rule for each way in
which it can succeed, and `Contracted.Elaborates` is one pass over a function.

A statement that is accepted comes back as it was, but for the types of its quantifiers, no variable
is lost and settled types stay. If the variables had settled types at the start, every assignment
gives its variable a value of the variable's type (`Stmt.AssignsFit`). A function is gone over
several times; each pass starts from what the one before it has found out, so the first one already
tells all of this (`Contracted.check_accepts`).
-/

namespace Precond

open Checking

namespace Stmt

/-- The statement without the types of its quantifiers. -/
def untyped : Stmt → Stmt
  | .skip => .skip
  | .havoc x => .havoc x
  | .assign x e => .assign x e.untyped
  | .assume e => .assume e.untyped
  | .assert e => .assert e.untyped
  | .seq s t => .seq (untyped s) (untyped t)
  | .branch c s t => .branch c.untyped (untyped s) (untyped t)
  | .loop invariants c s => .loop (Expr.untypedAll invariants) c.untyped (untyped s)

/-- Every assignment in a statement is as `p` says. -/
def EveryAssign (p : String → Expr → Prop) : Stmt → Prop
  | .assign x e => p x e
  | .seq s t => EveryAssign p s ∧ EveryAssign p t
  | .branch _ s t => EveryAssign p s ∧ EveryAssign p t
  | .loop _ _ s => EveryAssign p s
  | .skip | .havoc _ | .assume _ | .assert _ => True

/-- Every assignment gives its variable a value of the variable's type. -/
def AssignsFit (G : TypeEnv) (s : Stmt) : Prop :=
  s.EveryAssign fun x e => ∃ ty, G.get? x = some ty ∧ e.HasType G ty

/-- No assignment in a statement is to a variable that it does not write. -/
theorem everyAssign_ne {x : String} {s : Stmt} (h : x ∉ s.writtenVars) :
    s.EveryAssign fun y _ => x ≠ y := by
  induction s with
  | assign y e => simpa [EveryAssign, writtenVars, addWritten, mem_addName] using h
  | seq s t ihs iht =>
    rw [mem_writtenVars_seq, not_or] at h
    exact ⟨ihs h.1, iht h.2⟩
  | branch c s t ihs iht =>
    rw [mem_writtenVars_branch, not_or] at h
    exact ⟨ihs h.1, iht h.2⟩
  | loop invariants c s ih => exact ih h
  | _ => trivial

end Stmt

/-! ## The rules -/

namespace Expr

/-- Conditions are checked one after another. -/
inductive ElaboratesAll : List Expr → TypeEnv → List Expr → TypeEnv → Prop
  | nil {env} : ElaboratesAll [] env [] env
  | cons {e e' es es' env mid env'} (he : Elaborates (.against .bool) e env e' mid)
      (hes : ElaboratesAll es mid es' env') : ElaboratesAll (e :: es) env (e' :: es') env'

/-- The conditions of a statement are checked by the rules, one after another. -/
theorem checkAll_elaborates {es es' : List Expr} {env env' : TypeEnv}
    (h : Gives (checkAll .bool es) env es' env') : ElaboratesAll es env es' env' := by
  induction es generalizing env es' with
  | nil =>
    obtain ⟨rfl, rfl⟩ := gives_pure.mp h
    exact .nil
  | cons e es ih =>
    simp only [checkAll, gives_bind, gives_pure] at h
    obtain ⟨e', mid, he, es', _, hes, rfl, rfl⟩ := h
    exact .cons (check_elaborates he) (ih hes)

namespace ElaboratesAll

variable {es es' : List Expr} {env env' : TypeEnv}

theorem grows (h : ElaboratesAll es env es' env') : Grows env env' := by
  induction h with
  | nil => exact .refl _
  | cons he _ ih => exact he.grows.trans ih

theorem untyped (h : ElaboratesAll es env es' env') : untypedAll es' = untypedAll es := by
  induction h with
  | nil => rfl
  | cons he _ ih => simp only [untypedAll, he.untyped, ih]

end ElaboratesAll

end Expr

namespace Stmt

/-- Type checking takes the statement to another one, and the environment to another one. -/
inductive Elaborates : Stmt → TypeEnv → Stmt → TypeEnv → Prop
  | skip {env} : Elaborates .skip env .skip env
  | assignNew {x e e' ty env mid} (he : e.Elaborates (.finds ty) env e' mid)
      (hx : mid.get? x = none) :
      Elaborates (.assign x e) env (.assign x e') (mid.insert x ty)
  | assignKnown {x e e₁ e' current ty env mid mid'} (he : e.Elaborates (.finds ty) env e₁ mid)
      (hx : mid.get? x = some current) (hfits : current.compatible ty = true)
      (hvalue : e₁.Elaborates (.against (current.refine ty)) mid e' mid') :
      Elaborates (.assign x e) env (.assign x e') (mid'.insert x (current.refine ty))
  | seq {s s' t t' env mid env'} (hs : Elaborates s env s' mid) (ht : Elaborates t mid t' env') :
      Elaborates (.seq s t) env (.seq s' t') env'
  | branch {c c' s s' t t' env m₁ m₂ env'} (hc : c.Elaborates (.against .bool) env c' m₁)
      (hs : Elaborates s m₁ s' m₂) (ht : Elaborates t m₂ t' env') :
      Elaborates (.branch c s t) env (.branch c' s' t') env'
  | assume {e e' env env'} (he : e.Elaborates (.against .bool) env e' env') :
      Elaborates (.assume e) env (.assume e') env'
  | assert {e e' env env'} (he : e.Elaborates (.against .bool) env e' env') :
      Elaborates (.assert e) env (.assert e') env'
  | loop {es es' c c' s s' env m₁ m₂ env'} (hes : Expr.ElaboratesAll es env es' m₁)
      (hc : c.Elaborates (.against .bool) m₁ c' m₂) (hs : Elaborates s m₂ s' env') :
      Elaborates (.loop es c s) env (.loop es' c' s') env'
  | havocNew {x env} (hx : env.get? x = none) :
      Elaborates (.havoc x) env (.havoc x) (env.insert x .unknown)
  | havocKnown {x env} (hx : env.contains x = true) : Elaborates (.havoc x) env (.havoc x) env

/-- A statement is checked by the rules. -/
theorem check_elaborates {s s' : Stmt} {env env' : TypeEnv} (h : Gives s.check env s' env') :
    Elaborates s env s' env' := by
  induction s generalizing env env' s' with
  | skip =>
    obtain ⟨rfl, rfl⟩ := gives_pure.mp h
    exact .skip
  | assign x e =>
    simp only [check, Expr.checkAssigned, gives_bind, gives_get, gives_pure] at h
    obtain ⟨e', _, ⟨⟨ty, e₁⟩, mid, hfound, _, _, ⟨rfl, rfl⟩, h⟩, rfl, rfl⟩ := h
    split at h
    · next hx =>
      simp only [gives_bind, gives_modify, gives_pure] at h
      obtain ⟨_, _, rfl, rfl, rfl⟩ := h
      exact .assignNew (Expr.infer_elaborates hfound) hx
    · next current hx =>
      split_ifs at h with hfits
      · simp only [gives_bind, gives_modify, gives_pure] at h
        obtain ⟨e₂, mid', hvalue, _, _, rfl, rfl, rfl⟩ := h
        exact .assignKnown (Expr.infer_elaborates hfound) hx hfits (Expr.check_elaborates hvalue)
      · exact absurd h not_gives_throw
  | assume e =>
    simp only [check, gives_bind, gives_pure] at h
    obtain ⟨e', _, he, rfl, rfl⟩ := h
    exact .assume (Expr.check_elaborates he)
  | assert e =>
    simp only [check, gives_bind, gives_pure] at h
    obtain ⟨e', _, he, rfl, rfl⟩ := h
    exact .assert (Expr.check_elaborates he)
  | seq s t ihs iht =>
    simp only [check, gives_bind, gives_pure] at h
    obtain ⟨s', mid, hs, t', _, ht, rfl, rfl⟩ := h
    exact .seq (ihs hs) (iht ht)
  | branch c s t ihs iht =>
    simp only [check, gives_bind, gives_pure] at h
    obtain ⟨c', _, hc, s', mid, hs, t', _, ht, rfl, rfl⟩ := h
    exact .branch (Expr.check_elaborates hc) (ihs hs) (iht ht)
  | loop invariants c s ih =>
    simp only [check, gives_bind, gives_pure] at h
    obtain ⟨invariants', _, hinvariants, c', _, hc, s', _, hs, rfl, rfl⟩ := h
    exact .loop (Expr.checkAll_elaborates hinvariants) (Expr.check_elaborates hc) (ih hs)
  | havoc x =>
    simp only [check, gives_bind, gives_modify, gives_pure] at h
    obtain ⟨_, _, rfl, rfl, rfl⟩ := h
    split_ifs with hx
    · exact .havocKnown hx
    · exact .havocNew (by simpa [Bindings.contains] using hx)

namespace Elaborates

variable {s s' : Stmt} {G env env' : TypeEnv}

theorem grows_insert_new {x : String} {ty : Ty} (hx : env.get? x = none) :
    Grows env (env.insert x ty) := by
  constructor
  · intro y t hy _
    have hyx : y ≠ x := by
      rintro rfl
      simp [hx] at hy
    simpa [hyx] using hy
  · intro y hy
    by_cases hyx : y = x <;> simp [Bindings.contains, hyx] at hy ⊢
    exact hy

/-- A variable that has a type gets a more precise one at the end of an assignment. -/
theorem grows_insert_known {x : String} {current : Ty} (h : Grows env env')
    (hx : env.get? x = some current) (ty : Ty) :
    Grows env (env'.insert x (current.refine ty)) := by
  constructor
  · intro y t hy ht
    rw [Bindings.get?_insert]
    split_ifs with hyx
    · obtain rfl : current = t := Option.some.inj (hx.symm.trans (hyx ▸ hy))
      rw [Ty.refine_of_isConcrete ty ht]
    · exact h.keeps y t hy ht
  · intro y hy
    by_cases hyx : y = x
    · simp [Bindings.contains, hyx]
    · simpa [Bindings.contains, hyx] using h.contains y hy

/-- Checking a statement loses no variable and changes no settled type. -/
theorem grows (h : Elaborates s env s' env') : Grows env env' := by
  induction h with
  | skip | havocKnown => exact .refl _
  | assignNew he hx => exact he.grows.trans (grows_insert_new hx)
  | assignKnown he hx _ hvalue => exact he.grows.trans (grows_insert_known hvalue.grows hx _)
  | seq _ _ ihs iht => exact ihs.trans iht
  | branch hc _ _ ihs iht => exact hc.grows.trans (ihs.trans iht)
  | assume he | assert he => exact he.grows
  | loop hes hc _ ih => exact hes.grows.trans (hc.grows.trans ih)
  | havocNew hx => exact grows_insert_new hx

/-- Only the types of quantifiers change. -/
theorem untyped (h : Elaborates s env s' env') : s'.untyped = s.untyped := by
  induction h with
  | skip | havocNew | havocKnown => rfl
  | assignNew he | assume he | assert he => simp only [Stmt.untyped, he.untyped]
  | assignKnown he _ _ hvalue => simp only [Stmt.untyped, hvalue.untyped.trans he.untyped]
  | seq _ _ ihs iht => simp only [Stmt.untyped, ihs, iht]
  | branch hc _ _ ihs iht => simp only [Stmt.untyped, hc.untyped, ihs, iht]
  | loop hes hc _ ih => simp only [Stmt.untyped, hes.untyped, hc.untyped, ih]

/-- If the variables had settled types at the start, the assignments fit them. -/
theorem assignsFit (h : Elaborates s env s' env') (hG : Keeps G env)
    (hread : G.Settles s.freeVars) (hwritten : G.Settles s.writtenVars) : s.AssignsFit G := by
  induction h with
  | skip | assume | assert | havocNew | havocKnown => trivial
  | @assignNew x _ _ _ _ _ he hx =>
    obtain ⟨ty, hty, hconcrete⟩ := hwritten x (by simp [writtenVars, addWritten, addName])
    simp [he.grows.keeps _ ty (hG _ ty hty hconcrete) hconcrete] at hx
  | @assignKnown x _ _ _ _ _ _ _ _ he hx hfits _ =>
    obtain ⟨ty, hty, hconcrete⟩ := hwritten x (by simp [writtenVars, addWritten, addName])
    have htyped := he.accepts.hasType (TypeEnv.Settles.agrees hread hG)
    obtain rfl := Option.some.inj
      (hx.symm.trans (he.grows.keeps _ ty (hG _ ty hty hconcrete) hconcrete))
    exact ⟨_, hty, Ty.eq_of_compatible hconcrete htyped.isConcrete hfits ▸ htyped⟩
  | seq hs _ ihs iht =>
    rw [freeVars, TypeEnv.settles_append] at hread
    exact ⟨ihs hG hread.1 fun x hx => hwritten x (mem_writtenVars_seq.mpr (.inl hx)),
      iht (hG.trans hs.grows.keeps) hread.2 fun x hx =>
        hwritten x (mem_writtenVars_seq.mpr (.inr hx))⟩
  | branch hc hs _ ihs iht =>
    simp only [freeVars, TypeEnv.settles_append] at hread
    have hG := hG.trans hc.grows.keeps
    exact ⟨ihs hG hread.1.2 fun x hx => hwritten x (mem_writtenVars_branch.mpr (.inl hx)),
      iht (hG.trans hs.grows.keeps) hread.2 fun x hx =>
        hwritten x (mem_writtenVars_branch.mpr (.inr hx))⟩
  | loop hes hc _ ih =>
    simp only [freeVars, TypeEnv.settles_append] at hread
    exact ih (hG.trans (hes.grows.keeps.trans hc.grows.keeps)) hread.2 hwritten

end Elaborates

end Stmt

/-! ## Functions -/

namespace Contracted

variable {f f' : Contracted} {env env' : TypeEnv}

/-- The function without the types of its quantifiers. -/
def untyped (f : Contracted) : Contracted :=
  ⟨Expr.untypedAll f.requires, f.body.untyped, Expr.untypedAll f.ensures⟩

/-- One pass over a function. -/
inductive Elaborates (c : Contracted) (env : TypeEnv) (c' : Contracted) (env' : TypeEnv) : Prop
  | intro (mid mid' : TypeEnv) (hrequires : Expr.ElaboratesAll c.requires env c'.requires mid)
      (hbody : c.body.Elaborates mid c'.body mid')
      (hensures : Expr.ElaboratesAll c.ensures mid' c'.ensures env')

/-- One pass over a function follows the rules. -/
theorem checkOnce_elaborates {c c' : Contracted} {env env' : TypeEnv}
    (h : Gives c.checkOnce env c' env') : c.Elaborates env c' env' := by
  simp only [checkOnce, gives_bind, gives_pure] at h
  obtain ⟨requires, mid, hrequires, body, mid', hbody, ensures, _, hensures, rfl, rfl⟩ := h
  exact .intro mid mid' (Expr.checkAll_elaborates hrequires) (Stmt.check_elaborates hbody)
    (Expr.checkAll_elaborates hensures)

theorem Elaborates.untyped (h : f.Elaborates env f' env') : f'.untyped = f.untyped := by
  obtain ⟨mid, mid', hrequires, hbody, hensures⟩ := h
  simp only [Contracted.untyped, hrequires.untyped, hbody.untyped, hensures.untyped]

/-- The passes change only the types of quantifiers. -/
theorem untyped_checkPasses {passes : Nat} (h : Gives (checkPasses passes f) env f' env') :
    f'.untyped = f.untyped := by
  induction passes generalizing f env with
  | zero =>
    obtain ⟨rfl, -⟩ := gives_pure.mp h
    rfl
  | succ passes ih =>
    simp only [checkPasses, gives_bind, gives_get] at h
    obtain ⟨_, _, ⟨rfl, rfl⟩, f₁, mid, hfirst, _, _, ⟨rfl, rfl⟩, h⟩ := h
    have huntyped := (checkOnce_elaborates hfirst).untyped
    split_ifs at h
    · rwa [← (gives_pure.mp h).1]
    · rw [ih h, huntyped]

/-- A function that is accepted comes back but for the types of its quantifiers, and its assignments
give the variables values of their types. -/
theorem check_accepts (h : Gives f.check env f' env') :
    f'.untyped = f.untyped ∧
      (env.Settles f.body.freeVars → env.Settles f.body.writtenVars → f.body.AssignsFit env) := by
  refine ⟨untyped_checkPasses h, ?_⟩
  simp only [check, maxPasses, checkPasses, gives_bind, gives_get] at h
  obtain ⟨_, _, ⟨rfl, rfl⟩, f₁, _, hfirst, -⟩ := h
  obtain ⟨mid, mid', hrequires, hbody, -⟩ := checkOnce_elaborates hfirst
  exact hbody.assignsFit hrequires.grows.keeps

end Contracted

end Precond
