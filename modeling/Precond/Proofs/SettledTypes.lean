import Mathlib.Tactic
import Precond.Proofs.FunctionElaboration

/-!
# Checking a function again

A pass of the type checker gives every quantifier a settled type, and a pass over a function whose
quantifiers have settled types gives the function back (`Contracted.Elaborates.eq_of_annotated`). So
what comes out of checking is not annotated in another way when it is checked again, and a pass that
changes no type of a variable can be repeated, unless it was the first one.

Checking ends with a pass that changes no type of a variable, or after as many passes as it makes at
most (`Contracted.gives_checkPasses`). Hence there are two ways in which checking a function again
can come to something else: the last pass still changed a type, or the first one changed none but
gave a quantifier its type (`Contracted.check_again`). Both happen (`Contracted.not_settled`).
-/

namespace Precond

open Checking

/-! ## Results -/

/-- The result and the environment that a computation comes to, unless it fails. -/
def Checking.result? {α : Type} (c : Checking α) (env : TypeEnv) : Option (α × TypeEnv) :=
  match c.run.run env with
  | (.ok a, env') => some (a, env')
  | (.error _, _) => none

theorem Checking.result?_eq_some {α : Type} {c : Checking α} {env env' : TypeEnv} {a : α} :
    c.result? env = some (a, env') ↔ Gives c env a env' := by
  unfold result? Gives
  rcases c.run.run env with ⟨_ | _, _⟩ <;> constructor <;> rintro ⟨⟩ <;> rfl

/-! ## Passes over annotated functions -/

namespace Expr.ElaboratesAll

variable {es es' : List Expr} {env env' : TypeEnv}

/-- Conditions whose quantifiers have settled types do not change. -/
theorem eq_of_annotated (h : ElaboratesAll es env es' env')
    (hes : ∀ e ∈ es, e.annotated = true) : es' = es := by
  induction h with
  | nil => rfl
  | cons he _ ih =>
    rw [List.forall_mem_cons] at hes
    rw [he.eq_of_annotated hes.1, ih hes.2]

end Expr.ElaboratesAll

namespace Stmt.Elaborates

variable {s s' : Stmt} {env env' : TypeEnv}

/-- A statement whose quantifiers have settled types comes back as it was. -/
theorem eq_of_annotated (h : Elaborates s env s' env') (hs : s.annotated = true) : s' = s := by
  induction h with
  | skip | havocNew | havocKnown => rfl
  | assignNew he => rw [he.eq_of_annotated hs]
  | assignKnown he _ _ hvalue =>
    obtain rfl := he.eq_of_annotated hs
    rw [hvalue.eq_of_annotated hs]
  | assume he | assert he => rw [he.eq_of_annotated hs]
  | seq _ _ ihs iht =>
    simp only [Stmt.annotated, Bool.and_eq_true] at hs
    rw [ihs hs.1, iht hs.2]
  | branch hc _ _ ihs iht =>
    simp only [Stmt.annotated, Bool.and_eq_true] at hs
    rw [hc.eq_of_annotated hs.1.1, ihs hs.1.2, iht hs.2]
  | loop hes hc _ ih =>
    simp only [Stmt.annotated, Bool.and_eq_true, Expr.annotatedAll_eq_true] at hs
    rw [hes.eq_of_annotated hs.1.1, hc.eq_of_annotated hs.1.2, ih hs.2]

end Stmt.Elaborates

namespace Contracted

/-- Every quantifier in a function has a settled type. -/
structure Annotated (f : Contracted) : Prop where
  conditions : ∀ e ∈ f.requires ++ f.ensures, e.annotated = true
  body : f.body.annotated = true

/-- The passes lead from one function and environment to another, and each of them changes the type
of a variable. -/
inductive Changing : Nat → Contracted → TypeEnv → Contracted → TypeEnv → Prop
  | nil {f env} : Changing 0 f env f env
  | pass {passes f env f₁ env₁ f' env'} (hpass : Gives f.checkOnce env f₁ env₁)
      (hchange : env₁ ≠ env) (hrest : Changing passes f₁ env₁ f' env') :
      Changing (passes + 1) f env f' env'

variable {f f' : Contracted} {env env' : TypeEnv} {passes : Nat}

theorem Elaborates.grows (h : f.Elaborates env f' env') : Grows env env' := by
  obtain ⟨mid, mid', hrequires, hbody, hensures⟩ := h
  exact hrequires.grows.trans (hbody.grows.trans hensures.grows)

/-- A function whose quantifiers have settled types does not change in a pass. -/
theorem Elaborates.eq_of_annotated (h : f.Elaborates env f' env') (hf : f.Annotated) : f' = f := by
  obtain ⟨mid, mid', hrequires, hbody, hensures⟩ := h
  obtain ⟨hconditions, hbody'⟩ := hf
  rw [List.forall_mem_append] at hconditions
  cases f
  cases f'
  simp only [mk.injEq]
  exact ⟨hrequires.eq_of_annotated hconditions.1, hbody.eq_of_annotated hbody',
    hensures.eq_of_annotated hconditions.2⟩

/-- After a pass, the quantifiers have settled types. -/
theorem annotated_of_checkOnce (h : Gives f.checkOnce env f' env') : f'.Annotated := by
  obtain ⟨hconditions, hbody⟩ := (checkOnce_elaborates h).annotated
  exact ⟨hconditions, hbody⟩

/-! ## Runs of passes -/

/-- One more pass over a function: it is the last one if it changed no type. -/
theorem gives_checkPasses_succ : Gives (checkPasses (passes + 1) f) env f' env' ↔
    ∃ f₁ env₁, Gives f.checkOnce env f₁ env₁ ∧
      ((env₁ = env ∧ f₁ = f' ∧ env₁ = env') ∨
        (env₁ ≠ env ∧ Gives (checkPasses passes f₁) env₁ f' env')) := by
  rw [checkPasses]
  simp only [gives_bind, gives_get]
  constructor
  · rintro ⟨_, _, ⟨rfl, rfl⟩, f₁, env₁, hpass, _, _, ⟨rfl, rfl⟩, h⟩
    refine ⟨f₁, env₁, hpass, ?_⟩
    split_ifs at h with hquiet
    · exact Or.inl ⟨hquiet, gives_pure.1 h⟩
    · exact Or.inr ⟨hquiet, h⟩
  · rintro ⟨f₁, env₁, hpass, h⟩
    refine ⟨env, env, ⟨rfl, rfl⟩, f₁, env₁, hpass, env₁, env₁, ⟨rfl, rfl⟩, ?_⟩
    split_ifs with hquiet
    · rcases h with ⟨-, hf, henv⟩ | ⟨hchange, -⟩
      · exact gives_pure.2 ⟨hf, henv⟩
      · exact absurd hquiet hchange
    · rcases h with ⟨hquiet', -⟩ | ⟨-, h⟩
      · exact absurd hquiet' hquiet
      · exact h

/-- Checking makes passes that change types, up to one that changes none or to the last one that it
may make. -/
theorem gives_checkPasses : Gives (checkPasses passes f) env f' env' ↔
    Changing passes f env f' env' ∨
      ∃ before < passes, ∃ f₁, Changing before f env f₁ env' ∧ Gives f₁.checkOnce env' f' env' := by
  induction passes generalizing f env with
  | zero =>
    rw [checkPasses, gives_pure]
    constructor
    · rintro ⟨rfl, rfl⟩
      exact Or.inl .nil
    · rintro (h | ⟨_, hlt, -⟩)
      · cases h
        exact ⟨rfl, rfl⟩
      · omega
  | succ passes ih =>
    rw [gives_checkPasses_succ]
    constructor
    · rintro ⟨f₁, env₁, hpass, ⟨rfl, rfl, rfl⟩ | ⟨hchange, h⟩⟩
      · exact Or.inr ⟨0, by omega, f, .nil, hpass⟩
      · rcases ih.1 h with h | ⟨before, hlt, f₂, h, hquiet⟩
        · exact Or.inl (.pass hpass hchange h)
        · exact Or.inr ⟨before + 1, by omega, f₂, .pass hpass hchange h, hquiet⟩
    · rintro (h | ⟨before, hlt, f₂, h, hquiet⟩)
      · cases h with
        | pass hpass hchange h => exact ⟨_, _, hpass, Or.inr ⟨hchange, ih.2 (Or.inl h)⟩⟩
      · cases h with
        | nil => exact ⟨f', env', hquiet, Or.inl ⟨rfl, rfl, rfl⟩⟩
        | pass hpass hchange h =>
          exact ⟨_, _, hpass, Or.inr ⟨hchange, ih.2 (Or.inr ⟨_, by omega, f₂, h, hquiet⟩)⟩⟩

theorem Changing.annotated (h : Changing (passes + 1) f env f' env') : f'.Annotated := by
  induction passes generalizing f env with
  | zero =>
    cases h with
    | pass hpass _ hrest =>
      cases hrest
      exact annotated_of_checkOnce hpass
  | succ passes ih =>
    cases h with
    | pass _ _ h => exact ih h

/-- What comes out of checking has settled types at its quantifiers. -/
theorem annotated_of_check (h : Gives f.check env f' env') : f'.Annotated := by
  rcases gives_checkPasses.1 h with h | ⟨_, _, f₁, -, hquiet⟩
  · exact h.annotated
  · exact annotated_of_checkOnce hquiet

/-- Passes over a function whose quantifiers have settled types give the function back, and make the
types of variables more precise. -/
theorem Annotated.of_checkPasses (hf : f.Annotated)
    (h : Gives (checkPasses passes f) env f' env') : f' = f ∧ Grows env env' := by
  induction passes generalizing env with
  | zero =>
    obtain ⟨rfl, rfl⟩ := gives_pure.1 h
    exact ⟨rfl, .refl _⟩
  | succ passes ih =>
    obtain ⟨f₁, env₁, hpass, hrest⟩ := gives_checkPasses_succ.1 h
    have hpass := checkOnce_elaborates hpass
    obtain rfl := hpass.eq_of_annotated hf
    rcases hrest with ⟨-, rfl, rfl⟩ | ⟨-, hrest⟩
    · exact ⟨rfl, hpass.grows⟩
    · exact ⟨(ih hrest).1, hpass.grows.trans (ih hrest).2⟩

/-- A pass that changes nothing is all that checking does. -/
theorem check_of_checkOnce (h : Gives f.checkOnce env f env) : Gives f.check env f env :=
  gives_checkPasses_succ.2 ⟨f, env, h, Or.inl ⟨rfl, rfl, rfl⟩⟩

/-- Whatever checking has accepted comes back with the same types of its quantifiers when it is
checked again and accepted, and no variable is lost or gets another settled type. Checking it again
changes nothing, but for two cases: every pass changed the type of a variable, or the first pass
changed none but gave a quantifier its type. -/
theorem check_again (h : Gives f.check env f' env') :
    (∀ f'' env'', Gives f'.check env' f'' env'' → f'' = f' ∧ Grows env' env'') ∧
      (Gives f'.check env' f' env' ∨ Changing maxPasses f env f' env' ∨
        (Gives f.checkOnce env f' env' ∧ env' = env ∧ f' ≠ f)) := by
  refine ⟨fun f'' env'' => (annotated_of_check h).of_checkPasses, ?_⟩
  rcases gives_checkPasses.1 h with h | ⟨_ | before, -, f₁, hbefore, hquiet⟩
  · exact Or.inr (Or.inl h)
  · obtain ⟨⟩ := hbefore
    by_cases hf : f' = f
    · subst hf
      exact Or.inl (check_of_checkOnce hquiet)
    · exact Or.inr (Or.inr ⟨hquiet, rfl, hf⟩)
  · obtain rfl := (checkOnce_elaborates hquiet).eq_of_annotated hbefore.annotated
    exact Or.inl (check_of_checkOnce hquiet)

/-- A function whose types take three passes to settle, with the type that is written at its
quantifier. -/
def copied (ty : Option Ty) : Contracted where
  requires := [.forAll "k" ty (.binary .ge (.subscript (.var "xs") (.var "k")) (.int 0))]
  body := .assign "y" (.var "x")
  ensures := [.binary .gt (.var "y") (.int 0)]

/-- Here the last pass changes nothing, so that checking again changes nothing either. -/
theorem check_again_copied :
    let start := .ofList [("x", .unknown), ("xs", .unknown)]
    let env := .ofList [("x", .int), ("xs", .array .int), ("y", .int)]
    Gives (copied none).check start (copied (some .int)) env ∧ env ≠ start ∧
      Gives (copied (some .int)).check env (copied (some .int)) env ∧
      ∀ f' env', Gives (copied (some .int)).check env f' env' →
        f' = copied (some .int) ∧ Grows env env' := by
  have h : Gives (copied none).check (.ofList [("x", .unknown), ("xs", .unknown)])
      (copied (some .int)) (.ofList [("x", .int), ("xs", .array .int), ("y", .int)]) := by
    rw [← result?_eq_some]
    decide +kernel
  refine ⟨h, by decide, ?_, (check_again h).1⟩
  rw [← result?_eq_some]
  decide +kernel

/-- A chain of assignments that is too long for the type of its end to reach its beginning. -/
def relay : Contracted where
  requires := []
  body := .sequence [.assign "a" (.var "b"), .assign "b" (.var "c"), .assign "c" (.var "d"),
    .assign "d" (.var "e")]
  ensures := [.binary .gt (.var "e") (.int 0)]

/-- The variables of the chain, of which nothing is known. -/
def relayEnv : TypeEnv := .ofList (["a", "b", "c", "d", "e"].map fun x => (x, .unknown))

/-- A quantifier whose variable turns out to be a list of numbers after the length of an element of
its elements was taken; with the type that is written at the quantifier. -/
def deepQuantifier (ty : Option Ty) : Contracted where
  requires := []
  body := .skip
  ensures := [.forAll "k" ty (.and
    (.binary .ge (.call "len" [.subscript (.subscript (.call "store"
      [.var "k", .int 0, .subscript (.var "k") (.int 0)]) (.int 0)) (.int 0)]) (.int 0))
    (.binary .eq (.subscript (.var "k") (.int 0)) (.int 1)))]

/-- Checking may stop too early. The chain is accepted, and checking it again changes the type of
its first variable; the quantifier is accepted and gets a type with which it is not accepted. -/
theorem not_settled :
    (∃ env env', Gives relay.check relayEnv relay env ∧ Gives relay.check env relay env' ∧
      env' ≠ env) ∧
    ∃ f, Gives (deepQuantifier none).check .empty f .empty ∧
      ∀ f' env', ¬Gives f.check .empty f' env' := by
  constructor
  · refine ⟨.ofList [("a", .unknown), ("b", .int), ("c", .int), ("d", .int), ("e", .int)],
      .ofList [("a", .int), ("b", .int), ("c", .int), ("d", .int), ("e", .int)], ?_, ?_, by decide⟩
    · rw [← result?_eq_some]
      decide +kernel
    · rw [← result?_eq_some]
      decide +kernel
  · refine ⟨deepQuantifier (some (.array .int)), ?_, fun f' env' hsecond => ?_⟩
    · rw [← result?_eq_some]
      decide +kernel
    · have hrefused : (deepQuantifier (some (.array .int))).check.result? .empty = none := by
        decide +kernel
      rw [result?_eq_some.2 hsecond] at hrefused
      cases hrefused

end Contracted

end Precond
