import Mathlib.Tactic
import Precond.Proofs.Lowering
import Precond.Proofs.PreconditionForm

/-!
# Functions on their way to the solver

A function is read, checked and turned into obligations. `Host.Subject.read` reads the contract and
the body, with one supply for all names; what it gives could come from a text, and the variables of
all its quantifiers are different (`Host.Subject.Written.made_read`). Checking keeps this and makes
all variables known (`Host.Subject.Written.checked_typed`).

`Obliges` collects what is known of the formula of an obligation. Where one more pass over the
function would change nothing (`Host.Subject.settles`), the formula is a truth value as well
(`Host.Subject.Written.obliges_of_prepare`).
-/

namespace Precond

open Checking

/-! ## Functions with contracts -/

/-- The types of all variables are settled. -/
def TypeEnv.AllSettled (env : TypeEnv) : Prop :=
  ∀ x ty, env.get? x = some ty → ty.isConcrete = true

theorem TypeEnv.AllSettled.settles {env : TypeEnv} (h : env.AllSettled) {xs : List String}
    (hxs : ∀ x ∈ xs, env.contains x = true) : env.Settles xs := by
  intro x hx
  obtain ⟨ty, hty⟩ := Option.isSome_iff_exists.1 (hxs x hx)
  exact ⟨ty, hty, h x ty hty⟩

theorem Stmt.binders_untyped (s : Stmt) : s.untyped.binders = s.binders := by
  induction s with
  | skip | havoc => rfl
  | assign _ e | assume e | assert e => exact e.binders_untyped
  | seq s t ihs iht => simp only [untyped, binders, ihs, iht]
  | branch c s t ihs iht => simp only [untyped, binders, c.binders_untyped, ihs, iht]
  | loop es c s ih =>
    simp only [untyped, binders, Expr.bindersAll_untypedAll, c.binders_untyped, ih]

namespace Contracted

/-- The variables of all quantifiers of a function. -/
def binders (c : Contracted) : List String :=
  Expr.bindersAll c.requires ++ Expr.bindersAll c.ensures ++ c.body.binders

/-- The variables that a function reads, assigns or havocs. -/
def programVars (c : Contracted) : List String :=
  Expr.freeVarsAll c.requires ++ Expr.freeVarsAll c.ensures ++ c.body.freeVars ++
    c.body.writtenVars

theorem binders_untyped (c : Contracted) : c.untyped.binders = c.binders := by
  simp only [untyped, binders, Expr.bindersAll_untypedAll, c.body.binders_untyped]

/-- Variables that are written in a text have no dollar sign. -/
theorem Written.plain_programVars {c : Contracted} (h : c.Written) :
    ∀ x ∈ c.programVars, Name.Plain x := by
  have hclauses : ∀ es : List Expr, (∀ e ∈ es, e.Written false) →
      ∀ x ∈ Expr.freeVarsAll es, Name.Plain x := by
    intro es hes x hx
    obtain ⟨e, he, hx⟩ := Expr.mem_freeVarsAll.1 hx
    exact (hes e he).plain x hx
  exact List.forall_mem_append.2 ⟨List.forall_mem_append.2 ⟨List.forall_mem_append.2
    ⟨hclauses _ h.requires, hclauses _ h.ensures⟩, h.body.plain_freeVars⟩,
    h.body.plain_writtenVars⟩

/-- The function could come from a text, and the variables of its quantifiers were drawn from the
supply meanwhile. -/
structure Made (supply supply' : Supply) (c : Contracted) : Prop where
  written : c.Written
  renews : Renews [] supply.used supply'.used c.binders

/-- The function was checked: it could come from a text, its variables are known, and the types of
its quantifiers are settled. -/
structure Checked (env : TypeEnv) (c : Contracted) : Prop where
  written : c.Written
  ofValues : env.OfValues
  contains_clauses : ∀ e ∈ c.requires ++ c.ensures, ∀ x ∈ e.freeVars, env.contains x = true
  contains_body : ∀ x ∈ c.body.freeVars ++ c.body.havocked, env.contains x = true
  annotated_clauses : ∀ e ∈ c.requires ++ c.ensures, e.annotated = true
  annotated_body : c.body.annotated = true

/-- A function that passes the check is checked, and its types are types of values. -/
theorem checked_of_check {c c' : Contracted} {env env' : TypeEnv} (hc : c.Written)
    (henv : env.OfValues) (h : Gives c.check env c' env') : c'.Checked env' := by
  obtain ⟨c₁, env₁, ⟨hc₁, henv₁⟩, hlast⟩ :=
    exists_lastPass (P := fun c env => c.Written ∧ env.OfValues) ⟨hc, henv⟩
      (fun hP hpass => hpass.written hP.1 hP.2) h
  obtain ⟨hwritten, hvalues⟩ := hlast.written hc₁ henv₁
  exact ⟨hwritten, hvalues, hlast.contains.1, hlast.contains.2, hlast.annotated.1,
    hlast.annotated.2⟩

end Contracted

/-! ## Reading and checking -/

namespace Host.Subject

variable {f : Subject} {accepted : List String} {c c' : Contracted} {env : TypeEnv}
  {supply supply' : Supply}

/-- The contract and the body of a function, whether or not it has the type of its result. -/
def read (f : Subject) (accepted : List String) : Naming Contracted := do
  let requires ← parseClauses f.requires
  let ensures ← parseClauses f.ensures
  let body ← Stmt.lowerBody accepted f.body
  return ⟨requires, body, ensures⟩

/-- What is read with the type of the result is read without it. -/
theorem read_of_contracted (h : (f.contracted accepted).run.run supply = (.ok c, supply')) :
    (f.read accepted).run.run supply = (.ok c, supply') := by
  unfold contracted at h
  split_ifs at h
  · cases h
  · exact h

/-- The variables of all quantifiers that are read were drawn, and are different. -/
theorem Written.made_read (hf : f.Written)
    (h : (f.read accepted).run.run supply = (.ok c, supply')) : c.Made supply supply' := by
  obtain ⟨requires, s₁, hrequires, h⟩ := Naming.exists_of_run_bind h
  obtain ⟨ensures, s₂, hensures, h⟩ := Naming.exists_of_run_bind h
  obtain ⟨body, s₃, hbody, h⟩ := Naming.exists_of_run_bind h
  cases h
  have hrequires := allMade_parseClauses hrequires
  have hensures := allMade_parseClauses hensures
  have hbody := Stmt.made_lowerBody hf.body hbody
  exact ⟨⟨hrequires.written, hbody.written, hensures.written⟩,
    (hrequires.renews.append_drawn hensures.renews hrequires.used_le
      hensures.used_le).append_drawn hbody.renews (hrequires.used_le.trans hensures.used_le)
      hbody.used_le⟩

theorem gives_adapt {α : Type} {check : Checking α} {change : Error → Error} {env env' : TypeEnv}
    {a : α} : Gives (ExceptT.adapt change check) env a env' ↔ Gives check env a env' := by
  change ((check.run.run env).1.mapError change, (check.run.run env).2) = _ ↔
    check.run.run env = _
  rcases check.run.run env with ⟨_ | _, _⟩ <;> constructor <;> rintro ⟨⟩
  all_goals rfl

/-- Declaring parameters that have types of values keeps the types of all variables such. -/
theorem ofValues_declareParams {params : List (String × Option Ty)} {env env' : TypeEnv} {u : Unit}
    (hparams : ∀ p ∈ params, ∀ t, p.2 = some t → t.ofValues = true) (henv : env.OfValues)
    (h : Gives (declareParams params) env u env') : env'.OfValues := by
  induction params generalizing env with
  | nil =>
    obtain ⟨-, rfl⟩ := gives_pure.1 h
    exact henv
  | cons p params ih =>
    rw [List.forall_mem_cons] at hparams
    obtain ⟨_, mid, hp, h⟩ := gives_bind.1 h
    refine ih hparams.2 ?_ h
    have hty : (p.2.getD .unknown).ofValues = true := by
      cases hp2 : p.2 with
      | none => rfl
      | some t => exact hparams.1 t hp2
    obtain rfl := gives_modify.1 hp
    cases hx : env.get? p.1 with
    | none => simpa [hx] using henv.insert hty
    | some current => simpa [hx] using henv.insert (Ty.ofValues_refine (henv _ _ hx) hty)

/-- Checking keeps the names and makes all variables known. -/
theorem Written.checked_typed (hf : f.Written) (hc : c.Written)
    (h : f.typed c = .ok (c', env)) : c'.Checked env ∧ c'.binders = c.binders := by
  simp only [typed] at h
  split at h
  · next c₁ env₁ hrun =>
    cases h
    obtain ⟨_, mid, hparams, hcheck⟩ := gives_bind.1 hrun
    have hmid := ofValues_declareParams (fun p hp => (hf.params p hp).2) (by
      intro x ty hx
      cases hx) hparams
    have hcheck := gives_adapt.1 hcheck
    refine ⟨Contracted.checked_of_check hc hmid hcheck, ?_⟩
    rw [← Contracted.binders_untyped, Contracted.untyped_checkPasses hcheck,
      Contracted.binders_untyped]
  · cases h

/-- Whether one more pass over the checked function would accept it and change no type. -/
def settles (f : Subject) (accepted : List String) : Bool :=
  match ((f.contracted accepted).run.run {}).1 with
  | .ok c =>
    match f.typed c with
    | .ok (c, env) => c.settled env
    | .error _ => false
  | .error _ => false

/-- What `settles` says, of the function that was read and checked. -/
theorem settled_of_settles (h : f.settles accepted = true)
    (hcontracted : (f.contracted accepted).run.run {} = (.ok c, supply))
    (htyped : f.typed c = .ok (c', env)) : c'.settled env = true := by
  simpa [settles, hcontracted, htyped] using h

end Host.Subject

/-! ## Obligations -/

/-- What is known of the formula of an obligation. -/
structure Obliges (env : TypeEnv) (e : Expr) : Prop where
  contains : ∀ x ∈ e.freeVars, env.contains x = true
  plain : ∀ x ∈ e.freeVars, Name.Plain x
  wellFormed : e.WellFormed false
  annotated : env.AllSettled → e.annotated = true

namespace Contracted

variable {env : TypeEnv} {c c' : Contracted} {supply supply' : Supply} {pre : Expr}

/-- The function has plain variables, and its quantifiers have drawn ones. -/
structure Named (supply : Supply) (c : Contracted) : Prop where
  requires : (Expr.conjoin c.requires).Named supply
  body : c.body.Named supply
  ensures : (Expr.conjoin c.ensures).Named supply

theorem Written.named (hc : c.Written) (h : ∀ y ∈ c.binders, Name.Drawn 0 supply.used y) :
    c.Named supply := by
  simp only [binders, List.forall_mem_append, ← Expr.binders_conjoin] at h
  exact ⟨⟨(Expr.Written.conjoin hc.requires).plain, h.1.1⟩, ⟨hc.body, h.2⟩,
    ⟨(Expr.Written.conjoin hc.ensures).plain, h.1.2⟩⟩

theorem contains_conjoin {es : List Expr}
    (h : ∀ e ∈ es, ∀ x ∈ e.freeVars, env.contains x = true) :
    ∀ x ∈ (Expr.conjoin es).freeVars, env.contains x = true := by
  intro x hx
  obtain ⟨e, he, hx⟩ := Expr.mem_freeVarsAll.1 (Expr.mem_freeVars_conjoin.1 hx)
  exact h e he x hx

/-- The obligation of a function is a formula over its variables. -/
theorem Checked.obliges (hc : c.Checked env) (hnamed : c.Named supply)
    (hpre : c.body.HasPre env (.conjoin c.ensures) supply pre supply') :
    Obliges env (.implies (.conjoin c.requires) pre) := by
  have hclauses := List.forall_mem_append.1 hc.contains_clauses
  have hbody := List.forall_mem_append.1 hc.contains_body
  have hannotated := List.forall_mem_append.1 hc.annotated_clauses
  refine ⟨List.forall_mem_append.2 ⟨contains_conjoin hclauses.1, fun x hx => ?_⟩,
    List.forall_mem_append.2 ⟨hnamed.requires.plain,
      (hpre.named hnamed.body hnamed.ensures).plain⟩, .binary rfl ?_ ?_, fun henv => ?_⟩
  · exact (hpre.freeVars x hx).elim (hbody.1 x) (contains_conjoin hclauses.2 x)
  · exact .conjoin fun e he => (hc.written.requires e he).wellFormed
  · exact hpre.wellFormed hc.ofValues hc.written.body
      (.conjoin fun e he => (hc.written.ensures e he).wellFormed)
  · have hensures := Expr.annotated_conjoin hannotated.2
    have hpre' := hpre.annotated (henv.settles hbody.2) hc.annotated_body hensures
    simp [Expr.implies, Expr.annotated, Expr.annotated_conjoin hannotated.1, hpre']

/-- The obligation is a truth value where it is ready, if one more pass would change nothing. -/
theorem isCondition_of_settled (hsettled : c.settled env = true) (hnamed : c.Named supply)
    (hpre : c.body.HasPre env (.conjoin c.ensures) supply pre supply') :
    (Expr.implies (.conjoin c.requires) pre).IsCondition env := by
  obtain ⟨c', hpass⟩ := exists_of_settled hsettled
  obtain ⟨hclauses, hbody⟩ := hpass.typed
  rw [List.forall_mem_append] at hclauses
  have hrequires := Expr.isCondition_conjoin hclauses.1
  have hpre' := hpre.isCondition hbody hnamed.body hnamed.ensures
    (Expr.isCondition_conjoin hclauses.2)
  intro hready
  obtain ⟨hl, hr⟩ := Expr.ready_binary.1 hready
  exact (hrequires hl).implies (hpre' hr)

/-- The quantifiers of the obligation are those of the function or were drawn for it. -/
theorem Named.binders_of_hasPre (hnamed : c.Named supply)
    (hpre : c.body.HasPre env (.conjoin c.ensures) supply pre supply') :
    ∀ y ∈ (Expr.implies (.conjoin c.requires) pre).binders,
      y ∈ c.binders ∨ Name.Drawn supply.used supply'.used y := by
  refine List.forall_mem_append.2 ⟨fun y hy => Or.inl ?_, fun y hy => ?_⟩
  · rw [Expr.binders_conjoin] at hy
    simp [binders, hy]
  · refine (hpre.binders hnamed.body hnamed.ensures y hy).imp_left fun hy => ?_
    rw [Expr.binders_conjoin] at hy
    simpa [binders, or_comm, or_left_comm] using Or.inr hy

end Contracted

namespace Host.Subject

variable {f : Subject} {accepted : List String} {p : Prepared}

/-- A function that is ready for the solver has one obligation, which is known. -/
theorem Written.obliges_of_prepare (hf : f.Written) (h : f.prepare accepted = .ok p) :
    p.env.OfValues ∧ ∀ o ∈ p.obligations, Obliges p.env o.formula ∧
      (f.settles accepted = true → o.formula.IsCondition p.env) := by
  rcases hrun : (f.prepareWith accepted).run.run {} with ⟨r, supply'⟩
  obtain rfl : r = .ok p := by
    have hfst : ((f.prepareWith accepted).run.run {}).1 = .ok p := h
    rwa [hrun] at hfst
  obtain ⟨c₀, supply, hcontracted, hrun⟩ := Naming.exists_of_run_bind hrun
  obtain ⟨⟨c, env⟩, mid, hofExcept, hrun⟩ := Naming.exists_of_run_bind hrun
  obtain ⟨htyped, rfl⟩ := Naming.run_ofExcept_eq_ok.1 hofExcept
  obtain ⟨os, _, hos, hrun⟩ := Naming.exists_of_run_bind hrun
  cases hrun
  obtain ⟨pre, hpre, rfl⟩ := exists_of_run_obligations hos
  have hmade := hf.made_read (read_of_contracted hcontracted)
  obtain ⟨hchecked, hbinders⟩ := hf.checked_typed hmade.written htyped
  have hnamed : c.Named supply := hchecked.written.named (hbinders ▸ hmade.renews.drawn)
  refine ⟨hchecked.ofValues, List.forall_mem_singleton.2 ⟨hchecked.obliges hnamed hpre, ?_⟩⟩
  intro hsettles
  exact Contracted.isCondition_of_settled (settled_of_settles hsettles hcontracted htyped)
    hnamed hpre

end Host.Subject

/-! ## Given programs -/

namespace Host.Module

/-- The module of a text that is given by its characters. -/
def ofChars (text : List Char) (defaultScope : String) : Except Error Module := do
  Module.ofItems defaultScope (← itemsOfTokens (← Grammar.tokenizeLayout text))

/-- A text is loaded by its characters. -/
theorem load_ofList (text : List Char) (defaultScope : String) :
    Module.load (String.ofList text) defaultScope = ofChars text defaultScope := by
  rw [Module.load, parseItems, String.toList_ofList, bind_assoc]
  rfl

/-- Whether a module was read and has a function that satisfies `p`. -/
def hasSubject (m : Except Error Module) (p : Subject → Bool) : Bool :=
  match m with
  | .ok m => m.scopes.any fun s => s.subjects.any p
  | .error _ => false

/-- A program that has such a function was loaded. -/
theorem exists_of_hasSubject {r : Except Error Module} {p : Subject → Bool}
    (h : hasSubject r p = true) :
    ∃ m, r = .ok m ∧ ∃ s ∈ m.scopes, ∃ f ∈ s.subjects, p f = true := by
  cases r with
  | error e => cases h
  | ok m =>
    obtain ⟨s, hs, h⟩ := List.any_eq_true.1 h
    obtain ⟨f, hf, h⟩ := List.any_eq_true.1 h
    exact ⟨m, rfl, s, hs, f, hf, h⟩

/-- Two loops, one in the other, with the same invariant, which is also the postcondition. -/
def clearing : String :=
  "@verify(ensures=['forall k :: k < i ==> xs[k] == 0'])\ndef clear(xs: List[int], n: int) -> int:\n  i = 0\n  while i < n:\n   invariant('forall k :: k < i ==> xs[k] == 0')\n   while xs[i] > 0:\n    invariant('forall k :: k < i ==> xs[k] == 0')\n    xs[i] = xs[i] - 1\n   i = i + 1\n  return i\n"

end Host.Module

end Precond
