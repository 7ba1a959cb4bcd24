import Mathlib.Tactic
import Precond.Proofs.SolverTypes

/-!
# What type checking of functions keeps

As for expressions, what a pass over a function keeps is shown by induction on the rules: the
variables that a statement reads or havocs are known in the end, quantifiers have settled types, and
a written statement stays one.

A pass that changes no type shows more: every condition and every assigned value is typed where it
is ready, a value with the type of its variable (`Stmt.Elaborates.typed`). `Contracted.settled`
tells whether one more pass is such a pass. Checking stops after some passes, whether or not it has
come to that, so this is a condition on the function (`Host.Subject.settles`).
-/

namespace Precond

open Checking

/-! ## Settled types -/

namespace Ty

theorem length_eq_of_compatibleAll {as bs : List Ty} (h : compatibleAll as bs = true) :
    as.length = bs.length := by
  induction as generalizing bs with
  | nil =>
    cases bs with
    | nil => rfl
    | cons => simp [compatibleAll] at h
  | cons a as ih =>
    cases bs with
    | nil => simp [compatibleAll] at h
    | cons b bs =>
      simp only [compatibleAll, Bool.and_eq_true] at h
      simp [ih h.2]

mutual

/-- A settled type that agrees with another one is what the other becomes by it. -/
theorem refine_eq_of_compatible {a b : Ty} (hb : b.isConcrete = true)
    (h : a.compatible b = true) : a.refine b = b := by
  match a, b with
  | .unknown, _ => simp [refine]
  | _, .unknown => simp [isConcrete] at hb
  | .int, .int | .bool, .bool | .slice, .slice => simp [refine]
  | .array a, .array b =>
    simp only [isConcrete, compatible] at hb h
    simp [refine, refine_eq_of_compatible hb h]
  | .arrow a c, .arrow b d =>
    simp only [isConcrete, compatible, Bool.and_eq_true] at hb h
    simp [refine, refine_eq_of_compatible hb.1 h.1, refine_eq_of_compatible hb.2 h.2]
  | .prod as, .prod bs =>
    simp only [isConcrete, compatible] at hb h
    simp [refine, length_eq_of_compatibleAll h, refineAll_eq_of_compatibleAll hb h]

theorem refineAll_eq_of_compatibleAll {as bs : List Ty} (hb : allConcrete bs = true)
    (h : compatibleAll as bs = true) : refineAll as bs = bs := by
  match as, bs with
  | [], [] => simp [refineAll]
  | [], _ :: _ => simp [compatibleAll] at h
  | _ :: _, [] => simp [compatibleAll] at h
  | a :: as, b :: bs =>
    simp only [allConcrete, compatibleAll, Bool.and_eq_true] at hb h
    simp [refineAll, refine_eq_of_compatible hb.1 h.1, refineAll_eq_of_compatibleAll hb.2 h.2]

end

end Ty

/-! ## Conditions -/

namespace Expr

namespace ElaboratesAll

variable {es es' : List Expr} {env env' : TypeEnv}

theorem contains (h : ElaboratesAll es env es' env') :
    ∀ e ∈ es', ∀ x ∈ e.freeVars, env'.contains x = true := by
  induction h with
  | nil => exact List.forall_mem_nil _
  | cons he hes ih =>
    refine List.forall_mem_cons.2 ⟨fun x hx => ?_, ih⟩
    rw [freeVars_eq_of_untyped he.untyped] at hx
    exact hes.grows.contains x (he.contains x hx)

theorem annotated (h : ElaboratesAll es env es' env') : ∀ e ∈ es', e.annotated = true := by
  induction h with
  | nil => exact List.forall_mem_nil _
  | cons he _ ih => exact List.forall_mem_cons.2 ⟨he.annotated, ih⟩

/-- Conditions that could come from a text still could. -/
theorem written (h : ElaboratesAll es env es' env') (hes : ∀ e ∈ es, e.Written false)
    (henv : env.OfValues) : (∀ e ∈ es', e.Written false) ∧ env'.OfValues := by
  induction h with
  | nil => exact ⟨hes, henv⟩
  | cons he _ ih =>
    rw [List.forall_mem_cons] at hes
    obtain ⟨he', hmid, -⟩ := he.written hes.1 henv rfl
    obtain ⟨hes', henv'⟩ := ih hes.2 hmid
    exact ⟨List.forall_mem_cons.2 ⟨he', hes'⟩, henv'⟩

end ElaboratesAll

/-- The expression is a truth value, if it is ready. -/
def IsCondition (G : TypeEnv) (e : Expr) : Prop := Ready G e → Typed G e .bool

/-- A condition that was checked is one under all settled types that the environment keeps. -/
theorem Elaborates.isCondition {G : TypeEnv} {e e' : Expr} {env env' : TypeEnv}
    (h : Elaborates (.against .bool) e env e' env') (hG : Keeps G env) : e.IsCondition G := by
  intro he
  obtain ⟨ty, hty, hfits⟩ := h.typed hG he
  obtain rfl := Ty.eq_of_compatible hty.isConcrete rfl hfits
  exact hty

theorem ElaboratesAll.isCondition {G : TypeEnv} {es es' : List Expr} {env env' : TypeEnv}
    (h : ElaboratesAll es env es' env') (hG : Keeps G env) : ∀ e ∈ es, e.IsCondition G := by
  induction h with
  | nil => exact List.forall_mem_nil _
  | cons he _ ih =>
    exact List.forall_mem_cons.2 ⟨he.isCondition hG, ih (hG.trans he.grows.keeps)⟩

/-- A conjunction of truth values is one. -/
theorem isCondition_conjoin {G : TypeEnv} {es : List Expr} (h : ∀ e ∈ es, e.IsCondition G) :
    (conjoin es).IsCondition G :=
  fun hready => .conjoin fun e he => h e he (hready.conjoin e he)

end Expr

/-! ## Statements -/

namespace Stmt

/-- Whether every quantifier in a statement carries a settled type. -/
def annotated : Stmt → Bool
  | .skip | .havoc _ => true
  | .assign _ e | .assume e | .assert e => e.annotated
  | .seq s t => annotated s && annotated t
  | .branch c s t => c.annotated && annotated s && annotated t
  | .loop es c s => Expr.annotatedAll es && c.annotated && annotated s

/-- The conditions of a statement are truth values where they are ready, and the values that it
assigns are of the types of their variables. -/
def Typed (G : TypeEnv) : Stmt → Prop
  | .skip | .havoc _ => True
  | .assign x e => e.Ready G → ∃ ty, G.get? x = some ty ∧ e.Typed G ty
  | .assume e | .assert e => e.IsCondition G
  | .seq s t => s.Typed G ∧ t.Typed G
  | .branch c s t => c.IsCondition G ∧ s.Typed G ∧ t.Typed G
  | .loop es c s => (∀ e ∈ es, e.IsCondition G) ∧ c.IsCondition G ∧ s.Typed G

namespace Elaborates

variable {s s' : Stmt} {env env' : TypeEnv}

/-- The variables that a checked statement reads are known. -/
theorem contains_freeVars (h : Elaborates s env s' env') :
    ∀ x ∈ s'.freeVars, env'.contains x = true := by
  induction h with
  | skip | havocNew | havocKnown => exact List.forall_mem_nil _
  | assignNew he hx =>
    rw [freeVars, Expr.freeVars_eq_of_untyped he.untyped]
    exact fun y hy => (grows_insert_new hx).contains y (he.contains y hy)
  | assignKnown he hx _ hvalue =>
    rw [freeVars, Expr.freeVars_eq_of_untyped (hvalue.untyped.trans he.untyped)]
    exact fun y hy => (grows_insert_known hvalue.grows hx _).contains y (he.contains y hy)
  | assume he | assert he =>
    rw [freeVars, Expr.freeVars_eq_of_untyped he.untyped]
    exact he.contains
  | seq _ ht ihs iht =>
    exact List.forall_mem_append.2 ⟨fun x hx => ht.grows.contains x (ihs x hx), iht⟩
  | branch hc hs ht ihs iht =>
    rw [freeVars, Expr.freeVars_eq_of_untyped hc.untyped]
    exact List.forall_mem_append.2 ⟨List.forall_mem_append.2
      ⟨fun x hx => (hs.grows.trans ht.grows).contains x (hc.contains x hx),
        fun x hx => ht.grows.contains x (ihs x hx)⟩, iht⟩
  | loop hes hc hs ih =>
    rw [freeVars, Expr.freeVars_eq_of_untyped hc.untyped]
    refine List.forall_mem_append.2 ⟨List.forall_mem_append.2
      ⟨fun x hx => ?_, fun x hx => hs.grows.contains x (hc.contains x hx)⟩, ih⟩
    obtain ⟨e, he, hx⟩ := Expr.mem_freeVarsAll.1 hx
    exact (hc.grows.trans hs.grows).contains x (hes.contains e he x hx)

/-- The variables that a checked statement havocs are known. -/
theorem contains_havocked (h : Elaborates s env s' env') :
    ∀ x ∈ s'.havocked, env'.contains x = true := by
  induction h with
  | skip | assignNew | assignKnown | assume | assert => exact List.forall_mem_nil _
  | seq _ ht ihs iht =>
    exact List.forall_mem_append.2 ⟨fun x hx => ht.grows.contains x (ihs x hx), iht⟩
  | branch _ _ ht ihs iht =>
    exact List.forall_mem_append.2 ⟨fun x hx => ht.grows.contains x (ihs x hx), iht⟩
  | loop _ _ _ ih => exact ih
  | havocNew => simp [havocked, Bindings.contains]
  | havocKnown hx => simpa [havocked] using hx

/-- Every quantifier of a checked statement has a settled type. -/
theorem annotated (h : Elaborates s env s' env') : s'.annotated = true := by
  induction h with
  | skip | havocNew | havocKnown => rfl
  | assignNew he => exact he.annotated
  | assignKnown _ _ _ hvalue => exact hvalue.annotated
  | assume he | assert he => exact he.annotated
  | seq _ _ ihs iht => simp [Stmt.annotated, ihs, iht]
  | branch hc _ _ ihs iht => simp [Stmt.annotated, hc.annotated, ihs, iht]
  | loop hes hc _ ih =>
    simp [Stmt.annotated, Expr.annotatedAll_eq_true.2 hes.annotated, hc.annotated, ih]

/-- A written statement stays written, and the types of the variables are types of values. -/
theorem written (h : Elaborates s env s' env') (hs : s.Written) (henv : env.OfValues) :
    s'.Written ∧ env'.OfValues := by
  induction h with
  | skip | havocKnown => exact ⟨hs, henv⟩
  | havocNew => exact ⟨hs, henv.insert rfl⟩
  | assume he | assert he =>
    obtain ⟨he', henv', -⟩ := he.written hs henv rfl
    exact ⟨he', henv'⟩
  | assignNew he hx =>
    obtain ⟨hplain, hvalue, hbinders⟩ := hs
    obtain ⟨he', henv', hty⟩ := he.written hvalue henv rfl
    refine ⟨⟨hplain, he', ?_⟩, henv'.insert hty⟩
    rw [← Expr.binders_untyped, he.untyped, Expr.binders_untyped, hbinders]
  | assignKnown he hx _ hvalue =>
    obtain ⟨hplain, hwritten, hbinders⟩ := hs
    obtain ⟨he₁, hmid, hty⟩ := he.written hwritten henv rfl
    have hrefined := Ty.ofValues_refine (hmid _ _ hx) hty
    obtain ⟨he', hmid', -⟩ := hvalue.written he₁ hmid hrefined
    refine ⟨⟨hplain, he', ?_⟩, hmid'.insert hrefined⟩
    rw [← Expr.binders_untyped, hvalue.untyped, he.untyped, Expr.binders_untyped, hbinders]
  | seq _ _ ihs iht =>
    obtain ⟨hs', hmid⟩ := ihs hs.1 henv
    obtain ⟨ht', henv'⟩ := iht hs.2 hmid
    exact ⟨⟨hs', ht'⟩, henv'⟩
  | branch hc _ _ ihs iht =>
    obtain ⟨hc', hm₁, -⟩ := hc.written hs.1 henv rfl
    obtain ⟨hs', hm₂⟩ := ihs hs.2.1 hm₁
    obtain ⟨ht', henv'⟩ := iht hs.2.2 hm₂
    exact ⟨⟨hc', hs', ht'⟩, henv'⟩
  | loop hes hc _ ih =>
    obtain ⟨hes', hm₁⟩ := hes.written hs.1 henv
    obtain ⟨hc', hm₂, -⟩ := hc.written hs.2.1 hm₁ rfl
    obtain ⟨hs', henv'⟩ := ih hs.2.2 hm₂
    exact ⟨⟨hes', hc', hs'⟩, henv'⟩

/-- Checking that starts and ends with the settled types of `G` finds the statement typed in `G`. -/
theorem typed {G : TypeEnv} (h : Elaborates s env s' env') (hG : Keeps G env)
    (hG' : Keeps env' G) : s.Typed G := by
  induction h with
  | skip | havocNew | havocKnown => trivial
  | assume he | assert he => exact he.isCondition hG
  | assignNew he hx =>
    intro hready
    obtain ⟨ty, hty, rfl⟩ := he.typed hG hready
    exact ⟨ty, hG' _ ty (by simp) hty.isConcrete, hty⟩
  | assignKnown he hx hfits hvalue =>
    intro hready
    obtain ⟨ty, hty, rfl⟩ := he.typed hG hready
    -- the type of the variable is made that of the value, which is settled
    have hrefined := Ty.refine_eq_of_compatible hty.isConcrete hfits
    exact ⟨ty, hG' _ ty (by simp [hrefined]) hty.isConcrete, hty⟩
  | seq hs ht ihs iht =>
    exact ⟨ihs hG (ht.grows.keeps.trans hG'), iht (hG.trans hs.grows.keeps) hG'⟩
  | branch hc hs ht ihs iht =>
    have hGc := hG.trans hc.grows.keeps
    exact ⟨hc.isCondition hG, ihs hGc (ht.grows.keeps.trans hG'),
      iht (hGc.trans hs.grows.keeps) hG'⟩
  | loop hes hc _ ih =>
    have hGes := hG.trans hes.grows.keeps
    exact ⟨hes.isCondition hG, hc.isCondition hGes, ih (hGes.trans hc.grows.keeps) hG'⟩

end Elaborates

end Stmt

/-! ## Functions -/

namespace Contracted

/-- The function could come from a text. -/
structure Written (c : Contracted) : Prop where
  requires : ∀ e ∈ c.requires, e.Written false
  body : c.body.Written
  ensures : ∀ e ∈ c.ensures, e.Written false

namespace Elaborates

variable {c c' : Contracted} {env env' : TypeEnv}

/-- A written function stays written, and the types of the variables are types of values. -/
theorem written (h : c.Elaborates env c' env') (hc : c.Written) (henv : env.OfValues) :
    c'.Written ∧ env'.OfValues := by
  obtain ⟨mid, mid', hrequires, hbody, hensures⟩ := h
  obtain ⟨hrequires', hmid⟩ := hrequires.written hc.requires henv
  obtain ⟨hbody', hmid'⟩ := hbody.written hc.body hmid
  obtain ⟨hensures', henv'⟩ := hensures.written hc.ensures hmid'
  exact ⟨⟨hrequires', hbody', hensures'⟩, henv'⟩

/-- The variables of a checked function are known. -/
theorem contains (h : c.Elaborates env c' env') :
    (∀ e ∈ c'.requires ++ c'.ensures, ∀ x ∈ e.freeVars, env'.contains x = true) ∧
      ∀ x ∈ c'.body.freeVars ++ c'.body.havocked, env'.contains x = true := by
  obtain ⟨mid, mid', hrequires, hbody, hensures⟩ := h
  refine ⟨List.forall_mem_append.2 ⟨fun e he x hx => ?_, hensures.contains⟩,
    List.forall_mem_append.2 ⟨fun x hx => ?_, fun x hx => ?_⟩⟩
  · exact (hbody.grows.trans hensures.grows).contains x (hrequires.contains e he x hx)
  · exact hensures.grows.contains x (hbody.contains_freeVars x hx)
  · exact hensures.grows.contains x (hbody.contains_havocked x hx)

/-- The quantifiers of a checked function have settled types. -/
theorem annotated (h : c.Elaborates env c' env') :
    (∀ e ∈ c'.requires ++ c'.ensures, e.annotated = true) ∧ c'.body.annotated = true := by
  obtain ⟨mid, mid', hrequires, hbody, hensures⟩ := h
  exact ⟨List.forall_mem_append.2 ⟨hrequires.annotated, hensures.annotated⟩, hbody.annotated⟩

/-- A pass that changes no type finds the function typed. -/
theorem typed (h : c.Elaborates env c' env) :
    (∀ e ∈ c.requires ++ c.ensures, e.IsCondition env) ∧ c.body.Typed env := by
  obtain ⟨mid, mid', hrequires, hbody, hensures⟩ := h
  have hmid := hrequires.grows.keeps
  exact ⟨List.forall_mem_append.2 ⟨hrequires.isCondition (.refl env),
    hensures.isCondition (hmid.trans hbody.grows.keeps)⟩,
    hbody.typed hmid hensures.grows.keeps⟩

end Elaborates

/-- Whether one more pass accepts the function and changes no type. -/
def settled (c : Contracted) (env : TypeEnv) : Bool :=
  match c.checkOnce.run.run env with
  | (.ok _, env') => env' = env
  | _ => false

/-- If one more pass changes no type, the rules give a result that leaves the types as they are. -/
theorem exists_of_settled {c : Contracted} {env : TypeEnv} (h : c.settled env = true) :
    ∃ c', c.Elaborates env c' env := by
  unfold settled at h
  split at h
  · next c' env' hrun =>
    obtain rfl : env' = env := by simpa using h
    exact ⟨c', checkOnce_elaborates hrun⟩
  · cases h

/-- What every pass keeps holds before the last pass, and there is one. -/
theorem exists_lastPass {P : Contracted → TypeEnv → Prop} {c c' : Contracted} {env env' : TypeEnv}
    {passes : Nat} (hP : P c env)
    (hstep : ∀ {c env c' env'}, P c env → c.Elaborates env c' env' → P c' env')
    (h : Gives (checkPasses (passes + 1) c) env c' env') :
    ∃ c₁ env₁, P c₁ env₁ ∧ c₁.Elaborates env₁ c' env' := by
  induction passes generalizing c env with
  | zero =>
    simp only [checkPasses, gives_bind, gives_get] at h
    obtain ⟨_, _, ⟨rfl, rfl⟩, c₁, mid, hfirst, _, _, ⟨rfl, rfl⟩, h⟩ := h
    split_ifs at h <;> obtain ⟨rfl, rfl⟩ := gives_pure.mp h
    · exact ⟨c, _, hP, checkOnce_elaborates hfirst⟩
    · exact ⟨c, _, hP, checkOnce_elaborates hfirst⟩
  | succ passes ih =>
    rw [checkPasses] at h
    simp only [gives_bind, gives_get] at h
    obtain ⟨_, _, ⟨rfl, rfl⟩, c₁, mid, hfirst, _, _, ⟨rfl, rfl⟩, h⟩ := h
    have hfirst := checkOnce_elaborates hfirst
    split_ifs at h
    · obtain ⟨rfl, rfl⟩ := gives_pure.mp h
      exact ⟨c, _, hP, hfirst⟩
    · exact ih (hstep hP hfirst) h

end Contracted

end Precond
