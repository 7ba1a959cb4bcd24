import Mathlib.Tactic
import Precond.Proofs.Checking

/-!
# What the type checker accepts

An expression that is accepted comes back as it was but for the types of its quantifiers. If what
was known of its variables at the start was settled (`Checking.Agrees`), it has the type that was
found, or one that agrees with the type it was checked against (`Expr.Elaborates.accepts`). No
variable is lost and settled types stay (`Expr.Elaborates.grows`).
-/

namespace Precond

open Checking

namespace Expr

variable {G env env' : TypeEnv} {e e' : Expr}

/-- The types of quantifiers do not matter for the type of an expression. -/
theorem HasType.of_untyped {ty : Ty} (h : e.HasType G ty) (he : e'.untyped = e.untyped) :
    e'.HasType G ty :=
  h.of_outline (outline_eq_of_untyped he)

/-- The expression has a type that agrees with the expected one. -/
def Fits (G : TypeEnv) (e : Expr) (expected : Ty) : Prop :=
  ∃ ty, e.HasType G ty ∧ ty.compatible expected = true

/-- Agreeing with a settled type is having it. -/
theorem Fits.hasType {expected : Ty} (h : e.Fits G expected)
    (hconcrete : expected.isConcrete = true) : e.HasType G expected := by
  obtain ⟨ty, hty, hfits⟩ := h
  rwa [← Ty.eq_of_compatible hty.isConcrete hconcrete hfits]

/-- An expression that agrees with a type of lists has such a type. -/
theorem Fits.hasType_array {elem : Ty} (h : e.Fits G (.array elem)) :
    ∃ t, e.HasType G (.array t) ∧ t.compatible elem = true := by
  obtain ⟨ty, hty, hfits⟩ := h
  obtain ⟨t, rfl, ht⟩ := Ty.exists_array_of_compatible hty.isConcrete hfits
  exact ⟨t, hty, ht⟩

/-- What is known when an expression has been accepted and come back as `e'`, where `fits` is said
of its type. -/
structure Accepts (e : Expr) (env : TypeEnv) (e' : Expr) (env' : TypeEnv) (fits : Ty → Prop) :
    Prop where
  refines : Refines env env'
  untyped : e'.untyped = e.untyped
  typed : ∀ {G}, Agrees G env e.freeVars → ∃ ty, e.HasType G ty ∧ fits ty

theorem Accepts.of_hasType {ty : Ty} (hrefines : Refines env env')
    (huntyped : e'.untyped = e.untyped)
    (htyped : ∀ {G}, Agrees G env e.freeVars → e.HasType G ty) :
    Accepts e env e' env' (· = ty) :=
  ⟨hrefines, huntyped, fun hG => ⟨ty, htyped hG, rfl⟩⟩

theorem Accepts.hasType {ty : Ty} (h : Accepts e env e' env' (· = ty))
    (hG : Agrees G env e.freeVars) : e.HasType G ty := by
  obtain ⟨_, hty, rfl⟩ := h.typed hG
  exact hty

/-- An expression that was checked against a settled type has that type. -/
theorem Accepts.hasType_of_isConcrete {expected : Ty}
    (h : Accepts e env e' env' (·.compatible expected = true))
    (hconcrete : expected.isConcrete = true) (hG : Agrees G env e.freeVars) :
    e.HasType G expected :=
  Fits.hasType (h.typed hG) hconcrete

/-- Where a list was expected and then a type found, it is a type of lists. -/
theorem Accepts.andThen {elem ty : Ty} {e₁ : Expr} {mid : TypeEnv}
    (hlist : Accepts e env e₁ mid (·.compatible (.array elem) = true))
    (hfound : Accepts e₁ mid e' env' (· = ty)) :
    Accepts e env e' env' fun t => t = ty ∧ ∃ elem, t = .array elem := by
  refine ⟨hlist.refines.trans hfound.refines, hfound.untyped.trans hlist.untyped, fun hG => ?_⟩
  obtain ⟨t, ht, -⟩ := Fits.hasType_array (hlist.typed hG)
  rw [← freeVars_eq_of_untyped hlist.untyped] at hG
  have hty := (hfound.hasType (hG.trans hlist.refines)).of_untyped hlist.untyped.symm
  exact ⟨.array t, ht, ht.unique hty, t, rfl⟩

/-! ## The rules -/

section Rules

variable {op : Op} {l l' r r' u u' base base' index index' body body' : Expr}
  {mid mid' : TypeEnv} {fits fits' : Ty → Prop}

theorem Accepts.binary (hl : Accepts l env l' mid (·.compatible op.types.1 = true))
    (hr : Accepts r mid r' env' (·.compatible op.types.1 = true)) :
    Accepts (.binary op l r) env (.binary op l' r') env' (· = op.types.2) := by
  refine .of_hasType (hl.refines.trans hr.refines)
    (by simp only [Expr.untyped, hl.untyped, hr.untyped]) fun hG => ?_
  rw [freeVars, agrees_append] at hG
  exact .binary (hl.hasType_of_isConcrete op.isConcrete_types.1 hG.1)
    (hr.hasType_of_isConcrete op.isConcrete_types.1 (hG.2.trans hl.refines))

theorem Accepts.unary (he : Accepts e env e' env' (·.compatible op.types.1 = true)) :
    Accepts (.unary op e) env (.unary op e') env' (· = op.types.2) := by
  refine .of_hasType he.refines (by simp only [Expr.untyped, he.untyped]) fun hG => ?_
  rw [freeVars] at hG
  exact .unary (he.hasType_of_isConcrete op.isConcrete_types.1 hG)

/-- An element is accepted with what the type of its list tells of the type of the elements. -/
theorem Accepts.element (hindex : index.isSlice = false)
    (hi : Accepts index env index' mid (·.compatible .int = true))
    (hb : Accepts base mid base' env' fits)
    (harray : ∀ {t}, t.isConcrete = true → fits t → ∃ elem, t = .array elem ∧ fits' elem) :
    Accepts (.subscript base index) env (.subscript base' index') env' fits' := by
  refine ⟨hi.refines.trans hb.refines, by simp only [Expr.untyped, hi.untyped, hb.untyped],
    fun hG => ?_⟩
  rw [freeVars, agrees_append] at hG
  obtain ⟨t, ht, hfits⟩ := hb.typed (hG.1.trans hi.refines)
  obtain ⟨elem, rfl, helem⟩ := harray ht.isConcrete hfits
  exact ⟨elem, .element hindex ht (hi.hasType_of_isConcrete rfl hG.2), helem⟩

/-- A part of a list has the type of the list. -/
theorem Accepts.part {ty : Ty} (hindex : index.isSlice = true)
    (hi : Accepts index env index' mid (·.compatible .slice = true))
    (hb : Accepts base mid base' env' fun t => t = ty ∧ ∃ elem, t = .array elem) :
    Accepts (.subscript base index) env (.subscript base' index') env' (· = ty) := by
  refine .of_hasType (hi.refines.trans hb.refines)
    (by simp only [Expr.untyped, hi.untyped, hb.untyped]) fun hG => ?_
  rw [freeVars, agrees_append] at hG
  obtain ⟨_, ht, rfl, elem, rfl⟩ := hb.typed (hG.1.trans hi.refines)
  exact .part hindex ht (hi.hasType_of_isConcrete rfl hG.2)

theorem Accepts.slice (hl : Accepts l env l' mid (·.compatible .int = true))
    (hu : Accepts u mid u' mid' (·.compatible .int = true))
    (hr : Accepts r mid' r' env' (·.compatible .int = true)) :
    Accepts (.slice l u r) env (.slice l' u' r') env' (· = .slice) := by
  refine .of_hasType (hl.refines.trans (hu.refines.trans hr.refines))
    (by simp only [Expr.untyped, hl.untyped, hu.untyped, hr.untyped]) fun hG => ?_
  simp only [freeVars, agrees_append] at hG
  exact .slice (hl.hasType_of_isConcrete rfl hG.1.1)
    (hu.hasType_of_isConcrete rfl (hG.1.2.trans hl.refines))
    (hr.hasType_of_isConcrete rfl (hG.2.trans (hl.refines.trans hu.refines)))

theorem Accepts.sliceFrom (hl : Accepts l env l' mid (·.compatible .int = true))
    (hr : Accepts r mid r' env' (·.compatible .int = true)) :
    Accepts (.sliceFrom l r) env (.sliceFrom l' r') env' (· = .slice) := by
  refine .of_hasType (hl.refines.trans hr.refines)
    (by simp only [Expr.untyped, hl.untyped, hr.untyped]) fun hG => ?_
  rw [freeVars, agrees_append] at hG
  exact .sliceFrom (hl.hasType_of_isConcrete rfl hG.1)
    (hr.hasType_of_isConcrete rfl (hG.2.trans hl.refines))

/-- Outside a binder, only the other variables become more precise. -/
theorem Accepts.forAll {x : String} {ty : Ty} {declared found : Option Ty}
    (hbody : Accepts body (env.insert x ty) body' mid fits)
    (houter : ∀ y, env'.get? y = if y = x then env.get? x else mid.get? y) :
    Accepts (.forAll x declared body) env (.forAll x found body') env' (· = .bool) := by
  refine .of_hasType ⟨fun y t hy ht => ?_, fun y hy => ?_⟩
    (by simp only [Expr.untyped, hbody.untyped]) fun _ => .forAll
  · rw [houter]
    split_ifs with hyx
    · rwa [← hyx]
    · exact hbody.refines.keeps y t (by simpa [hyx] using hy) ht
  · rw [houter]
    split_ifs with hyx
    · rwa [← hyx]
    · exact hbody.refines.names y (by simpa [hyx] using hy)

/-- The type of a list with the type of its elements. Where the type found is not one of lists, no
types of the variables agree with the environment. -/
theorem Accepts.elements {ty elem : Ty}
    (hlist : Accepts e env e' env' fun t => t = ty ∧ ∃ elem, t = .array elem)
    (helem : ty = .array elem ∨ (∀ t, ty ≠ .array t) ∧ elem = .unknown) :
    Accepts e env e' env' (· = .array elem) := by
  refine ⟨hlist.refines, hlist.untyped, fun hG => ?_⟩
  obtain ⟨_, ht, rfl, t, rfl⟩ := hlist.typed hG
  rcases helem with helem | ⟨hopen, -⟩
  · exact ⟨_, ht, helem⟩
  · exact absurd rfl (hopen t)

theorem Accepts.len {elem : Ty} {l₁ : Expr} (hlist : Accepts l env l₁ mid (· = .array elem))
    (hl : Accepts l₁ mid l' env' fits) :
    Accepts (.call "len" [l]) env (.call "len" [l']) env' (· = .int) := by
  refine .of_hasType (hlist.refines.trans hl.refines)
    (by simp only [Expr.untyped, untypedAll, hl.untyped, hlist.untyped]) fun hG => ?_
  simp only [freeVars, freeVarsAll, List.append_nil] at hG
  exact .len rfl (hlist.hasType hG)

/-- A value is stored into a list whose elements have a settled type: the list keeps its type. -/
theorem Accepts.storeSettled {elem : Ty} {l₁ i i' v v' : Expr} {m₁ m₂ m₃ : TypeEnv}
    (hlist : Accepts l env l₁ m₁ (· = .array elem)) (hconcrete : elem.isConcrete = true)
    (hl : Accepts l₁ m₁ l' m₂ fits) (hi : Accepts i m₂ i' m₃ (·.compatible .int = true))
    (hv : Accepts v m₃ v' env' (·.compatible elem = true)) :
    Accepts (.call "store" [l, i, v]) env (.call "store" [l', i', v']) env'
      (· = .array elem) := by
  have hbefore := hlist.refines.trans hl.refines
  refine .of_hasType (hbefore.trans (hi.refines.trans hv.refines))
    (by simp only [Expr.untyped, untypedAll, hl.untyped, hlist.untyped, hi.untyped, hv.untyped])
    fun hG => ?_
  simp only [freeVars, freeVarsAll, List.append_nil, agrees_append] at hG
  exact .store rfl (hlist.hasType hG.1) (hi.hasType_of_isConcrete rfl (hG.2.1.trans hbefore))
    (hv.hasType_of_isConcrete hconcrete (hG.2.2.trans (hbefore.trans hi.refines)))

/-- Where the types of the variables are settled, so is that of a list. -/
theorem Accepts.storeOpen {elem ty : Ty} {l₁ i i' v v₁ v' : Expr} {m₁ m₂ m₃ m₄ : TypeEnv}
    {fits₁ fits₂ fits₃ fits₄ : Ty → Prop} (hlist : Accepts l env l₁ m₁ (· = .array elem))
    (hopen : elem.isConcrete = false) (hty : Accepts v m₁ v₁ m₂ fits₁)
    (hl : Accepts l₁ m₂ l' m₃ fits₂) (hi : Accepts i m₃ i' m₄ fits₃)
    (hv : Accepts v₁ m₄ v' env' fits₄) :
    Accepts (.call "store" [l, i, v]) env (.call "store" [l', i', v']) env' (· = ty) := by
  refine .of_hasType
    (hlist.refines.trans (hty.refines.trans (hl.refines.trans (hi.refines.trans hv.refines))))
    (by simp only [Expr.untyped, untypedAll, hl.untyped, hlist.untyped, hi.untyped, hv.untyped,
      hty.untyped]) fun hG => ?_
  simp only [freeVars, freeVarsAll, List.append_nil, agrees_append] at hG
  have hconcrete := (hlist.hasType hG.1).isConcrete
  simp [Ty.isConcrete, hopen] at hconcrete

/-- Checking against a type by finding one and comparing. -/
theorem Accepts.compared {found expected : Ty} (h : Accepts e env e' env' (· = found))
    (hfits : found.compatible expected = true) :
    Accepts e env e' env' (·.compatible expected = true) :=
  ⟨h.refines, h.untyped, fun hG => ⟨found, h.hasType hG, hfits⟩⟩

end Rules

/-- What is accepted by the rules has a type that answers the question. -/
theorem Elaborates.accepts {m : Mode} (h : Elaborates m e env e' env') :
    Accepts e env e' env' m.Fits := by
  induction h with
  | int => exact .of_hasType (.refl _) rfl fun _ => .int
  | bool => exact .of_hasType (.refl _) rfl fun _ => .bool
  | varFound hx =>
    refine .of_hasType (.refl _) rfl fun hG => ?_
    obtain ⟨hty, hconcrete⟩ := hG _ (by simp [freeVars]) _ hx
    exact .var hty hconcrete
  | varChecked hx hfits =>
    refine ⟨refines_insert_refine hx _, rfl, fun hG => ?_⟩
    obtain ⟨hty, hconcrete⟩ := hG _ (by simp [freeVars]) _ hx
    exact ⟨_, .var hty hconcrete, hfits⟩
  | binary _ _ ihl ihr => exact ihl.binary ihr
  | unary _ ih => exact ih.unary
  | part hslice _ _ _ ihi ihb ihty => exact ihi.part hslice (ihb.andThen ihty)
  | elementFound hslice _ _ ihi ihb =>
    exact ihi.element hslice ihb fun _ ht => ⟨_, ht, rfl⟩
  | elementOpen hslice _ _ ihi ihb =>
    refine ihi.element hslice ihb fun hconcrete ht => ?_
    obtain rfl : _ = Ty.unknown := ht
    simp [Ty.isConcrete] at hconcrete
  | elementChecked hslice _ _ ihi ihb =>
    exact ihi.element hslice ihb Ty.exists_array_of_compatible
  | slice _ _ _ ihl ihu ihs => exact ihl.slice ihu ihs
  | sliceFrom _ _ ihl ihs => exact ihl.sliceFrom ihs
  | elements _ _ helem ihlist ihty => exact (ihlist.andThen ihty).elements helem
  | len _ _ ihlist ihl => exact ihlist.len ihl
  | storeSettled _ hconcrete _ _ _ ihlist ihl ihi ihv =>
    exact ihlist.storeSettled hconcrete ihl ihi ihv
  | storeOpen _ hopen _ _ _ _ ihlist ihty ihl ihi ihv =>
    exact ihlist.storeOpen hopen ihty ihl ihi ihv
  | forAll _ _ _ houter ih => exact ih.forAll houter
  | compared _ hfits ih => exact ih.compared hfits

/-- Where inference finds a type, the expression has it. -/
theorem infer_accepts {ty : Ty} (h : Gives e.infer env (ty, e') env') :
    Accepts e env e' env' (· = ty) :=
  (infer_elaborates h).accepts

/-- Only the types of quantifiers change. -/
theorem Elaborates.untyped {m : Mode} (h : Elaborates m e env e' env') : e'.untyped = e.untyped :=
  h.accepts.untyped

/-- Looking at the arguments of a call for the type of elements changes only types of quantifiers. -/
theorem untypedAll_of_callElement {infer : Expr → Checking (Ty × Expr)}
    {check : Ty → Expr → Checking Expr} (hinfers : InfersByRules infer)
    (hchecks : ChecksByRules check) {f : String} {args args' : List Expr} {elem : Ty}
    (h : Gives (callElement infer check f args) env (elem, args') env') :
    untypedAll args' = untypedAll args := by
  cases args with
  | nil =>
    simp only [callElement, gives_pure, Prod.mk.injEq] at h
    rw [← h.1.2]
  | cons list args =>
    rcases callElement_elaborates hinfers hchecks h with ⟨list', hlist, rfl, -⟩ |
      ⟨i, v, list', v', _, _, _, rfl, rfl, rfl, rfl, -, hlist, hv⟩
    · simp only [untypedAll, hlist.untyped]
    · simp only [untypedAll, hlist.untyped, hv.untyped]

end Expr

/-! ## Variables and settled types -/

/-- No variable is lost, and settled types stay. -/
structure Checking.Grows (env env' : TypeEnv) : Prop where
  keeps : Keeps env env'
  contains : ∀ x, env.contains x = true → env'.contains x = true

namespace Checking.Grows

variable {env mid env' : TypeEnv}

theorem refl (env : TypeEnv) : Grows env env := ⟨.refl env, fun _ h => h⟩

theorem trans (h : Grows env mid) (h' : Grows mid env') : Grows env env' :=
  ⟨h.keeps.trans h'.keeps, fun x hx => h'.contains x (h.contains x hx)⟩

/-- Making one type more precise loses nothing. -/
theorem insert_refine {x : String} {current : Ty} (hx : env.get? x = some current) (ty : Ty) :
    Grows env (env.insert x (current.refine ty)) := by
  refine ⟨(refines_insert_refine hx ty).keeps, fun y hy => ?_⟩
  by_cases hyx : y = x <;> simp [Bindings.contains, hyx] at hy ⊢
  exact hy

/-- What a binder hides is not touched, and the rest is extended. -/
theorem outside {inner : TypeEnv} {x : String} {ty : Ty} (h : Grows (env.insert x ty) inner)
    (houter : ∀ y, env'.get? y = if y = x then env.get? x else inner.get? y) :
    Grows env env' := by
  constructor
  · intro y t hy ht
    rw [houter]
    split_ifs with hyx
    · rwa [← hyx]
    · exact h.keeps y t (by simpa [hyx] using hy) ht
  · intro y hy
    rw [Bindings.contains, houter]
    split_ifs with hyx
    · rwa [← hyx]
    · exact h.contains y (by simpa [Bindings.contains, hyx] using hy)

end Checking.Grows

/-- Checking an expression loses no variable and changes no settled type. -/
theorem Expr.Elaborates.grows {m : Mode} {e e' : Expr} {env env' : TypeEnv}
    (h : Elaborates m e env e' env') : Grows env env' := by
  induction h with
  | int | bool | varFound => exact .refl _
  | unary _ ih | compared _ _ ih => exact ih
  | binary _ _ ih ih' | sliceFrom _ _ ih ih' | elements _ _ _ ih ih' | len _ _ ih ih'
  | elementFound _ _ _ ih ih' | elementOpen _ _ _ ih ih' | elementChecked _ _ _ ih ih' =>
    exact ih.trans ih'
  | part _ _ _ _ ih ih' ih'' | slice _ _ _ ih ih' ih'' => exact ih.trans (ih'.trans ih'')
  | storeSettled _ _ _ _ _ ih ihl ihi ihv => exact ih.trans (ihl.trans (ihi.trans ihv))
  | storeOpen _ _ _ _ _ _ ih ihty ihl ihi ihv =>
    exact ih.trans (ihty.trans (ihl.trans (ihi.trans ihv)))
  | forAll _ _ _ houter ih => exact ih.outside houter
  | varChecked hx _ => exact .insert_refine hx _

end Precond
