import Mathlib.Tactic
import Precond.Proofs.AcceptedTypes
import Precond.Proofs.WellFormed

/-!
# What type checking keeps

What checking keeps is shown by induction on its rules. Every free variable is known in the end
(`Elaborates.contains`), every quantifier has a settled type then (`Elaborates.annotated`), and one
that had it already keeps it (`Elaborates.eq_of_annotated`). An expression that could stand in a
text still can, and the types of the variables stay types of values (`Elaborates.proper`).
-/

namespace Precond

open Checking

/-! ## What the rules keep -/

namespace Expr

mutual

/-- Whether every quantifier carries a settled type. -/
def annotated : Expr → Bool
  | .var _ | .lit _ => true
  | .binary _ l r | .subscript l r | .sliceFrom l r => annotated l && annotated r
  | .unary _ e => annotated e
  | .slice l u s => annotated l && annotated u && annotated s
  | .call _ args => annotatedAll args
  | .forAll _ ty body => ty.any Ty.isConcrete && annotated body

/-- Whether every quantifier in a list carries a settled type. -/
def annotatedAll : List Expr → Bool
  | [] => true
  | e :: es => annotated e && annotatedAll es

end

namespace Elaborates

variable {m : Mode} {e e' : Expr} {env env' : TypeEnv}

/-- Slices stay slices, and no other expression becomes one. -/
theorem isSlice_eq (h : Elaborates m e env e' env') : e'.isSlice = e.isSlice := by
  induction h with
  | elements _ _ _ ih ih' => exact ih'.trans ih
  | compared _ _ ih => exact ih
  | _ => rfl

/-- The free variables of an accepted expression are known. -/
theorem contains (h : Elaborates m e env e' env') : ∀ x ∈ e.freeVars, env'.contains x = true := by
  induction h with
  | int | bool => exact List.forall_mem_nil _
  | varFound hx => simp [freeVars, Bindings.contains, hx]
  | varChecked => simp [freeVars, Bindings.contains]
  | unary _ ih | compared _ _ ih => exact ih
  | elements _ hty _ ih _ => exact fun x hx => hty.grows.contains x (ih x hx)
  | binary _ hr ihl ihr | sliceFrom _ hr ihl ihr =>
    exact List.forall_mem_append.2 ⟨fun x hx => hr.grows.contains x (ihl x hx), ihr⟩
  | elementFound _ _ hb ihi ihb | elementOpen _ _ hb ihi ihb | elementChecked _ _ hb ihi ihb =>
    exact List.forall_mem_append.2 ⟨ihb, fun x hx => hb.grows.contains x (ihi x hx)⟩
  | part _ _ hb hty ihi ihb _ =>
    exact List.forall_mem_append.2 ⟨fun x hx => hty.grows.contains x (ihb x hx),
      fun x hx => (hb.grows.trans hty.grows).contains x (ihi x hx)⟩
  | slice _ hu hs ihl ihu ihs =>
    exact List.forall_mem_append.2 ⟨List.forall_mem_append.2
      ⟨fun x hx => (hu.grows.trans hs.grows).contains x (ihl x hx),
        fun x hx => hs.grows.contains x (ihu x hx)⟩, ihs⟩
  | len _ hl ih _ =>
    simp only [freeVars, freeVarsAll, List.append_nil]
    exact fun x hx => hl.grows.contains x (ih x hx)
  | storeSettled _ _ hl hi hv ih _ ihi ihv =>
    simp only [freeVars, freeVarsAll, List.append_nil, List.forall_mem_append]
    exact ⟨fun x hx => (hl.grows.trans (hi.grows.trans hv.grows)).contains x (ih x hx),
      fun x hx => hv.grows.contains x (ihi x hx), ihv⟩
  | storeOpen _ _ hty hl hi hv ih ihty _ ihi _ =>
    simp only [freeVars, freeVarsAll, List.append_nil, List.forall_mem_append]
    have hafter := hl.grows.trans (hi.grows.trans hv.grows)
    exact ⟨fun x hx => (hty.grows.trans hafter).contains x (ih x hx),
      fun x hx => hv.grows.contains x (ihi x hx), fun x hx => hafter.contains x (ihty x hx)⟩
  | forAll _ _ _ houter ih =>
    intro y hy
    simp only [freeVars, List.mem_filter, decide_eq_true_eq] at hy
    rw [Bindings.contains, houter, if_neg hy.2]
    exact ih y hy.1

/-- Every quantifier of an accepted expression has a settled type. -/
theorem annotated (h : Elaborates m e env e' env') : e'.annotated = true := by
  induction h with
  | int | bool | varFound | varChecked => rfl
  | unary _ ih | compared _ _ ih | elements _ _ _ _ ih => exact ih
  | binary _ _ ihl ihr | sliceFrom _ _ ihl ihr => simp [Expr.annotated, ihl, ihr]
  | elementFound _ _ _ ihi ihb | elementOpen _ _ _ ihi ihb | elementChecked _ _ _ ihi ihb
  | part _ _ _ _ ihi _ ihb => simp [Expr.annotated, ihi, ihb]
  | slice _ _ _ ihl ihu ihs => simp [Expr.annotated, ihl, ihu, ihs]
  | len _ _ _ ihl => simp [Expr.annotated, annotatedAll, ihl]
  | storeSettled _ _ _ _ _ _ ihl ihi ihv | storeOpen _ _ _ _ _ _ _ _ ihl ihi ihv =>
    simp [Expr.annotated, annotatedAll, ihl, ihi, ihv]
  | forAll _ _ hconcrete _ ih => simp [Expr.annotated, hconcrete, ih]

/-- An expression whose quantifiers have settled types already comes back as it is. -/
theorem eq_of_annotated (h : Elaborates m e env e' env') (he : e.annotated = true) : e' = e := by
  induction h with
  | int | bool | varFound | varChecked => rfl
  | compared _ _ ih => exact ih he
  | unary _ ih => rw [ih he]
  | elements _ _ _ ih ih' =>
    have h₁ := ih he
    subst h₁
    exact ih' he
  | binary _ _ ihl ihr | sliceFrom _ _ ihl ihr =>
    simp only [Expr.annotated, Bool.and_eq_true] at he
    rw [ihl he.1, ihr he.2]
  | elementFound _ _ _ ihi ihb | elementOpen _ _ _ ihi ihb | elementChecked _ _ _ ihi ihb =>
    simp only [Expr.annotated, Bool.and_eq_true] at he
    rw [ihb he.1, ihi he.2]
  | part _ _ _ _ ihi ihb ihty =>
    simp only [Expr.annotated, Bool.and_eq_true] at he
    have hb := ihb he.1
    subst hb
    rw [ihty he.1, ihi he.2]
  | slice _ _ _ ihl ihu ihs =>
    simp only [Expr.annotated, Bool.and_eq_true] at he
    rw [ihl he.1.1, ihu he.1.2, ihs he.2]
  | len _ _ ih ihl =>
    simp only [Expr.annotated, annotatedAll, Bool.and_true] at he
    have hl := ih he
    subst hl
    rw [ihl he]
  | storeSettled _ _ _ _ _ ih ihl ihi ihv =>
    simp only [Expr.annotated, annotatedAll, Bool.and_true, Bool.and_eq_true] at he
    have hl := ih he.1
    subst hl
    rw [ihl he.1, ihi he.2.1, ihv he.2.2]
  | storeOpen _ _ _ _ _ _ ih ihty ihl ihi ihv =>
    simp only [Expr.annotated, annotatedAll, Bool.and_true, Bool.and_eq_true] at he
    have hl := ih he.1
    subst hl
    have hv := ihty he.2.2
    subst hv
    rw [ihl he.1, ihi he.2.1, ihv he.2.2]
  | @forAll x ty found _ _ _ _ _ hbody hfound _ _ ih =>
    simp only [Expr.annotated, Bool.and_eq_true, Option.any_eq_true_iff_get] at he
    obtain ⟨⟨hsome, hconcrete⟩, he⟩ := he
    obtain ⟨t, rfl⟩ := Option.isSome_iff_exists.mp hsome
    have hkept := hbody.grows.keeps x t (by simp) hconcrete
    obtain rfl := Option.some.inj (hkept.symm.trans hfound)
    rw [ih he]

end Elaborates

end Expr

/-! ## Types of values -/

/-- All types of the environment are types of values. -/
def TypeEnv.OfValues (env : TypeEnv) : Prop := ∀ x ty, env.get? x = some ty → ty.ofValues = true

/-- A type that is made more precise by another one stays a type of values. -/
theorem Ty.ofValues_refine {a b : Ty} (ha : a.ofValues = true) (hb : b.ofValues = true) :
    (a.refine b).ofValues = true := by
  induction a using Ty.ofValues.induct generalizing b with
  | case1 | case2 => simp [refine, ofValues]
  | case3 => simpa [refine] using hb
  | case4 elem ih =>
    cases b with
    | array b => simpa [refine, ofValues] using ih ha (b := b) hb
    | _ => simpa [refine] using ha
  | case5 ty => simp_all [ofValues]

/-- Operators take and give values. -/
theorem Op.ofValues_types (op : Op) :
    op.types.1.ofValues = true ∧ op.types.2.ofValues = true := by
  cases op <;> simp [Op.types, Op.kind, Ty.ofValues]

namespace TypeEnv.OfValues

variable {env : TypeEnv}

theorem insert (h : env.OfValues) {x : String} {ty : Ty} (hty : ty.ofValues = true) :
    OfValues (env.insert x ty) := by
  intro y t hy
  rw [Bindings.get?_insert] at hy
  split_ifs at hy
  · obtain rfl := Option.some.inj hy
    exact hty
  · exact h y t hy

/-- Behind a quantifier the outer type of its variable is back, and all types are still ones of
values. -/
theorem outside {env' inner : TypeEnv} {x : String} (h : env.OfValues) (hinner : inner.OfValues)
    (houter : ∀ y, env'.get? y = if y = x then env.get? x else inner.get? y) : env'.OfValues := by
  intro y t hy
  rw [houter] at hy
  split_ifs at hy
  · exact h x t hy
  · exact hinner y t hy

end TypeEnv.OfValues

namespace Checking.Mode

/-- The type that is given with the question. -/
def given : Mode → Ty
  | .against ty => ty
  | .finds _ | .lists _ => .unknown

/-- The type that is spoken of. -/
def type : Mode → Ty
  | .finds ty | .against ty | .lists ty => ty

end Checking.Mode

namespace Expr

/-- What is kept of an expression that could stand in a text: it still could, the types of the
variables are types of values, and so is its own type unless it is a slice. -/
structure Proper (m : Mode) (index : Bool) (e e' : Expr) (env' : TypeEnv) : Prop where
  wellFormed : e'.WellFormed index
  values : env'.OfValues
  type : e.isSlice = false → m.type.ofValues = true

/-- Checking keeps an expression proper, if the type that it is checked against is one of values. -/
def KeepsProper (m : Mode) (e : Expr) (env : TypeEnv) (e' : Expr) (env' : TypeEnv) : Prop :=
  ∀ ⦃index⦄, e.WellFormed index → env.OfValues →
    (e.isSlice = false → m.given.ofValues = true) → Proper m index e e' env'

/-! ### The rules -/

namespace KeepsProper

variable {e e' l l₁ l' r r' u u' b b₁ b' i i' v v₁ v' : Expr}
  {env env' mid mid' m₁ m₂ m₃ m₄ : TypeEnv} {ty elem : Ty}

theorem varChecked {x : String} (hx : env.get? x = some ty) :
    KeepsProper (.against elem) (.var x) env (.var x) (env.insert x (ty.refine elem)) :=
  fun _ _ henv hm => ⟨.var, henv.insert (Ty.ofValues_refine (henv _ _ hx) (hm rfl)), hm⟩

/-- The operands of an operator are checked against a type of values. -/
theorem binary {op : Op} (hl : KeepsProper (.against op.types.1) l env l' mid)
    (hr : KeepsProper (.against op.types.1) r mid r' env') :
    KeepsProper (.finds op.types.2) (.binary op l r) env (.binary op l' r') env' := by
  intro index he henv _
  cases he with
  | binary hop hel her =>
    have hl := hl hel henv fun _ => op.ofValues_types.1
    have hr := hr her hl.values fun _ => op.ofValues_types.1
    exact ⟨.binary hop hl.wellFormed hr.wellFormed, hr.values, fun _ => op.ofValues_types.2⟩

theorem unary {op : Op} (h : KeepsProper (.against op.types.1) e env e' env') :
    KeepsProper (.finds op.types.2) (.unary op e) env (.unary op e') env' := by
  intro index he henv _
  cases he with
  | unary hop he =>
    have h := h he henv fun _ => op.ofValues_types.1
    exact ⟨.unary hop h.wellFormed, h.values, fun _ => op.ofValues_types.2⟩

/-- A part of a list has the type of the list. -/
theorem part (hslice : i.isSlice = true) (hi : KeepsProper (.against .slice) i env i' mid)
    (hb : KeepsProper (.against (.array .unknown)) b mid b₁ mid')
    (hty : KeepsProper (.finds ty) b₁ mid' b' env') :
    KeepsProper (.finds ty) (.subscript b i) env (.subscript b' i') env' := by
  intro index he henv _
  cases he with
  | subscript heb hei =>
    have hi := hi hei henv fun h => absurd hslice (by simp [h])
    have hb := hb heb hi.values fun _ => rfl
    have hty := hty hb.wellFormed hb.values fun _ => rfl
    exact ⟨.subscript hty.wellFormed hi.wellFormed, hty.values,
      fun _ => hty.type hb.wellFormed.isSlice⟩

/-- An element has a type that is part of the type of the list. -/
theorem element (hi : KeepsProper (.against .int) i env i' mid)
    (hb : KeepsProper (.finds ty) b mid b' env')
    (helem : ty.ofValues = true → elem.ofValues = true) :
    KeepsProper (.finds elem) (.subscript b i) env (.subscript b' i') env' := by
  intro index he henv _
  cases he with
  | subscript heb hei =>
    have hi := hi hei henv fun _ => rfl
    have hb := hb heb hi.values fun _ => rfl
    exact ⟨.subscript hb.wellFormed hi.wellFormed, hb.values, fun _ => helem (hb.type heb.isSlice)⟩

theorem elementChecked (hi : KeepsProper (.against .int) i env i' mid)
    (hb : KeepsProper (.against (.array elem)) b mid b' env') :
    KeepsProper (.against elem) (.subscript b i) env (.subscript b' i') env' := by
  intro index he henv hm
  cases he with
  | subscript heb hei =>
    have hi := hi hei henv fun _ => rfl
    have hb := hb heb hi.values fun _ => hm rfl
    exact ⟨.subscript hb.wellFormed hi.wellFormed, hb.values, hm⟩

theorem slice (hl : KeepsProper (.against .int) l env l' mid)
    (hu : KeepsProper (.against .int) u mid u' mid')
    (hr : KeepsProper (.against .int) r mid' r' env') :
    KeepsProper (.finds .slice) (.slice l u r) env (.slice l' u' r') env' := by
  intro index he henv _
  cases he with
  | slice hel heu her =>
    have hl := hl hel henv fun _ => rfl
    have hu := hu heu hl.values fun _ => rfl
    have hr := hr her hu.values fun _ => rfl
    exact ⟨.slice hl.wellFormed hu.wellFormed hr.wellFormed, hr.values, by simp [isSlice]⟩

theorem sliceFrom (hl : KeepsProper (.against .int) l env l' mid)
    (hr : KeepsProper (.against .int) r mid r' env') :
    KeepsProper (.finds .slice) (.sliceFrom l r) env (.sliceFrom l' r') env' := by
  intro index he henv _
  cases he with
  | sliceFrom hel her =>
    have hl := hl hel henv fun _ => rfl
    have hr := hr her hl.values fun _ => rfl
    exact ⟨.sliceFrom hl.wellFormed hr.wellFormed, hr.values, by simp [isSlice]⟩

/-- The type of the elements is one of values, or nothing is known of it. -/
theorem elements (hslice : l₁.isSlice = l.isSlice)
    (hlist : KeepsProper (.against (.array .unknown)) l env l₁ mid)
    (hty : KeepsProper (.finds ty) l₁ mid l' env')
    (helem : ty = .array elem ∨ (∀ t, ty ≠ .array t) ∧ elem = .unknown) :
    KeepsProper (.lists elem) l env l' env' := by
  intro index he henv _
  have hlist := hlist he henv fun _ => rfl
  have hty := hty hlist.wellFormed hlist.values fun _ => rfl
  refine ⟨hty.wellFormed, hty.values, fun h => ?_⟩
  rcases helem with rfl | ⟨-, rfl⟩
  · exact hty.type (hslice.trans h)
  · rfl

theorem len (hlist : KeepsProper (.lists elem) l env l₁ mid)
    (hl : KeepsProper (.against (.array elem)) l₁ mid l' env') :
    KeepsProper (.finds .int) (.call "len" [l]) env (.call "len" [l']) env' := by
  intro index he henv _
  cases he with
  | call hargs =>
    have hwl := hargs l (by simp)
    have hlist := hlist hwl henv fun _ => rfl
    have hl := hl hlist.wellFormed hlist.values fun _ => hlist.type hwl.isSlice
    exact ⟨.call (by simpa using hl.wellFormed), hl.values, fun _ => rfl⟩

theorem storeSettled (hlist : KeepsProper (.lists elem) l env l₁ m₁)
    (hl : KeepsProper (.against (.array elem)) l₁ m₁ l' m₂)
    (hi : KeepsProper (.against .int) i m₂ i' m₃) (hv : KeepsProper (.against elem) v m₃ v' env') :
    KeepsProper (.finds (.array elem)) (.call "store" [l, i, v]) env
      (.call "store" [l', i', v']) env' := by
  intro index he henv _
  cases he with
  | call hargs =>
    simp only [List.forall_mem_cons] at hargs
    obtain ⟨hel, hei, hev, -⟩ := hargs
    have hlist := hlist hel henv fun _ => rfl
    have helem := hlist.type hel.isSlice
    have hl := hl hlist.wellFormed hlist.values fun _ => helem
    have hi := hi hei hl.values fun _ => rfl
    have hv := hv hev hi.values fun _ => helem
    exact ⟨.call (by simpa using ⟨hl.wellFormed, hi.wellFormed, hv.wellFormed⟩), hv.values,
      fun _ => helem⟩

/-- The type of the elements is refined by the type of the value that is stored. -/
theorem storeOpen (hlist : KeepsProper (.lists elem) l env l₁ m₁)
    (hty : KeepsProper (.finds ty) v m₁ v₁ m₂)
    (hl : KeepsProper (.against (.array (elem.refine ty))) l₁ m₂ l' m₃)
    (hi : KeepsProper (.against .int) i m₃ i' m₄)
    (hv : KeepsProper (.against (elem.refine ty)) v₁ m₄ v' env') :
    KeepsProper (.finds (.array (elem.refine ty))) (.call "store" [l, i, v]) env
      (.call "store" [l', i', v']) env' := by
  intro index he henv _
  cases he with
  | call hargs =>
    simp only [List.forall_mem_cons] at hargs
    obtain ⟨hel, hei, hev, -⟩ := hargs
    have hlist := hlist hel henv fun _ => rfl
    have hty := hty hev hlist.values fun _ => rfl
    have helem := Ty.ofValues_refine (hlist.type hel.isSlice) (hty.type hev.isSlice)
    have hl := hl hlist.wellFormed hty.values fun _ => helem
    have hi := hi hei hl.values fun _ => rfl
    have hv := hv hty.wellFormed hi.values fun _ => helem
    exact ⟨.call (by simpa using ⟨hl.wellFormed, hi.wellFormed, hv.wellFormed⟩), hv.values,
      fun _ => helem⟩

/-- The type that is found for the variable of a quantifier is one of values. -/
theorem forAll {x : String} {declared : Option Ty}
    (hbody : KeepsProper (.against .bool) e (env.insert x (declared.getD .unknown)) e' mid)
    (hfound : mid.get? x = some ty)
    (houter : ∀ y, env'.get? y = if y = x then env.get? x else mid.get? y) :
    KeepsProper (.finds .bool) (.forAll x declared e) env (.forAll x (some ty) e') env' := by
  intro index he henv _
  cases he with
  | forAll hdeclared he =>
    have hbinder : (declared.getD .unknown).ofValues = true := by
      cases declared with
      | none => rfl
      | some t => exact hdeclared t rfl
    have hbody := hbody he (henv.insert hbinder) fun _ => rfl
    refine ⟨.forAll ?_ hbody.wellFormed, henv.outside hbody.values houter, fun _ => rfl⟩
    rintro t ⟨⟩
    exact hbody.values _ _ hfound

theorem compared (h : KeepsProper (.finds ty) e env e' env') :
    KeepsProper (.against elem) e env e' env' := by
  intro index he henv hm
  have h := h he henv fun _ => rfl
  exact ⟨h.wellFormed, h.values, hm⟩

end KeepsProper

/-- An expression that could stand in a text still can when it has been checked. -/
theorem Elaborates.proper {m : Mode} {e e' : Expr} {env env' : TypeEnv}
    (h : Elaborates m e env e' env') : KeepsProper m e env e' env' := by
  induction h with
  | int | bool => exact fun _ _ henv _ => ⟨.lit, henv, fun _ => rfl⟩
  | varFound hx => exact fun _ _ henv _ => ⟨.var, henv, fun _ => henv _ _ hx⟩
  | varChecked hx => exact .varChecked hx
  | binary _ _ ihl ihr => exact ihl.binary ihr
  | unary _ ih => exact ih.unary
  | part hslice _ _ _ ihi ihb ihty => exact ihi.part hslice ihb ihty
  | elementFound _ _ _ ihi ihb | elementOpen _ _ _ ihi ihb => exact ihi.element ihb id
  | elementChecked _ _ _ ihi ihb => exact ihi.elementChecked ihb
  | slice _ _ _ ihl ihu ihs => exact ihl.slice ihu ihs
  | sliceFrom _ _ ihl ihs => exact ihl.sliceFrom ihs
  | elements hlist _ helem ihlist ihty => exact ihlist.elements hlist.isSlice_eq ihty helem
  | len _ _ ihlist ihl => exact ihlist.len ihl
  | storeSettled _ _ _ _ _ ihlist ihl ihi ihv => exact ihlist.storeSettled ihl ihi ihv
  | storeOpen _ _ _ _ _ _ ihlist ihty ihl ihi ihv => exact ihlist.storeOpen ihty ihl ihi ihv
  | forAll _ hfound _ houter ih => exact ih.forAll hfound houter
  | compared _ _ ih => exact ih.compared

/-- A written expression stays written. -/
theorem Elaborates.written {m : Mode} {e e' : Expr} {env env' : TypeEnv}
    (h : Elaborates m e env e' env') (he : e.Written false) (henv : env.OfValues)
    (hm : m.given.ofValues = true) : e'.Written false ∧ env'.OfValues ∧ m.type.ofValues = true := by
  have hproper := h.proper he.wellFormed henv fun _ => hm
  refine ⟨⟨hproper.wellFormed, ?_⟩, hproper.values, hproper.type he.wellFormed.isSlice⟩
  rw [freeVars_eq_of_untyped h.untyped]
  exact he.plain

end Expr

end Precond
