import Mathlib.Tactic
import Precond.Proofs.ExpressionTypes
import Precond.Typing.Expr

/-!
# Type checking as a relation

`Checking.Gives c env a env'` says that a computation of the type checker succeeds and takes the
types `env` of the variables to `env'`. Settled types stay and no variable is added
(`Checking.Refines`).

`Expr.Elaborates m e env e' env'` says how type checking takes the expression `e` to `e'`, with the
types of its quantifiers filled in, and the types `env` of the variables to more precise ones
`env'`. The mode `m` is what the checker is asked: to find a type, to check the expression against
one, or to find the type of the elements of a list. There is a rule for each way in which the
checker can succeed (`Expr.infer_elaborates`, `Expr.check_elaborates`), so what holds of type
checking is shown by induction on the rules.
-/

namespace Precond

/-! ## Computations that refine types -/

namespace Checking

variable {α β : Type} {env env' : TypeEnv}

/-- The computation succeeds from `env` with a result and the environment `env'`. -/
def Gives (c : Checking α) (env : TypeEnv) (a : α) (env' : TypeEnv) : Prop :=
  c.run.run env = (.ok a, env')

/-- If the first of two computations fails, the environment stays as it was left there. -/
theorem run_bind (c : Checking α) (f : α → Checking β) (env : TypeEnv) :
    (c >>= f).run.run env =
      match c.run.run env with
      | (.ok a, mid) => (f a).run.run mid
      | (.error e, mid) => (.error e, mid) := by
  rw [ExceptT.run_bind, StateT.run_bind]
  rcases c.run.run env with ⟨_ | _, _⟩ <;> rfl

/-- Two computations in a row succeed through an environment in between. -/
theorem gives_bind {c : Checking α} {f : α → Checking β} {b : β} :
    Gives (c >>= f) env b env' ↔ ∃ a mid, Gives c env a mid ∧ Gives (f a) mid b env' := by
  unfold Gives
  rw [run_bind]
  rcases c.run.run env with ⟨e | a, mid⟩
  · exact ⟨fun h => (by cases h), fun ⟨_, _, h, _⟩ => by cases h⟩
  · constructor
    · exact fun h => ⟨a, mid, rfl, h⟩
    · rintro ⟨_, _, h, hf⟩
      cases h
      exact hf

theorem gives_pure {a b : α} : Gives (pure a) env b env' ↔ a = b ∧ env = env' := by
  change (Except.ok a, env) = (.ok b, env') ↔ _
  simp

theorem not_gives_throw {e : Error} {a : α} : ¬Gives (throw e) env a env' := by
  change (Except.error e, env) ≠ (.ok a, env')
  simp

theorem gives_get {a : TypeEnv} : Gives get env a env' ↔ env = a ∧ env = env' := by
  change (Except.ok env, env) = (.ok a, env') ↔ _
  simp

theorem gives_modify {f : TypeEnv → TypeEnv} {u : PUnit} :
    Gives (modify f) env u env' ↔ f env = env' := by
  change (Except.ok PUnit.unit, f env) = (.ok u, env') ↔ _
  simp

/-- The type of a variable is found only if it has one. -/
theorem gives_lookup {x : String} {ty : Ty} :
    Gives (lookup x) env ty env' ↔ env.get? x = some ty ∧ env = env' := by
  simp only [lookup, gives_bind, gives_get]
  constructor
  · rintro ⟨_, _, ⟨rfl, rfl⟩, h⟩
    split at h
    · next hx => exact ⟨hx.trans (congrArg some (gives_pure.mp h).1), (gives_pure.mp h).2⟩
    · exact absurd h not_gives_throw
  · rintro ⟨hx, rfl⟩
    refine ⟨env, env, ⟨rfl, rfl⟩, ?_⟩
    rw [hx]
    exact gives_pure.mpr ⟨rfl, rfl⟩

/-- A comparison of types changes nothing. -/
theorem gives_compare {e : Expr} {expected found : Ty} {u : Unit} :
    Gives (compare e expected found) env u env' ↔
      found.compatible expected = true ∧ env = env' := by
  unfold compare
  split_ifs with h <;> simp [gives_pure, not_gives_throw, h]

/-- The outcome of a computation is a result even if it is an error; the environment stays as it was
left. -/
theorem gives_outcome {c : Checking α} {r : Except Error α} :
    Gives (outcome c) env r env' ↔ c.run.run env = (r, env') := by
  change (Except.ok (c.run.run env).1, (c.run.run env).2) = (.ok r, env') ↔ _
  rcases c.run.run env with ⟨r', mid⟩
  constructor <;> rintro ⟨⟩ <;> rfl

/-- A binder leaves the variable outside as it was. -/
theorem gives_withBinder {x : String} {ty : Ty} {c : Checking α} {r : Except Error α}
    {found : Option Ty} (h : Gives (withBinder x ty c) env (r, found) env') :
    ∃ mid, c.run.run (env.insert x ty) = (r, mid) ∧ found = mid.get? x ∧
      ∀ y, env'.get? y = if y = x then env.get? x else mid.get? y := by
  simp only [withBinder, gives_bind, gives_get, gives_modify, gives_pure, gives_outcome,
    Prod.mk.injEq] at h
  obtain ⟨_, _, ⟨rfl, rfl⟩, _, _, rfl, _, mid, hc, h⟩ := h
  obtain ⟨_, _, ⟨rfl, rfl⟩, _, _, rfl, ⟨rfl, rfl⟩, rfl⟩ := h
  refine ⟨mid, hc, rfl, fun y => ?_⟩
  cases env.get? x <;> simp

/-! ## Settled types stay -/

/-- Every settled type of the first environment stands in the second one too. -/
def Keeps (env env' : TypeEnv) : Prop :=
  ∀ x ty, env.get? x = some ty → ty.isConcrete = true → env'.get? x = some ty

theorem Keeps.refl (env : TypeEnv) : Keeps env env := fun _ _ h _ => h

theorem Keeps.trans {mid : TypeEnv} (h : Keeps env mid) (h' : Keeps mid env') : Keeps env env' :=
  fun x ty hx hty => h' x ty (h x ty hx hty) hty

/-- Settled types stay, and no variable is added. -/
structure Refines (env env' : TypeEnv) : Prop where
  keeps : Keeps env env'
  names : ∀ x, env.get? x = none → env'.get? x = none

theorem Refines.refl (env : TypeEnv) : Refines env env := ⟨.refl env, fun _ h => h⟩

theorem Refines.trans {mid : TypeEnv} (h : Refines env mid) (h' : Refines mid env') :
    Refines env env' :=
  ⟨h.keeps.trans h'.keeps, fun x hx => h'.names x (h.names x hx)⟩

/-- Making the type of a variable more precise keeps what is settled. -/
theorem refines_insert_refine {x : String} {current : Ty} (hx : env.get? x = some current)
    (ty : Ty) : Refines env (env.insert x (current.refine ty)) := by
  refine ⟨fun y t hy ht => ?_, fun y hy => ?_⟩
  · rw [Bindings.get?_insert]
    split_ifs with hyx
    · obtain rfl : current = t := Option.some.inj (hx.symm.trans (hyx ▸ hy))
      rw [Ty.refine_of_isConcrete ty ht]
    · exact hy
  · have hyx : y ≠ x := by
      rintro rfl
      simp [hx] at hy
    simpa [hyx] using hy

/-- What `env` says about the named variables is settled, and `G` says the same. -/
def Agrees (G env : TypeEnv) (names : List String) : Prop :=
  ∀ x ∈ names, ∀ ty, env.get? x = some ty → G.get? x = some ty ∧ ty.isConcrete = true

variable {G : TypeEnv} {xs ys : List String}

theorem agrees_append : Agrees G env (xs ++ ys) ↔ Agrees G env xs ∧ Agrees G env ys :=
  List.forall_mem_append

/-- Types that agree with an environment agree with what it is refined to. -/
theorem Agrees.trans (h : Agrees G env xs) (h' : Refines env env') : Agrees G env' xs := by
  intro x hx ty hty
  cases henv : env.get? x with
  | none => simp [h'.names x henv] at hty
  | some t =>
    obtain ⟨hG, ht⟩ := h x hx t henv
    obtain rfl := Option.some.inj ((h'.keeps x t henv ht).symm.trans hty)
    exact ⟨hG, ht⟩

end Checking

/-- The environment gives all names of the list settled types. -/
def TypeEnv.Settles (G : TypeEnv) (names : List String) : Prop :=
  ∀ x ∈ names, ∃ ty, G.get? x = some ty ∧ ty.isConcrete = true

theorem TypeEnv.settles_append {G : TypeEnv} {xs ys : List String} :
    G.Settles (xs ++ ys) ↔ G.Settles xs ∧ G.Settles ys :=
  List.forall_mem_append

/-- Settled types agree with every environment that they are kept in. -/
theorem TypeEnv.Settles.agrees {G env : TypeEnv} {xs : List String} (hs : G.Settles xs)
    (hG : Checking.Keeps G env) : Checking.Agrees G env xs := by
  intro x hx ty hty
  obtain ⟨t, ht, hconcrete⟩ := hs x hx
  obtain rfl := Option.some.inj ((hG x t ht hconcrete).symm.trans hty)
  exact ⟨ht, hconcrete⟩

/-! ## The rules -/

/-- What type checking is asked about an expression. -/
inductive Checking.Mode where
  /-- Its type is found. -/
  | finds (ty : Ty)
  /-- It is checked against a type. -/
  | against (ty : Ty)
  /-- It is a list, of whose elements the type is found. -/
  | lists (elem : Ty)

/-- The type answers the question. -/
def Checking.Mode.Fits (m : Mode) (ty : Ty) : Prop :=
  match m with
  | .finds found => ty = found
  | .against expected => ty.compatible expected = true
  | .lists elem => ty = .array elem

open Checking

namespace Expr

/-- Type checking takes the expression to another one, and the environment to another one. -/
inductive Elaborates : Mode → Expr → TypeEnv → Expr → TypeEnv → Prop
  | int {n env} : Elaborates (.finds .int) (.lit (.int n)) env (.lit (.int n)) env
  | bool {b env} : Elaborates (.finds .bool) (.lit (.bool b)) env (.lit (.bool b)) env
  | varFound {x ty env} (hx : env.get? x = some ty) :
      Elaborates (.finds ty) (.var x) env (.var x) env
  | binary {op l l' r r' env mid env'} (hl : Elaborates (.against op.types.1) l env l' mid)
      (hr : Elaborates (.against op.types.1) r mid r' env') :
      Elaborates (.finds op.types.2) (.binary op l r) env (.binary op l' r') env'
  | unary {op e e' env env'} (he : Elaborates (.against op.types.1) e env e' env') :
      Elaborates (.finds op.types.2) (.unary op e) env (.unary op e') env'
  | part {b b₁ b' i i' ty env mid mid' env'} (hslice : i.isSlice = true)
      (hi : Elaborates (.against .slice) i env i' mid)
      (hb : Elaborates (.against (.array .unknown)) b mid b₁ mid')
      (hty : Elaborates (.finds ty) b₁ mid' b' env') :
      Elaborates (.finds ty) (.subscript b i) env (.subscript b' i') env'
  | elementFound {b b' i i' elem env mid env'} (hslice : i.isSlice = false)
      (hi : Elaborates (.against .int) i env i' mid)
      (hb : Elaborates (.finds (.array elem)) b mid b' env') :
      Elaborates (.finds elem) (.subscript b i) env (.subscript b' i') env'
  | elementOpen {b b' i i' env mid env'} (hslice : i.isSlice = false)
      (hi : Elaborates (.against .int) i env i' mid)
      (hb : Elaborates (.finds .unknown) b mid b' env') :
      Elaborates (.finds .unknown) (.subscript b i) env (.subscript b' i') env'
  | slice {l l' u u' s s' env mid mid' env'} (hl : Elaborates (.against .int) l env l' mid)
      (hu : Elaborates (.against .int) u mid u' mid')
      (hs : Elaborates (.against .int) s mid' s' env') :
      Elaborates (.finds .slice) (.slice l u s) env (.slice l' u' s') env'
  | sliceFrom {l l' s s' env mid env'} (hl : Elaborates (.against .int) l env l' mid)
      (hs : Elaborates (.against .int) s mid s' env') :
      Elaborates (.finds .slice) (.sliceFrom l s) env (.sliceFrom l' s') env'
  | elements {e e₁ e' ty elem env mid env'}
      (hlist : Elaborates (.against (.array .unknown)) e env e₁ mid)
      (hty : Elaborates (.finds ty) e₁ mid e' env')
      (helem : ty = .array elem ∨ (∀ t, ty ≠ .array t) ∧ elem = .unknown) :
      Elaborates (.lists elem) e env e' env'
  | len {l l₁ l' elem env mid env'} (hlist : Elaborates (.lists elem) l env l₁ mid)
      (hl : Elaborates (.against (.array elem)) l₁ mid l' env') :
      Elaborates (.finds .int) (.call "len" [l]) env (.call "len" [l']) env'
  | storeSettled {l l₁ l' i i' v v' elem env m₁ m₂ m₃ env'}
      (hlist : Elaborates (.lists elem) l env l₁ m₁) (hconcrete : elem.isConcrete = true)
      (hl : Elaborates (.against (.array elem)) l₁ m₁ l' m₂)
      (hi : Elaborates (.against .int) i m₂ i' m₃)
      (hv : Elaborates (.against elem) v m₃ v' env') :
      Elaborates (.finds (.array elem)) (.call "store" [l, i, v]) env
        (.call "store" [l', i', v']) env'
  | storeOpen {l l₁ l' i i' v v₁ v' elem tv env m₁ m₂ m₃ m₄ env'}
      (hlist : Elaborates (.lists elem) l env l₁ m₁) (hopen : elem.isConcrete = false)
      (hty : Elaborates (.finds tv) v m₁ v₁ m₂)
      (hl : Elaborates (.against (.array (elem.refine tv))) l₁ m₂ l' m₃)
      (hi : Elaborates (.against .int) i m₃ i' m₄)
      (hv : Elaborates (.against (elem.refine tv)) v₁ m₄ v' env') :
      Elaborates (.finds (.array (elem.refine tv))) (.call "store" [l, i, v]) env
        (.call "store" [l', i', v']) env'
  | forAll {x ty found body body' env inner env'}
      (hbody : Elaborates (.against .bool) body (env.insert x (ty.getD .unknown)) body' inner)
      (hfound : inner.get? x = some found) (hconcrete : found.isConcrete = true)
      (houter : ∀ y, env'.get? y = if y = x then env.get? x else inner.get? y) :
      Elaborates (.finds .bool) (.forAll x ty body) env (.forAll x (some found) body') env'
  | varChecked {x current expected env} (hx : env.get? x = some current)
      (hfits : current.compatible expected = true) :
      Elaborates (.against expected) (.var x) env (.var x) (env.insert x (current.refine expected))
  | elementChecked {b b' i i' expected env mid env'} (hslice : i.isSlice = false)
      (hi : Elaborates (.against .int) i env i' mid)
      (hb : Elaborates (.against (.array expected)) b mid b' env') :
      Elaborates (.against expected) (.subscript b i) env (.subscript b' i') env'
  | compared {e e' found expected env env'} (he : Elaborates (.finds found) e env e' env')
      (hfits : found.compatible expected = true) : Elaborates (.against expected) e env e' env'

/-! ## The checker follows the rules -/

/-- Only `len` and `store` have a signature. -/
theorem builtinSignature_eq_some {f : String} {elem result : Ty} {params : List Ty}
    (h : builtinSignature? f elem = some (params, result)) :
    (f = "len" ∧ params = [.array elem] ∧ result = .int) ∨
      (f = "store" ∧ params = [.array elem, .int, elem] ∧ result = .array elem) := by
  unfold builtinSignature? at h
  split at h <;> cases h <;> simp

section Checker

variable {infer : Expr → Checking (Ty × Expr)} {check : Ty → Expr → Checking Expr}
  {env env' : TypeEnv}

/-- The function finds types by the rules. -/
def InfersByRules (infer : Expr → Checking (Ty × Expr)) : Prop :=
  ∀ {e env ty e' env'}, Gives (infer e) env (ty, e') env' → Elaborates (.finds ty) e env e' env'

/-- The function checks expressions by the rules. -/
def ChecksByRules (check : Ty → Expr → Checking Expr) : Prop :=
  ∀ {expected e env e' env'}, Gives (check expected e) env e' env' →
    Elaborates (.against expected) e env e' env'

/-- Finding the type of the elements of a list is one of the questions of the rules. -/
theorem elementType_elaborates (hinfer : InfersByRules infer) (hcheck : ChecksByRules check)
    {e e' : Expr} {elem : Ty} (h : Gives (elementType infer check e) env (elem, e') env') :
    Elaborates (.lists elem) e env e' env' := by
  simp only [elementType, gives_bind] at h
  obtain ⟨e₁, mid, h₁, ⟨ty, e₂⟩, _, h₂, h⟩ := h
  split at h
  · next helem =>
    simp only [gives_pure, Prod.mk.injEq] at h
    obtain ⟨⟨rfl, rfl⟩, rfl⟩ := h
    exact .elements (hcheck h₁) (hinfer h₂) (Or.inl helem)
  · next hty =>
    simp only [gives_pure, Prod.mk.injEq] at h
    obtain ⟨⟨rfl, rfl⟩, rfl⟩ := h
    exact .elements (hcheck h₁) (hinfer h₂) (Or.inr ⟨hty, rfl⟩)

theorem gives_checkEach_one {ty : Ty} {e : Expr} {es : List Expr}
    (h : Gives (checkEach check [ty] [e]) env es env') :
    ∃ e', es = [e'] ∧ Gives (check ty e) env e' env' := by
  simp only [checkEach, gives_bind, gives_pure] at h
  obtain ⟨e', _, he, _, _, ⟨rfl, rfl⟩, rfl, rfl⟩ := h
  exact ⟨e', rfl, he⟩

theorem gives_checkEach_three {t₁ t₂ t₃ : Ty} {e₁ e₂ e₃ : Expr} {es : List Expr}
    (h : Gives (checkEach check [t₁, t₂, t₃] [e₁, e₂, e₃]) env es env') :
    ∃ e₁' m₁ e₂' m₂ e₃', es = [e₁', e₂', e₃'] ∧ Gives (check t₁ e₁) env e₁' m₁ ∧
      Gives (check t₂ e₂) m₁ e₂' m₂ ∧ Gives (check t₃ e₃) m₂ e₃' env' := by
  simp only [checkEach, gives_bind, gives_pure] at h
  obtain ⟨e₁', m₁, h₁, _, _, ⟨e₂', m₂, h₂, _, _, ⟨e₃', _, h₃, _, _, ⟨rfl, rfl⟩, rfl, rfl⟩, rfl,
    rfl⟩, rfl, rfl⟩ := h
  exact ⟨e₁', m₁, e₂', m₂, e₃', rfl, h₁, h₂, h₃⟩

/-- The list of a call is looked at first, and the stored value too if the list is not settled. -/
theorem callElement_elaborates (hinfer : InfersByRules infer) (hcheck : ChecksByRules check)
    {f : String} {list : Expr} {args args' : List Expr} {ty : Ty}
    (h : Gives (callElement infer check f (list :: args)) env (ty, args') env') :
    (∃ list', Elaborates (.lists ty) list env list' env' ∧ args' = list' :: args ∧
        (f = "store" → args.length = 2 → ty.isConcrete = true)) ∨
      ∃ i v list' v' elem tv mid, f = "store" ∧ args = [i, v] ∧ args' = [list', i, v'] ∧
        ty = elem.refine tv ∧ elem.isConcrete = false ∧
        Elaborates (.lists elem) list env list' mid ∧ Elaborates (.finds tv) v mid v' env' := by
  simp only [callElement, gives_bind] at h
  obtain ⟨⟨elem, list'⟩, mid, hlist, h⟩ := h
  have hlist := elementType_elaborates hinfer hcheck hlist
  split_ifs at h with hopen
  · simp only [Bool.and_eq_true, decide_eq_true_eq, Bool.not_eq_true'] at hopen
    split at h
    · next i v =>
      simp only [gives_bind, gives_pure, Prod.mk.injEq] at h
      obtain ⟨⟨tv, v'⟩, _, hv, ⟨rfl, rfl⟩, rfl⟩ := h
      exact Or.inr ⟨i, v, list', v', elem, tv, mid, hopen.1, rfl, rfl, rfl, hopen.2, hlist,
        hinfer hv⟩
    · next hargs =>
      simp only [gives_pure, Prod.mk.injEq] at h
      obtain ⟨⟨rfl, rfl⟩, rfl⟩ := h
      refine Or.inl ⟨list', hlist, rfl, fun _ hlength => ?_⟩
      obtain ⟨i, v, rfl⟩ := List.length_eq_two.mp hlength
      exact absurd rfl (hargs i v)
  · simp only [gives_pure, Prod.mk.injEq] at h
    obtain ⟨⟨rfl, rfl⟩, rfl⟩ := h
    refine Or.inl ⟨list', hlist, rfl, fun hf _ => ?_⟩
    simpa [hf] using hopen

/-- The type of a call is found by the rules. -/
theorem inferCall_elaborates (hinfer : InfersByRules infer) (hcheck : ChecksByRules check)
    {f : String} {args args' : List Expr} {ty : Ty}
    (h : Gives (inferCall infer check f args) env (ty, args') env') :
    Elaborates (.finds ty) (.call f args) env (.call f args') env' := by
  unfold inferCall at h
  split_ifs at h with hf
  · simp only [gives_bind, not_gives_throw, false_and, exists_const] at h
  simp only [gives_bind] at h
  obtain ⟨⟨elem, args₁⟩, mid, helem, h⟩ := h
  split at h
  · exact absurd h not_gives_throw
  next params result hsignature =>
  split_ifs at h with harity
  · simp only [gives_bind, not_gives_throw, false_and, exists_const] at h
  simp only [gives_bind, gives_pure, Prod.mk.injEq] at h
  obtain ⟨args₂, _, hargs, ⟨rfl, rfl⟩, rfl⟩ := h
  have hlength : params.length = args₁.length := not_not.mp harity
  cases args with
  | nil =>
    simp only [callElement, gives_pure, Prod.mk.injEq] at helem
    obtain ⟨⟨rfl, rfl⟩, rfl⟩ := helem
    rcases builtinSignature_eq_some hsignature with ⟨-, rfl, -⟩ | ⟨-, rfl, -⟩ <;> cases hlength
  | cons list rest =>
    rcases callElement_elaborates hinfer hcheck helem with ⟨list', hlist, rfl, hsettled⟩ |
      ⟨i, v, list', v', elem', tv, mid', rfl, rfl, rfl, rfl, hopen, hlist, hv⟩
    · rcases builtinSignature_eq_some hsignature with ⟨rfl, rfl, rfl⟩ | ⟨rfl, rfl, rfl⟩
      · obtain rfl : rest = [] := by simpa using hlength
        obtain ⟨l', rfl, hl⟩ := gives_checkEach_one hargs
        exact .len hlist (hcheck hl)
      · have hrest : rest.length = 2 := by simpa using hlength.symm
        have hconcrete := hsettled rfl hrest
        obtain ⟨i, v, rfl⟩ := List.length_eq_two.mp hrest
        obtain ⟨l', _, i', _, v', rfl, hl, hi, hv⟩ := gives_checkEach_three hargs
        exact .storeSettled hlist hconcrete (hcheck hl) (hcheck hi) (hcheck hv)
    · rcases builtinSignature_eq_some hsignature with ⟨hname, -, -⟩ | ⟨-, rfl, rfl⟩
      · exact absurd hname (by decide)
      · obtain ⟨l', _, i', _, v'', rfl, hl, hi, hv'⟩ := gives_checkEach_three hargs
        exact .storeOpen hlist hopen hv (hcheck hl) (hcheck hi) (hcheck hv')

/-- One more level of finding types follows the rules. -/
theorem inferWithin_elaborates {depth : Nat} (hinfer : InfersByRules (inferWithin depth))
    (hcheck : ChecksByRules (checkWithin depth)) : InfersByRules (inferWithin (depth + 1)) := by
  intro e env ty e' env' h
  cases e with
  | lit v =>
    cases v <;> simp only [inferWithin, gives_pure, Prod.mk.injEq] at h <;>
      obtain ⟨⟨rfl, rfl⟩, rfl⟩ := h
    · exact .int
    · exact .bool
  | var x =>
    simp only [inferWithin, gives_bind, gives_lookup, gives_pure, Prod.mk.injEq] at h
    obtain ⟨_, _, ⟨hx, rfl⟩, ⟨rfl, rfl⟩, rfl⟩ := h
    exact .varFound hx
  | binary op l r =>
    simp only [inferWithin, gives_bind, gives_pure, Prod.mk.injEq] at h
    obtain ⟨l', mid, hl, r', _, hr, ⟨rfl, rfl⟩, rfl⟩ := h
    exact .binary (hcheck hl) (hcheck hr)
  | unary op e =>
    simp only [inferWithin, gives_bind, gives_pure, Prod.mk.injEq] at h
    obtain ⟨e', _, he, ⟨rfl, rfl⟩, rfl⟩ := h
    exact .unary (hcheck he)
  | subscript base index =>
    simp only [inferWithin] at h
    split_ifs at h with hslice
    · simp only [gives_bind, gives_pure, Prod.mk.injEq] at h
      obtain ⟨index', _, hi, base₁, _, hb, ⟨_, base₂⟩, _, hb', ⟨rfl, rfl⟩, rfl⟩ := h
      exact .part hslice (hcheck hi) (hcheck hb) (hinfer hb')
    · simp only [gives_bind] at h
      obtain ⟨index', mid, hi, ⟨found, base'⟩, mid', hb, h⟩ := h
      have hindex : index.isSlice = false := by simpa using hslice
      split at h
      · next elem hfound =>
        simp only [gives_pure, Prod.mk.injEq] at h
        obtain ⟨⟨rfl, rfl⟩, rfl⟩ := h
        obtain rfl : found = .array elem := hfound
        exact .elementFound hindex (hcheck hi) (hinfer hb)
      · next hfound =>
        simp only [gives_pure, Prod.mk.injEq] at h
        obtain ⟨⟨rfl, rfl⟩, rfl⟩ := h
        obtain rfl : found = .unknown := hfound
        exact .elementOpen hindex (hcheck hi) (hinfer hb)
      · exact absurd h not_gives_throw
  | slice l u s =>
    simp only [inferWithin, gives_bind, gives_pure, Prod.mk.injEq] at h
    obtain ⟨l', _, hl, u', _, hu, s', _, hs, ⟨rfl, rfl⟩, rfl⟩ := h
    exact .slice (hcheck hl) (hcheck hu) (hcheck hs)
  | sliceFrom l s =>
    simp only [inferWithin, gives_bind, gives_pure, Prod.mk.injEq] at h
    obtain ⟨l', _, hl, s', _, hs, ⟨rfl, rfl⟩, rfl⟩ := h
    exact .sliceFrom (hcheck hl) (hcheck hs)
  | call f args =>
    simp only [inferWithin, gives_bind, gives_pure, Prod.mk.injEq] at h
    obtain ⟨⟨_, args'⟩, _, hcall, ⟨rfl, rfl⟩, rfl⟩ := h
    exact inferCall_elaborates hinfer hcheck hcall
  | forAll x ty body =>
    simp only [inferWithin, gives_bind] at h
    obtain ⟨⟨result, found⟩, mid, hbinder, h⟩ := h
    obtain ⟨inner, hbody, hfound, houter⟩ := gives_withBinder hbinder
    split at h
    · exact absurd h not_gives_throw
    · next body' found hresult hsome =>
      split_ifs at h with hconcrete
      · simp only [gives_pure, Prod.mk.injEq] at h
        obtain ⟨⟨rfl, rfl⟩, rfl⟩ := h
        obtain rfl : result = .ok body' := hresult
        exact .forAll (hcheck hbody) (hfound.symm.trans hsome) hconcrete houter
      · exact absurd h not_gives_throw
    · exact absurd h not_gives_throw

/-- One more level of checking follows the rules. -/
theorem checkWithin_elaborates {depth : Nat} (hinfer : InfersByRules (inferWithin depth))
    (hcheck : ChecksByRules (checkWithin depth)) : ChecksByRules (checkWithin (depth + 1)) := by
  intro expected e env e' env' h
  have hcompared : ∀ {e}, Gives (do
      let result ← inferWithin depth e
      Checking.compare result.2 expected result.1
      return result.2) env e' env' → Elaborates (.against expected) e env e' env' := by
    intro e h
    simp only [gives_bind, gives_compare, gives_pure] at h
    obtain ⟨⟨found, _⟩, _, hfound, _, _, ⟨hfits, rfl⟩, rfl, rfl⟩ := h
    exact .compared (hinfer hfound) hfits
  cases e with
  | var x =>
    simp only [checkWithin, gives_bind, gives_lookup, gives_compare, gives_modify, gives_pure] at h
    obtain ⟨current, _, ⟨hx, rfl⟩, _, _, ⟨hfits, rfl⟩, _, _, rfl, rfl, rfl⟩ := h
    exact .varChecked hx hfits
  | subscript base index =>
    simp only [checkWithin] at h
    split_ifs at h with hslice
    · exact hcompared h
    · simp only [gives_bind, gives_pure] at h
      obtain ⟨index', mid, hi, base', _, hb, rfl, rfl⟩ := h
      exact .elementChecked (by simpa using hslice) (hcheck hi) (hcheck hb)
  | _ =>
    simp only [checkWithin] at h
    exact hcompared h

/-- At every depth the rules are followed, by induction on it. -/
theorem within_elaborates (depth : Nat) :
    InfersByRules (inferWithin depth) ∧ ChecksByRules (checkWithin depth) := by
  induction depth with
  | zero =>
    constructor
    · intro e env ty e' env' h
      simp only [inferWithin] at h
      exact absurd h not_gives_throw
    · intro expected e env e' env' h
      simp only [checkWithin] at h
      exact absurd h not_gives_throw
  | succ depth ih =>
    exact ⟨inferWithin_elaborates ih.1 ih.2, checkWithin_elaborates ih.1 ih.2⟩

/-- Where a type is found, it is found by the rules. -/
theorem infer_elaborates : InfersByRules Expr.infer := fun h => (within_elaborates _).1 h

/-- Where a check succeeds, it does so by the rules. -/
theorem check_elaborates : ChecksByRules Expr.check := fun h => (within_elaborates _).2 h

end Checker

end Expr

end Precond
