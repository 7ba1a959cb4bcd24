import Mathlib.Data.List.Forall2
import Mathlib.Tactic
import Precond.Proofs.StatementTypes

/-!
# What type checking does to the types of variables

A type is `Ty.Below` another one if the second arises from it by putting types for its open parts.
Taking open parts from another type never goes down (`Ty.below_refine`).

`TypeEnv.Gains used added env env'` says that the environment has only gained: every variable is
still there with a type above the old one, none but those in `added` are new, and those not in
`used` are as they were. A computation is `Checking.Gaining` if this is so whenever it ends, with a
result or with a failure. Each way of putting computations together keeps this, so it holds of
inference and checking (`Expr.gaining_infer`, `Expr.gaining_check`), where the variables used are
the free ones, so that a binder leaves nothing behind, and of statements (`Stmt.gaining_check`).
-/

namespace Precond

/-! ## Types with open parts -/

namespace Ty

/-- The second type is the first one with types put for its open parts. -/
inductive Below : Ty → Ty → Prop
  | unknown {b} : Below .unknown b
  | int : Below .int .int
  | bool : Below .bool .bool
  | slice : Below .slice .slice
  | array {a b} (h : Below a b) : Below (.array a) (.array b)
  | arrow {a b c d} (ha : Below a b) (hc : Below c d) : Below (.arrow a c) (.arrow b d)
  | prod {as bs} (hlength : as.length = bs.length) (h : ∀ p ∈ as.zip bs, Below p.1 p.2) :
      Below (.prod as) (.prod bs)

/-- Products are below each other component by component. -/
theorem below_prod {as bs : List Ty} (h : List.Forall₂ Below as bs) :
    Below (.prod as) (.prod bs) := by
  rw [List.forall₂_iff_zip] at h
  exact .prod h.1 fun p hp => h.2 hp

mutual

theorem Below.refl (a : Ty) : Below a a := by
  match a with
  | .unknown => exact .unknown
  | .int => exact .int
  | .bool => exact .bool
  | .slice => exact .slice
  | .array a => exact .array (Below.refl a)
  | .arrow a b => exact .arrow (Below.refl a) (Below.refl b)
  | .prod as => exact below_prod (forall₂_below_refl as)

theorem forall₂_below_refl (as : List Ty) : List.Forall₂ Below as as := by
  match as with
  | [] => exact .nil
  | a :: as => exact .cons (Below.refl a) (forall₂_below_refl as)

end

theorem forall₂_below_of_steps {as bs cs : List Ty}
    (h : List.Forall₂ (fun a b => ∀ {c}, Below b c → Below a c) as bs)
    (h' : List.Forall₂ Below bs cs) : List.Forall₂ Below as cs := by
  induction h generalizing cs with
  | nil =>
    cases h'
    exact .nil
  | cons hab _ ih =>
    cases h' with
    | cons hbc h' => exact .cons (hab hbc) (ih h')

/-- What is put for open parts may have open parts of its own. -/
theorem Below.trans {a b c : Ty} (h : Below a b) (h' : Below b c) : Below a c := by
  induction h generalizing c with
  | unknown => exact .unknown
  | int | bool | slice => exact h'
  | array _ ih =>
    cases h' with
    | array h' => exact .array (ih h')
  | arrow _ _ iha ihc =>
    cases h' with
    | arrow ha hc => exact .arrow (iha ha) (ihc hc)
  | @prod as bs hlength _ ih =>
    cases h' with
    | @prod _ cs hlength' h' =>
      have hfirst : List.Forall₂ (fun a b => ∀ {c}, Below b c → Below a c) as bs :=
        List.forall₂_iff_zip.2 ⟨hlength, fun hp => ih _ hp⟩
      have hsecond : List.Forall₂ Below bs cs :=
        List.forall₂_iff_zip.2 ⟨hlength', fun hp => h' _ hp⟩
      exact below_prod (forall₂_below_of_steps hfirst hsecond)

mutual

/-- Taking open parts from another type does not go down. -/
theorem below_refine (a b : Ty) : Below a (a.refine b) := by
  match a with
  | .unknown => exact .unknown
  | .int => exact .int
  | .bool => exact .bool
  | .slice => exact .slice
  | .array a =>
    cases b with
    | array b => exact .array (below_refine a b)
    | _ => exact .refl _
  | .arrow a c =>
    cases b with
    | arrow b d => exact .arrow (below_refine a b) (below_refine c d)
    | _ => exact .refl _
  | .prod as =>
    cases b with
    | prod bs =>
      rw [refine]
      split_ifs
      · exact below_prod (forall₂_below_refineAll as bs)
      · exact .refl _
    | _ => exact .refl _

theorem forall₂_below_refineAll (as bs : List Ty) : List.Forall₂ Below as (refineAll as bs) := by
  match as, bs with
  | [], _ => exact .nil
  | a :: as, [] => exact forall₂_below_refl (a :: as)
  | a :: as, b :: bs => exact .cons (below_refine a b) (forall₂_below_refineAll as bs)

end

end Ty

/-! ## Environments that gain -/

/-- Every variable is still there, with a type above the one it had; no variable is new but those in
`added`, and those that are not in `used` are as they were. -/
structure TypeEnv.Gains (used added : List String) (env env' : TypeEnv) : Prop where
  kept : ∀ {x a}, env.get? x = some a → ∃ b, env'.get? x = some b ∧ a.Below b
  new : ∀ {x}, env.get? x = none → x ∉ added → env'.get? x = none
  same : ∀ {x}, x ∉ used → env'.get? x = env.get? x

namespace TypeEnv.Gains

variable {used used' added added' : List String} {env mid env' : TypeEnv}

theorem refl (used added : List String) (env : TypeEnv) : Gains used added env env :=
  ⟨fun hx => ⟨_, hx, .refl _⟩, fun hx _ => hx, fun _ => rfl⟩

/-- Gains add up. -/
theorem trans (h : Gains used added env mid) (h' : Gains used added mid env') :
    Gains used added env env' := by
  refine ⟨fun hx => ?_, fun hx hnew => h'.new (h.new hx hnew) hnew,
    fun hx => (h'.same hx).trans (h.same hx)⟩
  obtain ⟨b, hb, hab⟩ := h.kept hx
  obtain ⟨c, hc, hbc⟩ := h'.kept hb
  exact ⟨c, hc, hab.trans hbc⟩

/-- More variables may be allowed to change and to be new. -/
theorem mono (h : Gains used added env env') (hused : used ⊆ used') (hadded : added ⊆ added') :
    Gains used' added' env env' :=
  ⟨h.kept, fun hx hnew => h.new hx fun hmem => hnew (hadded hmem),
    fun hx => h.same fun hmem => hx (hused hmem)⟩

/-- In the end a variable gets a type above the one it had at the start. -/
theorem insert {x : String} {a b : Ty} (h : Gains used added env env')
    (hx : env.get? x = some a) (hab : a.Below b) (hused : x ∈ used) :
    Gains used added env (env'.insert x b) := by
  refine ⟨fun {y c} hy => ?_, fun {y} hy hnew => ?_, fun {y} hy => ?_⟩
  · rw [Bindings.get?_insert]
    split_ifs with hyx
    · obtain rfl := Option.some.inj (hx.symm.trans (hyx ▸ hy))
      exact ⟨b, rfl, hab⟩
    · exact h.kept hy
  · have hyx : y ≠ x := by
      rintro rfl
      simp [hx] at hy
    simpa [hyx] using h.new hy hnew
  · have hyx : y ≠ x := fun hyx => hy (hyx ▸ hused)
    simpa [hyx] using h.same hy

/-- A variable is added. -/
theorem insert_new {x : String} (hx : env.get? x = none) (b : Ty) (hused : x ∈ used)
    (hadded : x ∈ added) : Gains used added env (env.insert x b) := by
  refine ⟨fun {y c} hy => ⟨c, ?_, .refl _⟩, fun {y} hy hnew => ?_, fun {y} hy => ?_⟩
  · have hyx : y ≠ x := by
      rintro rfl
      simp [hx] at hy
    simpa [hyx] using hy
  · have hyx : y ≠ x := fun hyx => hnew (hyx ▸ hadded)
    simpa [hyx] using hy
  · have hyx : y ≠ x := fun hyx => hy (hyx ▸ hused)
    simp [hyx]

/-- Outside a binder only the other variables have gained. -/
theorem outside {inner : TypeEnv} {x : String} {ty : Ty} {xs : List String}
    (h : Gains xs [] (env.insert x ty) inner)
    (houter : ∀ y, env'.get? y = if y = x then env.get? x else inner.get? y) :
    Gains (xs.filter (· ≠ x)) [] env env' := by
  refine ⟨fun {y a} hy => ?_, fun {y} hy hnew => ?_, fun {y} hy => ?_⟩ <;> rw [houter]
  · split_ifs with hyx
    · exact ⟨a, hyx ▸ hy, .refl _⟩
    · exact h.kept (by simpa [hyx] using hy)
  · split_ifs with hyx
    · exact hyx ▸ hy
    · exact h.new (by simpa [hyx] using hy) hnew
  · split_ifs with hyx
    · rw [hyx]
    · rw [h.same fun hmem => hy (by simp [hmem, hyx])]
      simp [hyx]

end TypeEnv.Gains

/-! ## Computations that gain -/

namespace Checking

variable {α β : Type} {used used' added added' : List String}

/-- The environment after a computation, whether it succeeds or fails. -/
def after (c : Checking α) (env : TypeEnv) : TypeEnv := (c.run.run env).2

/-- However the computation ends, the environment has only gained. -/
def Gaining (used added : List String) (c : Checking α) : Prop :=
  ∀ env, TypeEnv.Gains used added env (c.after env)

/-- After a computation that succeeds, the environment is the one that it gives. -/
theorem Gives.after_eq {c : Checking α} {env env' : TypeEnv} {a : α} (h : Gives c env a env') :
    c.after env = env' := by
  rw [after, h]

/-- What follows is run after a success only. -/
theorem gains_bind_start {c : Checking α} {f : α → Checking β} {env : TypeEnv}
    (hc : TypeEnv.Gains used added env (c.after env))
    (hf : ∀ {a mid}, Gives c env a mid → TypeEnv.Gains used added env ((f a).after mid)) :
    TypeEnv.Gains used added env ((c >>= f).after env) := by
  rw [after] at hc ⊢
  rw [run_bind]
  rcases hrun : c.run.run env with ⟨_ | a, mid⟩
  · rwa [hrun] at hc
  · exact hf hrun

/-- Two computations in a row gain if the first one does, and the second one wherever the first one
succeeds. -/
theorem gains_bind {c : Checking α} {f : α → Checking β} {env : TypeEnv}
    (hc : TypeEnv.Gains used added env (c.after env))
    (hf : ∀ {a mid}, Gives c env a mid → TypeEnv.Gains used added mid ((f a).after mid)) :
    TypeEnv.Gains used added env ((c >>= f).after env) := by
  refine gains_bind_start hc fun {a mid} hgives => ?_
  rw [hgives.after_eq] at hc
  exact hc.trans (hf hgives)

theorem Gaining.bind {c : Checking α} {f : α → Checking β} (hc : Gaining used added c)
    (hf : ∀ {env a mid}, Gives c env a mid → TypeEnv.Gains used added mid ((f a).after mid)) :
    Gaining used added (c >>= f) :=
  fun env => gains_bind (hc env) hf

theorem Gaining.mono {c : Checking α} (h : Gaining used added c) (hused : used ⊆ used')
    (hadded : added ⊆ added') : Gaining used' added' c :=
  fun env => (h env).mono hused hadded

theorem Gaining.widen {c : Checking α} (h : Gaining used added c) (hused : used ⊆ used') :
    Gaining used' added c :=
  h.mono hused (List.Subset.refl added)

theorem gaining_pure (a : α) : Gaining used added (pure a) := fun env => .refl _ _ env

theorem gaining_throw (e : Error) : Gaining used added (throw e : Checking α) :=
  fun env => .refl _ _ env

theorem gaining_get : Gaining used added (get : Checking TypeEnv) := fun env => .refl _ _ env

/-- To look a variable up changes nothing. -/
theorem gaining_lookup (x : String) : Gaining used added (lookup x) := by
  refine gaining_get.bind fun {_ known mid} _ => ?_
  cases known.get? x with
  | none => exact gaining_throw _ mid
  | some ty => exact gaining_pure ty mid

theorem gaining_compare (e : Expr) (expected found : Ty) :
    Gaining used added (compare e expected found) := by
  unfold compare
  split_ifs
  · exact gaining_pure _
  · exact gaining_throw _

/-- A binder leaves nothing behind, whatever becomes of the computation inside it. -/
theorem gaining_withBinder {c : Checking α} (h : Gaining used [] c) (x : String) (ty : Ty) :
    Gaining (used.filter (· ≠ x)) [] (withBinder x ty c) := by
  intro env
  obtain ⟨r, env', hrun⟩ : ∃ r env', Gives (withBinder x ty c) env r env' := ⟨_, _, rfl⟩
  obtain ⟨inner, hinner, -, houter⟩ := gives_withBinder hrun
  have hgains := h (env.insert x ty)
  rw [after, hinner] at hgains
  rw [hrun.after_eq]
  exact hgains.outside houter

end Checking

/-! ## Expressions -/

namespace Expr

open Checking

/-- The function makes the types of free variables more precise and does nothing else to the
environment. -/
def GainsBy {α : Type} (f : Expr → Checking α) : Prop :=
  ∀ e, Gaining e.freeVars [] (f e)

section Calls

variable {infer : Expr → Checking (Ty × Expr)} {check : Ty → Expr → Checking Expr}

/-- By induction on the list: checking its members makes only their free variables more precise. -/
theorem gaining_checkEach (hcheck : ∀ ty, GainsBy (check ty)) (tys : List Ty) (es : List Expr) :
    Gaining (freeVarsAll es) [] (checkEach check tys es) := by
  induction es generalizing tys with
  | nil => cases tys <;> exact gaining_pure _
  | cons e es ih =>
    cases tys with
    | nil => exact gaining_pure _
    | cons ty tys =>
      have hfirst := (hcheck ty e).widen (List.subset_append_left _ (freeVarsAll es))
      have hrest := (ih tys).widen (List.subset_append_right e.freeVars _)
      refine hfirst.bind fun {_ _ mid} _ => ?_
      exact hrest.bind (fun _ => gaining_pure _ _) mid

theorem gaining_elementType (hinfer : GainsBy infer) (hcheck : ∀ ty, GainsBy (check ty))
    (hrules : ChecksByRules check) : GainsBy (elementType infer check) := by
  intro e
  refine (hcheck _ e).bind fun {_ e₁ mid} h₁ => ?_
  rw [← freeVars_eq_of_untyped (hrules h₁).accepts.untyped]
  refine (hinfer e₁).bind (fun {_ r mid} _ => ?_) mid
  obtain ⟨ty, e₂⟩ := r
  cases ty <;> exact gaining_pure _ mid

theorem gaining_callElement (hinfer : GainsBy infer) (hcheck : ∀ ty, GainsBy (check ty))
    (hrules : ChecksByRules check) (f : String) (args : List Expr) :
    Gaining (freeVarsAll args) [] (callElement infer check f args) := by
  cases args with
  | nil => exact gaining_pure _
  | cons list args =>
    have hlist := (gaining_elementType hinfer hcheck hrules list).widen
      (List.subset_append_left _ (freeVarsAll args))
    refine hlist.bind fun {_ r mid} _ => ?_
    obtain ⟨elem, list'⟩ := r
    dsimp only
    split_ifs
    · split
      · next i value =>
        have hvalue : value.freeVars ⊆ freeVarsAll (list :: [i, value]) := by simp [freeVarsAll]
        exact ((hinfer value).widen hvalue).bind (fun _ => gaining_pure _ _) mid
      · exact gaining_pure _ mid
    · exact gaining_pure _ mid

/-- Finding the type of a call makes only the free variables of its arguments more precise. -/
theorem gaining_inferCall (hinfer : GainsBy infer) (hcheck : ∀ ty, GainsBy (check ty))
    (hinfers : InfersByRules infer) (hchecks : ChecksByRules check) (f : String)
    (args : List Expr) : Gaining (freeVarsAll args) [] (inferCall infer check f args) := by
  unfold inferCall
  split_ifs
  · exact (gaining_throw _).bind fun {_ _ mid} h => absurd h not_gives_throw
  refine (gaining_callElement hinfer hcheck hchecks f args).bind fun {env r mid} helem => ?_
  obtain ⟨elem, args'⟩ := r
  have hargs : freeVarsAll args' = freeVarsAll args := by
    rw [← freeVarsAll_untypedAll args', untypedAll_of_callElement hinfers hchecks helem,
      freeVarsAll_untypedAll]
  dsimp only
  split
  · exact gaining_throw _ mid
  · split_ifs
    · exact (gaining_throw _).bind (fun h => absurd h not_gives_throw) mid
    · rw [← hargs]
      exact (gaining_checkEach hcheck _ args').bind (fun _ => gaining_pure _ _) mid

end Calls

/-- One more level of finding types gains. -/
theorem gainsBy_inferWithin {depth : Nat} (hinfer : GainsBy (inferWithin depth))
    (hcheck : ∀ ty, GainsBy (checkWithin depth ty)) : GainsBy (inferWithin (depth + 1)) := by
  obtain ⟨hinfers, hchecks⟩ := within_elaborates depth
  intro e
  cases e with
  | lit v => cases v <;> exact gaining_pure _
  | var x => exact (gaining_lookup x).bind fun _ => gaining_pure _ _
  | binary op l r =>
    have hl := (hcheck op.types.1 l).widen (List.subset_append_left _ r.freeVars)
    have hr := (hcheck op.types.1 r).widen (List.subset_append_right l.freeVars _)
    exact hl.bind fun {_ _ mid} _ => hr.bind (fun _ => gaining_pure _ _) mid
  | unary op e => exact (hcheck op.types.1 e).bind fun _ => gaining_pure _ _
  | subscript base index =>
    have hi ty := (hcheck ty index).widen (List.subset_append_right base.freeVars _)
    have hb ty := (hcheck ty base).widen (List.subset_append_left _ index.freeVars)
    simp only [inferWithin]
    split_ifs
    · refine (hi .slice).bind fun {_ index' mid} _ => ?_
      refine (hb (.array .unknown)).bind (fun {_ base' mid} hbase => ?_) mid
      -- the list has come back with the same free variables
      have hb' := (hinfer base').widen (List.subset_append_left _ index.freeVars)
      rw [freeVars_eq_of_untyped (hchecks hbase).accepts.untyped] at hb'
      exact hb'.bind (fun _ => gaining_pure _ _) mid
    · refine (hi .int).bind fun {_ index' mid} _ => ?_
      have hb' := (hinfer base).widen (List.subset_append_left _ index.freeVars)
      refine hb'.bind (fun {_ r mid} _ => ?_) mid
      obtain ⟨ty, base'⟩ := r
      cases ty
      case array | unknown => exact gaining_pure _ mid
      all_goals exact gaining_throw _ mid
  | slice l u s =>
    have hl := (hcheck .int l).widen (List.subset_append_left _ u.freeVars)
    have hu := (hcheck .int u).widen (List.subset_append_right l.freeVars _)
    have hs := (hcheck .int s).widen (List.subset_append_right (l.freeVars ++ u.freeVars) _)
    have hleft := List.subset_append_left (l.freeVars ++ u.freeVars) s.freeVars
    refine (hl.widen hleft).bind fun {_ _ mid} _ => ?_
    refine (hu.widen hleft).bind (fun {_ _ mid} _ => ?_) mid
    exact hs.bind (fun _ => gaining_pure _ _) mid
  | sliceFrom l s =>
    have hl := (hcheck .int l).widen (List.subset_append_left _ s.freeVars)
    have hs := (hcheck .int s).widen (List.subset_append_right l.freeVars _)
    exact hl.bind fun {_ _ mid} _ => hs.bind (fun _ => gaining_pure _ _) mid
  | call f args =>
    exact (gaining_inferCall hinfer hcheck hinfers hchecks f args).bind fun _ => gaining_pure _ _
  | forAll x ty body =>
    refine (gaining_withBinder (hcheck .bool body) x (ty.getD .unknown)).bind fun {_ r mid} _ => ?_
    obtain ⟨result, found⟩ := r
    dsimp only
    split
    · exact gaining_throw _ mid
    · split_ifs
      · exact gaining_pure _ mid
      · exact gaining_throw _ mid
    · exact gaining_throw _ mid

/-- One more level of checking gains. -/
theorem gainsBy_checkWithin {depth : Nat} (hinfer : GainsBy (inferWithin depth))
    (hcheck : ∀ ty, GainsBy (checkWithin depth ty)) (expected : Ty) :
    GainsBy (checkWithin (depth + 1) expected) := by
  -- a comparison of types does nothing to them
  have hcompared : ∀ e, Gaining e.freeVars [] (do
      let result ← inferWithin depth e
      Checking.compare result.2 expected result.1
      return result.2) := fun e =>
    (hinfer e).bind fun {_ _ mid} _ =>
      (gaining_compare _ _ _).bind (fun _ => gaining_pure _ _) mid
  intro e
  cases e with
  | var x =>
    intro env
    refine gains_bind (gaining_lookup x env) fun {current mid} hx => ?_
    obtain ⟨hcurrent, rfl⟩ := gives_lookup.1 hx
    refine gains_bind (gaining_compare _ _ _ env) fun {_ mid} hfits => ?_
    obtain ⟨-, rfl⟩ := gives_compare.1 hfits
    refine gains_bind ?_ fun _ => gaining_pure _ _
    exact (TypeEnv.Gains.refl _ _ env).insert hcurrent (Ty.below_refine current expected)
      (List.mem_singleton_self x)
  | subscript base index =>
    simp only [checkWithin]
    split_ifs
    · exact hcompared _
    · have hi := (hcheck .int index).widen (List.subset_append_right base.freeVars _)
      have hb := (hcheck (.array expected) base).widen (List.subset_append_left _ index.freeVars)
      exact hi.bind fun {_ _ mid} _ => hb.bind (fun _ => gaining_pure _ _) mid
  | _ => exact hcompared _

/-- At every depth only free variables become more precise, by induction on it. -/
theorem gainsBy_within (depth : Nat) :
    GainsBy (inferWithin depth) ∧ ∀ ty, GainsBy (checkWithin depth ty) := by
  induction depth with
  | zero =>
    constructor
    · intro e
      rw [inferWithin]
      exact gaining_throw _
    · intro ty e
      rw [checkWithin]
      exact gaining_throw _
  | succ depth ih => exact ⟨gainsBy_inferWithin ih.1 ih.2, gainsBy_checkWithin ih.1 ih.2⟩

/-- Inference only makes the types of free variables more precise, also where it fails. -/
theorem gaining_infer (e : Expr) : Gaining e.freeVars [] e.infer := (gainsBy_within _).1 e

/-- So does checking against a type. -/
theorem gaining_check (expected : Ty) (e : Expr) : Gaining e.freeVars [] (e.check expected) :=
  (gainsBy_within _).2 expected e

theorem gaining_checkAll (expected : Ty) (es : List Expr) :
    Gaining (freeVarsAll es) [] (checkAll expected es) := by
  induction es with
  | nil => exact gaining_pure _
  | cons e es ih =>
    have he := (gaining_check expected e).widen (List.subset_append_left _ (freeVarsAll es))
    have hes := ih.widen (List.subset_append_right e.freeVars _)
    exact he.bind fun {_ _ mid} _ => hes.bind (fun _ => gaining_pure _ _) mid

/-- The variable of an assignment is added if it was not there. If it was, it gets a type above the
one that it has when the value has been looked at for the first time. -/
theorem gaining_checkAssigned (x : String) (value : Expr) :
    Gaining (value.freeVars ++ [x]) [x] (value.checkAssigned x) := by
  intro env
  have hsub : value.freeVars ⊆ value.freeVars ++ [x] := List.subset_append_left _ _
  have hx : x ∈ value.freeVars ++ [x] := by simp
  have hvalue := (gaining_infer value).mono hsub (List.nil_subset [x])
  refine gains_bind (hvalue env) fun {r mid} hinfer => ?_
  obtain ⟨found, value'⟩ := r
  refine gains_bind (gaining_get mid) fun {_ _} hget => ?_
  obtain ⟨rfl, rfl⟩ := gives_get.1 hget
  dsimp only
  split
  · next hnew =>
    refine gains_bind ?_ fun _ => gaining_pure _ _
    exact .insert_new hnew found hx (List.mem_singleton_self x)
  · next current hcurrent =>
    split_ifs
    · have hsub' : value'.freeVars ⊆ value.freeVars ++ [x] :=
        freeVars_eq_of_untyped (infer_accepts hinfer).untyped ▸ hsub
      have hagain := (gaining_check (current.refine found) value').mono hsub'
        (List.nil_subset [x]) mid
      refine gains_bind_start hagain fun hvalue' => ?_
      rw [hvalue'.after_eq] at hagain
      exact hagain.insert hcurrent (Ty.below_refine current found) hx
    · exact gaining_throw _ mid

end Expr

/-! ## Statements -/

namespace Stmt

open Checking

/-- The variables that a statement may give another type: those it reads and those it writes. -/
def typedVars (s : Stmt) : List String := s.freeVars ++ s.writtenVars

section Parts

variable {α : Type} {c : Checking α} {s t : Stmt}

/-- A part of a statement may change the types that the statement may change. -/
theorem gaining_of_stmt (h : Gaining s.typedVars s.writtenVars c) (hread : s.freeVars ⊆ t.freeVars)
    (hwritten : s.writtenVars ⊆ t.writtenVars) : Gaining t.typedVars t.writtenVars c :=
  h.mono (List.append_subset.2 ⟨List.subset_append_of_subset_left _ hread,
    List.subset_append_of_subset_right _ hwritten⟩) hwritten

theorem gaining_of_expr {used : List String} (h : Gaining used [] c) (hread : used ⊆ s.freeVars) :
    Gaining s.typedVars s.writtenVars c :=
  h.mono (List.subset_append_of_subset_left _ hread) (List.nil_subset _)

end Parts

/-- Checking a statement makes the types of the variables it uses more precise, and adds none but
those it writes, also where it fails. -/
theorem gaining_check (s : Stmt) : Gaining s.typedVars s.writtenVars s.check := by
  induction s with
  | skip => exact gaining_pure _
  | assign x e => exact (Expr.gaining_checkAssigned x e).bind fun _ => gaining_pure _ _
  | assume e | assert e =>
    refine (gaining_of_expr (Expr.gaining_check .bool e) ?_).bind fun _ => gaining_pure _ _
    exact List.Subset.refl e.freeVars
  | seq s t ihs iht =>
    have hs : Gaining (seq s t).typedVars (seq s t).writtenVars s.check :=
      gaining_of_stmt ihs (List.subset_append_left _ _) fun x hx => mem_writtenVars_seq.2 (.inl hx)
    have ht : Gaining (seq s t).typedVars (seq s t).writtenVars t.check :=
      gaining_of_stmt iht (List.subset_append_right _ _) fun x hx => mem_writtenVars_seq.2 (.inr hx)
    exact hs.bind fun {_ _ mid} _ => ht.bind (fun _ => gaining_pure _ _) mid
  | branch c s t ihs iht =>
    have hc : Gaining (branch c s t).typedVars (branch c s t).writtenVars (c.check .bool) :=
      gaining_of_expr (Expr.gaining_check .bool c) (by simp [freeVars])
    have hs : Gaining (branch c s t).typedVars (branch c s t).writtenVars s.check :=
      gaining_of_stmt ihs (by simp [freeVars]) fun x hx => mem_writtenVars_branch.2 (.inl hx)
    have ht : Gaining (branch c s t).typedVars (branch c s t).writtenVars t.check :=
      gaining_of_stmt iht (by simp [freeVars]) fun x hx => mem_writtenVars_branch.2 (.inr hx)
    refine hc.bind fun {_ _ mid} _ => ?_
    refine hs.bind (fun {_ _ mid} _ => ?_) mid
    exact ht.bind (fun _ => gaining_pure _ _) mid
  | loop es c s ih =>
    have hes : Gaining (loop es c s).typedVars (loop es c s).writtenVars (Expr.checkAll .bool es) :=
      gaining_of_expr (Expr.gaining_checkAll .bool es) (by simp [freeVars])
    have hc : Gaining (loop es c s).typedVars (loop es c s).writtenVars (c.check .bool) :=
      gaining_of_expr (Expr.gaining_check .bool c) (by simp [freeVars])
    have hs : Gaining (loop es c s).typedVars (loop es c s).writtenVars s.check :=
      gaining_of_stmt ih (by simp [freeVars]) (List.Subset.refl _)
    refine hes.bind fun {_ _ mid} _ => ?_
    refine hc.bind (fun {_ _ mid} _ => ?_) mid
    exact hs.bind (fun _ => gaining_pure _ _) mid
  | havoc x =>
    intro env
    have hwritten : x ∈ (havoc x).writtenVars := by simp [writtenVars, addWritten, addName]
    refine gains_bind ?_ fun _ => gaining_pure _ _
    change TypeEnv.Gains _ _ env (if env.contains x then env else env.insert x .unknown)
    split_ifs with hx
    · exact .refl _ _ env
    · have hnew : env.get? x = none := by simpa [Bindings.contains] using hx
      exact .insert_new hnew .unknown (List.mem_append_right _ hwritten) hwritten

end Stmt

end Precond
