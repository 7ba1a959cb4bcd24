import Mathlib.Tactic
import Precond.Proofs.Checking
import Precond.Typing.Function

/-!
# Type checking in place

The type checker gives back the expression with types at its quantifiers, and it gives back nothing
if it fails. Here it is written once more, as a program that puts these types into the tree it is
called on. What such a program has written stays there when it fails later on: `InPlace τ` is the
type of computations that end with a tree of type `τ` in any case.

The two are the same program. Without the tree of the failed runs (`InPlace.toChecking`), type
checking in place is type checking, with the same result, the same error and the same types of
variables (`InPlace.toChecking_infer`, `InPlace.toChecking_check`, `InPlace.toChecking_checkStmt`).
-/

namespace Precond

/-- A computation on a tree, which it changes in place, and on the types of the variables. It may
fail, and keeps what it has written by then. -/
abbrev InPlace (τ : Type) := ExceptT Error (StateM (TypeEnv × τ))

/-- Computations are the same if they come to the same from everywhere. -/
theorem Checking.ext {α : Type} {c d : Checking α}
    (h : ∀ env, c.run.run env = d.run.run env) : c = d :=
  ExceptT.ext (StateT.ext h)

/-- A binder has its own type inside, and what it had before outside, however the computation ends.
-/
theorem Checking.run_withBinder {α : Type} (x : String) (ty : Ty) (c : Checking α)
    (env : TypeEnv) :
    (withBinder x ty c).run.run env =
      (.ok ((c.run.run (env.insert x ty)).1, (c.run.run (env.insert x ty)).2.get? x),
        match env.get? x with
        | some before => (c.run.run (env.insert x ty)).2.insert x before
        | none => (c.run.run (env.insert x ty)).2.erase x) := by
  rfl

/-- What is done to the result of a computation can be done outside of a binder. -/
theorem Checking.withBinder_map {α β : Type} (x : String) (ty : Ty) (c : Checking α)
    (f : α → β) :
    withBinder x ty (f <$> c) = (fun r => (r.1.map f, r.2)) <$> withBinder x ty c := by
  refine Checking.ext fun env => ?_
  rw [map_eq_pure_bind, map_eq_pure_bind, run_bind, run_withBinder, run_withBinder, run_bind]
  rcases c.run.run (env.insert x ty) with ⟨_ | a, env'⟩ <;> rfl

namespace InPlace

variable {σ τ α β : Type}

/-! ## Steps -/

/-- The tree as it is now. -/
def tree : InPlace τ τ := do return (← get).2

/-- Replaces the tree. -/
def setTree (t : τ) : InPlace τ Unit := modify fun s => (s.1, t)

/-- A computation that leaves the tree alone. -/
def onTypes (c : Checking α) : InPlace τ α :=
  ExceptT.mk fun s => ((c.run.run s.1).1, (c.run.run s.1).2, s.2)

/-- Runs a computation on the part `p` of the tree, and gives its result with what became of the
part. The tree is `put p` for the part that stands there. -/
def part (put : σ → τ) (p : σ) (c : InPlace σ α) : InPlace τ (α × σ) :=
  ExceptT.mk fun s =>
    let r := c.run.run (s.1, p)
    (r.1.map (·, r.2.2), r.2.1, put r.2.2)

/-- Runs a computation in which `x` has a type of its own, and gives its result and what became of
that type. Outside, `x` is as before, also if the computation fails. -/
def withBinder (x : String) (ty : Ty) (c : InPlace τ α) : InPlace τ (α × Option Ty) :=
  ExceptT.mk fun s =>
    let r := c.run.run (s.1.insert x ty, s.2)
    let outer :=
      match s.1.get? x with
      | some before => r.2.1.insert x before
      | none => r.2.1.erase x
    (r.1.map (·, r.2.1.get? x), outer, r.2.2)

/-! ## Expressions -/

/-- Checks the members of a list against types, one by one. -/
def checkEach (check : Ty → Expr → InPlace Expr Unit) :
    List Ty → List Expr → InPlace (List Expr) Unit
  | ty :: tys, e :: es => do
    let (_, e) ← part (· :: es) e (check ty e)
    let _ ← part (e :: ·) es (checkEach check tys es)
  | _, _ => return ()

/-- The type of the elements of a list argument. -/
def elementType (infer : Expr → InPlace Expr Ty) (check : Ty → Expr → InPlace Expr Unit)
    (e : Expr) : InPlace Expr Ty := do
  check (.array .unknown) e
  match ← infer (← tree) with
  | .array elem => return elem
  | _ => return .unknown

/-- Finds the type of elements at which a built-in function is called: that of its list, or else
that of the value to be stored. -/
def callElement (infer : Expr → InPlace Expr Ty) (check : Ty → Expr → InPlace Expr Unit)
    (f : String) : List Expr → InPlace (List Expr) Ty
  | [] => return .unknown
  | list :: args => do
    let (elem, list) ← part (· :: args) list (elementType infer check list)
    if f = "store" && !elem.isConcrete then
      match args with
      | [i, value] =>
        let (found, _) ← part (fun value => [list, i, value]) value (infer value)
        return elem.refine found
      | _ => return elem
    else return elem

/-- The result type of a call of a built-in function. -/
def inferCall (infer : Expr → InPlace Expr Ty) (check : Ty → Expr → InPlace Expr Unit)
    (f : String) (args : List Expr) : InPlace (List Expr) Ty := do
  if (builtinSignature? f .unknown).isNone then
    throw (.type (.unknownFunction f (Name.suggestion? f builtinNames)) none)
  let elem ← callElement infer check f args
  match builtinSignature? f elem with
  | none => throw (.type (.unknownFunction f none) none)
  | some (params, result) =>
    let args ← tree
    if params.length ≠ args.length then
      throw (.type (.arity f params.length args.length) none)
    checkEach check params args
    return result

mutual

/-- The type of an expression, which is the tree, for a bound on the depth of calls. -/
def inferWithin : (depth : Nat) → Expr → InPlace Expr Ty
  | 0, _ => throw (.type .tooDeep none)
  | depth + 1, e =>
    match e with
    | .lit (.int _) => return .int
    | .lit (.bool _) => return .bool
    | .var x => onTypes (Checking.lookup x)
    | .binary op l r => do
      let (_, l) ← part (.binary op · r) l (checkWithin depth op.types.1 l)
      let _ ← part (.binary op l ·) r (checkWithin depth op.types.1 r)
      return op.types.2
    | .unary op e => do
      let _ ← part (.unary op ·) e (checkWithin depth op.types.1 e)
      return op.types.2
    | .subscript base index => do
      if index.isSlice then
        let (_, index) ← part (.subscript base ·) index (checkWithin depth .slice index)
        let (_, base) ← part (.subscript · index) base (checkWithin depth (.array .unknown) base)
        let (ty, _) ← part (.subscript · index) base (inferWithin depth base)
        return ty
      let (_, index) ← part (.subscript base ·) index (checkWithin depth .int index)
      let (ty, base) ← part (.subscript · index) base (inferWithin depth base)
      match ty with
      | .array elem => return elem
      | .unknown => return .unknown
      | other => throw (.type (.notSubscriptable base other) none)
    | .slice lower upper step => do
      let (_, lower) ← part (.slice · upper step) lower (checkWithin depth .int lower)
      let (_, upper) ← part (.slice lower · step) upper (checkWithin depth .int upper)
      let _ ← part (.slice lower upper ·) step (checkWithin depth .int step)
      return .slice
    | .sliceFrom lower step => do
      let (_, lower) ← part (.sliceFrom · step) lower (checkWithin depth .int lower)
      let _ ← part (.sliceFrom lower ·) step (checkWithin depth .int step)
      return .slice
    | .call f args => do
      let (ty, _) ← part (.call f ·) args (inferCall (inferWithin depth) (checkWithin depth) f args)
      return ty
    | .forAll x ty body => do
      let ((_, found), body) ← part (.forAll x ty ·) body
        (withBinder x (ty.getD .unknown) (checkWithin depth .bool body))
      match found with
      | some found =>
        if found.isConcrete then
          -- the only place at which the tree is written to
          setTree (.forAll x (some found) body)
          return .bool
        else throw (.type (.unresolvedQuantifier x) none)
      | none => throw (.type (.unresolvedQuantifier x) none)

/-- Makes sure that an expression, which is the tree, has the expected type, for a bound on the
depth of calls. -/
def checkWithin : (depth : Nat) → Ty → Expr → InPlace Expr Unit
  | 0, _, _ => throw (.type .tooDeep none)
  | depth + 1, expected, e =>
    match e with
    | .var x => onTypes do
      let current ← Checking.lookup x
      Checking.compare (.var x) expected current
      modify (·.insert x (current.refine expected))
    | .subscript base index => do
      if index.isSlice then
        let found ← inferWithin depth (.subscript base index)
        onTypes (Checking.compare (← tree) expected found)
      else
        let (_, index) ← part (.subscript base ·) index (checkWithin depth .int index)
        let _ ← part (.subscript · index) base (checkWithin depth (.array expected) base)
    | e => do
      let found ← inferWithin depth e
      onTypes (Checking.compare (← tree) expected found)

end

/-- The type of an expression, which is the tree. -/
def infer (e : Expr) : InPlace Expr Ty := inferWithin e.checkDepth e

/-- Makes sure that an expression, which is the tree, has the expected type. -/
def check (expected : Ty) (e : Expr) : InPlace Expr Unit := checkWithin e.checkDepth expected e

/-! ## Statements -/

/-- Makes sure that all expressions of a list have the expected type. -/
def checkAll (expected : Ty) : List Expr → InPlace (List Expr) Unit
  | [] => return ()
  | e :: es => do
    let (_, e) ← part (· :: es) e (check expected e)
    let _ ← part (e :: ·) es (checkAll expected es)

/-- Checks the assignment of a value, which is the tree, to a variable. -/
def checkAssigned (x : String) (value : Expr) : InPlace Expr Unit := do
  let found ← infer value
  match (← onTypes get).get? x with
  | none => onTypes (modify (·.insert x found))
  | some current =>
    if current.compatible found then
      let refined := current.refine found
      check refined (← tree)
      onTypes (modify (·.insert x refined))
    else throw (.type (.mutation x current (← tree) found) none)

/-- Makes sure that the types of a statement, which is the tree, fit. -/
def checkStmt : Stmt → InPlace Stmt Unit
  | .skip => return ()
  | .assign x value => do
    let _ ← part (.assign x ·) value (checkAssigned x value)
  | .seq first second => do
    let (_, first) ← part (.seq · second) first (checkStmt first)
    let _ ← part (.seq first ·) second (checkStmt second)
  | .branch cond thenBranch elseBranch => do
    let (_, cond) ← part (.branch · thenBranch elseBranch) cond (check .bool cond)
    let (_, thenBranch) ← part (.branch cond · elseBranch) thenBranch (checkStmt thenBranch)
    let _ ← part (.branch cond thenBranch ·) elseBranch (checkStmt elseBranch)
  | .assume cond => do
    let _ ← part (.assume ·) cond (check .bool cond)
  | .assert cond => do
    let _ ← part (.assert ·) cond (check .bool cond)
  | .loop invariants cond body => do
    let (_, invariants) ← part (.loop · cond body) invariants (checkAll .bool invariants)
    let (_, cond) ← part (.loop invariants · body) cond (check .bool cond)
    let _ ← part (.loop invariants cond ·) body (checkStmt body)
  | .havoc x => onTypes (modify fun env => if env.contains x then env else env.insert x .unknown)

/-! ## What the tree is in the end -/

/-- The tree after a computation on `t`, whether it succeeds or fails. -/
def treeAfter (c : InPlace τ α) (env : TypeEnv) (t : τ) : τ := (c.run.run (env, t)).2.2

/-- A computation in place as one that gives back the tree, and nothing if it fails. -/
def toChecking (c : InPlace τ α) (t : τ) : Checking (α × τ) :=
  ExceptT.mk fun env =>
    let r := c.run.run (env, t)
    (r.1.map (·, r.2.2), r.2.1)

section Steps

variable {t : τ} {env : TypeEnv} {s : TypeEnv × τ}

/-- What follows is run after a success only, on the tree that was left. -/
theorem run_bind (c : InPlace τ α) (f : α → InPlace τ β) :
    (c >>= f).run.run s =
      match c.run.run s with
      | (.ok a, s) => (f a).run.run s
      | (.error e, s) => (.error e, s) := by
  rw [ExceptT.run_bind, StateT.run_bind]
  rcases c.run.run s with ⟨_ | _, _⟩ <;> rfl

/-- A computation on types does not touch the tree. -/
theorem run_onTypes (c : Checking α) :
    (onTypes c : InPlace τ α).run.run s = ((c.run.run s.1).1, (c.run.run s.1).2, s.2) :=
  rfl

/-- A part is changed in its place, whatever becomes of the computation on it. -/
theorem run_part (put : σ → τ) (p : σ) (c : InPlace σ α) :
    (part put p c).run.run s =
      ((c.run.run (s.1, p)).1.map (·, (c.run.run (s.1, p)).2.2), (c.run.run (s.1, p)).2.1,
        put (c.run.run (s.1, p)).2.2) :=
  rfl

theorem run_withBinder (x : String) (ty : Ty) (c : InPlace τ α) :
    (withBinder x ty c).run.run s =
      ((c.run.run (s.1.insert x ty, s.2)).1.map (·, (c.run.run (s.1.insert x ty, s.2)).2.1.get? x),
        (match s.1.get? x with
          | some before => (c.run.run (s.1.insert x ty, s.2)).2.1.insert x before
          | none => (c.run.run (s.1.insert x ty, s.2)).2.1.erase x),
        (c.run.run (s.1.insert x ty, s.2)).2.2) :=
  rfl

theorem run_toChecking (c : InPlace τ α) :
    (c.toChecking t).run.run env =
      ((c.run.run (env, t)).1.map (·, (c.run.run (env, t)).2.2), (c.run.run (env, t)).2.1) :=
  rfl

theorem toChecking_pure (a : α) : toChecking (pure a) t = pure (a, t) := rfl

theorem toChecking_tree : toChecking tree t = pure (t, t) := rfl

/-- Two computations in a row, the second one on the tree that the first one left. -/
theorem toChecking_bind (c : InPlace τ α) (f : α → InPlace τ β) :
    toChecking (c >>= f) t = c.toChecking t >>= fun r => (f r.1).toChecking r.2 := by
  refine Checking.ext fun env => ?_
  rw [Checking.run_bind, run_toChecking, run_toChecking, run_bind]
  rcases c.run.run (env, t) with ⟨_ | a, env', t'⟩ <;> rfl

theorem toChecking_onTypes (c : Checking α) :
    toChecking (onTypes c) t = c >>= fun a => pure (a, t) := by
  refine Checking.ext fun env => ?_
  rw [Checking.run_bind, run_toChecking, run_onTypes]
  rcases c.run.run env with ⟨_ | a, env'⟩ <;> rfl

/-- After a computation on a part, what follows is run on the tree with that part. -/
theorem toChecking_part_bind (put : σ → τ) (p : σ) (c : InPlace σ α)
    (f : α × σ → InPlace τ β) :
    toChecking (part put p c >>= f) t = c.toChecking p >>= fun r => (f r).toChecking (put r.2) := by
  refine Checking.ext fun env => ?_
  rw [Checking.run_bind, run_toChecking, run_toChecking, run_bind, run_part]
  rcases c.run.run (env, p) with ⟨_ | a, env', p'⟩ <;> rfl

/-- A failure inside a binder is one outside it. -/
theorem toChecking_withBinder (x : String) (ty : Ty) (c : InPlace τ α) :
    toChecking (withBinder x ty c) t = Checking.withBinder x ty (c.toChecking t) >>= fun r =>
      match r.1 with
      | .ok a => pure ((a.1, r.2), a.2)
      | .error e => throw e := by
  refine Checking.ext fun env => ?_
  rw [Checking.run_bind, Checking.run_withBinder, run_toChecking, run_toChecking, run_withBinder]
  rcases c.run.run (env.insert x ty, t) with ⟨_ | a, env', t'⟩ <;> rfl

end Steps

/-! ## Type checking in place is type checking -/

/-- The function on expressions finds the same types in place. -/
def InfersInPlace (infer : Expr → Checking (Ty × Expr)) (infer' : Expr → InPlace Expr Ty) : Prop :=
  ∀ e, (infer' e).toChecking e = infer e

/-- The function on expressions makes the same checks in place. -/
def ChecksInPlace (check : Ty → Expr → Checking Expr) (check' : Ty → Expr → InPlace Expr Unit) :
    Prop :=
  ∀ ty e, (check' ty e).toChecking e = Prod.mk () <$> check ty e

section Agreement

variable {infer : Expr → Checking (Ty × Expr)} {infer' : Expr → InPlace Expr Ty}
  {check : Ty → Expr → Checking Expr} {check' : Ty → Expr → InPlace Expr Unit}

/-- The members of a list are checked in the same way, by induction on the list. -/
theorem toChecking_checkEach (hcheck : ChecksInPlace check check') (tys : List Ty)
    (es : List Expr) :
    (checkEach check' tys es).toChecking es =
      Prod.mk () <$> Expr.checkEach check tys es := by
  induction es generalizing tys with
  | nil => cases tys <;> rfl
  | cons e es ih =>
    cases tys with
    | nil => rfl
    | cons ty tys =>
      simp only [checkEach, Expr.checkEach, toChecking_part_bind, toChecking_pure, hcheck ty e,
        ih tys, bind_map_left, map_bind, map_pure]

theorem toChecking_elementType (hinfer : InfersInPlace infer infer')
    (hcheck : ChecksInPlace check check') (e : Expr) :
    (elementType infer' check' e).toChecking e = Expr.elementType infer check e := by
  simp only [elementType, Expr.elementType, toChecking_bind, toChecking_tree, hcheck _ e, hinfer _,
    map_eq_pure_bind, bind_assoc, pure_bind]
  refine bind_congr fun e₁ => bind_congr fun r => ?_
  obtain ⟨ty, e₂⟩ := r
  cases ty <;> rfl

theorem toChecking_callElement (hinfer : InfersInPlace infer infer')
    (hcheck : ChecksInPlace check check') (f : String) (args : List Expr) :
    (callElement infer' check' f args).toChecking args = Expr.callElement infer check f args := by
  cases args with
  | nil => rfl
  | cons list args =>
    simp only [callElement, Expr.callElement, toChecking_part_bind,
      toChecking_elementType hinfer hcheck list]
    refine bind_congr fun r => ?_
    obtain ⟨elem, list'⟩ := r
    dsimp only
    split_ifs
    · rcases args with _ | ⟨i, _ | ⟨value, _ | _⟩⟩
      case cons.cons.nil =>
        simp only [toChecking_part_bind, toChecking_pure, hinfer value]
      all_goals rfl
    · rfl

/-- Calls are checked in the same way. -/
theorem toChecking_inferCall (hinfer : InfersInPlace infer infer')
    (hcheck : ChecksInPlace check check') (f : String) (args : List Expr) :
    (inferCall infer' check' f args).toChecking args = Expr.inferCall infer check f args := by
  unfold inferCall Expr.inferCall
  split_ifs
  · rfl
  simp only [toChecking_bind, toChecking_callElement hinfer hcheck f args]
  refine bind_congr fun r => ?_
  obtain ⟨elem, args'⟩ := r
  cases builtinSignature? f elem with
  | none => rfl
  | some signature =>
    simp only [toChecking_bind, toChecking_tree, pure_bind]
    split_ifs
    · rfl
    · simp only [toChecking_bind, toChecking_checkEach hcheck, toChecking_pure, map_eq_pure_bind,
        bind_assoc, pure_bind]

end Agreement

/-- One more level of finding types is the same in place. -/
theorem toChecking_inferWithin {depth : Nat}
    (hinfer : InfersInPlace (Expr.inferWithin depth) (inferWithin depth))
    (hcheck : ChecksInPlace (Expr.checkWithin depth) (checkWithin depth)) :
    InfersInPlace (Expr.inferWithin (depth + 1)) (inferWithin (depth + 1)) := by
  intro e
  cases e with
  | lit v => cases v <;> rfl
  | var x => exact toChecking_onTypes _
  | binary op l r =>
    simp only [inferWithin, Expr.inferWithin, toChecking_part_bind, toChecking_pure, hcheck _ _,
      bind_map_left]
  | unary op e =>
    simp only [inferWithin, Expr.inferWithin, toChecking_part_bind, toChecking_pure, hcheck _ _,
      bind_map_left]
  | subscript base index =>
    simp only [inferWithin, Expr.inferWithin]
    split_ifs
    · simp only [toChecking_part_bind, toChecking_pure, hcheck _ _, hinfer _, bind_map_left]
    · simp only [toChecking_part_bind, hcheck _ _, hinfer _, bind_map_left]
      refine bind_congr fun index' => bind_congr fun r => ?_
      obtain ⟨ty, base'⟩ := r
      cases ty <;> rfl
  | slice l u s =>
    simp only [inferWithin, Expr.inferWithin, toChecking_part_bind, toChecking_pure, hcheck _ _,
      bind_map_left]
  | sliceFrom l s =>
    simp only [inferWithin, Expr.inferWithin, toChecking_part_bind, toChecking_pure, hcheck _ _,
      bind_map_left]
  | call f args =>
    simp only [inferWithin, Expr.inferWithin, toChecking_part_bind, toChecking_pure,
      toChecking_inferCall hinfer hcheck f args]
  | forAll x ty body =>
    simp only [inferWithin, Expr.inferWithin, toChecking_part_bind, toChecking_withBinder,
      hcheck _ _, Checking.withBinder_map, bind_map_left, bind_assoc]
    refine bind_congr fun r => ?_
    obtain ⟨_ | body', _ | found⟩ := r
    case ok.some =>
      simp only [Except.map, pure_bind]
      split_ifs <;> rfl
    all_goals rfl

/-- One more level of checking is the same in place. -/
theorem toChecking_checkWithin {depth : Nat}
    (hinfer : InfersInPlace (Expr.inferWithin depth) (inferWithin depth))
    (hcheck : ChecksInPlace (Expr.checkWithin depth) (checkWithin depth)) :
    ChecksInPlace (Expr.checkWithin (depth + 1)) (checkWithin (depth + 1)) := by
  intro expected e
  have hcompared : ∀ e : Expr, (do
      let found ← inferWithin depth e
      onTypes (Checking.compare (← tree) expected found) : InPlace Expr Unit).toChecking e =
      Prod.mk () <$> (do
        let result ← Expr.inferWithin depth e
        Checking.compare result.2 expected result.1
        return result.2) := by
    intro e
    simp only [toChecking_bind, toChecking_tree, toChecking_onTypes, hinfer _, map_eq_pure_bind,
      bind_assoc, pure_bind]
  cases e with
  | var x =>
    simp only [checkWithin, Expr.checkWithin, toChecking_onTypes, map_eq_pure_bind, bind_assoc,
      pure_bind]
  | subscript base index =>
    simp only [checkWithin, Expr.checkWithin]
    split_ifs
    · exact hcompared _
    · simp only [toChecking_part_bind, toChecking_pure, hcheck _ _, bind_map_left, map_bind,
        map_pure]
  | _ => exact hcompared _

/-- Finding types and checking are the same in place at every depth, by induction on it. -/
theorem toChecking_within (depth : Nat) :
    InfersInPlace (Expr.inferWithin depth) (inferWithin depth) ∧
      ChecksInPlace (Expr.checkWithin depth) (checkWithin depth) := by
  induction depth with
  | zero => exact ⟨fun e => rfl, fun ty e => rfl⟩
  | succ depth ih =>
    exact ⟨toChecking_inferWithin ih.1 ih.2, toChecking_checkWithin ih.1 ih.2⟩

/-- Finding a type in place comes to the same. -/
theorem toChecking_infer (e : Expr) : (infer e).toChecking e = e.infer :=
  (toChecking_within _).1 e

/-- Checking against a type in place comes to the same. -/
theorem toChecking_check (expected : Ty) (e : Expr) :
    (check expected e).toChecking e = Prod.mk () <$> e.check expected :=
  (toChecking_within _).2 expected e

theorem toChecking_checkAll (expected : Ty) (es : List Expr) :
    (checkAll expected es).toChecking es =
      Prod.mk () <$> Expr.checkAll expected es := by
  induction es with
  | nil => rfl
  | cons e es ih =>
    simp only [checkAll, Expr.checkAll, toChecking_part_bind, toChecking_pure, toChecking_check, ih,
      bind_map_left, map_bind, map_pure]

/-- Assignments are checked in the same way. -/
theorem toChecking_checkAssigned (x : String) (value : Expr) :
    (checkAssigned x value).toChecking value =
      Prod.mk () <$> value.checkAssigned x := by
  simp only [checkAssigned, Expr.checkAssigned, toChecking_bind, toChecking_onTypes,
    toChecking_infer, map_eq_pure_bind, bind_assoc, pure_bind]
  refine bind_congr fun r => bind_congr fun env => ?_
  obtain ⟨found, value'⟩ := r
  cases env.get? x with
  | none => simp only [toChecking_onTypes, bind_assoc, pure_bind]
  | some current =>
    dsimp only
    split_ifs
    · simp only [toChecking_bind, toChecking_tree, toChecking_onTypes, toChecking_check,
        map_eq_pure_bind, bind_assoc, pure_bind]
    · rfl

/-- Checking a statement in place comes to the same. -/
theorem toChecking_checkStmt (s : Stmt) :
    (checkStmt s).toChecking s = Prod.mk () <$> s.check := by
  induction s with
  | skip => rfl
  | havoc x =>
    simp only [checkStmt, Stmt.check, toChecking_onTypes, map_eq_pure_bind, bind_assoc, pure_bind]
  | assign x value =>
    simp only [checkStmt, Stmt.check, toChecking_part_bind, toChecking_pure,
      toChecking_checkAssigned, bind_map_left, map_bind, map_pure]
  | assume cond | assert cond =>
    simp only [checkStmt, Stmt.check, toChecking_part_bind, toChecking_pure, toChecking_check,
      bind_map_left, map_bind, map_pure]
  | seq first second ih ih' =>
    simp only [checkStmt, Stmt.check, toChecking_part_bind, toChecking_pure, ih, ih', bind_map_left,
      map_bind, map_pure]
  | branch cond first second ih ih' =>
    simp only [checkStmt, Stmt.check, toChecking_part_bind, toChecking_pure, toChecking_check, ih,
      ih', bind_map_left, map_bind, map_pure]
  | loop invariants cond body ih =>
    simp only [checkStmt, Stmt.check, toChecking_part_bind, toChecking_pure, toChecking_check,
      toChecking_checkAll, ih, bind_map_left, map_bind, map_pure]

end InPlace

end Precond
