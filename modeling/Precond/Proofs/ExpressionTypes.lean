import Mathlib.Tactic
import Precond.Proofs.ComputedValues
import Precond.Typing.Expr

/-!
# Types of expressions in a run

`Expr.HasType G e ty` is the typing of expressions as a run sees it: the variables have the settled
types that `G` gives them, and a quantifier is a truth value whatever its body, since no run looks
inside. Every expression has at most one type (`Expr.HasType.unique`), and an evaluation that
succeeds gives a value of it (`Expr.HasType.admits`).

`Expr.untyped` takes the types of quantifiers away and `Expr.outline` the quantifiers themselves.
What a run does with an expression depends on its outline only (`Exec.eval_outline`), and so does
its type (`Expr.HasType.of_outline`).
-/

namespace Precond

open Exec (Value Store)

/-! ## Settled types -/

namespace Ty

mutual

/-- A settled type has no open part to take from another one. -/
theorem refine_of_isConcrete {a : Ty} (b : Ty) (h : a.isConcrete = true) : a.refine b = a := by
  match a with
  | .int | .bool | .slice => simp [refine]
  | .unknown => simp [isConcrete] at h
  | .array a =>
    cases b with
    | array b => simp [refine, refine_of_isConcrete b (by simpa [isConcrete] using h)]
    | _ => simp [refine]
  | .arrow a c =>
    have h' : a.isConcrete = true ∧ c.isConcrete = true := by simpa [isConcrete] using h
    cases b with
    | arrow b d => simp [refine, refine_of_isConcrete b h'.1, refine_of_isConcrete d h'.2]
    | _ => simp [refine]
  | .prod as =>
    have h' : allConcrete as = true := by simpa [isConcrete] using h
    cases b with
    | prod bs => simp [refine, refineAll_of_allConcrete bs h']
    | _ => simp [refine]

theorem refineAll_of_allConcrete {as : List Ty} (bs : List Ty) (h : allConcrete as = true) :
    refineAll as bs = as := by
  match as, bs with
  | [], _ => simp [refineAll]
  | _ :: _, [] => simp [refineAll]
  | a :: as, b :: bs =>
    have h' : a.isConcrete = true ∧ allConcrete as = true := by simpa [allConcrete] using h
    simp [refineAll, refine_of_isConcrete b h'.1, refineAll_of_allConcrete bs h'.2]

end

mutual

/-- Settled types that agree are the same. -/
theorem eq_of_compatible {a b : Ty} (ha : a.isConcrete = true) (hb : b.isConcrete = true)
    (h : a.compatible b = true) : a = b := by
  match a, b with
  | .unknown, _ => simp [isConcrete] at ha
  | _, .unknown => simp [isConcrete] at hb
  | .int, .int | .bool, .bool | .slice, .slice => rfl
  | .array a, .array b =>
    simp only [isConcrete, compatible] at ha hb h
    rw [eq_of_compatible ha hb h]
  | .arrow a c, .arrow b d =>
    simp only [isConcrete, compatible, Bool.and_eq_true] at ha hb h
    rw [eq_of_compatible ha.1 hb.1 h.1, eq_of_compatible ha.2 hb.2 h.2]
  | .prod as, .prod bs =>
    simp only [isConcrete, compatible] at ha hb h
    rw [eq_of_compatibleAll ha hb h]

theorem eq_of_compatibleAll {as bs : List Ty} (ha : allConcrete as = true)
    (hb : allConcrete bs = true) (h : compatibleAll as bs = true) : as = bs := by
  match as, bs with
  | [], [] => rfl
  | [], _ :: _ => simp [compatibleAll] at h
  | _ :: _, [] => simp [compatibleAll] at h
  | a :: as, b :: bs =>
    simp only [allConcrete, compatibleAll, Bool.and_eq_true] at ha hb h
    rw [eq_of_compatible ha.1 hb.1 h.1, eq_of_compatibleAll ha.2 hb.2 h.2]

end

/-- A settled type that agrees with a type of lists is one. -/
theorem exists_array_of_compatible {a b : Ty} (ha : a.isConcrete = true)
    (h : a.compatible (.array b) = true) : ∃ elem, a = .array elem ∧ elem.compatible b = true := by
  cases a with
  | array elem => exact ⟨elem, rfl, by simpa [compatible] using h⟩
  | unknown => simp [isConcrete] at ha
  | _ => simp [compatible] at h

end Ty

/-- The types of an operator are settled. -/
theorem Op.isConcrete_types (op : Op) :
    op.types.1.isConcrete = true ∧ op.types.2.isConcrete = true := by
  cases op <;> simp [Op.types, Op.kind, Ty.isConcrete]

/-! ## Quantifiers out of sight -/

namespace Expr

mutual

/-- The expression without the types of its quantifiers. -/
def untyped : Expr → Expr
  | .var x => .var x
  | .lit v => .lit v
  | .binary op l r => .binary op (untyped l) (untyped r)
  | .unary op e => .unary op (untyped e)
  | .subscript b i => .subscript (untyped b) (untyped i)
  | .slice l u s => .slice (untyped l) (untyped u) (untyped s)
  | .sliceFrom l s => .sliceFrom (untyped l) (untyped s)
  | .call f args => .call f (untypedAll args)
  | .forAll x _ body => .forAll x none (untyped body)

/-- The expressions of a list without the types of their quantifiers. -/
def untypedAll : List Expr → List Expr
  | [] => []
  | e :: es => untyped e :: untypedAll es

end

mutual

/-- The expression with nothing left of its quantifiers. -/
def outline : Expr → Expr
  | .var x => .var x
  | .lit v => .lit v
  | .binary op l r => .binary op (outline l) (outline r)
  | .unary op e => .unary op (outline e)
  | .subscript b i => .subscript (outline b) (outline i)
  | .slice l u s => .slice (outline l) (outline u) (outline s)
  | .sliceFrom l s => .sliceFrom (outline l) (outline s)
  | .call f args => .call f (outlineAll args)
  | .forAll .. => .forAll "" none (bool true)

/-- The expressions of a list with nothing left of their quantifiers. -/
def outlineAll : List Expr → List Expr
  | [] => []
  | e :: es => outline e :: outlineAll es

end

mutual

@[simp] theorem outline_untyped (e : Expr) : e.untyped.outline = e.outline := by
  match e with
  | .var _ | .lit _ | .forAll .. => simp [untyped, outline]
  | .binary _ l r => simp [untyped, outline, outline_untyped l, outline_untyped r]
  | .unary _ e => simp [untyped, outline, outline_untyped e]
  | .subscript b i => simp [untyped, outline, outline_untyped b, outline_untyped i]
  | .slice l u s =>
    simp [untyped, outline, outline_untyped l, outline_untyped u, outline_untyped s]
  | .sliceFrom l s => simp [untyped, outline, outline_untyped l, outline_untyped s]
  | .call _ args => simp [untyped, outline, outlineAll_untypedAll args]

@[simp] theorem outlineAll_untypedAll (es : List Expr) :
    outlineAll (untypedAll es) = outlineAll es := by
  match es with
  | [] => simp [untypedAll, outlineAll]
  | e :: es => simp [untypedAll, outlineAll, outline_untyped e, outlineAll_untypedAll es]

end

mutual

/-- The types of quantifiers do not count for the free variables. -/
@[simp] theorem freeVars_untyped (e : Expr) : e.untyped.freeVars = e.freeVars := by
  match e with
  | .var _ | .lit _ => simp [untyped, freeVars]
  | .binary _ l r => simp [untyped, freeVars, freeVars_untyped l, freeVars_untyped r]
  | .unary _ e => simp [untyped, freeVars, freeVars_untyped e]
  | .subscript b i => simp [untyped, freeVars, freeVars_untyped b, freeVars_untyped i]
  | .slice l u s =>
    simp [untyped, freeVars, freeVars_untyped l, freeVars_untyped u, freeVars_untyped s]
  | .sliceFrom l s => simp [untyped, freeVars, freeVars_untyped l, freeVars_untyped s]
  | .call _ args => simp [untyped, freeVars, freeVarsAll_untypedAll args]
  | .forAll _ _ body => simp [untyped, freeVars, freeVars_untyped body]

@[simp] theorem freeVarsAll_untypedAll (es : List Expr) :
    freeVarsAll (untypedAll es) = freeVarsAll es := by
  match es with
  | [] => simp [untypedAll, freeVarsAll]
  | e :: es => simp [untypedAll, freeVarsAll, freeVars_untyped e, freeVarsAll_untypedAll es]

end

/-- Expressions that differ only in the types of quantifiers have the same outline. -/
theorem outline_eq_of_untyped {e e' : Expr} (h : e'.untyped = e.untyped) :
    e'.outline = e.outline := by
  rw [← outline_untyped e', h, outline_untyped]

theorem freeVars_eq_of_untyped {e e' : Expr} (h : e'.untyped = e.untyped) :
    e'.freeVars = e.freeVars := by
  rw [← freeVars_untyped e', h, freeVars_untyped]

@[simp] theorem isSlice_outline (e : Expr) : e.outline.isSlice = e.isSlice := by
  cases e <;> rfl

end Expr

mutual

/-- A run cannot tell an expression from its outline. -/
theorem Exec.eval_outline (σ : Store) (e : Expr) : eval σ e.outline = eval σ e := by
  match e with
  | .var _ | .lit _ | .forAll .. | .slice .. | .sliceFrom .. => simp [Expr.outline, eval]
  | .binary op l r =>
    have hl := eval_outline σ l
    have hr := eval_outline σ r
    cases op <;> simp only [Expr.outline, eval, hl, hr]
  | .unary _ e => simp only [Expr.outline, eval, eval_outline σ e]
  | .subscript b i =>
    have hb := eval_outline σ b
    have hi := eval_outline σ i
    cases i with
    | slice l u s =>
      simp only [Expr.outline, eval_slice, hb, eval_outline σ l, eval_outline σ u,
        eval_outline σ s]
    | sliceFrom l s =>
      simp only [Expr.outline, eval_sliceFrom, hb, eval_outline σ l, eval_outline σ s]
    | _ =>
      rw [Expr.outline, eval_subscript (by rw [Expr.isSlice_outline]; rfl), eval_subscript rfl,
        hb, hi]
  | .call _ args => simp only [Expr.outline, eval, evalAll_outlineAll σ args]

theorem Exec.evalAll_outlineAll (σ : Store) (es : List Expr) :
    evalAll σ (Expr.outlineAll es) = evalAll σ es := by
  match es with
  | [] => simp [Expr.outlineAll, evalAll]
  | e :: es =>
    simp only [Expr.outlineAll, evalAll, eval_outline σ e, evalAll_outlineAll σ es]

end

/-- A run cannot tell expressions of the same outline apart. -/
theorem Exec.eval_congr_outline {e e' : Expr} (h : e'.outline = e.outline) (σ : Store) :
    eval σ e' = eval σ e := by
  rw [← eval_outline σ e', h, eval_outline]

/-! ## Types -/

namespace Expr

/-- The type of an expression in a run. -/
inductive HasType (G : TypeEnv) : Expr → Ty → Prop
  | var {x ty} : G.get? x = some ty → ty.isConcrete = true → HasType G (.var x) ty
  | int {n} : HasType G (.lit (.int n)) .int
  | bool {b} : HasType G (.lit (.bool b)) .bool
  | binary {op l r} : HasType G l op.types.1 → HasType G r op.types.1 →
      HasType G (.binary op l r) op.types.2
  | unary {op e} : HasType G e op.types.1 → HasType G (.unary op e) op.types.2
  | element {base index elem} : index.isSlice = false → HasType G base (.array elem) →
      HasType G index .int → HasType G (.subscript base index) elem
  | part {base index elem} : index.isSlice = true → HasType G base (.array elem) →
      HasType G index .slice → HasType G (.subscript base index) (.array elem)
  | slice {l u s} : HasType G l .int → HasType G u .int → HasType G s .int →
      HasType G (.slice l u s) .slice
  | sliceFrom {l s} : HasType G l .int → HasType G s .int → HasType G (.sliceFrom l s) .slice
  | len {f list elem} : f = "len" → HasType G list (.array elem) → HasType G (.call f [list]) .int
  | store {f list i v elem} : f = "store" → HasType G list (.array elem) → HasType G i .int →
      HasType G v elem → HasType G (.call f [list, i, v]) (.array elem)
  | forAll {x ty body} : HasType G (.forAll x ty body) .bool

namespace HasType

variable {G : TypeEnv} {e : Expr} {ty : Ty}

/-- The type of an expression is settled. -/
theorem isConcrete (h : e.HasType G ty) : ty.isConcrete = true := by
  induction h with
  | var _ hty => exact hty
  | binary | unary => exact (Op.isConcrete_types _).2
  | element _ _ _ ih _ => exact ih
  | part _ _ _ ih _ => exact ih
  | store _ _ _ _ ih _ _ => exact ih
  | _ => rfl

/-- An expression has one type at most. -/
theorem unique {ty' : Ty} (h : e.HasType G ty) (h' : e.HasType G ty') : ty = ty' := by
  induction h generalizing ty' with
  | var hx _ =>
    cases h' with
    | var hx' _ => exact Option.some.inj (hx.symm.trans hx')
  | element hindex _ _ ih _ =>
    cases h' with
    | element _ hbase _ => exact Ty.array.inj (ih hbase)
    | part hindex' => simp [hindex] at hindex'
  | part hindex _ _ ih _ =>
    cases h' with
    | element hindex' => simp [hindex] at hindex'
    | part _ hbase _ => exact ih hbase
  | store _ _ _ _ ih _ _ =>
    cases h' with
    | store _ hlist _ _ => exact ih hlist
  | _ =>
    cases h'
    rfl

theorem exists_call_of_outline {f : String} {args : List Expr}
    (he : e.outline = (Expr.call f args).outline) :
    ∃ args', e = .call f args' ∧ outlineAll args' = outlineAll args := by
  cases e <;> simp only [outline, reduceCtorEq, Expr.call.injEq] at he
  obtain ⟨rfl, hargs⟩ := he
  exact ⟨_, rfl, hargs⟩

/-- Expressions of one outline have the same types. -/
theorem of_outline {e' : Expr} (h : e.HasType G ty) (he : e'.outline = e.outline) :
    e'.HasType G ty := by
  induction h generalizing e' with
  | var hx hty =>
    cases e' <;> simp only [outline, reduceCtorEq, Expr.var.injEq] at he
    subst he
    exact .var hx hty
  | int | bool =>
    cases e' <;> simp only [outline, reduceCtorEq, Expr.lit.injEq] at he
    subst he
    constructor
  | binary _ _ ihl ihr =>
    cases e' <;> simp only [outline, reduceCtorEq, Expr.binary.injEq] at he
    obtain ⟨rfl, hl, hr⟩ := he
    exact .binary (ihl hl) (ihr hr)
  | unary _ ih =>
    cases e' <;> simp only [outline, reduceCtorEq, Expr.unary.injEq] at he
    obtain ⟨rfl, hoperand⟩ := he
    exact .unary (ih hoperand)
  | element hindex _ _ ihb ihi =>
    cases e' <;> simp only [outline, reduceCtorEq, Expr.subscript.injEq] at he
    refine .element ?_ (ihb he.1) (ihi he.2)
    rw [← isSlice_outline, he.2, isSlice_outline, hindex]
  | part hindex _ _ ihb ihi =>
    cases e' <;> simp only [outline, reduceCtorEq, Expr.subscript.injEq] at he
    refine .part ?_ (ihb he.1) (ihi he.2)
    rw [← isSlice_outline, he.2, isSlice_outline, hindex]
  | slice _ _ _ ihl ihu ihs =>
    cases e' <;> simp only [outline, reduceCtorEq, Expr.slice.injEq] at he
    exact .slice (ihl he.1) (ihu he.2.1) (ihs he.2.2)
  | sliceFrom _ _ ihl ihs =>
    cases e' <;> simp only [outline, reduceCtorEq, Expr.sliceFrom.injEq] at he
    exact .sliceFrom (ihl he.1) (ihs he.2)
  | len hf _ ih =>
    obtain ⟨args, rfl, hargs⟩ := exists_call_of_outline he
    rcases args with _ | ⟨list, _ | ⟨_, _⟩⟩ <;> simp [outlineAll] at hargs
    exact .len hf (ih hargs)
  | store hf _ _ _ ihl ihi ihv =>
    obtain ⟨args, rfl, hargs⟩ := exists_call_of_outline he
    rcases args with _ | ⟨list, _ | ⟨i, _ | ⟨v, _ | ⟨_, _⟩⟩⟩⟩ <;> simp [outlineAll] at hargs
    exact .store hf (ihl hargs.1) (ihi hargs.2.1) (ihv hargs.2.2)
  | forAll =>
    cases e' <;> simp only [outline, reduceCtorEq] at he
    exact .forAll

end HasType

end Expr

/-! ## Values -/

/-- What mathematics gives for an operator is of its result type. -/
theorem Op.admits_binary? {op : Op} {a b v : Value} (h : op.binary? a b = some v) :
    op.types.2.admits v = true := by
  revert h
  fun_cases Op.binary? op a b <;> intro h <;> cases h <;> rfl

namespace Exec

/-- A binary operator gives a value of its result type. -/
theorem admits_binary {σ : Store} {op : Op} {l r : Expr} {v : Value}
    (h : eval σ (.binary op l r) = .ok v) : op.types.2.admits v = true := by
  cases op with
  | and | or | implies =>
    simp only [eval, bind_eq_ok, asBool_eq_ok] at h
    obtain ⟨_, _, p, rfl, h⟩ := h
    cases p <;> simp only [Bool.false_eq_true, if_true, if_false, bind_eq_ok, pure_eq_ok] at h <;>
      grind [Op.types, Op.kind, Ty.admits]
  | _ =>
    rw [eval_binary rfl] at h
    simp only [bind_eq_ok] at h
    obtain ⟨a, _, b, _, h⟩ := h
    exact Op.admits_binary? (applyBinary_eq_ok h)

/-- A unary operator gives a value of its result type. -/
theorem admits_unary {σ : Store} {op : Op} {e : Expr} {v : Value}
    (h : eval σ (.unary op e) = .ok v) : op.types.2.admits v = true := by
  cases op <;>
    simp only [eval, Op.isUnary, if_true, if_false, reduceCtorEq, bind_eq_ok, applyUnary,
      pure_eq_ok] at h <;>
    grind [Op.types, Op.kind, Ty.admits]

theorem mem_everyNth {α : Type} {step : Nat} {x : α} {skip : Nat} {xs : List α}
    (h : x ∈ everyNth step skip xs) : x ∈ xs := by
  induction xs generalizing skip with
  | nil => simp [everyNth] at h
  | cons y ys ih =>
    cases skip with
    | zero =>
      rw [everyNth, List.mem_cons] at h
      exact List.mem_cons.mpr (h.imp_right ih)
    | succ skip => exact List.mem_cons_of_mem _ (ih (by simpa [everyNth] using h))

/-- A slice of a list is a list of elements of it. -/
theorem admits_slice {items : List Value} {lower : Int} {upper : Option Int} {step : Int}
    {elem : Ty} {v : Value} (hitems : (Ty.array elem).admits (.list items) = true)
    (h : slice items lower upper step = .ok v) : (Ty.array elem).admits v = true := by
  unfold slice at h
  split_ifs at h
  obtain rfl := Except.ok.inj h
  simp only [Ty.admits, List.all_eq_true] at hitems ⊢
  exact fun x hx => hitems x (List.mem_of_mem_take (List.mem_of_mem_drop (mem_everyNth hx)))

/-- The length of a list is a number, and nothing else has one. -/
theorem eval_len_eq_ok {σ : Store} {e : Expr} {v : Value} :
    eval σ (.call "len" [e]) = .ok v ↔
      ∃ items, eval σ e = .ok (.list items) ∧ v = .int items.length := by
  simp only [eval, evalAll, bind_eq_ok, pure_eq_ok, Except.ok.injEq]
  constructor
  · rintro ⟨_, ⟨a, ha, _, rfl, rfl⟩, h⟩
    simp only [applyBuiltin, bind_eq_ok, pure_eq_ok, asList_eq_ok] at h
    obtain ⟨items, rfl, rfl⟩ := h
    exact ⟨items, ha, rfl⟩
  · rintro ⟨items, ha, rfl⟩
    exact ⟨_, ⟨_, ha, _, rfl, rfl⟩, rfl⟩

/-- A list after a store has the value at the index, which was in range. -/
theorem eval_store_eq_ok {σ : Store} {l i e : Expr} {v : Value}
    (h : eval σ (.call "store" [l, i, e]) = .ok v) :
    ∃ items place item, eval σ l = .ok (.list items) ∧ eval σ i = .ok (.int (place : Nat)) ∧
      place < items.length ∧ eval σ e = .ok item ∧ v = .list (items.set place item) := by
  simp only [eval, evalAll, bind_eq_ok, pure_eq_ok, Except.ok.injEq] at h
  obtain ⟨_, ⟨a, ha, _, ⟨b, hb, _, ⟨c, hc, _, rfl, rfl⟩, rfl⟩, rfl⟩, h⟩ := h
  simp only [applyBuiltin, bind_eq_ok, pure_eq_ok, asList_eq_ok, asInt_eq_ok,
    position_eq_ok] at h
  obtain ⟨items, rfl, _, rfl, place, ⟨rfl, hplace⟩, rfl⟩ := h
  exact ⟨items, place, c, ha, hb, hplace, hc, rfl⟩

end Exec

/-- The values that the store gives to variables of `G` are of their types. -/
def Exec.Store.Respects (σ : Store) (G : TypeEnv) : Prop :=
  ∀ x ty v, G.get? x = some ty → σ.get? x = some v → ty.admits v = true

/-- An evaluation that succeeds gives a value of the type of the expression. -/
theorem Expr.HasType.admits {G : TypeEnv} {σ : Store} {e : Expr} {ty : Ty} {v : Value}
    (hσ : σ.Respects G) (h : e.HasType G ty) (hv : Exec.eval σ e = .ok v) : ty.admits v = true := by
  induction h generalizing v with
  | @var x _ hx _ =>
    rw [Exec.eval] at hv
    split at hv
    · next hstored =>
      obtain rfl := Except.ok.inj hv
      exact hσ x _ _ hx hstored
    · cases hv
  | int | bool =>
    obtain rfl := Except.ok.inj hv
    rfl
  | binary => exact Exec.admits_binary hv
  | unary => exact Exec.admits_unary hv
  | element hindex _ _ ih _ =>
    obtain ⟨items, place, hbase, -, hplace⟩ := (Exec.eval_element_eq_ok hindex).mp hv
    have hitems := ih hbase
    rw [Ty.admits, List.all_eq_true] at hitems
    exact hitems v (List.mem_of_getElem? hplace)
  | @part _ index _ hindex _ _ ih _ =>
    cases index with
    | slice l u s =>
      obtain ⟨items, _, _, _, hbase, -, -, -, hv⟩ := Exec.eval_slice_eq_ok hv
      exact Exec.admits_slice (ih hbase) hv
    | sliceFrom l s =>
      obtain ⟨items, _, _, hbase, -, -, hv⟩ := Exec.eval_sliceFrom_eq_ok hv
      exact Exec.admits_slice (ih hbase) hv
    | _ => simp [isSlice] at hindex
  | slice | sliceFrom | forAll => simp [Exec.eval] at hv
  | len hf =>
    subst hf
    obtain ⟨items, -, rfl⟩ := Exec.eval_len_eq_ok.mp hv
    rfl
  | store hf _ _ _ ihl _ ihv =>
    subst hf
    obtain ⟨items, place, item, hl, -, -, hitem, rfl⟩ := Exec.eval_store_eq_ok hv
    have hitems := ihl hl
    simp only [Ty.admits, List.all_eq_true] at hitems ⊢
    intro x hx
    rcases List.mem_or_eq_of_mem_set hx with hx | rfl
    · exact hitems x hx
    · exact ihv hitem

end Precond
