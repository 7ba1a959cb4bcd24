import Mathlib.Tactic
import Precond.Proofs.BinderNames

/-!
# Well-formed expressions

An expression that comes from a text is `Expr.WellFormed`: its operators have as many operands as
they take, a slice stands only in a subscript, and the types of its quantifiers are types of values,
as far as they are known. Substitution and renaming keep this (`Expr.WellFormed.subst`,
`Expr.WellFormed.alphaRename`). It is `Expr.Written` if moreover its free variables are plain names.
-/

namespace Precond

/-- Whether a type is one of values, as far as it is known: numbers, truth values and lists. -/
def Ty.ofValues : Ty → Bool
  | .int | .bool | .unknown => true
  | .array elem => ofValues elem
  | _ => false

namespace Expr

/-- The expression could stand in a text; `index` tells whether it may be a slice. -/
inductive WellFormed : (index : Bool) → Expr → Prop
  | var {index x} : WellFormed index (.var x)
  | lit {index v} : WellFormed index (.lit v)
  | binary {index op l r} (hop : op.isUnary = false) (hl : WellFormed false l)
      (hr : WellFormed false r) : WellFormed index (.binary op l r)
  | unary {index op e} (hop : op.isUnary = true) (he : WellFormed false e) :
      WellFormed index (.unary op e)
  | subscript {index b i} (hb : WellFormed false b) (hi : WellFormed true i) :
      WellFormed index (.subscript b i)
  | slice {l u s} (hl : WellFormed false l) (hu : WellFormed false u) (hs : WellFormed false s) :
      WellFormed true (.slice l u s)
  | sliceFrom {l s} (hl : WellFormed false l) (hs : WellFormed false s) :
      WellFormed true (.sliceFrom l s)
  | call {index f args} (hargs : ∀ a ∈ args, WellFormed false a) : WellFormed index (.call f args)
  | forAll {index x ty body} (hty : ∀ t, ty = some t → t.ofValues = true)
      (hbody : WellFormed false body) : WellFormed index (.forAll x ty body)

namespace WellFormed

variable {index : Bool} {e r l : Expr}

/-- Only as an index may an expression be a slice. -/
theorem isSlice (h : WellFormed false e) : e.isSlice = false := by
  cases h <;> rfl

/-- Only for a slice it matters where the expression stands. -/
theorem of_isSlice {index' : Bool} (h : WellFormed index e) (hslice : e.isSlice = false) :
    WellFormed index' e := by
  cases h with
  | var => exact .var
  | lit => exact .lit
  | binary hop hl hr => exact .binary hop hl hr
  | unary hop he => exact .unary hop he
  | subscript hb hi => exact .subscript hb hi
  | slice | sliceFrom => cases hslice
  | call hargs => exact .call hargs
  | forAll hty hbody => exact .forAll hty hbody

theorem of_false (h : WellFormed false e) : WellFormed index e := h.of_isSlice h.isSlice

/-- By induction on the substitution: its result could stand in a text if both expressions could. -/
theorem of_substitutes {x : String} {e' : Expr} (hsubst : Substitutes x r e e')
    (h : WellFormed index e) (hr : WellFormed false r) : WellFormed index e' := by
  induction hsubst generalizing index with
  | here => exact hr.of_false
  | other | lit | bound => exact h
  | binary _ _ iha ihb =>
    cases h with
    | binary hop ha hb => exact .binary hop (iha ha hr) (ihb hb hr)
  | unary _ ih =>
    cases h with
    | unary hop ha => exact .unary hop (ih ha hr)
  | subscript _ _ iha ihi =>
    cases h with
    | subscript ha hi => exact .subscript (iha ha hr) (ihi hi hr)
  | slice _ _ _ ihl ihu ihs =>
    cases h with
    | slice hl hu hs => exact .slice (ihl hl hr) (ihu hu hr) (ihs hs hr)
  | sliceFrom _ _ ihl ihs =>
    cases h with
    | sliceFrom hl hs => exact .sliceFrom (ihl hl hr) (ihs hs hr)
  | call hlength _ ih =>
    cases h with
    | call hargs =>
      refine .call fun a' ha' => ?_
      obtain ⟨a, ha, hp⟩ := exists_mem_zip_right hlength ha'
      exact ih _ hp (hargs a ha) hr
  | kept _ _ _ ih =>
    cases h with
    | forAll hty hbody => exact .forAll hty (ih hbody hr)
  | renamed _ _ _ _ _ ihrename ih =>
    cases h with
    | forAll hty hbody => exact .forAll hty (ih (ihrename hbody .var) hr)

theorem subst {x : String} (h : WellFormed index e) (hr : WellFormed false r) :
    WellFormed index (e.subst x r) := h.of_substitutes (substitutes_subst e x r) hr

theorem foldl_and {es : List Expr} (he : WellFormed false e)
    (hes : ∀ d ∈ es, WellFormed false d) : WellFormed false (es.foldl and e) := by
  induction es generalizing e with
  | nil => exact he
  | cons d es ih =>
    rw [List.forall_mem_cons] at hes
    exact ih (.binary rfl he hes.1) hes.2

/-- A conjunction could stand in a text if its members could. -/
theorem conjoin {es : List Expr} (h : ∀ e ∈ es, WellFormed false e) :
    WellFormed false (conjoin es) := by
  cases es with
  | nil => exact .lit
  | cons e es =>
    rw [List.forall_mem_cons] at h
    exact foldl_and h.1 h.2

end WellFormed

mutual

/-- New names for the quantifiers keep an expression well-formed. -/
theorem WellFormed.alphaRename {index : Bool} {e : Expr} (h : WellFormed index e)
    (supply : Supply) : WellFormed index (e.alphaRename.run supply).1 := by
  match e, h with
  | .var _, _ => exact .var
  | .lit _, _ => exact .lit
  | .binary _ _ _, .binary hop hl hr => exact .binary hop (hl.alphaRename _) (hr.alphaRename _)
  | .unary _ _, .unary hop he => exact .unary hop (he.alphaRename _)
  | .subscript _ _, .subscript hb hi => exact .subscript (hb.alphaRename _) (hi.alphaRename _)
  | .slice _ _ _, .slice hl hu hs =>
    exact .slice (hl.alphaRename _) (hu.alphaRename _) (hs.alphaRename _)
  | .sliceFrom _ _, .sliceFrom hl hs => exact .sliceFrom (hl.alphaRename _) (hs.alphaRename _)
  | .call _ _, .call hargs => exact .call (wellFormed_alphaRenameAll hargs _)
  | .forAll _ _ _, .forAll hty hbody => exact .forAll hty ((hbody.alphaRename _).subst .var)

/-- Renaming does not change whether expressions could stand in a text. -/
theorem wellFormed_alphaRenameAll {es : List Expr} (h : ∀ e ∈ es, WellFormed false e)
    (supply : Supply) : ∀ e ∈ ((alphaRenameAll es).run supply).1, WellFormed false e := by
  match es with
  | [] => exact List.forall_mem_nil _
  | e :: es =>
    rw [List.forall_mem_cons] at h
    exact List.forall_mem_cons.2 ⟨h.1.alphaRename _, wellFormed_alphaRenameAll h.2 _⟩

end

/-! ## Written expressions -/

/-- The expression could stand in a text, where its free variables are plain names. -/
structure Written (index : Bool) (e : Expr) : Prop where
  wellFormed : e.WellFormed index
  plain : ∀ x ∈ e.freeVars, Name.Plain x

namespace Written

variable {index : Bool} {e l r u s : Expr}

theorem of_false (h : Written false e) : Written index e := ⟨h.wellFormed.of_false, h.plain⟩

theorem var {x : String} (h : Name.Plain x) : Written index (.var x) :=
  ⟨.var, by simpa [freeVars] using h⟩

theorem lit {v : Literal} : Written index (.lit v) := ⟨.lit, by simp [freeVars]⟩

/-- A binary operator with two operands that are written. -/
theorem binary {op : Op} (hop : op.isUnary = false) (hl : Written false l)
    (hr : Written false r) : Written index (.binary op l r) :=
  ⟨.binary hop hl.wellFormed hr.wellFormed, List.forall_mem_append.2 ⟨hl.plain, hr.plain⟩⟩

theorem unary {op : Op} (hop : op.isUnary = true) (he : Written false e) :
    Written index (.unary op e) := ⟨.unary hop he.wellFormed, he.plain⟩

theorem subscript (hl : Written false l) (hr : Written true r) :
    Written index (.subscript l r) :=
  ⟨.subscript hl.wellFormed hr.wellFormed, List.forall_mem_append.2 ⟨hl.plain, hr.plain⟩⟩

/-- A call of arguments that are written. -/
theorem call {f : String} {args : List Expr} (h : ∀ a ∈ args, Written false a) :
    Written index (.call f args) := by
  refine ⟨.call fun a ha => (h a ha).wellFormed, fun x hx => ?_⟩
  obtain ⟨a, ha, hx⟩ := mem_freeVarsAll.1 hx
  exact (h a ha).plain x hx

/-- A quantifier over a type of values, if one is written. -/
theorem forAll {x : String} {ty : Option Ty} (hty : ∀ t, ty = some t → t.ofValues = true)
    (he : Written false e) : Written index (.forAll x ty e) :=
  ⟨.forAll hty he.wellFormed, fun y hy => he.plain y (List.mem_of_mem_filter hy)⟩

theorem thereExists {x : String} {ty : Option Ty} (hty : ∀ t, ty = some t → t.ofValues = true)
    (he : Written false e) : Written index (.thereExists x ty e) :=
  .unary rfl (.forAll hty (.unary rfl he))

theorem getD {o : Option Expr} (h : ∀ e, o = some e → Written false e) (n : Int) :
    Written false (o.getD (int n)) := by
  cases o with
  | none => exact .lit
  | some e => exact h e rfl

/-- A slice of bounds that are written, with those that are left out filled in. -/
theorem sliceOf {lower upper step : Option Expr} (hl : ∀ e, lower = some e → Written false e)
    (hu : ∀ e, upper = some e → Written false e) (hs : ∀ e, step = some e → Written false e) :
    Written true (.sliceOf lower upper step) := by
  have hl' := getD hl 0
  have hs' := getD hs 1
  cases upper with
  | none =>
    exact ⟨.sliceFrom hl'.wellFormed hs'.wellFormed, List.forall_mem_append.2 ⟨hl'.plain, hs'.plain⟩⟩
  | some u =>
    have hu' := hu u rfl
    exact ⟨.slice hl'.wellFormed hu'.wellFormed hs'.wellFormed, List.forall_mem_append.2
      ⟨List.forall_mem_append.2 ⟨hl'.plain, hu'.plain⟩, hs'.plain⟩⟩

/-- Renaming keeps an expression written. -/
theorem alphaRename (h : Written index e) (supply : Supply) :
    Written index (e.alphaRename.run supply).1 :=
  ⟨h.wellFormed.alphaRename supply,
    fun x hx => h.plain x ((alphaRename_echoes e supply).freeVars x hx)⟩

theorem conjoin {es : List Expr} (h : ∀ e ∈ es, Written false e) : Written false (conjoin es) := by
  refine ⟨.conjoin fun e he => (h e he).wellFormed, fun x hx => ?_⟩
  obtain ⟨e, he, hx⟩ := mem_freeVarsAll.1 (mem_freeVars_conjoin.1 hx)
  exact (h e he).plain x hx

end Written

theorem written_alphaRenameAll {es : List Expr} (h : ∀ e ∈ es, Written false e)
    (supply : Supply) : ∀ e ∈ ((alphaRenameAll es).run supply).1, Written false e := by
  induction es generalizing supply with
  | nil => exact List.forall_mem_nil _
  | cons e es ih =>
    rw [List.forall_mem_cons] at h
    exact List.forall_mem_cons.2 ⟨h.1.alphaRename supply, ih h.2 _⟩

end Expr

namespace Stmt

/-- The statement could come from a text: its expressions are written, the variables that it writes
are plain names, and no value that it assigns has a quantifier. -/
def Written : Stmt → Prop
  | .skip => True
  | .assign x e => Name.Plain x ∧ e.Written false ∧ e.binders = []
  | .seq s t => s.Written ∧ t.Written
  | .branch c s t => c.Written false ∧ s.Written ∧ t.Written
  | .assume e | .assert e => e.Written false
  | .loop invariants c s => (∀ e ∈ invariants, e.Written false) ∧ c.Written false ∧ s.Written
  | .havoc x => Name.Plain x

namespace Written

variable {s : Stmt}

/-- A statement that could come from a text writes plain variables only. -/
theorem plain_writtenVars (h : s.Written) : ∀ x ∈ s.writtenVars, Name.Plain x := by
  induction s with
  | skip | assume | assert => exact List.forall_mem_nil _
  | assign y e =>
    simp only [writtenVars, addWritten, mem_addName]
    rintro x (hx | rfl)
    · cases hx
    · exact h.1
  | havoc y =>
    simp only [writtenVars, addWritten, mem_addName]
    rintro x (hx | rfl)
    · cases hx
    · exact h
  | seq s t ihs iht =>
    intro x hx
    exact (mem_writtenVars_seq.1 hx).elim (ihs h.1 x) (iht h.2 x)
  | branch c s t ihs iht =>
    intro x hx
    exact (mem_writtenVars_branch.1 hx).elim (ihs h.2.1 x) (iht h.2.2 x)
  | loop invariants c s ih => exact ih h.2.2

/-- A statement that could come from a text reads plain variables only. -/
theorem plain_freeVars (h : s.Written) : ∀ x ∈ s.freeVars, Name.Plain x := by
  induction s with
  | skip | havoc => exact List.forall_mem_nil _
  | assign y e => exact h.2.1.plain
  | assume e | assert e => exact Expr.Written.plain h
  | seq s t ihs iht => exact List.forall_mem_append.2 ⟨ihs h.1, iht h.2⟩
  | branch c s t ihs iht =>
    exact List.forall_mem_append.2
      ⟨List.forall_mem_append.2 ⟨h.1.plain, ihs h.2.1⟩, iht h.2.2⟩
  | loop invariants c s ih =>
    refine List.forall_mem_append.2
      ⟨List.forall_mem_append.2 ⟨fun x hx => ?_, h.2.1.plain⟩, ih h.2.2⟩
    obtain ⟨e, he, hx⟩ := Expr.mem_freeVarsAll.1 hx
    exact (h.1 e he).plain x hx

/-- A fresh copy of an invariant is written if the invariant is. -/
theorem freshInvariant {invariants : List Expr} (h : ∀ e ∈ invariants, e.Written false)
    (supply : Supply) : ((freshInvariant invariants).run supply).1.Written false :=
  .conjoin (Expr.written_alphaRenameAll h supply)

/-- Cutting loops keeps a statement written. -/
theorem cutLoops (h : s.Written) (supply : Supply) : (s.cutLoops.run supply).1.Written := by
  induction s generalizing supply with
  | skip | havoc | assign | assume | assert => exact h
  | seq s t ihs iht => exact ⟨ihs h.1 supply, iht h.2 _⟩
  | branch c s t ihs iht => exact ⟨h.1, ihs h.2.1 supply, iht h.2.2 _⟩
  | loop invariants cond body ih =>
    rw [run_cutLoops_loop, @straightened_iff Stmt.Written _ _ _ _ _ _ trivial fun _ _ => Iff.rfl]
    exact ⟨freshInvariant h.1 _, h.2.2.plain_writtenVars, freshInvariant h.1 _, h.2.1,
      ⟨⟨ih h.2.2 supply, freshInvariant h.1 _⟩, Expr.Written.lit⟩, trivial⟩

end Written

end Stmt

end Precond
