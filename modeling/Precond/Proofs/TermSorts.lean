import Mathlib.Tactic
import Precond.Proofs.SolverTypes
import Precond.Proofs.StoreInterpretation

/-!
# Sorts of terms

`Term.sort?` is the sort of a term by the rules of SMT-LIB, over the declarations that were made: a
symbol has the sort of the quantifier that binds it or else that of its declaration, the built-in
functions have their own sorts, and any other function is looked up by the name that is written. A
term without a sort is one that a solver rejects.

An expression that is typed is encoded, with a term of the sort of its type
(`exists_wellEncoded`), if the declarations know its free variables, floor division and remainder,
and the length function of every sort of arrays that the variables and the quantifiers mention.
The last is enough since the type of a list is part of the type of a variable in it.
-/

namespace Precond

/-- Whether a type is made of numbers, truth values and lists. -/
def Ty.isData : Ty → Bool
  | .int | .bool => true
  | .array elem => isData elem
  | _ => false

/-- The types of data are the settled types of values. -/
theorem Ty.isData_iff {ty : Ty} :
    ty.isData = true ↔ ty.ofValues = true ∧ ty.isConcrete = true := by
  induction ty using Ty.isData.induct with
  | case1 | case2 => simp [isData, ofValues, isConcrete]
  | case3 elem ih => simpa only [isData, ofValues, isConcrete] using ih
  | case4 ty => cases ty <;> simp_all [isData, ofValues, isConcrete]

namespace Smt

/-- Numbers, truth values and lists have a sort. -/
theorem ofTy_of_isData {ty : Ty} (h : ty.isData = true) : ∃ s, SmtSort.ofTy ty = .ok s := by
  induction ty using Ty.isData.induct with
  | case1 => exact ⟨.int, rfl⟩
  | case2 => exact ⟨.bool, rfl⟩
  | case3 elem ih =>
    obtain ⟨s, hs⟩ := ih h
    exact ⟨.array s, by rw [SmtSort.ofTy, hs]; rfl⟩
  | case4 ty => simp_all [Ty.isData]

/-! ## Declared names -/

/-- What a declaration names, with the sorts of its arguments and of its values. -/
def Declaration.signature? : Declaration → Option (String × List SmtSort × SmtSort)
  | .const name sort => some (name, [], sort)
  | .function name params result => some (name, params, result)
  | .define name params result _ => some (name, params.map (·.2), result)
  | .fact _ => none

/-- The signatures of all declarations. -/
def signatures (ds : List Declaration) : List (String × List SmtSort × SmtSort) :=
  ds.filterMap Declaration.signature?

/-- The sort of the values of a declared name for arguments of given sorts. -/
def declaredSort? (ds : List Declaration) (name : String) (args : List SmtSort) : Option SmtSort :=
  match (signatures ds).find? (·.1 = name) with
  | some (_, params, result) => if params = args then some result else none
  | none => none

/-- A declaration is found by its name, if no name is declared twice. -/
theorem declaredSort?_of_mem {ds : List Declaration} {name : String} {args : List SmtSort}
    {sort : SmtSort} (hnames : ((signatures ds).map (·.1)).Nodup)
    (h : (name, args, sort) ∈ signatures ds) : declaredSort? ds name args = some sort := by
  have hfind : (signatures ds).find? (·.1 = name) = some (name, args, sort) := by
    generalize signatures ds = sigs at hnames h
    induction sigs with
    | nil => cases h
    | cons d sigs ih =>
      rw [List.map_cons, List.nodup_cons] at hnames
      rcases List.mem_cons.1 h with rfl | h
      · simp
      · have hne : d.1 ≠ name := fun hd =>
          hnames.1 (hd ▸ List.mem_map_of_mem (f := (·.1)) h)
        rw [List.find?_cons_of_neg (by simpa using hne)]
        exact ih hnames.2 h
  simp [declaredSort?, hfind]

/-! ## Sorts -/

/-- The sort of the values of a function for arguments of given sorts. -/
def Fn.sort? (ds : List Declaration) : Fn → List SmtSort → Option SmtSort
  | .plus, [.int, .int] | .minus, [.int, .int] | .times, [.int, .int] => some .int
  | .div, [.int, .int] | .mod, [.int, .int] | .minus, [.int] => some .int
  | .less, [.int, .int] | .atMost, [.int, .int] => some .bool
  | .greater, [.int, .int] | .atLeast, [.int, .int] => some .bool
  | .and, [.bool, .bool] | .or, [.bool, .bool] | .implies, [.bool, .bool] => some .bool
  | .not, [.bool] => some .bool
  | .equal, [s, t] => if s = t then some .bool else none
  | .ite, [.bool, s, t] => if s = t then some s else none
  | .select, [.array s, .int] => some s
  | .store, [.array s, .int, t] => if s = t then some (.array s) else none
  | .floorDiv, args => declaredSort? ds Fn.floorDiv.render args
  | .floorMod, args => declaredSort? ds Fn.floorMod.render args
  | .len array, args => declaredSort? ds (Fn.len array).render args
  | _, _ => none

mutual

/-- The sort of a term over declarations, where `scope` are the variables that are bound, the
innermost first. -/
def Term.sort? (ds : List Declaration) (scope : List (String × SmtSort)) : Term → Option SmtSort
  | .symbol x =>
    match scope.find? (·.1 = x) with
    | some (_, s) => some s
    | none => declaredSort? ds x []
  | .int _ => some .int
  | .bool _ => some .bool
  | .app f args =>
    match Term.sortAll? ds scope args with
    | some sorts => f.sort? ds sorts
    | none => none
  | .forAll vars body =>
    if Term.sort? ds (vars.reverse ++ scope) body = some .bool then some .bool else none

/-- The sorts of the terms of a list. -/
def Term.sortAll? (ds : List Declaration) (scope : List (String × SmtSort)) :
    List Term → Option (List SmtSort)
  | [] => some []
  | t :: ts =>
    match Term.sort? ds scope t, Term.sortAll? ds scope ts with
    | some s, some ss => some (s :: ss)
    | _, _ => none

end

section

variable {ds : List Declaration} {scope : List (String × SmtSort)} {f : Fn} {t u v : Term}
  {s₁ s₂ s₃ : SmtSort}

theorem Term.sortAll?_cons {ts : List Term} {ss : List SmtSort} (ht : t.sort? ds scope = some s₁)
    (hts : Term.sortAll? ds scope ts = some ss) :
    Term.sortAll? ds scope (t :: ts) = some (s₁ :: ss) := by
  simp only [Term.sortAll?, ht, hts]

/-- The sort of a function, from those of its arguments. -/
theorem Term.sort?_app {args : List Term} {sorts : List SmtSort}
    (h : Term.sortAll? ds scope args = some sorts) :
    (Term.app f args).sort? ds scope = f.sort? ds sorts := by
  simp only [Term.sort?, h]

theorem Term.sort?_app_one (ht : t.sort? ds scope = some s₁) :
    (Term.app f [t]).sort? ds scope = f.sort? ds [s₁] :=
  Term.sort?_app (Term.sortAll?_cons ht rfl)

theorem Term.sort?_app_two (ht : t.sort? ds scope = some s₁) (hu : u.sort? ds scope = some s₂) :
    (Term.app f [t, u]).sort? ds scope = f.sort? ds [s₁, s₂] :=
  Term.sort?_app (Term.sortAll?_cons ht (Term.sortAll?_cons hu rfl))

theorem Term.sort?_app_three (ht : t.sort? ds scope = some s₁) (hu : u.sort? ds scope = some s₂)
    (hv : v.sort? ds scope = some s₃) :
    (Term.app f [t, u, v]).sort? ds scope = f.sort? ds [s₁, s₂, s₃] :=
  Term.sort?_app (Term.sortAll?_cons ht (Term.sortAll?_cons hu (Term.sortAll?_cons hv rfl)))

theorem Term.sort?_negate (ht : t.sort? ds scope = some .bool) :
    t.negate.sort? ds scope = some .bool := Term.sort?_app_one ht

end

/-- The length function of a sort is declared. -/
def LenDeclared (ds : List Declaration) (array : SmtSort) : Prop :=
  declaredSort? ds array.lenName [array] = some .int

/-- Floor division and remainder are declared. -/
structure FloorDeclared (ds : List Declaration) : Prop where
  div : declaredSort? ds Fn.floorDiv.render [.int, .int] = some .int
  mod : declaredSort? ds Fn.floorMod.render [.int, .int] = some .int

/-- The declarations and what is bound give the variable the type that it has in `G`, and know the
length functions of the sorts of arrays in it. -/
def Knows (ds : List Declaration) (env : TypeEnv) (bound : List (String × Ty))
    (scope : List (String × SmtSort)) (G : TypeEnv) (x : String) : Prop :=
  ∀ ty s, G.get? x = some ty → SmtSort.ofTy ty = .ok s →
    varType env bound x = .ok ty ∧ (Term.symbol (symbol x)).sort? ds scope = some s ∧
      ∀ a ∈ s.arrays, LenDeclared ds a

/-- The expression is encoded, with a term of the sort of its type. -/
structure WellEncoded (ds : List Declaration) (env : TypeEnv) (bound : List (String × Ty))
    (scope : List (String × SmtSort)) (e : Expr) (ty : Ty) (t : Term) (s : SmtSort) : Prop where
  encode_eq : encode env bound e = .ok t
  typeOf_eq : typeOf env bound e = .ok ty
  ofTy_eq : SmtSort.ofTy ty = .ok s
  sort_eq : t.sort? ds scope = some s
  arrays : ∀ a ∈ s.arrays, LenDeclared ds a

section

variable {ds : List Declaration} {scope : List (String × SmtSort)}

/-- A binary operator takes terms of the sort of its operands to one of the sort of its result. -/
theorem sort?_binaryTerm {op : Op} {l r : Term} {s s' : SmtSort} (hds : FloorDeclared ds)
    (hop : op.isUnary = false) (hs : SmtSort.ofTy op.types.1 = .ok s)
    (hs' : SmtSort.ofTy op.types.2 = .ok s') (hl : l.sort? ds scope = some s)
    (hr : r.sort? ds scope = some s) : (binaryTerm op l r).sort? ds scope = some s' := by
  cases op with
  | neg | not => cases hop
  | div =>
    cases hs
    cases hs'
    exact (Term.sort?_app_two hl hr).trans hds.div
  | mod =>
    cases hs
    cases hs'
    exact (Term.sort?_app_two hl hr).trans hds.mod
  | ne =>
    cases hs
    cases hs'
    exact Term.sort?_negate (Term.sort?_app_two hl hr)
  | _ =>
    cases hs
    cases hs'
    exact Term.sort?_app_two hl hr

/-- The sort of a unary operator is that of its result type. -/
theorem sort?_unaryTerm {op : Op} {t : Term} {s s' : SmtSort} (hop : op.isUnary = true)
    (hs : SmtSort.ofTy op.types.1 = .ok s) (hs' : SmtSort.ofTy op.types.2 = .ok s')
    (ht : t.sort? ds scope = some s) : (unaryTerm op t).sort? ds scope = some s' := by
  cases op with
  | neg =>
    cases hs
    cases hs'
    exact Term.sort?_app_one ht
  | not =>
    cases hs
    cases hs'
    exact Term.sort?_negate ht
  | _ => cases hop

end

/-! ## Sorts of quantifiers -/

/-- The quantifiers of an expression have sorts, and the sorts of arrays in them have a property. -/
def QuantifiesOver (P : SmtSort → Prop) (e : Expr) : Prop :=
  ∃ sorts, quantifierSorts e = .ok sorts ∧ ∀ a ∈ sorts, P a

namespace QuantifiesOver

variable {P : SmtSort → Prop} {e l r : Expr}

/-- What holds of the sorts that an operation quantifies over holds of those in its operands. -/
theorem binary {op : Op} (h : QuantifiesOver P (.binary op l r)) :
    QuantifiesOver P l ∧ QuantifiesOver P r := by
  obtain ⟨sorts, h, hsorts⟩ := h
  obtain ⟨ls, hls, h⟩ := Exec.bind_eq_ok.mp h
  obtain ⟨rs, hrs, h⟩ := Exec.bind_eq_ok.mp h
  cases h
  rw [List.forall_mem_append] at hsorts
  exact ⟨⟨ls, hls, hsorts.1⟩, ⟨rs, hrs, hsorts.2⟩⟩

/-- A subscript has the quantifiers that an operator would have with its parts as operands. -/
theorem subscript (h : QuantifiesOver P (.subscript l r)) :
    QuantifiesOver P l ∧ QuantifiesOver P r :=
  @binary P l r .add h

/-- What holds of the sorts that a list quantifies over holds of those in its members. -/
theorem of_mem {es : List Expr} {sorts : List SmtSort} (h : quantifierSortsAll es = .ok sorts)
    (hsorts : ∀ a ∈ sorts, P a) (he : e ∈ es) : QuantifiesOver P e := by
  induction es generalizing sorts with
  | nil => cases he
  | cons d es ih =>
    obtain ⟨ds, hds, h⟩ := Exec.bind_eq_ok.mp h
    obtain ⟨ss, hss, h⟩ := Exec.bind_eq_ok.mp h
    cases h
    rw [List.forall_mem_append] at hsorts
    rcases List.mem_cons.1 he with rfl | he
    · exact ⟨ds, hds, hsorts.1⟩
    · exact ih hss hsorts.2 he

theorem call {f : String} {args : List Expr} (h : QuantifiesOver P (.call f args)) :
    ∀ a ∈ args, QuantifiesOver P a := by
  obtain ⟨sorts, h, hsorts⟩ := h
  rw [quantifierSorts] at h
  exact fun a ha => of_mem h hsorts ha

/-- What holds of the sorts of a quantified expression holds of the sort of its variable and of
those in its body. -/
theorem forAll {x : String} {ty : Ty} {s : SmtSort} (hs : SmtSort.ofTy ty = .ok s)
    (h : QuantifiesOver P (.forAll x (some ty) e)) :
    (∀ a ∈ s.arrays, P a) ∧ QuantifiesOver P e := by
  obtain ⟨sorts, h, hsorts⟩ := h
  obtain ⟨own, hown, h⟩ := Exec.bind_eq_ok.mp h
  obtain ⟨inner, hinner, h⟩ := Exec.bind_eq_ok.mp h
  cases h
  obtain rfl : own = some s := by
    simp only [Option.mapM_some, hs] at hown
    exact (Except.ok.inj hown).symm
  rw [List.forall_mem_append] at hsorts
  exact ⟨hsorts.1, inner, hinner, hsorts.2⟩

end QuantifiesOver

/-! ## Typed expressions -/

section

variable {ds : List Declaration} {env : TypeEnv} {bound : List (String × Ty)}
  {scope : List (String × SmtSort)} {G : TypeEnv}

/-- Under a binder its variable is known, and the others as before. -/
theorem Knows.under {x y : String} {ty : Ty} {s : SmtSort} (hs : SmtSort.ofTy ty = .ok s)
    (harrays : ∀ a ∈ s.arrays, LenDeclared ds a) (hy : y ≠ x → Knows ds env bound scope G y) :
    Knows ds env ((x, ty) :: bound) ((symbol x, s) :: scope) (G.insert x ty) y := by
  intro t s' ht hs'
  by_cases hyx : y = x
  · subst hyx
    obtain rfl : ty = t := by simpa using ht
    obtain rfl := Except.ok.inj (hs.symm.trans hs')
    exact ⟨by simp [varType], by simp [Term.sort?], harrays⟩
  · obtain ⟨htype, hsort, hlen⟩ := hy hyx t s' (by simpa [hyx] using ht) hs'
    have hsymbol : symbol x ≠ symbol y := fun h => hyx (symbol_injective h).symm
    refine ⟨?_, ?_, hlen⟩
    · simpa [varType, Ne.symm hyx] using htype
    · simpa [Term.sort?, hsymbol] using hsort

/-- A list has a sort of arrays, of the sort of its elements. -/
theorem exists_array_of_ofTy {elem : Ty} {s : SmtSort} (h : SmtSort.ofTy (.array elem) = .ok s) :
    ∃ s', s = .array s' ∧ SmtSort.ofTy elem = .ok s' := by
  obtain ⟨s', hs', hs⟩ := Exec.bind_eq_ok.mp h
  exact ⟨s', (Except.ok.inj hs).symm, hs'⟩

/-- The arguments and the result of an operator have sorts. -/
theorem exists_ofTy_types (op : Op) : ∃ s, SmtSort.ofTy op.types.2 = .ok s ∧ s.arrays = [] := by
  cases op <;> exact ⟨_, rfl, rfl⟩

theorem typeOf_op (op : Op) : (if op.kind = .arithmetic then Ty.int else .bool) = op.types.2 := by
  cases op <;> rfl

/-- The terms of a list, from those of its first member and of the others. -/
theorem encodeAll_cons {e : Expr} {es : List Expr} {t : Term} {ts : List Term}
    (he : encode env bound e = .ok t) (hes : encodeAll env bound es = .ok ts) :
    encodeAll env bound (e :: es) = .ok (t :: ts) :=
  Exec.bind_eq_ok.mpr ⟨t, he, Exec.bind_eq_ok.mpr ⟨ts, hes, rfl⟩⟩

namespace WellEncoded

variable {l r i v body : Expr} {elem ty : Ty} {tl tr ti tv t : Term} {sl sr si sv s : SmtSort}

/-- An operation over encoded operands is encoded, given the two functions of division. -/
theorem binary {op : Op} (hds : FloorDeclared ds) (hop : op.isUnary = false)
    (hl : WellEncoded ds env bound scope l op.types.1 tl sl)
    (hr : WellEncoded ds env bound scope r op.types.1 tr sr) :
    ∃ t s, WellEncoded ds env bound scope (.binary op l r) op.types.2 t s := by
  obtain rfl := Except.ok.inj (hl.ofTy_eq.symm.trans hr.ofTy_eq)
  obtain ⟨s, hs, harrays⟩ := exists_ofTy_types op
  refine ⟨binaryTerm op tl tr, s, ?_, congrArg Except.ok (typeOf_op op), hs,
    sort?_binaryTerm hds hop hl.ofTy_eq hs hl.sort_eq hr.sort_eq, by simp [harrays]⟩
  exact Exec.bind_eq_ok.mpr ⟨tl, hl.encode_eq, Exec.bind_eq_ok.mpr ⟨tr, hr.encode_eq, rfl⟩⟩

theorem unary {op : Op} (hop : op.isUnary = true)
    (hl : WellEncoded ds env bound scope l op.types.1 tl sl) :
    ∃ t s, WellEncoded ds env bound scope (.unary op l) op.types.2 t s := by
  obtain ⟨s, hs, harrays⟩ := exists_ofTy_types op
  refine ⟨unaryTerm op tl, s, ?_, congrArg Except.ok (typeOf_op op), hs,
    sort?_unaryTerm hop hl.ofTy_eq hs hl.sort_eq, by simp [harrays]⟩
  exact Exec.bind_eq_ok.mpr ⟨tl, hl.encode_eq, rfl⟩

/-- An element of an encoded list is encoded. -/
theorem element (hslice : i.isSlice = false)
    (hl : WellEncoded ds env bound scope l (.array elem) tl sl)
    (hi : WellEncoded ds env bound scope i .int ti si) :
    ∃ t s, WellEncoded ds env bound scope (.subscript l i) elem t s := by
  obtain ⟨s, rfl, hs⟩ := exists_array_of_ofTy hl.ofTy_eq
  cases hi.ofTy_eq
  refine ⟨.app .select [tl, ti], s, ?_, ?_, hs, Term.sort?_app_two hl.sort_eq hi.sort_eq,
    fun a ha => hl.arrays a (List.mem_cons_of_mem _ ha)⟩
  · simp only [encode, hslice, hl.encode_eq, hi.encode_eq]
    rfl
  · exact Exec.bind_eq_ok.mpr ⟨_, hl.typeOf_eq, rfl⟩

theorem len (hl : WellEncoded ds env bound scope l (.array elem) tl sl) :
    ∃ t s, WellEncoded ds env bound scope (.call "len" [l]) .int t s := by
  obtain ⟨s, rfl, -⟩ := exists_array_of_ofTy hl.ofTy_eq
  have hlen : LenDeclared ds (.array s) := hl.arrays _ (by simp [SmtSort.arrays])
  refine ⟨.app (.len (.array s)) [tl], .int, ?_, rfl, rfl,
    (Term.sort?_app_one hl.sort_eq).trans hlen, by simp [SmtSort.arrays]⟩
  exact Exec.bind_eq_ok.mpr ⟨[tl], encodeAll_cons hl.encode_eq rfl, Exec.bind_eq_ok.mpr
    ⟨_, hl.typeOf_eq, Exec.bind_eq_ok.mpr ⟨_, hl.ofTy_eq, rfl⟩⟩⟩

/-- A store into an encoded list is encoded, if the value has the sort of its elements. -/
theorem store (hl : WellEncoded ds env bound scope l (.array elem) tl sl)
    (hi : WellEncoded ds env bound scope i .int ti si)
    (hv : WellEncoded ds env bound scope v elem tv sv) :
    ∃ t s, WellEncoded ds env bound scope (.call "store" [l, i, v]) (.array elem) t s := by
  obtain ⟨s, rfl, hs⟩ := exists_array_of_ofTy hl.ofTy_eq
  cases hi.ofTy_eq
  obtain rfl := Except.ok.inj (hs.symm.trans hv.ofTy_eq)
  refine ⟨.app .store [tl, ti, tv], .array s, ?_, hl.typeOf_eq, hl.ofTy_eq,
    (Term.sort?_app_three hl.sort_eq hi.sort_eq hv.sort_eq).trans (if_pos rfl), hl.arrays⟩
  have hargs : encodeAll env bound [l, i, v] = .ok [tl, ti, tv] :=
    encodeAll_cons hl.encode_eq (encodeAll_cons hi.encode_eq (encodeAll_cons hv.encode_eq rfl))
  exact Exec.bind_eq_ok.mpr ⟨[tl, ti, tv], hargs, rfl⟩

/-- A quantifier is encoded if its body is, under the sort of its variable. -/
theorem forAll {x : String} {sbody : SmtSort} (hs : SmtSort.ofTy ty = .ok s)
    (hbody : WellEncoded ds env ((x, ty) :: bound) ((symbol x, s) :: scope) body .bool t sbody) :
    ∃ t s, WellEncoded ds env bound scope (.forAll x (some ty) body) .bool t s := by
  cases hbody.ofTy_eq
  refine ⟨.forAll [(symbol x, s)] t, .bool, ?_, rfl, rfl, ?_, by simp [SmtSort.arrays]⟩
  · exact Exec.bind_eq_ok.mpr ⟨s, hs, Exec.bind_eq_ok.mpr ⟨t, hbody.encode_eq, rfl⟩⟩
  · simp [Term.sort?, hbody.sort_eq]

end WellEncoded

/-- A typed expression is encoded by a term of the sort of its type, if its free variables are known
and the length functions of the sorts that its quantifiers range over are declared. -/
theorem exists_wellEncoded {e : Expr} {ty : Ty} (h : e.Typed G ty) (hds : FloorDeclared ds)
    (hG : G.OfValues) (he : e.WellFormed false)
    (hvars : ∀ x ∈ e.freeVars, Knows ds env bound scope G x)
    (hquantified : QuantifiesOver (LenDeclared ds) e) :
    ∃ t s, WellEncoded ds env bound scope e ty t s := by
  induction h generalizing bound scope with
  | @var G x ty hx hty =>
    obtain ⟨s, hs⟩ := ofTy_of_isData (Ty.isData_iff.2 ⟨hG x ty hx, hty⟩)
    obtain ⟨htype, hsort, harrays⟩ := hvars x (by simp [Expr.freeVars]) ty s hx hs
    exact ⟨_, s, rfl, htype, hs, hsort, harrays⟩
  | int => exact ⟨_, .int, rfl, rfl, rfl, by simp only [Term.sort?], by simp [SmtSort.arrays]⟩
  | bool => exact ⟨_, .bool, rfl, rfl, rfl, by simp only [Term.sort?], by simp [SmtSort.arrays]⟩
  | binary _ _ ihl ihr =>
    rw [Expr.freeVars, List.forall_mem_append] at hvars
    cases he with
    | binary hop hel her =>
      obtain ⟨_, _, hl⟩ := ihl hG hel hvars.1 hquantified.binary.1
      obtain ⟨_, _, hr⟩ := ihr hG her hvars.2 hquantified.binary.2
      exact hl.binary hds hop hr
  | unary _ ih =>
    cases he with
    | unary hop he =>
      obtain ⟨_, _, he⟩ := ih hG he hvars hquantified
      exact he.unary hop
  | element _ hti ihb ihi =>
    rw [Expr.freeVars, List.forall_mem_append] at hvars
    cases he with
    | subscript heb hei =>
      obtain ⟨_, _, hb⟩ := ihb hG heb hvars.1 hquantified.subscript.1
      obtain ⟨_, _, hi⟩ := ihi hG (hei.of_isSlice hti.isSlice) hvars.2 hquantified.subscript.2
      exact hb.element hti.isSlice hi
  | len hf _ ih =>
    subst hf
    simp only [Expr.freeVars, Expr.freeVarsAll, List.append_nil] at hvars
    cases he with
    | call hargs =>
      obtain ⟨_, _, hl⟩ := ih hG (hargs _ (by simp)) hvars (hquantified.call _ (by simp))
      exact hl.len
  | store hf _ _ _ ihl ihi ihv =>
    subst hf
    simp only [Expr.freeVars, Expr.freeVarsAll, List.append_nil, List.forall_mem_append] at hvars
    cases he with
    | call hargs =>
      obtain ⟨_, _, hl⟩ := ihl hG (hargs _ (by simp)) hvars.1 (hquantified.call _ (by simp))
      obtain ⟨_, _, hi⟩ := ihi hG (hargs _ (by simp)) hvars.2.1 (hquantified.call _ (by simp))
      obtain ⟨_, _, hv⟩ := ihv hG (hargs _ (by simp)) hvars.2.2 (hquantified.call _ (by simp))
      exact hl.store hi hv
  | @forAll G x ty body hty _ ih =>
    cases he with
    | forAll hvalues hbody =>
      obtain ⟨s, hs⟩ := ofTy_of_isData (Ty.isData_iff.2 ⟨hvalues ty rfl, hty⟩)
      obtain ⟨harrays, hinner⟩ := hquantified.forAll hs
      have hunder : ∀ y ∈ body.freeVars,
          Knows ds env ((x, ty) :: bound) ((symbol x, s) :: scope) (G.insert x ty) y := by
        intro y hy
        refine Knows.under hs harrays fun hyx => hvars y ?_
        simp [Expr.freeVars, hy, hyx]
      obtain ⟨_, _, ht⟩ := ih (hG.insert (hvalues ty rfl)) hbody hunder hinner
      exact ht.forAll hs

end

end Smt

end Precond
