import Mathlib.Tactic
import Precond.Proofs.ScriptDeclarations

/-!
# Symbols of encoded terms

`Term.freeSymbols` are the symbols of a term that no quantifier in it binds, and `Term.functions`
are the functions that it applies. In the term for an expression the free symbols are those of the
free variables (`EncodedAs.freeSymbols_eq`), and every length function that is applied to arrays is
declared (`Declares.isDeclared`): the declarations are collected from the variables and the
quantifiers, and the type of a list is part of the type of a variable in it.

These need nothing but that the expression was encoded, which `EncodedAs` says by rules. That no
length function is applied to anything but arrays is more: it takes a term that has a sort
(`Term.isDeclared_of_sort?`).
-/

namespace Precond

namespace Smt

/-! ## Symbols and functions -/

/-- Whether SMT-LIB has the function. -/
def Fn.isBuiltin : Fn → Bool
  | .floorDiv | .floorMod | .len _ => false
  | _ => true

/-- Whether the function is built in or has a declared name. -/
def Fn.isDeclared (ds : List Declaration) (f : Fn) : Bool :=
  f.isBuiltin || (signatures ds).any (·.1 = f.render)

mutual

/-- The symbols of a term that are not bound in it. -/
def Term.freeSymbols : Term → List String
  | .symbol x => [x]
  | .int _ | .bool _ => []
  | .app _ args => Term.freeSymbolsAll args
  | .forAll vars body => (Term.freeSymbols body).filter (· ∉ vars.map (·.1))

/-- The symbols of the terms of a list that are not bound in them. -/
def Term.freeSymbolsAll : List Term → List String
  | [] => []
  | t :: ts => Term.freeSymbols t ++ Term.freeSymbolsAll ts

end

mutual

/-- The functions that a term applies. -/
def Term.functions : Term → List Fn
  | .symbol _ | .int _ | .bool _ => []
  | .app f args => f :: Term.functionsAll args
  | .forAll _ body => Term.functions body

/-- The functions that the terms of a list apply. -/
def Term.functionsAll : List Term → List Fn
  | [] => []
  | t :: ts => Term.functions t ++ Term.functionsAll ts

end

section

variable {ds : List Declaration}

/-- A function that has a declared sort is declared. -/
theorem Fn.isDeclared_of_declaredSort? {f : Fn} {args : List SmtSort} {s : SmtSort}
    (h : declaredSort? ds f.render args = some s) : f.isDeclared ds = true := by
  rw [declaredSort?] at h
  cases hfind : (signatures ds).find? (·.1 = f.render) with
  | none => simp [hfind] at h
  | some d =>
    have hd := List.find?_some hfind
    have hany : (signatures ds).any (·.1 = f.render) = true :=
      List.any_eq_true.2 ⟨d, List.mem_of_find?_eq_some hfind, hd⟩
    rw [Fn.isDeclared, hany, Bool.or_true]

/-- A function that has a sort is declared. -/
theorem Fn.isDeclared_of_sort? {f : Fn} {args : List SmtSort} {s : SmtSort}
    (h : f.sort? ds args = some s) : f.isDeclared ds = true := by
  cases f with
  | floorDiv | floorMod | len _ => exact Fn.isDeclared_of_declaredSort? h
  | _ => rfl

mutual

/-- A term that has a sort applies declared functions only. -/
theorem Term.isDeclared_of_sort? {t : Term} {scope : List (String × SmtSort)} {s : SmtSort}
    (h : t.sort? ds scope = some s) : ∀ f ∈ t.functions, f.isDeclared ds = true := by
  match t with
  | .symbol _ | .int _ | .bool _ => simp [Term.functions]
  | .app f args =>
    rw [Term.sort?] at h
    cases hargs : Term.sortAll? ds scope args with
    | none => simp [hargs] at h
    | some sorts =>
      rw [hargs] at h
      rw [Term.functions, List.forall_mem_cons]
      exact ⟨Fn.isDeclared_of_sort? h, Term.isDeclared_of_sortAll? hargs⟩
  | .forAll vars body =>
    rw [Term.sort?] at h
    split_ifs at h with hbody
    rw [Term.functions]
    exact Term.isDeclared_of_sort? hbody

theorem Term.isDeclared_of_sortAll? {ts : List Term} {scope : List (String × SmtSort)}
    {sorts : List SmtSort} (h : Term.sortAll? ds scope ts = some sorts) :
    ∀ f ∈ Term.functionsAll ts, f.isDeclared ds = true := by
  match ts with
  | [] => simp [Term.functionsAll]
  | t :: ts =>
    rw [Term.sortAll?] at h
    cases ht : Term.sort? ds scope t with
    | none => simp [ht] at h
    | some s =>
      cases hts : Term.sortAll? ds scope ts with
      | none => simp [ht, hts] at h
      | some ss =>
        rw [Term.functionsAll, List.forall_mem_append]
        exact ⟨Term.isDeclared_of_sort? ht, Term.isDeclared_of_sortAll? hts⟩

end

end

@[simp] theorem freeSymbols_binaryTerm (op : Op) (l r : Term) :
    (binaryTerm op l r).freeSymbols = l.freeSymbols ++ r.freeSymbols := by
  cases op <;> simp [binaryTerm, Term.negate, Term.freeSymbols, Term.freeSymbolsAll]

@[simp] theorem freeSymbols_unaryTerm (op : Op) (t : Term) :
    (unaryTerm op t).freeSymbols = t.freeSymbols := by
  cases op <;> simp [unaryTerm, Term.negate, Term.freeSymbols, Term.freeSymbolsAll]

@[simp] theorem len_mem_functions_binaryTerm {op : Op} {l r : Term} {a : SmtSort} :
    .len a ∈ (binaryTerm op l r).functions ↔ .len a ∈ l.functions ∨ .len a ∈ r.functions := by
  cases op <;> simp [binaryTerm, Term.negate, Term.functions, Term.functionsAll]

@[simp] theorem len_mem_functions_unaryTerm {op : Op} {t : Term} {a : SmtSort} :
    .len a ∈ (unaryTerm op t).functions ↔ .len a ∈ t.functions := by
  cases op <;> simp [unaryTerm, Term.negate, Term.functions, Term.functionsAll]

/-! ## Encoded expressions -/

/-- The rules by which an expression is encoded, under variables that are bound. -/
inductive EncodedAs (env : TypeEnv) : List (String × Ty) → Expr → Term → Prop where
  | var {bound : List (String × Ty)} {x : String} :
    EncodedAs env bound (.var x) (.symbol (symbol x))
  | int {bound : List (String × Ty)} {n : Int} : EncodedAs env bound (.lit (.int n)) (.int n)
  | bool {bound : List (String × Ty)} {b : Bool} : EncodedAs env bound (.lit (.bool b)) (.bool b)
  | binary {bound : List (String × Ty)} {op : Op} {l r : Expr} {tl tr : Term}
    (hl : EncodedAs env bound l tl) (hr : EncodedAs env bound r tr) :
    EncodedAs env bound (.binary op l r) (binaryTerm op tl tr)
  | unary {bound : List (String × Ty)} {op : Op} {e : Expr} {t : Term}
    (he : EncodedAs env bound e t) : EncodedAs env bound (.unary op e) (unaryTerm op t)
  | subscript {bound : List (String × Ty)} {base index : Expr} {tb ti : Term}
    (hb : EncodedAs env bound base tb) (hi : EncodedAs env bound index ti) :
    EncodedAs env bound (.subscript base index) (.app .select [tb, ti])
  | len {bound : List (String × Ty)} {f : String} {list : Expr} {t : Term} {ty : Ty} {s : SmtSort}
    (hf : f = "len") (hlist : EncodedAs env bound list t) (hty : typeOf env bound list = .ok ty)
    (hs : SmtSort.ofTy ty = .ok s) : EncodedAs env bound (.call f [list]) (.app (.len s) [t])
  | store {bound : List (String × Ty)} {f : String} {list index item : Expr} {tl ti tv : Term}
    (hf : f = "store") (hl : EncodedAs env bound list tl) (hi : EncodedAs env bound index ti)
    (hv : EncodedAs env bound item tv) :
    EncodedAs env bound (.call f [list, index, item]) (.app .store [tl, ti, tv])
  | forAll {bound : List (String × Ty)} {x : String} {ty : Ty} {s : SmtSort} {body : Expr}
    {t : Term} (hs : SmtSort.ofTy ty = .ok s) (hbody : EncodedAs env ((x, ty) :: bound) body t) :
    EncodedAs env bound (.forAll x (some ty) body) (.forAll [(symbol x, s)] t)

mutual

/-- An encoded expression is encoded by the rules. -/
theorem encodedAs_of_encode {env : TypeEnv} {bound : List (String × Ty)} {e : Expr} {t : Term}
    (h : encode env bound e = .ok t) : EncodedAs env bound e t := by
  match e with
  | .var _ =>
    cases h
    exact .var
  | .lit (.int _) =>
    cases h
    exact .int
  | .lit (.bool _) =>
    cases h
    exact .bool
  | .binary _ l r =>
    obtain ⟨tl, hl, h⟩ := Exec.bind_eq_ok.1 h
    obtain ⟨tr, hr, h⟩ := Exec.bind_eq_ok.1 h
    cases h
    exact .binary (encodedAs_of_encode hl) (encodedAs_of_encode hr)
  | .unary _ e =>
    obtain ⟨t, ht, h⟩ := Exec.bind_eq_ok.1 h
    cases h
    exact .unary (encodedAs_of_encode ht)
  | .subscript base index =>
    rw [encode] at h
    split_ifs at h
    · cases h
    · obtain ⟨tb, hb, h⟩ := Exec.bind_eq_ok.1 h
      obtain ⟨ti, hi, h⟩ := Exec.bind_eq_ok.1 h
      cases h
      exact .subscript (encodedAs_of_encode hb) (encodedAs_of_encode hi)
  | .slice .. | .sliceFrom .. => cases h
  | .call f args =>
    rw [encode] at h
    obtain ⟨ts, hts, h⟩ := Exec.bind_eq_ok.1 h
    have hall := encodedAs_of_encodeAll hts
    split at h
    · next list t =>
      obtain ⟨ty, hty, h⟩ := Exec.bind_eq_ok.1 h
      obtain ⟨s, hs, h⟩ := Exec.bind_eq_ok.1 h
      cases h
      cases hall with
      | cons hlist _ => exact .len rfl hlist hty hs
    · cases h
      rcases hall with _ | ⟨hl, _ | ⟨hi, _ | ⟨hv, _ | _⟩⟩⟩
      exact .store rfl hl hi hv
    · cases h
  | .forAll x none body => cases h
  | .forAll x (some ty) body =>
    obtain ⟨s, hs, h⟩ := Exec.bind_eq_ok.1 h
    obtain ⟨t, ht, h⟩ := Exec.bind_eq_ok.1 h
    cases h
    exact .forAll hs (encodedAs_of_encode ht)

theorem encodedAs_of_encodeAll {env : TypeEnv} {bound : List (String × Ty)} {es : List Expr}
    {ts : List Term} (h : encodeAll env bound es = .ok ts) :
    List.Forall₂ (EncodedAs env bound) es ts := by
  match es with
  | [] =>
    cases h
    exact .nil
  | e :: es =>
    obtain ⟨t, ht, h⟩ := Exec.bind_eq_ok.1 h
    obtain ⟨ts, hts, h⟩ := Exec.bind_eq_ok.1 h
    cases h
    exact .cons (encodedAs_of_encode ht) (encodedAs_of_encodeAll hts)

end

/-- Each expression of an encoded list is encoded. -/
theorem exists_encoded {env : TypeEnv} {bound : List (String × Ty)} {es : List Expr}
    {ts : List Term} (h : encodeAll env bound es = .ok ts) {e : Expr} (he : e ∈ es) :
    ∃ t, encode env bound e = .ok t := by
  induction es generalizing ts with
  | nil => cases he
  | cons d es ih =>
    obtain ⟨t, ht, h⟩ := Exec.bind_eq_ok.1 h
    obtain ⟨ts', hts, -⟩ := Exec.bind_eq_ok.1 h
    rcases List.mem_cons.1 he with rfl | he
    · exact ⟨t, ht⟩
    · exact ih hts he

/-- Each term of an encoded list comes from an expression of it. -/
theorem exists_of_mem_encodeAll {env : TypeEnv} {bound : List (String × Ty)} {es : List Expr}
    {ts : List Term} (h : encodeAll env bound es = .ok ts) {t : Term} (ht : t ∈ ts) :
    ∃ e ∈ es, encode env bound e = .ok t := by
  induction es generalizing ts with
  | nil =>
    cases h
    cases ht
  | cons d es ih =>
    obtain ⟨t', ht', h⟩ := Exec.bind_eq_ok.1 h
    obtain ⟨ts', hts, h⟩ := Exec.bind_eq_ok.1 h
    cases h
    rcases List.mem_cons.1 ht with rfl | ht
    · exact ⟨d, List.mem_cons_self, ht'⟩
    · obtain ⟨e, he, henc⟩ := ih hts ht
      exact ⟨e, List.mem_cons_of_mem _ he, henc⟩

theorem SmtSort.isConcrete_of_ofTy {ty : Ty} {s : SmtSort} (h : ofTy ty = .ok s) :
    ty.isConcrete = true := by
  induction ty using SmtSort.ofTy.induct generalizing s with
  | case1 | case2 => rfl
  | case3 elem ih =>
    obtain ⟨s', hs', -⟩ := Exec.bind_eq_ok.1 h
    exact ih hs'
  | case4 => cases h
  | case5 => simp [ofTy] at h

/-- The type of a variable where it stands is one whose sorts of arrays satisfy `P`. -/
def Backed (P : SmtSort → Prop) (env : TypeEnv) (bound : List (String × Ty)) (x : String) : Prop :=
  ∀ ty s, varType env bound x = .ok ty → SmtSort.ofTy ty = .ok s → ∀ a ∈ s.arrays, P a

section

variable {env : TypeEnv} {bound : List (String × Ty)} {P : SmtSort → Prop}

/-- Under a quantifier, its own variable and the others are backed. -/
theorem Backed.under {x y : String} {ty : Ty} {s : SmtSort} (hs : SmtSort.ofTy ty = .ok s)
    (harrays : ∀ a ∈ s.arrays, P a) (hy : y ≠ x → Backed P env bound y) :
    Backed P env ((x, ty) :: bound) y := by
  intro t s' ht hs'
  by_cases hyx : y = x
  · subst hyx
    obtain rfl : ty = t := by simpa [varType] using ht
    obtain rfl := Except.ok.inj (hs.symm.trans hs')
    exact harrays
  · exact hy hyx t s' (by simpa [varType, Ne.symm hyx] using ht) hs'

namespace EncodedAs

variable {e : Expr} {t : Term}

/-- Slices are not encoded. -/
theorem hasSlice (h : EncodedAs env bound e t) : e.hasSlice = false := by
  induction h with
  | var | int | bool => rfl
  | binary _ _ ihl ihr | subscript _ _ ihl ihr => simp [Expr.hasSlice, ihl, ihr]
  | unary _ ih | forAll _ _ ih => simp [Expr.hasSlice, ih]
  | len _ _ _ _ ih => simp [Expr.hasSlice, Expr.hasSliceAll, ih]
  | store _ _ _ _ ihl ihi ihv => simp [Expr.hasSlice, Expr.hasSliceAll, ihl, ihi, ihv]

/-- The quantifiers have settled types. -/
theorem annotated (h : EncodedAs env bound e t) : e.annotated = true := by
  induction h with
  | var | int | bool => rfl
  | binary _ _ ihl ihr | subscript _ _ ihl ihr => simp [Expr.annotated, ihl, ihr]
  | unary _ ih => simp [Expr.annotated, ih]
  | len _ _ _ _ ih => simp [Expr.annotated, Expr.annotatedAll, ih]
  | store _ _ _ _ ihl ihi ihv => simp [Expr.annotated, Expr.annotatedAll, ihl, ihi, ihv]
  | forAll hs _ ih => simp [Expr.annotated, SmtSort.isConcrete_of_ofTy hs, ih]

/-- The quantifiers have sorts. -/
theorem exists_quantifierSorts (h : EncodedAs env bound e t) :
    ∃ sorts, quantifierSorts e = .ok sorts := by
  induction h with
  | var | int | bool => exact ⟨[], rfl⟩
  | binary _ _ ihl ihr | subscript _ _ ihl ihr =>
    obtain ⟨ls, hls⟩ := ihl
    obtain ⟨rs, hrs⟩ := ihr
    exact ⟨ls ++ rs, by rw [quantifierSorts, hls, hrs]; rfl⟩
  | unary _ ih => exact ih
  | len _ _ _ _ ih =>
    rw [quantifierSorts]
    exact quantifierSortsAll_eq_ok (by simpa using ih)
  | store _ _ _ _ ihl ihi ihv =>
    rw [quantifierSorts]
    exact quantifierSortsAll_eq_ok (by simpa using ⟨ihl, ihi, ihv⟩)
  | @forAll _ _ _ s _ _ hs _ ih =>
    obtain ⟨inner, hinner⟩ := ih
    refine ⟨s.arrays ++ inner, ?_⟩
    rw [quantifierSorts, hinner, Option.mapM_some, hs]
    rfl

/-- The free symbols are those of the free variables. -/
theorem freeSymbols_eq (h : EncodedAs env bound e t) : t.freeSymbols = e.freeVars.map symbol := by
  induction h with
  | var | int | bool => simp [Term.freeSymbols, Expr.freeVars]
  | binary _ _ ihl ihr => simp [Expr.freeVars, ihl, ihr]
  | unary _ ih => simp [Expr.freeVars, ih]
  | subscript _ _ ihb ihi =>
    simp [Term.freeSymbols, Term.freeSymbolsAll, Expr.freeVars, ihb, ihi]
  | len _ _ _ _ ih =>
    simp [Term.freeSymbols, Term.freeSymbolsAll, Expr.freeVars, Expr.freeVarsAll, ih]
  | store _ _ _ _ ihl ihi ihv =>
    simp [Term.freeSymbols, Term.freeSymbolsAll, Expr.freeVars, Expr.freeVarsAll, ihl, ihi, ihv]
  | forAll _ _ ih =>
    rw [Term.freeSymbols, Expr.freeVars, ih, List.filter_map]
    simp [Function.comp_def, symbol_injective.eq_iff]

/-- The sorts of arrays in the type of an expression are in the type of a variable in it. -/
theorem arrays_of_typeOf (h : EncodedAs env bound e t)
    (hvars : ∀ x ∈ e.freeVars, Backed P env bound x) {ty : Ty} {s : SmtSort}
    (hty : typeOf env bound e = .ok ty) (hs : SmtSort.ofTy ty = .ok s) : ∀ a ∈ s.arrays, P a := by
  induction h generalizing ty s with
  | var => exact hvars _ (by simp [Expr.freeVars]) ty s hty hs
  | int | bool | forAll =>
    cases hty
    cases hs
    exact List.forall_mem_nil _
  | @binary _ op _ _ _ _ _ _ _ _ | @unary _ op _ _ _ _ =>
    rw [typeOf, typeOf_op] at hty
    obtain ⟨s', hs', harrays⟩ := exists_ofTy_types op
    obtain rfl := Except.ok.inj hty
    obtain rfl := Except.ok.inj (hs.symm.trans hs')
    rw [harrays]
    exact List.forall_mem_nil _
  | @subscript _ base index _ _ _ _ ihb _ =>
    rw [Expr.freeVars, List.forall_mem_append] at hvars
    obtain ⟨tb, htb, hty⟩ := Exec.bind_eq_ok.1 hty
    cases tb with
    | array elem =>
      cases hty
      have harray : SmtSort.ofTy (.array ty) = .ok (.array s) := by
        rw [SmtSort.ofTy, hs]
        rfl
      exact fun a ha => ihb hvars.1 htb harray a (List.mem_cons_of_mem _ ha)
    | _ => cases hty
  | len hf =>
    subst hf
    cases hty
    cases hs
    exact List.forall_mem_nil _
  | store hf _ _ _ ihl _ _ =>
    subst hf
    rw [Expr.freeVars, Expr.freeVarsAll, List.forall_mem_append] at hvars
    exact ihl hvars.1 hty hs

/-- The sorts of arrays whose length a term takes are in the types of the variables and of the
quantifiers. -/
theorem arrays_of_len (h : EncodedAs env bound e t)
    (hvars : ∀ x ∈ e.freeVars, Backed P env bound x) (hquantified : QuantifiesOver P e)
    {s : SmtSort} (hs : .len s ∈ t.functions) : ∀ a ∈ s.arrays, P a := by
  induction h with
  | var | int | bool => simp [Term.functions] at hs
  | binary _ _ ihl ihr =>
    rw [Expr.freeVars, List.forall_mem_append] at hvars
    rcases len_mem_functions_binaryTerm.1 hs with hs | hs
    · exact ihl hvars.1 hquantified.binary.1 hs
    · exact ihr hvars.2 hquantified.binary.2 hs
  | unary _ ih => exact ih hvars hquantified (len_mem_functions_unaryTerm.1 hs)
  | subscript _ _ ihb ihi =>
    rw [Expr.freeVars, List.forall_mem_append] at hvars
    simp only [Term.functions, Term.functionsAll, List.mem_cons, reduceCtorEq, List.append_nil,
      List.mem_append, false_or] at hs
    rcases hs with hs | hs
    · exact ihb hvars.1 hquantified.subscript.1 hs
    · exact ihi hvars.2 hquantified.subscript.2 hs
  | len _ hlist hty hsort ih =>
    simp only [Expr.freeVars, Expr.freeVarsAll, List.append_nil] at hvars
    simp only [Term.functions, Term.functionsAll, List.mem_cons, Fn.len.injEq,
      List.append_nil] at hs
    rcases hs with rfl | hs
    · exact hlist.arrays_of_typeOf hvars hty hsort
    · exact ih hvars (hquantified.call _ (by simp)) hs
  | store _ _ _ _ ihl ihi ihv =>
    simp only [Expr.freeVars, Expr.freeVarsAll, List.append_nil, List.forall_mem_append] at hvars
    simp only [Term.functions, Term.functionsAll, List.mem_cons, reduceCtorEq, List.append_nil,
      List.mem_append, false_or] at hs
    rcases hs with hs | hs | hs
    · exact ihl hvars.1 (hquantified.call _ (by simp)) hs
    · exact ihi hvars.2.1 (hquantified.call _ (by simp)) hs
    · exact ihv hvars.2.2 (hquantified.call _ (by simp)) hs
  | forAll hsort _ ih =>
    obtain ⟨harrays, hinner⟩ := hquantified.forAll hsort
    refine ih (fun y hy => Backed.under hsort harrays fun hyx =>
      hvars y (by simp [Expr.freeVars, hy, hyx])) hinner ?_
    rwa [Term.functions] at hs

end EncodedAs

end

/-! ## Declared symbols -/

/-- The symbols of a term are declared: its free ones are constants for variables of the program,
with the sorts of their types, and the functions in `left` apart it applies declared functions. -/
structure Term.Closed (env : TypeEnv) (ds : List Declaration) (left : List Fn) (t : Term) :
    Prop where
  symbols : ∀ name ∈ t.freeSymbols, ∃ x ty sort, name = Smt.symbol x ∧ env.get? x = some ty ∧
    SmtSort.ofTy ty = .ok sort ∧ .const name sort ∈ ds
  functions : ∀ g ∈ t.functions, g.isDeclared ds = true ∨ g ∈ left

namespace Declares

variable {env : TypeEnv} {formulas : List Expr} {ds : List Declaration} {e : Expr} {t : Term}

theorem isDeclared_of_mem {name : String} {params : List SmtSort} {result : SmtSort} {f : Fn}
    (h : (name, params, result) ∈ signatures ds) (hf : f.render = name) :
    f.isDeclared ds = true := by
  have hany : (signatures ds).any (·.1 = f.render) = true :=
    List.any_eq_true.2 ⟨_, h, by simp [hf]⟩
  rw [Fn.isDeclared, hany, Bool.or_true]

/-- The length functions for the types of the free variables are declared. -/
theorem backed (h : Declares env formulas ds) {x : String} (hx : x ∈ Expr.freeVarsAll formulas) :
    Backed (fun a => .function a.lenName [a] .int ∈ ds) env [] x := by
  intro ty s hty hs
  obtain ⟨s', hsort, -, hlen⟩ := h.const x hx
  obtain ⟨ty', hty', -, hs'⟩ := constantSort_eq_ok.1 hsort
  obtain rfl : ty' = ty := by simpa [varType, hty'] using hty
  obtain rfl := Except.ok.inj (hs'.symm.trans hs)
  exact hlen

/-- The functions that a formula's term applies are declared, except for a length that is taken of
something that is no array. -/
theorem isDeclared (h : Declares env formulas ds) (he : e ∈ formulas) (ht : EncodedAs env [] e t)
    {f : Fn} (hf : f ∈ t.functions) : f.isDeclared ds = true ∨ f = .len .int ∨ f = .len .bool := by
  cases f with
  | floorDiv => exact Or.inl (isDeclared_of_mem h.floorDiv rfl)
  | floorMod => exact Or.inl (isDeclared_of_mem h.floorMod rfl)
  | len s =>
    cases s with
    | int | bool => simp
    | array elem =>
      obtain ⟨sorts, hsorts, hlen⟩ := h.quantified
      have hdeclared := ht.arrays_of_len
        (fun x hx => h.backed (Expr.mem_freeVarsAll.2 ⟨e, he, hx⟩))
        (.of_mem hsorts hlen he) hf (.array elem) List.mem_cons_self
      exact Or.inl (isDeclared_of_mem (mem_signatures hdeclared rfl) rfl)
  | _ => exact Or.inl rfl

/-- The free symbols of a formula's term are declared as constants, with the sorts of the types of
its free variables. -/
theorem exists_const (h : Declares env formulas ds) (he : e ∈ formulas)
    (ht : EncodedAs env [] e t) {name : String} (hname : name ∈ t.freeSymbols) :
    ∃ x ∈ e.freeVars, ∃ ty s, name = symbol x ∧ env.get? x = some ty ∧
      SmtSort.ofTy ty = .ok s ∧ .const name s ∈ ds := by
  rw [ht.freeSymbols_eq, List.mem_map] at hname
  obtain ⟨x, hx, rfl⟩ := hname
  obtain ⟨s, hs, hconst, -⟩ := h.const x (Expr.mem_freeVarsAll.2 ⟨e, he, hx⟩)
  obtain ⟨ty, hty, -, hofTy⟩ := constantSort_eq_ok.1 hs
  exact ⟨x, hx, ty, s, rfl, hty, hofTy, hconst⟩

/-- The terms of formulas use what is declared, except for lengths of something that is no array. -/
theorem closed (h : Declares env formulas ds) (he : e ∈ formulas) (ht : encode env [] e = .ok t) :
    t.Closed env ds [.len .int, .len .bool] := by
  have hencoded := encodedAs_of_encode ht
  refine ⟨fun name hname => ?_, fun g hg => ?_⟩
  · obtain ⟨x, -, ty, sort, hconst⟩ := h.exists_const he hencoded hname
    exact ⟨x, ty, sort, hconst⟩
  · simpa using h.isDeclared he hencoded hg

/-- The terms of typed formulas use what is declared. -/
theorem closed_of_typed (h : Declares env formulas ds) (henv : env.OfValues) (he : e ∈ formulas)
    (ht : encode env [] e = .ok t) (hwell : e.WellFormed false) (htyped : e.Typed env .bool) :
    t.Closed env ds [] := by
  obtain ⟨t', ht', hsort⟩ := h.exists_encode henv he hwell htyped
  obtain rfl := Except.ok.inj (ht.symm.trans ht')
  exact ⟨(h.closed he ht).symbols, fun g hg => Or.inl (Term.isDeclared_of_sort? hsort g hg)⟩

end Declares

end Smt

end Precond
