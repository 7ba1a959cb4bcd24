import Mathlib.Tactic
import Precond.Proofs.ProgramSoundness

/-!
# Every expression of the grammar is read

Soundness says that what is read can be derived. For the converse it matters which token comes next:
a sum is read as a whole only if no further summand follows it. `tightness` gives a token the level
at which it goes on with an expression, and `Expr.ReadsAll` says that a parser reads every piece
that the grammar derives, as long as what follows is `Looser`.

Each level of operators hands this on to the next one. Chains of one operator and comparisons are
read in one go (`chainLevel_of_between`, `comparison_of_between`). Sums and products nest to the
left in the grammar, while the parser reads them in a loop; `Derives.exists_nested_arith` and
`Derives.exists_nested_term` unroll the former, and `nest` is what the loop makes of it. Subscripts
are unrolled likewise (`Derives.exists_subscripts`). The number of tokens bounds how deep brackets
are nested, so `readsAll_parseWithin` is an induction on the depth.
-/

namespace Precond.Grammar.TypeExpr

open Precond.Grammar.Parser

/-- A written type begins with a name. -/
theorem Derives.exists_cons {ts : List (Spanned Token)} {ty : TypeExpr} (h : Derives ts ty) :
    ∃ t us x, ts = t :: us ∧ t.node = .ident x := by
  cases h with
  | plain hname => exact ⟨_, _, _, rfl, hname⟩
  | applied hname => exact ⟨_, _, _, rfl, hname⟩

/-- Each pair of brackets has tokens of its own, so there is no more depth than tokens. -/
theorem parseWithin_of_between {depth : Nat} {ts : List (Spanned Token)} {ty : TypeExpr}
    {c c' : Cursor} (hty : Derives ts ty) (hdepth : ts.length ≤ depth) (h : c.Between ts c')
    (hnext : c'.next ≠ some .lBracket) : parseWithin depth c = .ok (ty, c') := by
  induction depth generalizing ts ty c c' with
  | zero =>
    obtain ⟨t, us, x, rfl, -⟩ := hty.exists_cons
    simp at hdepth
  | succ depth ih =>
    cases hty with
    | plain hname =>
      rw [parseWithin, bind_eq_of_ok (name_of_between h hname), bind_eq_of_ok (accept_of_ne hnext)]
      have hspan := h.last_eq (List.cons_ne_nil _ _)
      change Except.ok (TypeExpr.mk _ [] ⟨_, c'.last⟩, c') = _
      rw [hspan]
      rfl
    | @applied name opening closing x args hname hopening hclosing hargs =>
      obtain ⟨d, hfirst, hmore⟩ := h.split_cons
      obtain ⟨e, hbracket, hlist⟩ := hmore.split_cons
      have hread : commaList (parseWithin depth) .rBracket e = .ok (args.values, c') := by
        refine commaList_of_between (by simp) hclosing
          (fun p hp => ⟨fun {c d} hpiece hend => ?_, ?_⟩) hlist
        · have hlength := CommaList.length_le_tokens hp
          refine ih (hargs p hp) ?_ hpiece ?_
          · simp at hdepth
            omega
          · rcases hend with hend | hend <;> simp [hend]
        · obtain ⟨t, us, y, hts, ht⟩ := (hargs p hp).exists_cons
          exact ⟨t, us, hts, by simp [ht]⟩
      rw [parseWithin, bind_eq_of_ok (name_of_between hfirst hname),
        bind_eq_of_ok (accept_of_between hbracket hopening), if_pos rfl, bind_eq_of_ok hread]
      have hspan := h.last_eq (List.cons_ne_nil _ _)
      change Except.ok (TypeExpr.mk _ args.values ⟨_, c'.last⟩, c') = _
      rw [hspan]
      rfl

theorem parse_of_between {ts : List (Spanned Token)} {ty : TypeExpr} {c c' : Cursor}
    (hty : Derives ts ty) (h : c.Between ts c') (hnext : c'.next ≠ some .lBracket) :
    parse c = .ok (ty, c') := by
  have hlength := h.length_le
  exact parseWithin_of_between hty (by omega) h hnext

end Precond.Grammar.TypeExpr

namespace Precond.Host

open Grammar Grammar.Parser

/-! ## How tokens bind -/

/-- How tightly a token binds an expression in front of it; other tokens do not go on with it. -/
def tightness : Token → Nat
  | .kwOr => 1
  | .kwAnd => 2
  | .eqEq | .notEq | .lt | .ltEq | .gt | .gtEq => 3
  | .plus | .minus => 4
  | .star | .slashSlash | .slash | .percent => 5
  | .lBracket => 6
  | .lParen => 7
  | _ => 0

/-- The next token binds less tightly than `n`. -/
def Looser (n : Nat) (next : Option Token) : Prop := ∀ t ∈ next, tightness t < n

theorem Looser.mono {m n : Nat} {next : Option Token} (h : Looser m next) (hle : m ≤ n) :
    Looser n next := fun t ht => (h t ht).trans_le hle

/-- A token that binds as tightly does not come next. -/
theorem Looser.ne {n : Nat} {next : Option Token} (h : Looser n next) {token : Token}
    (hn : n ≤ tightness token) : next ≠ some token := by
  rintro rfl
  exact absurd (h token rfl) (by omega)

/-- The operators of a level bind as tightly as its rank says. -/
theorem Looser.bind_eq_none {op? : Token → Option Op} {n : Nat} {next : Option Token}
    (hop : ∀ {t op}, op? t = some op → tightness t = n) (h : Looser n next) :
    next.bind op? = none := by
  rw [Option.bind_eq_none_iff]
  intro t ht
  rw [Option.eq_none_iff_forall_ne_some]
  intro op hsome
  have := h t ht
  have := hop hsome
  omega

theorem tightness_comparison {t : Token} {op : Op} (h : comparison? t = some op) :
    tightness t = 3 := by
  cases t <;> simp_all [comparison?, tightness]

theorem tightness_additive {t : Token} {op : Op} (h : additive? t = some op) : tightness t = 4 := by
  cases t <;> simp_all [additive?, tightness]

theorem tightness_multiplicative {t : Token} {op : Op} (h : multiplicative? t = some op) :
    tightness t = 5 := by
  cases t <;> simp_all [multiplicative?, tightness]

/-! ## How expressions begin -/

/-- The tokens that an atom begins with. -/
def opensAtom : Token → Bool
  | .int _ | .kwTrue | .kwFalse | .str _ | .ident _ | .lParen | .lBracket => true
  | _ => false

/-- The tokens that an expression of a level begins with. -/
def Level.opens : Level → Token → Bool
  | .atom, t | .primary, t => opensAtom t
  | .factor, t | .term, t | .arith, t | .compare, t => opensAtom t || t = .minus
  | .not, t | .and, t | .or, t => opensAtom t || t = .minus || t = .kwNot
  | .subscript, t =>
    opensAtom t || t = .minus || t = .kwNot || t = .colon || t = .colonColon

/-- An expression begins with a token that its level allows. -/
theorem Expr.Derives.opens {l : Level} {ts : List (Spanned Token)} {e : Expr} (h : Derives l ts e) :
    ∃ t us, ts = t :: us ∧ l.opens t.node = true := by
  induction h with
  | orChain _ _ _ _ ih | andChain _ _ _ _ ih | comparison _ _ _ _ ih =>
    obtain ⟨t, us, hts, ht⟩ := ih
    exact ⟨t, _, by rw [chainTokens, hts]; rfl, by simp_all [Level.opens]⟩
  | and _ ih | not _ ih | compare _ ih | arith _ ih | term _ ih | factor _ ih | primary _ ih
  | atom _ ih | index _ ih =>
    obtain ⟨t, us, rfl, ht⟩ := ih
    exact ⟨t, us, rfl, by simp_all [Level.opens]⟩
  | addition _ _ _ ih | multiplication _ _ _ ih | subscript _ _ _ _ ih =>
    obtain ⟨t, us, rfl, ht⟩ := ih
    exact ⟨t, _, rfl, ht⟩
  | negation ht | negative ht | call ht | int ht | kwTrue ht | kwFalse ht | name ht | str ht
  | parens ht | list ht =>
    exact ⟨_, _, rfl, by simp [Level.opens, opensAtom, ht]⟩
  | @slice lower _ _ ht _ _ ih | @sliceBy lower _ _ _ _ ht _ _ _ _ ih
  | @sliceAll lower _ _ ht _ _ ih =>
    cases lower with
    | none => exact ⟨_, _, rfl, by simp [Level.opens, ht]⟩
    | some p =>
      obtain ⟨t, us, hts, ht⟩ := ih p rfl
      exact ⟨t, _, by rw [optionTokens, Option.elim_some, hts]; rfl, by simp_all [Level.opens]⟩

/-! ## Levels of operators -/

namespace Expr

/-- Every piece of less than `n` tokens that is related to its value by `T` is read, if what follows
binds less tightly than `rank`. -/
def ReadsAll (p : Parser Expr) (T : List (Spanned Token) → Expr → Prop) (rank n : Nat) : Prop :=
  ∀ ⦃ts e c d⦄, T ts e → ts.length < n → Cursor.Between c ts d → Looser rank d.next →
    p c = .ok (e, d)

/-- An operand is shorter than the chain that it stands in. -/
theorem length_lt_chainTokens {α β : Type} (first : Piece α) {rest : List (Linked β)}
    {p : Linked β} (hp : p ∈ rest) : p.tokens.length < (chainTokens first rest).length := by
  obtain ⟨front, back, rfl⟩ := List.append_of_mem hp
  simp [chainTokens]
  omega

section Levels

variable {D : List (Spanned Token) → Expr → Prop} {operand : Parser Expr} {n : Nat}

/-- An operand behind its operator is read. -/
theorem linked?_of_between {token : Token} {c c' d : Cursor} {t : Spanned Token} {x : Expr}
    (ht : t.node = token) (h : c.Between [t] d) (hx : operand d = .ok (x, c')) :
    linked? token operand c = .ok (some x, c') := by
  rw [linked?, bind_eq_of_ok (accept_of_between h ht)]
  exact map_eq_of_ok hx

theorem linked?_of_ne {token : Token} {c : Cursor} (h : c.next ≠ some token) :
    linked? token operand c = .ok (none, c) := by
  rw [linked?, bind_eq_of_ok (accept_of_ne h)]
  rfl

/-- Operands with one operator between them. A single operand stands for itself. -/
theorem chainLevel_of_between {token : Token} {op : Op}
    (hoperand : ReadsAll operand D (tightness token + 1) n) (first : Piece Expr)
    (rest : List (Linked Expr)) (hne : first.tokens ≠ [])
    (hmarks : ∀ p ∈ rest, p.mark.node = token) (hfirst : D first.tokens first.value)
    (hrest : ∀ p ∈ rest, D p.tokens p.value) (hn : (chainTokens first rest).length < n)
    {c c' : Cursor} (h : c.Between (chainTokens first rest) c')
    (hnext : Looser (tightness token) c'.next) :
    chainLevel token op operand c = .ok (if rest.isEmpty then first.value else
      .chain (spanOf (chainTokens first rest)) op first.value (rest.map (·.value)), c') := by
  obtain ⟨d, hstart, hloop⟩ := Cursor.Between.split h
  have hfits : ∀ p ∈ rest, Looser (tightness token + 1) (some p.mark.node) := by
    intro p hp t ht
    obtain rfl := Option.some.inj ht
    rw [hmarks p hp]
    omega
  have hend : Looser (tightness token + 1) c'.next := hnext.mono (by omega)
  have hvalues : repeatWhile (linked? token operand) d = .ok (rest.map (·.value), c') := by
    refine repeatWhile_linked (fun p hp {c d} hpiece hd => ?_) hfits hend
      (linked?_of_ne (hnext.ne le_rfl)) hloop
    obtain ⟨e, hmark, htokens⟩ := hpiece.split_cons
    have hlength := length_lt_chainTokens first hp
    exact linked?_of_between (hmarks p hp) hmark
      (hoperand (hrest p hp) (by omega) htokens hd)
  have hhead : operand c = .ok (first.value, d) := by
    refine hoperand hfirst ?_ hstart (next_fits hfits hend hloop)
    rw [chainTokens, List.length_append] at hn
    omega
  rw [chainLevel, bind_eq_of_ok (here_eq c), bind_eq_of_ok hhead, bind_eq_of_ok hvalues]
  rw [← h.span_eq (by simp [chainTokens, hne])]
  cases rest <;> rfl

/-- The operands of a level with operators between them, as the loop of the level finds them. -/
theorem operations_of_between {op? : Token → Option Op} {rank : Nat}
    (hop : ∀ {t op}, op? t = some op → tightness t = rank)
    (hoperand : ReadsAll operand D (rank + 1) n) (hne : ∀ {ts e}, D ts e → ts ≠ [])
    {first : Piece Expr} {rest : List (Linked (Op × Expr))}
    (hmarks : ∀ p ∈ rest, op? p.mark.node = some p.value.1) (hfirst : D first.tokens first.value)
    (hrest : ∀ p ∈ rest, D p.tokens p.value.2) (hn : (chainTokens first rest).length < n)
    {c c' : Cursor} (h : c.Between (chainTokens first rest) c') (hnext : Looser rank c'.next) :
    ∃ d, operand c = .ok (first.value, d) ∧ repeatWhile (operation? op? operand) d =
      .ok (rest.map (fun p => (p.value.1, p.value.2, (spanOf p.tokens).stop)), c') := by
  obtain ⟨d, hstart, hloop⟩ := Cursor.Between.split h
  have hfits : ∀ p ∈ rest, Looser (rank + 1) (some p.mark.node) := by
    intro p hp t ht
    obtain rfl := Option.some.inj ht
    rw [hop (hmarks p hp)]
    omega
  have hend : Looser (rank + 1) c'.next := hnext.mono (by omega)
  refine ⟨d, ?_, ?_⟩
  · refine hoperand hfirst ?_ hstart (next_fits hfits hend hloop)
    rw [chainTokens, List.length_append] at hn
    omega
  · refine repeatWhile_linked (fun p hp {c d} hpiece hd => ?_) hfits hend
      (operation?_of_ne (hnext.bind_eq_none hop)) hloop
    obtain ⟨e, hmark, htokens⟩ := hpiece.split_cons
    have hlength := length_lt_chainTokens first hp
    have hread := hoperand (hrest p hp) (by omega) htokens hd
    rw [operation?_of_between hmark (hmarks p hp) hread, htokens.last_eq (hne (hrest p hp))]

/-- Comparisons of an operand with the next one, and so on. -/
theorem comparison_of_between (hoperand : ReadsAll operand (Derives .arith) 4 n)
    (first : Piece Expr) (rest : List (Linked (Op × Expr)))
    (hmarks : ∀ p ∈ rest, comparison? p.mark.node = some p.value.1)
    (hfirst : Derives .arith first.tokens first.value)
    (hrest : ∀ p ∈ rest, Derives .arith p.tokens p.value.2)
    (hn : (chainTokens first rest).length < n) {c c' : Cursor}
    (h : c.Between (chainTokens first rest) c') (hnext : Looser 3 c'.next) :
    comparison operand c = .ok (if rest.isEmpty then first.value else
      .compare (spanOf (chainTokens first rest)) first.value (rest.map (·.value)), c') := by
  obtain ⟨d, hhead, hvalues⟩ := operations_of_between tightness_comparison hoperand
    Derives.ne_nil hmarks hfirst hrest hn h hnext
  rw [comparison, bind_eq_of_ok (here_eq c), bind_eq_of_ok hhead, bind_eq_of_ok hvalues,
    ← h.span_eq (by simp [chainTokens, hfirst.ne_nil])]
  cases rest with
  | nil => rfl
  | cons p rest =>
    change Except.ok (Expr.compare _ _ (List.map _ (List.map _ _)), c') = _
    rw [List.map_map]
    rfl

/-- A first operand and further ones with operators, which nest to the left. -/
structure Nested (op? : Token → Option Op) (D : List (Spanned Token) → Expr → Prop)
    (first : Piece Expr) (rest : List (Linked (Op × Expr))) : Prop where
  marks : ∀ p ∈ rest, op? p.mark.node = some p.value.1
  first : D first.tokens first.value
  rest : ∀ p ∈ rest, D p.tokens p.value.2

/-- The value of operands that nest to the left. -/
def nest (first : Piece Expr) (rest : List (Linked (Op × Expr))) : Expr :=
  rest.foldl (fun l p =>
    .binary ⟨(spanOf first.tokens).start, (spanOf p.tokens).stop⟩ p.value.1 l p.value.2) first.value

/-- A chain goes on with one more operator and operand. -/
theorem Nested.push {op? : Token → Option Op} {first : Piece Expr}
    {rest : List (Linked (Op × Expr))} (h : Nested op? D first rest) {t : Spanned Token} {op : Op}
    {us : List (Spanned Token)} {r : Expr} (ht : op? t.node = some op) (hr : D us r) :
    Nested op? D first (rest ++ [⟨⟨us, (op, r)⟩, t⟩]) := by
  refine ⟨?_, h.first, ?_⟩
  · exact List.forall_mem_append.2 ⟨h.marks, by simpa using ht⟩
  · exact List.forall_mem_append.2 ⟨h.rest, by simpa using hr⟩

theorem chainTokens_push (first : Piece Expr) (rest : List (Linked (Op × Expr)))
    (p : Linked (Op × Expr)) :
    chainTokens first (rest ++ [p]) = chainTokens first rest ++ p.mark :: p.tokens := by
  simp [chainTokens]

/-- A longer chain reaches from where it began to the end of its last operand. -/
theorem spanOf_chainTokens_push {α β : Type} {first : Piece α} (hne : first.tokens ≠ [])
    (rest : List (Linked β)) (t : Spanned Token) {us : List (Spanned Token)} (hus : us ≠ []) :
    spanOf (chainTokens first rest ++ t :: us) =
      ⟨(spanOf first.tokens).start, (spanOf us).stop⟩ := by
  have hstart := spanOf_start_append hne ((rest.flatMap fun p => p.mark :: p.tokens) ++ t :: us)
  have hstop := spanOf_stop_append hus (chainTokens first rest ++ [t])
  rw [← List.append_assoc] at hstart
  rw [List.append_assoc, List.singleton_append] at hstop
  rw [← hstart, ← hstop]
  rfl

/-- The last operator of a chain is the outermost one. -/
theorem nest_push {first : Piece Expr} (hne : first.tokens ≠ [])
    (rest : List (Linked (Op × Expr))) {p : Linked (Op × Expr)} (hp : p.tokens ≠ []) :
    nest first (rest ++ [p]) = .binary (spanOf (chainTokens first rest ++ p.mark :: p.tokens))
      p.value.1 (nest first rest) p.value.2 := by
  rw [spanOf_chainTokens_push hne rest _ hp, nest, List.foldl_append]
  rfl

/-- A level of operators that nest to the left reads its chains in full, up to a token that binds
less tightly. -/
theorem leftLevel_of_between {op? : Token → Option Op} {rank : Nat}
    (hop : ∀ {t op}, op? t = some op → tightness t = rank)
    (hoperand : ReadsAll operand D (rank + 1) n) (hne : ∀ {ts e}, D ts e → ts ≠ [])
    {first : Piece Expr} {rest : List (Linked (Op × Expr))} (hnested : Nested op? D first rest)
    (hn : (chainTokens first rest).length < n) {c c' : Cursor}
    (h : c.Between (chainTokens first rest) c') (hnext : Looser rank c'.next) :
    leftLevel op? operand c = .ok (nest first rest, c') := by
  obtain ⟨d, hhead, hvalues⟩ := operations_of_between hop hoperand hne hnested.marks hnested.first
    hnested.rest hn h hnext
  have hstart : c.start = (spanOf first.tokens).start := by
    rw [h.start_eq (by simp [chainTokens, hne hnested.first]), chainTokens,
      spanOf_start_append (hne hnested.first)]
  rw [leftLevel, bind_eq_of_ok (here_eq c), bind_eq_of_ok hhead, bind_eq_of_ok hvalues, hstart]
  change Except.ok (List.foldl _ _ (List.map _ _), c') = _
  rw [List.foldl_map]
  rfl

/-- A sum is a chain of terms. -/
theorem Derives.exists_nested_arith {ts : List (Spanned Token)} {e : Expr}
    (h : Derives .arith ts e) : ∃ first rest, Nested additive? (Derives .term) first rest ∧
      ts = chainTokens first rest ∧ e = nest first rest := by
  generalize hl : Level.arith = l at h
  induction h with
  | addition ht _ hr ih =>
    obtain ⟨first, rest, hnested, rfl, rfl⟩ := ih rfl
    refine ⟨first, _, hnested.push ht hr, by rw [chainTokens_push], ?_⟩
    rw [nest_push hnested.first.ne_nil rest hr.ne_nil]
  | @term ts e h => exact ⟨⟨ts, e⟩, [], ⟨by simp, h, by simp⟩, by simp [chainTokens], rfl⟩
  | _ => cases hl

/-- A term is a chain of factors. -/
theorem Derives.exists_nested_term {ts : List (Spanned Token)} {e : Expr}
    (h : Derives .term ts e) : ∃ first rest, Nested multiplicative? (Derives .factor) first rest ∧
      ts = chainTokens first rest ∧ e = nest first rest := by
  generalize hl : Level.term = l at h
  induction h with
  | multiplication ht _ hr ih =>
    obtain ⟨first, rest, hnested, rfl, rfl⟩ := ih rfl
    refine ⟨first, _, hnested.push ht hr, by rw [chainTokens_push], ?_⟩
    rw [nest_push hnested.first.ne_nil rest hr.ne_nil]
  | @factor ts e h => exact ⟨⟨ts, e⟩, [], ⟨by simp, h, by simp⟩, by simp [chainTokens], rfl⟩
  | _ => cases hl

/-- An operand behind any number of tokens that stand for a unary operator. -/
theorem readsAll_prefixed {token : Token} {op : Op} {rank : Nat}
    {T : List (Spanned Token) → Expr → Prop}
    (hcases : ∀ {ts e}, T ts e → D ts e ∨ ∃ t us e', t.node = token ∧ T us e' ∧ ts = t :: us ∧
      e = .unary (spanOf (t :: us)) op e')
    (hhead : ∀ {ts e}, D ts e → ∃ t us, ts = t :: us ∧ t.node ≠ token)
    (hoperand : ReadsAll operand D rank n) :
    ReadsAll (do prefixed token op operand (← remaining)) T rank n := by
  intro ts e c c' hT hn h hnext
  have hall : ∀ m {ts e} {c c' : Cursor}, T ts e → ts.length ≤ m → ts.length < n →
      c.Between ts c' → Looser rank c'.next → prefixed token op operand m c = .ok (e, c') := by
    intro m
    induction m with
    | zero =>
      intro ts e c c' hT hm _ _ _
      rcases hcases hT with hD | ⟨t, us, e', -, -, rfl, -⟩
      · obtain ⟨t, us, rfl, -⟩ := hhead hD
        simp at hm
      · simp at hm
    | succ m ih =>
      intro ts e c c' hT hm hn h hnext
      rcases hcases hT with hD | ⟨t, us, e', ht, hT', rfl, rfl⟩
      · obtain ⟨t, us, rfl, ht⟩ := hhead hD
        have hne : c.next ≠ some token := by
          rw [h.next_eq]
          exact fun heq => ht (Option.some.inj heq)
        rw [prefixed, bind_eq_of_ok (here_eq c), bind_eq_of_ok (accept_of_ne hne)]
        exact hoperand hD hn h hnext
      · obtain ⟨d, hfirst, hmore⟩ := h.split_cons
        rw [List.length_cons] at hm hn
        have hread := ih hT' (by omega) (by omega) hmore hnext
        rw [prefixed, bind_eq_of_ok (here_eq c), bind_eq_of_ok (accept_of_between hfirst ht),
          if_pos rfl, bind_eq_of_ok hread, ← h.span_eq (List.cons_ne_nil _ _)]
        rfl
  have hlength := h.length_le
  rw [bind_eq_of_ok (remaining_eq c)]
  exact hall _ hT (by omega) hn h hnext

end Levels

/-! ## Atoms -/

section Atoms

variable {expr : Parser Expr} {n : Nat}

/-- What an atom of the parser may be: an atom of the grammar or a call. -/
inductive Base : List (Spanned Token) → Expr → Prop
  | atom {ts e} (h : Derives .atom ts e) : Base ts e
  | call {name opening closing f} {args : CommaList Expr} (hname : name.node = .ident f)
      (hopening : opening.node = .lParen) (hclosing : closing.node = .rParen)
      (hargs : ∀ p ∈ args.pieces, Derives .or p.tokens p.value) :
      Base (name :: opening :: (args.tokens ++ [closing]))
        (.call (spanOf (name :: opening :: (args.tokens ++ [closing]))) ⟨f, name.span⟩ args.values)

theorem looser_one {token : Token} (h : tightness token = 0) {n : Nat} (hn : 0 < n) :
    Looser n (some token) := by
  intro t ht
  obtain rfl := Option.some.inj ht
  omega

/-- Expressions with commas between them, in brackets. -/
theorem commaList_of_derives (hexpr : ReadsAll expr (Derives .or) 1 n) {close : Token}
    (hclose : close = .rParen ∨ close = .rBracket) {l : CommaList Expr} {t : Spanned Token}
    (ht : t.node = close) (hl : ∀ p ∈ l.pieces, Derives .or p.tokens p.value)
    (hn : l.tokens.length < n) {c c' : Cursor} (h : c.Between (l.tokens ++ [t]) c') :
    commaList expr close c = .ok (l.values, c') := by
  refine commaList_of_between (by rcases hclose with rfl | rfl <;> simp) ht
    (fun p hp => ⟨fun {c d} hpiece hend => ?_, ?_⟩) h
  · have hlength := CommaList.length_le_tokens hp
    refine hexpr (hl p hp) (by omega) hpiece ?_
    rcases hend with hend | hend
    · rw [hend]
      exact looser_one rfl (by omega)
    · rw [hend]
      rcases hclose with rfl | rfl <;> exact looser_one rfl (by omega)
  · obtain ⟨u, us, hus, hu⟩ := (hl p hp).opens
    refine ⟨u, us, hus, ?_⟩
    intro heq
    rw [heq] at hu
    rcases hclose with rfl | rfl <;> simp [Level.opens, opensAtom] at hu

/-- A token alone. -/
theorem literal_of_between {f : Span → Expr} {t : Spanned Token} {c c' : Cursor}
    (h : c.Between [t] c') :
    (do advance; return f (← spanFrom c.start) : Parser Expr) c = .ok (f (spanOf [t]), c') := by
  rw [bind_eq_of_ok (advance_of_between h), ← h.span_eq (List.cons_ne_nil _ _)]
  rfl

/-- Atoms and calls are read in full. -/
theorem readsAll_atom (hexpr : ReadsAll expr (Derives .or) 1 n) :
    ReadsAll (Expr.atom expr) Base 7 (n + 1) := by
  intro ts e c c' hbase hn h hnext
  rw [Expr.atom, bind_eq_of_ok (here_eq c), bind_eq_of_ok (peek_eq c)]
  cases hbase with
  | call hname hopening hclosing hargs =>
    obtain ⟨d, hfirst, hmore⟩ := h.split_cons
    obtain ⟨d', hparen, hlist⟩ := hmore.split_cons
    simp only [List.length_cons, List.length_append] at hn
    have hread := commaList_of_derives hexpr (.inl rfl) hclosing hargs (by omega) hlist
    rw [h.next_eq, hname]
    dsimp only
    rw [bind_eq_of_ok (advance_of_between hfirst), bind_eq_of_ok (spanFrom_eq _ d),
      bind_eq_of_ok (accept_of_between hparen hopening), if_pos rfl, bind_eq_of_ok hread,
      hfirst.span_eq (List.cons_ne_nil _ _), ← h.span_eq (List.cons_ne_nil _ _)]
    rfl
  | atom hatom =>
    cases hatom with
    | int ht =>
      rw [h.next_eq, ht]
      exact literal_of_between h
    | kwTrue ht =>
      rw [h.next_eq, ht]
      exact literal_of_between h
    | kwFalse ht =>
      rw [h.next_eq, ht]
      exact literal_of_between h
    | str ht =>
      rw [h.next_eq, ht]
      exact literal_of_between h
    | name ht =>
      rw [h.next_eq, ht]
      dsimp only
      rw [bind_eq_of_ok (advance_of_between h), bind_eq_of_ok (spanFrom_eq _ c'),
        bind_eq_of_ok (accept_of_ne (hnext.ne le_rfl)), ← h.span_eq (List.cons_ne_nil _ _)]
      rfl
    | parens hopening hclosing hinner =>
      obtain ⟨d, hfirst, hmore⟩ := h.split_cons
      obtain ⟨d', hmid, hlast⟩ := hmore.split
      simp only [List.length_cons, List.length_append] at hn
      have hend : Looser 1 d'.next := by
        rw [hlast.next_eq, hclosing]
        exact looser_one rfl (by omega)
      rw [h.next_eq, hopening]
      dsimp only
      rw [bind_eq_of_ok (advance_of_between hfirst),
        bind_eq_of_ok (hexpr hinner (by omega) hmid hend),
        bind_eq_of_ok (expect_of_between hlast hclosing)]
      rfl
    | list hopening hclosing hitems =>
      obtain ⟨d, hfirst, hlist⟩ := h.split_cons
      simp only [List.length_cons, List.length_append] at hn
      have hread := commaList_of_derives hexpr (.inr rfl) hclosing hitems (by omega) hlist
      rw [h.next_eq, hopening]
      dsimp only
      rw [bind_eq_of_ok (advance_of_between hfirst), bind_eq_of_ok hread,
        ← h.span_eq (List.cons_ne_nil _ _)]
      rfl

/-- An expression is read unless it is left out, and then a token follows with which none begins. -/
theorem parseUnless_of_between (hexpr : ReadsAll expr (Derives .or) 1 n) (stops : List Token)
    (hstops : ∀ t ∈ stops, Level.or.opens t = false) {p : Option (Piece Expr)}
    (hp : ∀ q ∈ p, Derives .or q.tokens q.value) (hn : (optionTokens p).length < n) {c c' : Cursor}
    (h : c.Between (optionTokens p) c') (hnext : Looser 1 c'.next)
    (hstop : p = none → ∃ t ∈ stops, c'.next = some t) :
    parseUnless stops expr c = .ok (p.map (·.value), c') := by
  rw [parseUnless, bind_eq_of_ok (peek_eq c)]
  cases p with
  | none =>
    obtain rfl := h.eq_of_nil
    obtain ⟨t, ht, hc⟩ := hstop rfl
    rw [hc]
    dsimp only
    rw [if_pos ht]
    rfl
  | some q =>
    obtain ⟨t, us, hts, ht⟩ := (hp q rfl).opens
    have hread := hexpr (hp q rfl) hn h hnext
    have hfirst : c.next = some t.node := by
      have hcons : c.Between (t :: us) c' := by rwa [← hts]
      exact hcons.next_eq
    rw [hfirst]
    dsimp only
    rw [if_neg fun hmem => by simp [hstops _ hmem] at ht]
    exact map_eq_of_ok hread

/-- In front of a token with which no expression begins, it does not matter whether one is there. -/
theorem parseUnless_in_front (hexpr : ReadsAll expr (Derives .or) 1 n) (stops : List Token)
    (hstops : ∀ t ∈ stops, Level.or.opens t = false) (p : Option (Piece Expr))
    (hp : ∀ q ∈ p, Derives .or q.tokens q.value) (hn : (optionTokens p).length < n) {c c' : Cursor}
    (h : c.Between (optionTokens p) c') {token : Token} (hnext : c'.next = some token)
    (hmem : token ∈ stops) (htoken : tightness token = 0) :
    parseUnless stops expr c = .ok (p.map (·.value), c') := by
  refine parseUnless_of_between hexpr stops hstops hp hn h ?_ fun _ => ⟨token, hmem, hnext⟩
  rw [hnext]
  exact looser_one htoken one_pos

/-- What stands between brackets is read in full, be it an index or a slice. -/
theorem index_of_between (hexpr : ReadsAll expr (Derives .or) 1 n) {ts : List (Spanned Token)}
    {e : Expr} (he : Derives .subscript ts e) (hn : ts.length < n) {c c' : Cursor}
    (h : c.Between ts c') (hnext : c'.next = some .rBracket) : index expr c = .ok (e, c') := by
  have hends := parseUnless_in_front hexpr [.rBracket] (by decide)
  have hendsUpper := parseUnless_in_front hexpr [.colon, .rBracket] (by decide)
  have hendsLower := parseUnless_in_front hexpr [.colon, .colonColon] (by decide)
  have hspan := h.span_eq he.ne_nil
  rw [index, bind_eq_of_ok (here_eq c)]
  cases he with
  | index he =>
    have hend : Looser 1 c'.next := by
      rw [hnext]
      exact looser_one rfl one_pos
    have hlower : parseUnless [.colon, .colonColon] expr c = .ok (some e, c') :=
      parseUnless_of_between hexpr _ (by decide) (p := some ⟨ts, e⟩) (by simpa using he) hn h hend
        (by simp)
    rw [bind_eq_of_ok hlower, bind_eq_of_ok (accept_of_ne (by simp [hnext]))]
    exact bind_eq_of_ok (accept_of_ne (by simp [hnext]))
  | slice hcolon hlower hupper =>
    obtain ⟨d, hfront, hmore⟩ := h.split
    obtain ⟨d', hmid, hback⟩ := hmore.split_cons
    simp only [List.length_cons, List.length_append] at hn
    have hreadLower := hendsLower _ hlower (by omega) hfront (by rw [hmid.next_eq, hcolon])
      (by simp) rfl
    have hreadUpper := hendsUpper _ hupper (by omega) hback hnext (by simp) rfl
    rw [bind_eq_of_ok hreadLower, bind_eq_of_ok (accept_of_between hmid hcolon), if_pos rfl,
      bind_eq_of_ok hreadUpper, bind_eq_of_ok (accept_of_ne (by simp [hnext])), ← hspan]
    rfl
  | sliceBy hcolon hcolon' hlower hupper hstep =>
    obtain ⟨d, hfront, hmore⟩ := h.split
    obtain ⟨d', hmid, hrest⟩ := hmore.split_cons
    obtain ⟨f, hback, hlast⟩ := hrest.split
    obtain ⟨f', hmid', hfinal⟩ := hlast.split_cons
    simp only [List.length_cons, List.length_append] at hn
    have hreadLower := hendsLower _ hlower (by omega) hfront (by rw [hmid.next_eq, hcolon])
      (by simp) rfl
    have hreadUpper := hendsUpper _ hupper (by omega) hback (by rw [hmid'.next_eq, hcolon'])
      (by simp) rfl
    have hreadStep := hends _ hstep (by omega) hfinal hnext (by simp) rfl
    rw [bind_eq_of_ok hreadLower, bind_eq_of_ok (accept_of_between hmid hcolon), if_pos rfl,
      bind_eq_of_ok hreadUpper, bind_eq_of_ok (accept_of_between hmid' hcolon'), if_pos rfl,
      bind_eq_of_ok hreadStep, ← hspan]
    rfl
  | sliceAll hcolons hlower hstep =>
    obtain ⟨d, hfront, hmore⟩ := h.split
    obtain ⟨d', hmid, hback⟩ := hmore.split_cons
    simp only [List.length_cons, List.length_append] at hn
    have hd : d.next = some .colonColon := by rw [hmid.next_eq, hcolons]
    have hreadLower := hendsLower _ hlower (by omega) hfront hd (by simp) rfl
    have hreadStep := hends _ hstep (by omega) hback hnext (by simp) rfl
    rw [bind_eq_of_ok hreadLower, bind_eq_of_ok (accept_of_ne (by simp [hd])),
      if_neg Bool.false_ne_true, bind_eq_of_ok (accept_of_between hmid hcolons), if_pos rfl,
      bind_eq_of_ok hreadStep, ← hspan]
    rfl

/-- The brackets of a subscript and what stands in them. -/
structure IsSubscript (opening : Spanned Token) (ts : List (Spanned Token)) (i : Expr) : Prop where
  opening : opening.node = .lBracket
  index : ∃ us closing, ts = us ++ [closing] ∧ closing.node = .rBracket ∧ Derives .subscript us i

theorem subscript?_of_between (hexpr : ReadsAll expr (Derives .or) 1 n) {opening : Spanned Token}
    {ts : List (Spanned Token)} {i : Expr} (hi : IsSubscript opening ts i) (hn : ts.length ≤ n)
    {c c' : Cursor} (h : c.Between (opening :: ts) c') :
    subscript? expr c = .ok (some (i, (spanOf ts).stop), c') := by
  obtain ⟨hopening, us, closing, rfl, hclosing, hindex⟩ := hi
  obtain ⟨d, hfirst, hmore⟩ := h.split_cons
  obtain ⟨d', hmid, hlast⟩ := hmore.split
  rw [List.length_append, List.length_singleton] at hn
  have hnext : d'.next = some .rBracket := by rw [hlast.next_eq, hclosing]
  have hread := index_of_between hexpr hindex (by omega) hmid hnext
  rw [subscript?, bind_eq_of_ok (accept_of_between hfirst hopening), if_pos rfl,
    bind_eq_of_ok hread, bind_eq_of_ok (expect_of_between hlast hclosing),
    ← hmore.last_eq (by simp)]
  rfl

theorem subscript?_of_ne {c : Cursor} (h : c.next ≠ some .lBracket) :
    subscript? expr c = .ok (none, c) := by
  rw [subscript?, bind_eq_of_ok (accept_of_ne h)]
  rfl

/-- The value of an expression with subscripts behind it. -/
def subscriptAll (first : Piece Expr) (rest : List (Linked Expr)) : Expr :=
  rest.foldl (fun b p =>
    .subscript ⟨(spanOf first.tokens).start, (spanOf p.tokens).stop⟩ b p.value) first.value

/-- The last subscript is the outermost one. -/
theorem subscriptAll_push {first : Piece Expr} (hne : first.tokens ≠ [])
    (rest : List (Linked Expr)) {p : Linked Expr} (hp : p.tokens ≠ []) :
    subscriptAll first (rest ++ [p]) =
      .subscript (spanOf (chainTokens first rest ++ p.mark :: p.tokens)) (subscriptAll first rest)
        p.value := by
  rw [spanOf_chainTokens_push hne rest _ hp, subscriptAll, List.foldl_append]
  rfl

theorem Base.ne_nil {ts : List (Spanned Token)} {e : Expr} (h : Base ts e) : ts ≠ [] := by
  cases h with
  | atom h => exact h.ne_nil
  | call => simp

/-- A primary is an atom or a call with subscripts behind it. -/
theorem Derives.exists_subscripts {ts : List (Spanned Token)} {e : Expr}
    (h : Derives .primary ts e) : ∃ first rest, Base first.tokens first.value ∧
      (∀ p ∈ rest, IsSubscript p.mark p.tokens p.value) ∧ ts = chainTokens first rest ∧
      e = subscriptAll first rest := by
  generalize hl : Level.primary = l at h
  induction h with
  | @subscript ts us b i opening closing hopening hclosing _ hindex ih =>
    obtain ⟨first, rest, hbase, hrest, rfl, rfl⟩ := ih rfl
    have hindex' : IsSubscript opening (us ++ [closing]) i :=
      ⟨hopening, us, closing, rfl, hclosing, hindex⟩
    refine ⟨first, rest ++ [⟨⟨us ++ [closing], i⟩, opening⟩], hbase, ?_, by simp [chainTokens], ?_⟩
    · exact List.forall_mem_append.2 ⟨hrest, by simpa using hindex'⟩
    · rw [subscriptAll_push hbase.ne_nil rest (by simp)]
  | @call name opening closing f args hname hopening hclosing hargs =>
    exact ⟨⟨_, _⟩, [], .call hname hopening hclosing hargs, by simp, by simp [chainTokens], rfl⟩
  | @atom ts e h => exact ⟨⟨ts, e⟩, [], .atom h, by simp, by simp [chainTokens], rfl⟩
  | _ => cases hl

/-- An atom is read with all subscripts behind it. -/
theorem readsAll_subscripted (hexpr : ReadsAll expr (Derives .or) 1 n) :
    ReadsAll (subscripted expr) (Derives .primary) 6 (n + 1) := by
  intro ts e c c' he hn h hnext
  obtain ⟨first, rest, hbase, hrest, rfl, rfl⟩ := he.exists_subscripts
  obtain ⟨d, hstart, hloop⟩ := Cursor.Between.split h
  have hfits : ∀ p ∈ rest, Looser 7 (some p.mark.node) := by
    intro p hp t ht
    obtain rfl := Option.some.inj ht
    rw [(hrest p hp).opening]
    decide
  have hend : Looser 7 c'.next := hnext.mono (by omega)
  have hindices : repeatWhile (subscript? expr) d =
      .ok (rest.map fun p => (p.value, (spanOf p.tokens).stop), c') := by
    refine repeatWhile_linked (fun p hp {c d} hpiece _ => ?_) hfits hend
      (subscript?_of_ne (hnext.ne le_rfl)) hloop
    have hlength := length_lt_chainTokens first hp
    exact subscript?_of_between hexpr (hrest p hp) (by omega) hpiece
  have hhead : Expr.atom expr c = .ok (first.value, d) := by
    refine readsAll_atom hexpr hbase ?_ hstart (next_fits hfits hend hloop)
    rw [chainTokens, List.length_append] at hn
    omega
  rw [subscripted, bind_eq_of_ok (here_eq c), bind_eq_of_ok hhead, bind_eq_of_ok hindices,
    hstart.start_eq hbase.ne_nil]
  change Except.ok (List.foldl _ _ (List.map _ _), c') = _
  rw [List.foldl_map]
  rfl

end Atoms

/-! ## Expressions -/

theorem readsAll_sum {expr : Parser Expr} {n : Nat} (hexpr : ReadsAll expr (Derives .or) 1 n) :
    ReadsAll (sum expr) (Derives .arith) 4 (n + 1) := by
  have hfactor : ReadsAll (do prefixed .minus .neg (subscripted expr) (← remaining))
      (Derives .factor) 6 (n + 1) := by
    refine readsAll_prefixed (fun h => ?_) (fun h => ?_) (readsAll_subscripted hexpr)
    · cases h with
      | negative ht h => exact .inr ⟨_, _, _, ht, h, rfl, rfl⟩
      | primary h => exact .inl h
    · obtain ⟨t, us, hts, ht⟩ := h.opens
      exact ⟨t, us, hts, by rintro heq; simp [heq, Level.opens, opensAtom] at ht⟩
  have hterm : ReadsAll (leftLevel multiplicative?
      (do prefixed .minus .neg (subscripted expr) (← remaining))) (Derives .term) 5 (n + 1) := by
    intro ts e c c' he hn h hnext
    obtain ⟨first, rest, hnested, rfl, rfl⟩ := he.exists_nested_term
    exact leftLevel_of_between tightness_multiplicative hfactor Derives.ne_nil hnested hn h hnext
  intro ts e c c' he hn h hnext
  obtain ⟨first, rest, hnested, rfl, rfl⟩ := he.exists_nested_arith
  exact leftLevel_of_between tightness_additive hterm Derives.ne_nil hnested hn h hnext

/-- A chain of one piece has the tokens of that piece. -/
theorem chainTokens_single {α β : Type} (ts : List (Spanned Token)) (x : α) :
    chainTokens ⟨ts, x⟩ ([] : List (Linked β)) = ts := by
  simp [chainTokens]

/-- Comparisons are read in full, as are sums alone. -/
theorem readsAll_comparison {sum : Parser Expr} {n : Nat}
    (hsum : ReadsAll sum (Derives .arith) 4 n) :
    ReadsAll (comparison sum) (Derives .compare) 3 n := by
  intro ts e c c' he hn h hnext
  cases he with
  | comparison hne hmarks hfirst hrest =>
    rw [comparison_of_between hsum _ _ hmarks hfirst hrest hn h hnext, if_neg (by simpa using hne)]
  | arith he =>
    rw [← chainTokens_single (β := Op × Expr) ts e] at hn h
    exact comparison_of_between hsum _ [] (by simp) he (by simp) hn h hnext

/-- A level whose operands are kept in one list reads its chains, and operands alone. -/
theorem readsAll_chainLevel {token : Token} {op : Op} {operand : Parser Expr} {n : Nat}
    {D T : List (Spanned Token) → Expr → Prop}
    (hcases : ∀ {ts e}, T ts e → D ts e ∨ ∃ (first : Piece Expr) (rest : List (Linked Expr)),
      rest ≠ [] ∧ (∀ p ∈ rest, p.mark.node = token) ∧ D first.tokens first.value ∧
      (∀ p ∈ rest, D p.tokens p.value) ∧ ts = chainTokens first rest ∧
      e = .chain (spanOf (chainTokens first rest)) op first.value (rest.map (·.value)))
    (hne : ∀ {ts e}, D ts e → ts ≠ []) (hoperand : ReadsAll operand D (tightness token + 1) n) :
    ReadsAll (chainLevel token op operand) T (tightness token) n := by
  intro ts e c c' he hn h hnext
  rcases hcases he with he | ⟨first, rest, hrest, hmarks, hfirst, hothers, rfl, rfl⟩
  · rw [← chainTokens_single (β := Expr) ts e] at hn h
    exact chainLevel_of_between hoperand _ [] (hne he) (by simp) he (by simp) hn h hnext
  · rw [chainLevel_of_between hoperand _ _ (hne hfirst) hmarks hfirst hothers hn h hnext,
      if_neg (by simpa using hrest)]

/-- Brackets take two tokens, so an expression has fewer levels of them than tokens. -/
theorem readsAll_parseWithin (depth : Nat) :
    ReadsAll (parseWithin depth) (Derives .or) 1 depth := by
  induction depth with
  | zero => exact fun _ _ _ _ _ hn => absurd hn (Nat.not_lt_zero _)
  | succ depth ih =>
    have hcompare := readsAll_comparison (readsAll_sum ih)
    have hnot : ReadsAll
        (do prefixed .kwNot .not (comparison (sum (parseWithin depth))) (← remaining))
        (Derives .not) 3 (depth + 1) := by
      refine readsAll_prefixed (fun h => ?_) (fun h => ?_) hcompare
      · cases h with
        | negation ht h => exact .inr ⟨_, _, _, ht, h, rfl, rfl⟩
        | compare h => exact .inl h
      · obtain ⟨t, us, hts, ht⟩ := h.opens
        exact ⟨t, us, hts, by rintro heq; simp [heq, Level.opens, opensAtom] at ht⟩
    have hand : ReadsAll (chainLevel .kwAnd .and
        (do prefixed .kwNot .not (comparison (sum (parseWithin depth))) (← remaining)))
        (Derives .and) 2 (depth + 1) := by
      refine readsAll_chainLevel (fun h => ?_) Derives.ne_nil hnot
      cases h with
      | andChain hne hmarks hfirst hrest =>
        exact .inr ⟨_, _, hne, hmarks, hfirst, hrest, rfl, rfl⟩
      | not h => exact .inl h
    refine readsAll_chainLevel (fun h => ?_) Derives.ne_nil hand
    cases h with
    | orChain hne hmarks hfirst hrest => exact .inr ⟨_, _, hne, hmarks, hfirst, hrest, rfl, rfl⟩
    | and h => exact .inl h

theorem readsAll_parse (n : Nat) : ReadsAll parse (Derives .or) 1 n := by
  intro ts e c c' he _ h hnext
  have hlength := h.length_le
  exact readsAll_parseWithin _ he (by omega) h hnext

end Expr

end Precond.Host
