import Mathlib.Tactic
import Precond.Proofs.ProgramGrammar

/-!
# What is read is a program

Each parser of the grammar reads tokens that the grammar derives with the value it gives:
`Parser.Follows` relates a parser to a relation of the grammar. The parser of a level takes the
parser of the level below as an argument, so a lemma about it takes what that parser follows, and
`Expr.follows_parseWithin` and `Stmt.follows_blockWithin` close the circle by induction on the
depth. The ranges come out by `Cursor.Between.span_eq`: where the reading of a part began and where
it ended are the ends of its tokens. `derives_of_itemsOfTokens` is the statement for programs.
-/

namespace Precond.Grammar.TypeExpr

open Precond.Grammar.Parser

/-- By induction on the depth: what is read as a type derives from the grammar. -/
theorem follows_parseWithin (depth : Nat) : Follows (parseWithin depth) Derives := by
  induction depth with
  | zero => exact fun _ _ _ h => absurd h (unexpected_ne_ok _)
  | succ depth ih =>
    intro c d x h
    obtain ⟨⟨name, span⟩, e, hname, hmore⟩ := exists_of_bind h
    obtain ⟨t, ht, rfl, hfirst⟩ := between_of_name hname
    obtain ⟨b, e', hb, hrest⟩ := exists_of_bind hmore
    rcases between_of_accept hb with ⟨rfl, opening, hopening, hbracket⟩ | ⟨rfl, rfl, -⟩
    · obtain ⟨args, _, hargs, hpure⟩ := exists_of_bind hrest
      cases hpure
      obtain ⟨l, closing, hclosing, hbetween, rfl, hpieces⟩ := between_of_commaList ih hargs
      have hall := hfirst.cons (hbracket.cons hbetween)
      refine ⟨_, hall, ?_⟩
      rw [hall.last_eq (List.cons_ne_nil _ _)]
      exact .applied ht hopening hclosing hpieces
    · cases hrest
      refine ⟨[t], hfirst, ?_⟩
      rw [hfirst.last_eq (List.cons_ne_nil _ _)]
      exact .plain ht

theorem follows_parse : Follows parse Derives :=
  fun _ _ _ h => follows_parseWithin _ h

end Precond.Grammar.TypeExpr

namespace Precond.Host

open Grammar Grammar.Parser

namespace Expr

/-- A derivation has a token. -/
theorem Derives.ne_nil {l : Level} {ts : List (Spanned Token)} {e : Expr} (h : Derives l ts e) :
    ts ≠ [] := by
  induction h <;> simp_all [chainTokens]

section Levels

variable {D T : List (Spanned Token) → Expr → Prop} {operand : Parser Expr}

/-- Operators and operands, folded into what stands in front of them. -/
theorem fold_operations {op? : Token → Option Op} {start : Nat}
    {f : Expr → Op × Expr × Nat → Expr}
    (hf : ∀ l p, f l p = .binary ⟨start, p.2.2⟩ p.1 l p.2.1) (hneD : ∀ {ts e}, D ts e → ts ≠ [])
    (hmore : ∀ {ts us t op l r}, op? t.node = some op → T ts l → D us r →
      T (ts ++ t :: us) (.binary (spanOf (ts ++ t :: us)) op l r))
    {pieces : List (Piece (Op × Expr × Nat))}
    (hpieces : ∀ p ∈ pieces, ∃ t us, p.tokens = t :: us ∧ op? t.node = some p.value.1 ∧
      D us p.value.2.1 ∧ (us ≠ [] → p.value.2.2 = (spanOf us).stop))
    {ts : List (Spanned Token)} {l : Expr} (hne : ts ≠ []) (hstart : (spanOf ts).start = start)
    (hT : T ts l) : T (ts ++ pieces.flatMap (·.tokens)) ((pieces.map (·.value)).foldl f l) := by
  induction pieces generalizing ts l with
  | nil => simpa using hT
  | cons p pieces ih =>
    obtain ⟨⟨t, us, hts, hop, hD, hstop⟩, hrest⟩ := List.forall_mem_cons.1 hpieces
    have hspan : spanOf (ts ++ t :: us) = ⟨start, p.value.2.2⟩ := by
      have hlast := spanOf_stop_append (hneD hD) (ts ++ [t])
      rw [List.append_assoc, List.singleton_append] at hlast
      rw [hstop (hneD hD), ← hlast, ← hstart, ← spanOf_start_append hne (t :: us)]
    have hnext := hmore hop hT hD
    rw [hspan, ← hf] at hnext
    have hstart' : (spanOf (ts ++ t :: us)).start = start := by rw [hspan]
    simpa [hts] using ih hrest (by simp) hstart' hnext

/-- A level of operators that nest to the left reads chains over its operands. -/
theorem follows_leftLevel {op? : Token → Option Op} (hoperand : Follows operand D)
    (hne : ∀ {ts e}, D ts e → ts ≠ []) (hone : ∀ {ts e}, D ts e → T ts e)
    (hmore : ∀ {ts us t op l r}, op? t.node = some op → T ts l → D us r →
      T (ts ++ t :: us) (.binary (spanOf (ts ++ t :: us)) op l r)) :
    Follows (leftLevel op? operand) T := by
  intro c c' x h
  obtain ⟨_, _, hhere, hread⟩ := exists_of_bind h
  obtain ⟨rfl, rfl⟩ := eq_of_here hhere
  obtain ⟨first, d, hfirst, hloop⟩ := exists_of_bind hread
  obtain ⟨rest, _, hrest, hpure⟩ := exists_of_bind hloop
  cases hpure
  obtain ⟨ts, hts, hD⟩ := hoperand hfirst
  obtain ⟨pieces, hpieces, rfl, hall⟩ := between_of_repeatWhile
    (fun _ _ _ => between_of_operation?_some hoperand) (fun _ _ => eq_of_operation?_none) hrest
  exact ⟨_, hts.append hpieces, fold_operations (fun _ _ => rfl) hne hmore hall (hne hD)
    (hts.start_eq (hne hD)).symm (hone hD)⟩

/-- An operand is read behind its operator, or nothing is. -/
theorem between_of_linked? {token : Token} {c d : Cursor} {r : Option Expr}
    (h : linked? token operand c = .ok (r, d)) :
    (r = none ∧ d = c) ∨ ∃ t x e, r = some x ∧ t.node = token ∧ c.Between [t] e ∧
      operand e = .ok (x, d) := by
  obtain ⟨b, e, hb, hread⟩ := exists_of_bind h
  rcases between_of_accept hb with ⟨rfl, t, ht, hbetween⟩ | ⟨rfl, rfl, -⟩
  · obtain ⟨x, hx, rfl⟩ := exists_of_map hread
    exact .inr ⟨t, x, e, rfl, ht, hbetween, hx⟩
  · cases hread
    exact .inl ⟨rfl, rfl⟩

/-- A level whose operands are kept in one list reads an operand alone, or a chain of them. -/
theorem follows_chainLevel {token : Token} {op : Op} (hoperand : Follows operand D)
    (hne : ∀ {ts e}, D ts e → ts ≠ []) (hone : ∀ {ts e}, D ts e → T ts e)
    (hchain : ∀ {first : Piece Expr} {rest : List (Linked Expr)}, rest ≠ [] →
      (∀ p ∈ rest, p.mark.node = token) → D first.tokens first.value →
      (∀ p ∈ rest, D p.tokens p.value) → T (chainTokens first rest)
        (.chain (spanOf (chainTokens first rest)) op first.value (rest.map (·.value)))) :
    Follows (chainLevel token op operand) T := by
  intro c c' x h
  obtain ⟨_, _, hhere, hread⟩ := exists_of_bind h
  obtain ⟨rfl, rfl⟩ := eq_of_here hhere
  obtain ⟨first, d, hfirst, hloop⟩ := exists_of_bind hread
  obtain ⟨values, e, hvalues, hend⟩ := exists_of_bind hloop
  obtain ⟨ts, hts, hD⟩ := hoperand hfirst
  have hitem : ∀ ⦃c d x⦄, linked? token operand c = .ok (some x, d) → ∃ ts, c.Between ts d ∧
      ∃ t us, ts = t :: us ∧ t.node = token ∧ D us x := by
    intro c d x hx
    rcases between_of_linked? hx with ⟨hnone, -⟩ | ⟨t, r, e, hsome, ht, hbetween, hr⟩
    · cases hnone
    · cases hsome
      obtain ⟨us, hus, hD⟩ := hoperand hr
      exact ⟨_, hbetween.cons hus, t, us, rfl, ht, hD⟩
  have hnone : ∀ ⦃c d⦄, linked? token operand c = .ok (none, d) → d = c := by
    intro c d hx
    rcases between_of_linked? hx with ⟨-, hd⟩ | ⟨_, _, _, hsome, -⟩
    · exact hd
    · cases hsome
  obtain ⟨pieces, hpieces, rfl, hall⟩ := between_of_repeatWhile hitem hnone hvalues
  obtain ⟨rest, hmap, htokens, hrest⟩ := exists_linked (f := id)
    (T := fun t us x => t.node = token ∧ D us x) hall
  have hbetween := hts.append hpieces
  rw [← htokens] at hbetween
  have hmap' : pieces.map (·.value) = rest.map (·.value) := hmap.symm
  rw [hmap'] at hend
  split_ifs at hend with hempty
  · cases hend
    obtain rfl : rest = [] := by simpa using hempty
    exact ⟨ts, by simpa using hbetween, hone hD⟩
  · cases hend
    refine ⟨_, hbetween, ?_⟩
    rw [hbetween.span_eq (by simp [hne hD])]
    exact @hchain ⟨ts, first⟩ rest (by simpa using hempty) (fun p hp => (hrest p hp).1) hD
      fun p hp => (hrest p hp).2

/-- A comparison is read as a sum alone, or as sums with comparison signs between them. -/
theorem follows_comparison (hoperand : Follows operand (Derives .arith)) :
    Follows (comparison operand) (Derives .compare) := by
  intro c c' x h
  obtain ⟨_, _, hhere, hread⟩ := exists_of_bind h
  obtain ⟨rfl, rfl⟩ := eq_of_here hhere
  obtain ⟨first, d, hfirst, hloop⟩ := exists_of_bind hread
  obtain ⟨values, e, hvalues, hend⟩ := exists_of_bind hloop
  obtain ⟨ts, hts, hD⟩ := hoperand hfirst
  obtain ⟨pieces, hpieces, rfl, hall⟩ := between_of_repeatWhile
    (fun _ _ _ => between_of_operation?_some hoperand) (fun _ _ => eq_of_operation?_none) hvalues
  obtain ⟨rest, hmap, htokens, hrest⟩ := exists_linked
    (f := fun x : Op × Expr × Nat => (x.1, x.2.1))
    (T := fun t us x => comparison? t.node = some x.1 ∧ Derives .arith us x.2) fun p hp => by
      obtain ⟨t, us, hts, hop, hD, -⟩ := hall p hp
      exact ⟨t, us, hts, hop, hD⟩
  have hbetween := hts.append hpieces
  rw [← htokens] at hbetween
  split_ifs at hend with hempty
  · cases hend
    obtain rfl : pieces = [] := by simpa using hempty
    exact ⟨ts, by simpa using hts.append hpieces, .arith hD⟩
  · cases hend
    have hne : rest ≠ [] := by
      rintro rfl
      exact hempty (by simpa using hmap.symm)
    have hcompare := @Derives.comparison ⟨ts, first⟩ rest hne (fun p hp => (hrest p hp).1)
      hD fun p hp => (hrest p hp).2
    rw [hmap, chainTokens, ← hbetween.span_eq (by simp [hD.ne_nil])] at hcompare
    refine ⟨_, hbetween, ?_⟩
    rw [List.map_map]
    exact hcompare

/-- Signs in front of an operand are read one by one. -/
theorem follows_prefixed {token : Token} {op : Op} (hoperand : Follows operand D)
    (hone : ∀ {ts e}, D ts e → T ts e)
    (hmore : ∀ {t ts e}, t.node = token → T ts e →
      T (t :: ts) (.unary (spanOf (t :: ts)) op e)) (n : Nat) :
    Follows (prefixed token op operand n) T := by
  induction n with
  | zero =>
    intro c d x h
    obtain ⟨ts, hts, hD⟩ := hoperand h
    exact ⟨ts, hts, hone hD⟩
  | succ n ih =>
    intro c c' x h
    obtain ⟨_, _, hhere, hread⟩ := exists_of_bind h
    obtain ⟨rfl, rfl⟩ := eq_of_here hhere
    obtain ⟨b, d, hb, hrest⟩ := exists_of_bind hread
    rcases between_of_accept hb with ⟨rfl, t, ht, hbetween⟩ | ⟨rfl, rfl, -⟩
    · obtain ⟨e, _, he, hpure⟩ := exists_of_bind hrest
      cases hpure
      obtain ⟨ts, hts, hT⟩ := ih he
      have hall := hbetween.cons hts
      refine ⟨_, hall, ?_⟩
      rw [hall.span_eq (List.cons_ne_nil _ _)]
      exact hmore ht hT
    · obtain ⟨ts, hts, hD⟩ := hoperand hrest
      exact ⟨ts, hts, hone hD⟩

end Levels

section Atoms

variable {expr : Parser Expr}

/-- A token alone. -/
theorem between_of_literal {f : Span → Expr} {token : Token} {c c' : Cursor} {x : Expr}
    (h : (do advance; return f (← spanFrom c.start) : Parser Expr) c = .ok (x, c'))
    (hnext : c.next = some token) :
    ∃ t, t.node = token ∧ c.Between [t] c' ∧ x = f (spanOf [t]) := by
  obtain ⟨_, d, hadvance, hpure⟩ := exists_of_bind h
  cases hpure
  obtain ⟨t, ht, hbetween⟩ := between_of_advance_of_next hadvance hnext
  refine ⟨t, ht, hbetween, ?_⟩
  rw [hbetween.span_eq (List.cons_ne_nil _ _)]

/-- What is read as an atom derives from the grammar, calls included. -/
theorem follows_atom (hexpr : Follows expr (Derives .or)) :
    Follows (atom expr) (Derives .primary) := by
  intro c c' x h
  obtain ⟨_, _, hhere, hread⟩ := exists_of_bind h
  obtain ⟨rfl, rfl⟩ := eq_of_here hhere
  obtain ⟨_, _, hpeek, hkind⟩ := exists_of_bind hread
  obtain ⟨hnext, rfl⟩ := eq_of_peek hpeek
  split at hkind
  · obtain ⟨t, ht, hbetween, rfl⟩ := between_of_literal hkind hnext
    exact ⟨_, hbetween, .atom (.int ht)⟩
  · obtain ⟨t, ht, hbetween, rfl⟩ := between_of_literal hkind hnext
    exact ⟨_, hbetween, .atom (.kwTrue ht)⟩
  · obtain ⟨t, ht, hbetween, rfl⟩ := between_of_literal hkind hnext
    exact ⟨_, hbetween, .atom (.kwFalse ht)⟩
  · obtain ⟨t, ht, hbetween, rfl⟩ := between_of_literal hkind hnext
    exact ⟨_, hbetween, .atom (.str ht)⟩
  · obtain ⟨_, d, hadvance, hname⟩ := exists_of_bind hkind
    obtain ⟨t, ht, hbetween⟩ := between_of_advance_of_next hadvance hnext
    obtain ⟨span, _, hspan, hmore⟩ := exists_of_bind hname
    cases hspan
    rw [hbetween.span_eq (List.cons_ne_nil _ _)] at hmore
    obtain ⟨b, e, hb, hrest⟩ := exists_of_bind hmore
    rcases between_of_accept hb with ⟨rfl, opening, hopening, hparen⟩ | ⟨rfl, rfl, -⟩
    · obtain ⟨args, _, hargs, hpure⟩ := exists_of_bind hrest
      cases hpure
      obtain ⟨l, closing, hclosing, hlist, rfl, hpieces⟩ := between_of_commaList hexpr hargs
      have hall := hbetween.cons (hparen.cons hlist)
      refine ⟨_, hall, ?_⟩
      rw [hall.span_eq (List.cons_ne_nil _ _)]
      exact .call ht hopening hclosing hpieces
    · cases hrest
      exact ⟨_, hbetween, .atom (.name ht)⟩
  · obtain ⟨_, d, hadvance, hinner⟩ := exists_of_bind hkind
    obtain ⟨t, ht, hopening⟩ := between_of_advance_of_next hadvance hnext
    obtain ⟨e, d', he, hend⟩ := exists_of_bind hinner
    obtain ⟨ts, hts, hD⟩ := hexpr he
    obtain ⟨_, _, hexpect, hpure⟩ := exists_of_bind hend
    cases hpure
    obtain ⟨closing, hclosing, hlast⟩ := between_of_expect hexpect
    exact ⟨_, hopening.cons (hts.append hlast), .atom (.parens ht hclosing hD)⟩
  · obtain ⟨_, d, hadvance, hinner⟩ := exists_of_bind hkind
    obtain ⟨t, ht, hopening⟩ := between_of_advance_of_next hadvance hnext
    obtain ⟨items, _, hitems, hpure⟩ := exists_of_bind hinner
    cases hpure
    obtain ⟨l, closing, hclosing, hlist, rfl, hpieces⟩ := between_of_commaList hexpr hitems
    have hall := hopening.cons hlist
    refine ⟨_, hall, ?_⟩
    rw [hall.span_eq (List.cons_ne_nil _ _)]
    exact .atom (.list ht hclosing hpieces)
  · exact absurd hkind (unexpected_ne_ok _)

/-- An expression that may be left out. -/
theorem between_of_parseUnless {stops : List Token} {c c' : Cursor} {r : Option Expr}
    (hexpr : Follows expr (Derives .or)) (h : parseUnless stops expr c = .ok (r, c')) :
    ∃ p : Option (Piece Expr), c.Between (optionTokens p) c' ∧ r = p.map (·.value) ∧
      ∀ q ∈ p, Derives .or q.tokens q.value := by
  have hsome (h : (some <$> expr) c = .ok (r, c')) : ∃ p : Option (Piece Expr),
      c.Between (optionTokens p) c' ∧ r = p.map (·.value) ∧
        ∀ q ∈ p, Derives .or q.tokens q.value := by
    obtain ⟨x, hx, rfl⟩ := exists_of_map h
    obtain ⟨ts, hts, hD⟩ := hexpr hx
    exact ⟨some ⟨ts, x⟩, hts, rfl, by simpa using hD⟩
  obtain ⟨_, _, hpeek, hread⟩ := exists_of_bind h
  obtain ⟨hnext, rfl⟩ := eq_of_peek hpeek
  split at hread
  · split_ifs at hread
    · cases hread
      exact ⟨none, .refl _, rfl, by simp⟩
    · exact hsome hread
  · exact hsome hread

/-- What is read between brackets is an index or a slice. -/
theorem follows_index (hexpr : Follows expr (Derives .or)) :
    Follows (index expr) (Derives .subscript) := by
  intro c c' x h
  obtain ⟨_, _, hhere, hread⟩ := exists_of_bind h
  obtain ⟨rfl, rfl⟩ := eq_of_here hhere
  obtain ⟨_, d, hl, hmore⟩ := exists_of_bind hread
  obtain ⟨lower, hlower, rfl, hlowerD⟩ := between_of_parseUnless hexpr hl
  obtain ⟨b, e, hb, hcolon⟩ := exists_of_bind hmore
  rcases between_of_accept hb with ⟨rfl, colon, hc, hbetween⟩ | ⟨rfl, rfl, -⟩
  · obtain ⟨_, d', hu, hsecond⟩ := exists_of_bind hcolon
    obtain ⟨upper, hupper, rfl, hupperD⟩ := between_of_parseUnless hexpr hu
    obtain ⟨b', e', hb', hend⟩ := exists_of_bind hsecond
    rcases between_of_accept hb' with ⟨rfl, colon', hc', hbetween'⟩ | ⟨rfl, rfl, -⟩
    · obtain ⟨_, _, hs, hpure⟩ := exists_of_bind hend
      obtain ⟨step, hstep, rfl, hstepD⟩ := between_of_parseUnless hexpr hs
      cases hpure
      have hall := hlower.append (hbetween.cons (hupper.append (hbetween'.cons hstep)))
      refine ⟨_, hall, ?_⟩
      rw [hall.span_eq (by simp)]
      exact .sliceBy hc hc' hlowerD hupperD hstepD
    · cases hend
      have hall := hlower.append (hbetween.cons hupper)
      refine ⟨_, hall, ?_⟩
      rw [hall.span_eq (by simp)]
      exact .slice hc hlowerD hupperD
  · obtain ⟨b', e', hb', hcolons⟩ := exists_of_bind hcolon
    rcases between_of_accept hb' with ⟨rfl, colons, hc, hbetween⟩ | ⟨rfl, rfl, -⟩
    · obtain ⟨_, _, hs, hpure⟩ := exists_of_bind hcolons
      obtain ⟨step, hstep, rfl, hstepD⟩ := between_of_parseUnless hexpr hs
      cases hpure
      have hall := hlower.append (hbetween.cons hstep)
      refine ⟨_, hall, ?_⟩
      rw [hall.span_eq (by simp)]
      exact .sliceAll hc hlowerD hstepD
    · cases lower with
      | none => exact absurd hcolons (unexpected_ne_ok _)
      | some p =>
        cases hcolons
        exact ⟨_, hlower, .index (hlowerD p rfl)⟩

/-- One subscript behind a base, which ends with its bracket. -/
theorem between_of_subscript? (hexpr : Follows expr (Derives .or)) {c d : Cursor}
    {x : Expr × Nat} (h : subscript? expr c = .ok (some x, d)) :
    ∃ ts, c.Between ts d ∧ ∃ opening us closing, ts = opening :: (us ++ [closing]) ∧
      opening.node = .lBracket ∧ closing.node = .rBracket ∧ Derives .subscript us x.1 ∧
      x.2 = closing.span.stop := by
  obtain ⟨b, e, hb, hread⟩ := exists_of_bind h
  rcases between_of_accept hb with ⟨rfl, opening, hopening, hbetween⟩ | ⟨rfl, rfl, -⟩
  · obtain ⟨i, e', hi, hend⟩ := exists_of_bind hread
    obtain ⟨us, hus, hD⟩ := follows_index hexpr hi
    obtain ⟨_, _, hexpect, hpure⟩ := exists_of_bind hend
    cases hpure
    obtain ⟨closing, hclosing, hlast⟩ := between_of_expect hexpect
    exact ⟨_, hbetween.cons (hus.append hlast), opening, us, closing, rfl, hopening, hclosing, hD,
      hlast.last_eq (List.cons_ne_nil _ _)⟩
  · cases hread

theorem eq_of_subscript?_none {c d : Cursor} (h : subscript? expr c = .ok (none, d)) : d = c := by
  obtain ⟨b, e, hb, hread⟩ := exists_of_bind h
  rcases between_of_accept hb with ⟨rfl, opening, hopening, hbetween⟩ | ⟨rfl, rfl, -⟩
  · obtain ⟨i, e', hi, hend⟩ := exists_of_bind hread
    obtain ⟨_, _, hexpect, hpure⟩ := exists_of_bind hend
    cases hpure
  · cases hread
    rfl

/-- Subscripts, folded into the base in front of them. -/
theorem fold_subscripts {start : Nat} {f : Expr → Expr × Nat → Expr}
    (hf : ∀ b p, f b p = .subscript ⟨start, p.2⟩ b p.1) {pieces : List (Piece (Expr × Nat))}
    (hpieces : ∀ p ∈ pieces, ∃ opening us closing, p.tokens = opening :: (us ++ [closing]) ∧
      opening.node = .lBracket ∧ closing.node = .rBracket ∧ Derives .subscript us p.value.1 ∧
      p.value.2 = closing.span.stop)
    {ts : List (Spanned Token)} {b : Expr} (hstart : (spanOf ts).start = start)
    (hbase : Derives .primary ts b) : Derives .primary (ts ++ pieces.flatMap (·.tokens))
      ((pieces.map (·.value)).foldl f b) := by
  induction pieces generalizing ts b with
  | nil => simpa using hbase
  | cons p pieces ih =>
    obtain ⟨⟨opening, us, closing, hts, hopening, hclosing, hD, hstop⟩, hrest⟩ :=
      List.forall_mem_cons.1 hpieces
    have hspan : spanOf (ts ++ opening :: (us ++ [closing])) = ⟨start, p.value.2⟩ := by
      have hlast := spanOf_stop_append (List.cons_ne_nil closing []) (ts ++ opening :: us)
      rw [List.append_assoc, List.cons_append] at hlast
      rw [hstop, ← hstart, ← spanOf_start_append hbase.ne_nil (opening :: (us ++ [closing]))]
      exact congrArg _ hlast
    have hnext := Derives.subscript hopening hclosing hbase hD
    rw [hspan, ← hf] at hnext
    have hstart' : (spanOf (ts ++ opening :: (us ++ [closing]))).start = start := by rw [hspan]
    simpa [hts] using ih hrest hstart' hnext

/-- What is read as an atom with subscripts derives from the grammar. -/
theorem follows_subscripted (hexpr : Follows expr (Derives .or)) :
    Follows (subscripted expr) (Derives .primary) := by
  intro c c' x h
  obtain ⟨_, _, hhere, hread⟩ := exists_of_bind h
  obtain ⟨rfl, rfl⟩ := eq_of_here hhere
  obtain ⟨base, d, hbase, hloop⟩ := exists_of_bind hread
  obtain ⟨indices, _, hindices, hpure⟩ := exists_of_bind hloop
  cases hpure
  obtain ⟨ts, hts, hD⟩ := follows_atom hexpr hbase
  obtain ⟨pieces, hpieces, rfl, hall⟩ := between_of_repeatWhile
    (fun _ _ _ => between_of_subscript? hexpr) (fun _ _ => eq_of_subscript?_none) hindices
  exact ⟨_, hts.append hpieces,
    fold_subscripts (fun _ _ => rfl) hall (hts.start_eq hD.ne_nil).symm hD⟩

theorem follows_sum (hexpr : Follows expr (Derives .or)) : Follows (sum expr) (Derives .arith) := by
  refine follows_leftLevel (D := Derives .term) ?_ Derives.ne_nil .term .addition
  refine follows_leftLevel (D := Derives .factor) ?_ Derives.ne_nil .factor .multiplication
  intro c d x h
  exact follows_prefixed (follows_subscripted hexpr) .primary .negative _ h

end Atoms

/-- What is read as an expression derives from the grammar, at every depth. -/
theorem follows_parseWithin (depth : Nat) : Follows (parseWithin depth) (Derives .or) := by
  induction depth with
  | zero => exact fun _ _ _ h => absurd h (unexpected_ne_ok _)
  | succ depth ih =>
    refine follows_chainLevel (D := Derives .and) ?_ Derives.ne_nil .and .orChain
    refine follows_chainLevel (D := Derives .not) ?_ Derives.ne_nil .not .andChain
    intro c d x h
    exact follows_prefixed (follows_comparison (follows_sum ih)) .compare .negation _ h

theorem follows_parse : Follows parse (Derives .or) := fun _ _ _ h => follows_parseWithin _ h

end Expr

/-! ## Statements -/

namespace Stmt

/-- What is read as a statement on one line derives from the grammar. -/
theorem follows_simple : Follows simple Simple := by
  intro c c' x h
  obtain ⟨_, _, hhere, hread⟩ := exists_of_bind h
  obtain ⟨rfl, rfl⟩ := eq_of_here hhere
  obtain ⟨_, _, hpeek, hkind⟩ := exists_of_bind hread
  obtain ⟨hnext, rfl⟩ := eq_of_peek hpeek
  split at hkind
  · obtain ⟨_, d, hadvance, hmore⟩ := exists_of_bind hkind
    obtain ⟨t, ht, hfirst⟩ := between_of_advance_of_next hadvance hnext
    obtain ⟨_, _, hvalue, hpure⟩ := exists_of_bind hmore
    cases hpure
    obtain ⟨value, hbetween, rfl, hD⟩ := Expr.between_of_parseUnless Expr.follows_parse hvalue
    have hall := hfirst.cons hbetween
    refine ⟨_, hall, ?_⟩
    rw [hall.span_eq (List.cons_ne_nil _ _)]
    exact .give ht hD
  · obtain ⟨_, d, hadvance, hpure⟩ := exists_of_bind hkind
    obtain ⟨t, ht, hfirst⟩ := between_of_advance_of_next hadvance hnext
    cases hpure
    refine ⟨_, hfirst, ?_⟩
    rw [hfirst.span_eq (List.cons_ne_nil _ _)]
    exact .pass ht
  · obtain ⟨_, d, hadvance, hmore⟩ := exists_of_bind hkind
    obtain ⟨t, ht, hfirst⟩ := between_of_advance_of_next hadvance hnext
    obtain ⟨e, _, he, hpure⟩ := exists_of_bind hmore
    cases hpure
    obtain ⟨ts, hts, hD⟩ := Expr.follows_parse he
    have hall := hfirst.cons hts
    refine ⟨_, hall, ?_⟩
    rw [hall.span_eq (List.cons_ne_nil _ _)]
    exact .assert ht hD
  · obtain ⟨target, d, htarget, hmore⟩ := exists_of_bind hkind
    obtain ⟨ts, hts, hD⟩ := Expr.follows_parse htarget
    obtain ⟨b, e, hb, hend⟩ := exists_of_bind hmore
    rcases between_of_accept hb with ⟨rfl, t, ht, hequals⟩ | ⟨rfl, rfl, -⟩
    · obtain ⟨value, _, hvalue, hpure⟩ := exists_of_bind hend
      cases hpure
      obtain ⟨us, hus, hD'⟩ := Expr.follows_parse hvalue
      have hall := hts.append (hequals.cons hus)
      refine ⟨_, hall, ?_⟩
      rw [hall.span_eq (by simp)]
      exact .assign ht hD hD'
    · cases hend
      refine ⟨_, hts, ?_⟩
      rw [hts.span_eq hD.ne_nil]
      exact .expr hD

theorem between_of_simpleLine {c c' : Cursor} {s : Stmt} (h : simpleLine c = .ok (s, c')) :
    ∃ ts newline, newline.node = .newline ∧ Simple ts s ∧ c.Between (ts ++ [newline]) c' := by
  obtain ⟨s, d, hs, hmore⟩ := exists_of_bind h
  obtain ⟨_, _, hexpect, hpure⟩ := exists_of_bind hmore
  cases hpure
  obtain ⟨ts, hts, hD⟩ := follows_simple hs
  obtain ⟨newline, hnewline, hlast⟩ := between_of_expect hexpect
  exact ⟨ts, newline, hnewline, hD, hts.append hlast⟩

section Blocks

variable {block : Parser (List Stmt)}

/-- A condition is read with its block. -/
theorem between_of_governed (hblock : Follows block (Derives .block)) {c c' : Cursor}
    {r : Expr × List Stmt} (h : governed block c = .ok (r, c')) :
    ∃ cond colon body, colon.node = .colon ∧ Expr.Derives .or cond r.1 ∧
      Derives .block body r.2 ∧ c.Between (cond ++ colon :: body) c' := by
  obtain ⟨e, d, he, hmore⟩ := exists_of_bind h
  obtain ⟨_, d', hexpect, hbody⟩ := exists_of_bind hmore
  obtain ⟨body, _, hbody, hpure⟩ := exists_of_bind hbody
  cases hpure
  obtain ⟨cond, hcond, hD⟩ := Expr.follows_parse he
  obtain ⟨colon, hcolon, hmid⟩ := between_of_expect hexpect
  obtain ⟨ts, hts, hB⟩ := hblock hbody
  exact ⟨cond, colon, ts, hcolon, hD, hB, hcond.append (hmid.cons hts)⟩

/-- What is read of further branches derives from the grammar, by induction on their number. -/
theorem follows_otherwise (hblock : Follows block (Derives .block)) (n : Nat) :
    Follows (otherwise block n) (Derives .otherwise) := by
  induction n with
  | zero =>
    intro c c' x h
    cases h
    exact ⟨[], .refl _, .nothing⟩
  | succ n ih =>
    intro c c' x h
    obtain ⟨_, _, hhere, hread⟩ := exists_of_bind h
    obtain ⟨rfl, rfl⟩ := eq_of_here hhere
    obtain ⟨_, _, hpeek, hkind⟩ := exists_of_bind hread
    obtain ⟨hnext, rfl⟩ := eq_of_peek hpeek
    split at hkind
    · obtain ⟨_, d, hadvance, hmore⟩ := exists_of_bind hkind
      obtain ⟨t, ht, hfirst⟩ := between_of_advance_of_next hadvance hnext
      obtain ⟨⟨e, body⟩, d', hgoverned, hother⟩ := exists_of_bind hmore
      obtain ⟨cond, colon, bodyTokens, hcolon, hcond, hbody, hbetween⟩ :=
        between_of_governed hblock hgoverned
      obtain ⟨orelse, _, horelse, hpure⟩ := exists_of_bind hother
      cases hpure
      obtain ⟨otherTokens, hrest, hO⟩ := ih horelse
      have hall := hfirst.cons (hbetween.append hrest)
      rw [List.append_assoc, List.cons_append] at hall
      refine ⟨_, hall, ?_⟩
      rw [hall.span_eq (List.cons_ne_nil _ _)]
      exact .elif ht hcolon hcond hbody hO
    · obtain ⟨_, d, hadvance, hmore⟩ := exists_of_bind hkind
      obtain ⟨t, ht, hfirst⟩ := between_of_advance_of_next hadvance hnext
      obtain ⟨_, d', hexpect, hbody⟩ := exists_of_bind hmore
      obtain ⟨colon, hcolon, hmid⟩ := between_of_expect hexpect
      obtain ⟨ts, hts, hB⟩ := hblock hbody
      exact ⟨_, hfirst.cons (hmid.cons hts), .orElse ht hcolon hB⟩
    · cases hkind
      exact ⟨[], .refl _, .nothing⟩

/-- What is read as a statement derives from the grammar. -/
theorem follows_statement (hblock : Follows block (Derives .block)) :
    Follows (statement block) fun ts s => Derives .statement ts [s] := by
  intro c c' x h
  obtain ⟨_, _, hhere, hread⟩ := exists_of_bind h
  obtain ⟨rfl, rfl⟩ := eq_of_here hhere
  obtain ⟨_, _, hpeek, hkind⟩ := exists_of_bind hread
  obtain ⟨hnext, rfl⟩ := eq_of_peek hpeek
  split at hkind
  · obtain ⟨_, d, hadvance, hmore⟩ := exists_of_bind hkind
    obtain ⟨t, ht, hfirst⟩ := between_of_advance_of_next hadvance hnext
    obtain ⟨⟨e, body⟩, d', hgoverned, hother⟩ := exists_of_bind hmore
    obtain ⟨cond, colon, bodyTokens, hcolon, hcond, hbody, hbetween⟩ :=
      between_of_governed hblock hgoverned
    obtain ⟨_, _, hremaining, hrest⟩ := exists_of_bind hother
    cases hremaining
    obtain ⟨orelse, _, horelse, hpure⟩ := exists_of_bind hrest
    cases hpure
    obtain ⟨otherTokens, hlast, hO⟩ := follows_otherwise hblock _ horelse
    have hall := hfirst.cons (hbetween.append hlast)
    rw [List.append_assoc, List.cons_append] at hall
    refine ⟨_, hall, ?_⟩
    rw [hall.span_eq (List.cons_ne_nil _ _)]
    exact .branch ht hcolon hcond hbody hO
  · obtain ⟨_, d, hadvance, hmore⟩ := exists_of_bind hkind
    obtain ⟨t, ht, hfirst⟩ := between_of_advance_of_next hadvance hnext
    obtain ⟨⟨e, body⟩, d', hgoverned, hpure⟩ := exists_of_bind hmore
    obtain ⟨cond, colon, bodyTokens, hcolon, hcond, hbody, hbetween⟩ :=
      between_of_governed hblock hgoverned
    cases hpure
    have hall := hfirst.cons hbetween
    refine ⟨_, hall, ?_⟩
    rw [hall.span_eq (List.cons_ne_nil _ _)]
    exact .loop ht hcolon hcond hbody
  · obtain ⟨ts, newline, hnewline, hD, hbetween⟩ := between_of_simpleLine hkind
    exact ⟨_, hbetween, .line hnewline hD⟩

/-- Statements one after the other. -/
theorem derives_statements {ts : List (Spanned Token)} {s : Stmt} {pieces : List (Piece Stmt)}
    (h : Derives .statement ts [s])
    (hpieces : ∀ p ∈ pieces, Derives .statement p.tokens [p.value]) :
    Derives .statements (ts ++ pieces.flatMap (·.tokens)) (s :: pieces.map (·.value)) := by
  induction pieces generalizing ts s with
  | nil => simpa using Derives.one h
  | cons p pieces ih =>
    obtain ⟨hp, hrest⟩ := List.forall_mem_cons.1 hpieces
    exact .more h (ih hp hrest)

end Blocks

/-- What is read as a block derives from the grammar, at every depth. -/
theorem follows_blockWithin (depth : Nat) : Follows (blockWithin depth) (Derives .block) := by
  induction depth with
  | zero => exact fun _ _ _ h => absurd h (unexpected_ne_ok _)
  | succ depth ih =>
    intro c c' x h
    obtain ⟨b, d, hb, hread⟩ := exists_of_bind h
    rcases between_of_accept hb with ⟨rfl, newline, hnewline, hfirst⟩ | ⟨rfl, rfl, -⟩
    · obtain ⟨_, d₁, hexpect, hmore⟩ := exists_of_bind hread
      obtain ⟨indent, hindent, hsecond⟩ := between_of_expect hexpect
      obtain ⟨s, d₂, hs, hloop⟩ := exists_of_bind hmore
      obtain ⟨ts, hts, hS⟩ := follows_statement ih hs
      obtain ⟨rest, d₃, hrest, hend⟩ := exists_of_bind hloop
      obtain ⟨_, _, hexpect', hpure⟩ := exists_of_bind hend
      cases hpure
      obtain ⟨dedent, hdedent, hlast⟩ := between_of_expect hexpect'
      have hitem : ∀ ⦃c d x⦄, statement? (blockWithin depth) c = .ok (some x, d) →
          ∃ ts, c.Between ts d ∧ Derives .statement ts [x] := by
        intro c d x hx
        obtain ⟨_, _, hpeek, hread⟩ := exists_of_bind hx
        obtain ⟨rfl, rfl⟩ := eq_of_peek hpeek
        split_ifs at hread
        · cases hread
        · obtain ⟨y, hy, heq⟩ := exists_of_map hread
          cases heq
          exact follows_statement ih hy
      have hnone : ∀ ⦃c d⦄, statement? (blockWithin depth) c = .ok (none, d) → d = c := by
        intro c d hx
        obtain ⟨_, _, hpeek, hread⟩ := exists_of_bind hx
        obtain ⟨rfl, rfl⟩ := eq_of_peek hpeek
        split_ifs at hread
        · cases hread
          rfl
        · obtain ⟨y, hy, heq⟩ := exists_of_map hread
          cases heq
      obtain ⟨pieces, hpieces, rfl, hall⟩ := between_of_repeatWhile hitem hnone hrest
      exact ⟨_, hfirst.cons (hsecond.cons ((hts.append hpieces).append hlast)),
        .indented hnewline hindent hdedent (derives_statements hS hall)⟩
    · obtain ⟨s, _, hs, hpure⟩ := exists_of_bind hread
      cases hpure
      obtain ⟨ts, newline, hnewline, hD, hbetween⟩ := between_of_simpleLine hs
      exact ⟨_, hbetween, .sameLine hnewline hD⟩

theorem follows_block : Follows block (Derives .block) := fun _ _ _ h => follows_blockWithin _ h

end Stmt

/-! ## Functions and programs -/

theorem Decorator.follows_argument : Follows argument Argument := by
  intro c c' x h
  obtain ⟨⟨key, span⟩, d, hkey, hmore⟩ := exists_of_bind h
  obtain ⟨t, ht, rfl, hfirst⟩ := between_of_name hkey
  obtain ⟨_, d', hexpect, hend⟩ := exists_of_bind hmore
  obtain ⟨equals, hequals, hmid⟩ := between_of_expect hexpect
  obtain ⟨e, _, he, hpure⟩ := exists_of_bind hend
  cases hpure
  obtain ⟨ts, hts, hD⟩ := Expr.follows_parse he
  exact ⟨_, hfirst.cons (hmid.cons hts), .mk ht hequals hD⟩

/-- What is read as a mark derives from the grammar. -/
theorem Decorator.between_of_parse? {c c' : Cursor} {x : Decorator}
    (h : parse? c = .ok (some x, c')) : ∃ ts, c.Between ts c' ∧ Derives ts x := by
  obtain ⟨_, _, hhere, hread⟩ := exists_of_bind h
  obtain ⟨rfl, rfl⟩ := eq_of_here hhere
  obtain ⟨b, d, hb, hmore⟩ := exists_of_bind hread
  rcases between_of_accept hb with ⟨rfl, t, ht, hfirst⟩ | ⟨rfl, rfl, -⟩
  · obtain ⟨⟨key, span⟩, d₁, hkey, hargs⟩ := exists_of_bind hmore
    obtain ⟨name, hname, rfl, hsecond⟩ := between_of_name hkey
    obtain ⟨b', d₂, hb', hlist⟩ := exists_of_bind hargs
    rcases between_of_accept hb' with ⟨rfl, opening, hopening, hparen⟩ | ⟨rfl, rfl, -⟩
    · obtain ⟨args, d₃, hargs, hend⟩ := exists_of_bind hlist
      obtain ⟨l, closing, hclosing, hbetween, rfl, hpieces⟩ :=
        between_of_commaList follows_argument hargs
      obtain ⟨_, _, hspan, hlast⟩ := exists_of_bind hend
      cases hspan
      obtain ⟨_, _, hexpect, hpure⟩ := exists_of_bind hlast
      cases hpure
      obtain ⟨newline, hnewline, hbreak⟩ := between_of_expect hexpect
      have hall := hfirst.cons (hsecond.cons (hparen.cons hbetween))
      refine ⟨_, hall.append hbreak, ?_⟩
      rw [hall.span_eq (List.cons_ne_nil _ _)]
      exact .applied ht hname hopening hclosing hnewline hpieces
    · obtain ⟨_, _, hnil, hend⟩ := exists_of_bind hlist
      cases hnil
      obtain ⟨_, _, hspan, hlast⟩ := exists_of_bind hend
      cases hspan
      obtain ⟨_, _, hexpect, hpure⟩ := exists_of_bind hlast
      cases hpure
      obtain ⟨newline, hnewline, hbreak⟩ := between_of_expect hexpect
      have hall := hfirst.cons hsecond
      refine ⟨_, hall.append hbreak, ?_⟩
      rw [hall.span_eq (List.cons_ne_nil _ _)]
      exact .plain ht hname hnewline
  · cases hmore

theorem Decorator.eq_of_parse?_none {c c' : Cursor} (h : parse? c = .ok (none, c')) : c' = c := by
  obtain ⟨_, _, hhere, hread⟩ := exists_of_bind h
  obtain ⟨rfl, rfl⟩ := eq_of_here hhere
  obtain ⟨b, d, hb, hmore⟩ := exists_of_bind hread
  rcases between_of_accept hb with ⟨rfl, t, ht, hfirst⟩ | ⟨rfl, rfl, -⟩
  · obtain ⟨key, d₁, hkey, hargs⟩ := exists_of_bind hmore
    obtain ⟨b', d₂, hb', hlist⟩ := exists_of_bind hargs
    have hrest : ∃ args d, (do
        let span ← spanFrom c.start
        expect .newline
        return some ⟨key, args, span⟩ : Parser (Option Decorator)) d = .ok (none, c') := by
      cases b' with
      | true =>
        obtain ⟨args, d₃, -, hend⟩ := exists_of_bind hlist
        exact ⟨args, d₃, hend⟩
      | false =>
        obtain ⟨args, d₃, -, hend⟩ := exists_of_bind hlist
        exact ⟨args, d₃, hend⟩
    obtain ⟨args, d₃, hend⟩ := hrest
    obtain ⟨_, _, -, hlast⟩ := exists_of_bind hend
    obtain ⟨_, _, -, hpure⟩ := exists_of_bind hlast
    cases hpure
  · cases hmore
    rfl

theorem Param.follows_parse : Follows parse Derives := by
  intro c c' x h
  obtain ⟨⟨key, span⟩, d, hkey, hmore⟩ := exists_of_bind h
  obtain ⟨name, hname, rfl, hfirst⟩ := between_of_name hkey
  obtain ⟨b, d', hb, hend⟩ := exists_of_bind hmore
  rcases between_of_accept hb with ⟨rfl, colon, hcolon, hmid⟩ | ⟨rfl, rfl, -⟩
  · obtain ⟨_, _, hmap, hpure⟩ := exists_of_bind hend
    obtain ⟨ty, hty, rfl⟩ := exists_of_map hmap
    cases hpure
    obtain ⟨ts, hts, hD⟩ := TypeExpr.follows_parse hty
    exact ⟨_, hfirst.cons (hmid.cons hts), .typed hname hcolon hD⟩
  · cases hend
    exact ⟨_, hfirst, .plain hname⟩

/-- What is read as a function derives from the grammar. -/
theorem Function.follows_parse : Follows parse Derives := by
  intro c c' x h
  obtain ⟨_, _, hhere, hread⟩ := exists_of_bind h
  obtain ⟨rfl, rfl⟩ := eq_of_here hhere
  obtain ⟨_, d₁, hmarks, h₁⟩ := exists_of_bind hread
  obtain ⟨decorators, hdecorators, rfl, hD⟩ := between_of_repeatWhile
    (fun _ _ _ => Decorator.between_of_parse?) (fun _ _ => Decorator.eq_of_parse?_none) hmarks
  obtain ⟨_, d₂, hexpect, h₂⟩ := exists_of_bind h₁
  obtain ⟨word, hword, hdef⟩ := between_of_expect hexpect
  obtain ⟨⟨f, span⟩, d₃, hf, h₃⟩ := exists_of_bind h₂
  obtain ⟨name, hname, rfl, hfirst⟩ := between_of_name hf
  obtain ⟨_, d₄, hexpect, h₄⟩ := exists_of_bind h₃
  obtain ⟨opening, hopening, hparen⟩ := between_of_expect hexpect
  obtain ⟨_, d₅, hlist, h₅⟩ := exists_of_bind h₄
  obtain ⟨params, closing, hclosing, hparams, rfl, hP⟩ :=
    between_of_commaList Param.follows_parse hlist
  obtain ⟨ty, d₆, resultTokens, hresult, hR, h₆⟩ : ∃ ty d₆ ts, d₅.Between ts d₆ ∧ Result ts ty ∧
      (do
        expect .colon
        let body ← Stmt.block
        return ⟨decorators.map (·.value), ⟨f, name.span⟩, params.values, ty, body,
          ← spanFrom c.start⟩ : Parser Function) d₆ = .ok (x, c') := by
    obtain ⟨b, d, hb, hend⟩ := exists_of_bind h₅
    rcases between_of_accept hb with ⟨rfl, arrow, harrow, hmid⟩ | ⟨rfl, rfl, -⟩
    · obtain ⟨_, d', hmap, hrest⟩ := exists_of_bind hend
      obtain ⟨ty, hty, rfl⟩ := exists_of_map hmap
      obtain ⟨ts, hts, hD⟩ := TypeExpr.follows_parse hty
      exact ⟨_, _, _, hmid.cons hts, .some harrow hD, hrest⟩
    · exact ⟨_, _, _, .refl _, .none, hend⟩
  obtain ⟨_, d₇, hexpect, h₇⟩ := exists_of_bind h₆
  obtain ⟨colon, hcolon, hmid⟩ := between_of_expect hexpect
  obtain ⟨body, _, hbody, hpure⟩ := exists_of_bind h₇
  cases hpure
  obtain ⟨bodyTokens, hlast, hB⟩ := Stmt.follows_block hbody
  have hall : c.Between
      (tokens decorators word name opening params closing resultTokens colon bodyTokens) c' := by
    have htail := hparams.append (hresult.append (hmid.cons hlast))
    rw [List.append_assoc, List.singleton_append] at htail
    exact hdecorators.append (hdef.cons (hfirst.cons (hparen.cons htail)))
  refine ⟨_, hall, ?_⟩
  rw [hall.span_eq (by simp [tokens])]
  exact .mk hword hname hopening hclosing hcolon hD hP hR hB

theorem Item.between_of_parse? {c c' : Cursor} {x : Item} (h : parse? c = .ok (some x, c')) :
    ∃ ts, c.Between ts c' ∧ Derives ts x := by
  obtain ⟨_, _, hpeek, hread⟩ := exists_of_bind h
  obtain ⟨hnext, rfl⟩ := eq_of_peek hpeek
  have hfunction (h : (do return some (.function (← Function.parse)) : Parser (Option Item)) c =
      .ok (some x, c')) : ∃ ts, c.Between ts c' ∧ Derives ts x := by
    obtain ⟨f, _, hf, hpure⟩ := exists_of_bind h
    cases hpure
    obtain ⟨ts, hts, hD⟩ := Function.follows_parse hf
    exact ⟨ts, hts, .function hD⟩
  split at hread
  · cases hread
  · exact hfunction hread
  · exact hfunction hread
  · obtain ⟨s, _, hs, hpure⟩ := exists_of_bind hread
    cases hpure
    obtain ⟨ts, hts, hD⟩ := Stmt.follows_statement Stmt.follows_block hs
    exact ⟨ts, hts, .stmt hD⟩

theorem Item.eq_of_parse?_none {c c' : Cursor} (h : parse? c = .ok (none, c')) : c' = c := by
  obtain ⟨_, _, hpeek, hread⟩ := exists_of_bind h
  obtain ⟨hnext, rfl⟩ := eq_of_peek hpeek
  split at hread
  · cases hread
    rfl
  all_goals
    obtain ⟨_, _, _, hpure⟩ := exists_of_bind hread
    cases hpure

/-- A program that is read derives from the grammar. -/
theorem derives_of_itemsOfTokens {tokens : List (Spanned Token)} {items : List Item}
    (h : itemsOfTokens tokens = .ok items) : Program.Derives tokens items := by
  obtain ⟨⟨y, c⟩, hy, hend⟩ := Exec.bind_eq_ok.1 h
  obtain ⟨pieces, hpieces, rfl, hall⟩ := between_of_repeatWhile
    (fun _ _ _ => Item.between_of_parse?) (fun _ _ => Item.eq_of_parse?_none) hy
  dsimp only at hend
  split_ifs at hend with hempty
  · cases hend
    have htokens : tokens = pieces.flatMap (·.tokens) := by
      simpa [List.isEmpty_iff.1 hempty] using hpieces.rest
    rw [htokens]
    exact .mk hall
  · obtain ⟨⟨z, c'⟩, hz, -⟩ := Exec.bind_eq_ok.1 hend
    exact absurd hz (unexpected_ne_ok _)

end Precond.Host
