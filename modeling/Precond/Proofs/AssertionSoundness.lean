import Mathlib.Tactic
import Precond.Proofs.ParserRuns

/-!
# What the assertion parser reads is an assertion

Every level of the parser reads tokens that can be derived from the symbol of the level, with the
value that it gives. Up to comparisons this is seen level by level. Above them a level may have read
something that ends in a quantifier, which the grammar allows only at the end: then nothing can
follow, since the body of the quantifier was read as far as it goes (`Quits`).
-/

namespace Precond.Grammar

open Precond.Grammar.Parser

/-! ## Types -/

namespace TypeExpr

theorem forall₂_of_resolveAll {ts : List TypeExpr} {tys : List Ty} (h : resolveAll ts = .ok tys) :
    List.Forall₂ (fun t ty => t.resolve = .ok ty) ts tys := by
  induction ts generalizing tys with
  | nil =>
    cases h
    exact .nil
  | cons t ts ih =>
    obtain ⟨ty, hty, h⟩ := Exec.bind_eq_ok.1 h
    obtain ⟨tys, htys, h⟩ := Exec.bind_eq_ok.1 h
    cases h
    exact .cons hty (ih htys)

/-- A written type that is resolved has arguments that are, and a name that takes them. -/
theorem named?_of_resolve {x : String} {args : List TypeExpr} {span : Span} {ty : Ty}
    (h : (mk x args span).resolve = .ok ty) :
    ∃ tys, resolveAll args = .ok tys ∧ Ty.named? x tys = some ty := by
  obtain ⟨tys, htys, h⟩ := Exec.bind_eq_ok.1 h
  refine ⟨tys, htys, ?_⟩
  cases hty : Ty.named? x tys with
  | none =>
    rw [hty] at h
    cases h
  | some ty' =>
    rw [hty] at h
    cases h
    rfl

/-- What the parser of types reads, and can resolve, derives from the grammar. -/
theorem derives_of_parseWithin {depth : Nat} {input rest : List Token} {t : TypeExpr} {ty : Ty}
    (h : Yields (parseWithin depth) input t rest) (hty : t.resolve = .ok ty) :
    ∃ ts, input = ts ++ rest ∧ TypeDerives ts ty := by
  induction depth generalizing input t rest ty with
  | zero => exact absurd h not_yields_unexpected
  | succ depth ih =>
    obtain ⟨x, _, hx, hread⟩ := yields_bind h
    obtain rfl := yields_name hx
    obtain ⟨b, _, hb, hmore⟩ := yields_bind hread
    rcases yields_accept hb with ⟨rfl, rfl⟩ | ⟨rfl, rfl, -⟩
    · obtain ⟨args, _, hargs, hplace⟩ := yields_bind hmore
      obtain ⟨span, _, hspan, hpure⟩ := yields_bind hplace
      obtain rfl := yields_spanFrom hspan
      obtain ⟨rfl, rfl⟩ := yields_pure hpure
      obtain ⟨tys, htys, hnamed⟩ := named?_of_resolve hty
      obtain ⟨items, last, rfl, rfl, hitems, hlast⟩ :=
        hargs.commaList (fun h hty => ih h hty) (forall₂_of_resolveAll htys)
      exact ⟨_, by simp, .applied hitems hlast hnamed⟩
    · obtain ⟨args, _, hargs, hplace⟩ := yields_bind hmore
      obtain ⟨rfl, rfl⟩ := yields_pure hargs
      obtain ⟨span, _, hspan, hpure⟩ := yields_bind hplace
      obtain rfl := yields_spanFrom hspan
      obtain ⟨rfl, rfl⟩ := yields_pure hpure
      obtain ⟨_, ⟨⟩, hnamed⟩ := named?_of_resolve hty
      exact ⟨[.ident x.node], rfl, .plain hnamed⟩

end TypeExpr

/-! ## Up to sums -/

/-- What the parser reads can be derived from the symbol. -/
def Parser.ReadsOnly (p : Parser Expr) (s : Symbol) : Prop :=
  ∀ ⦃input e rest⦄, Yields p input e rest → ∃ ts, input = ts ++ rest ∧ Derives s ts e

namespace Assertion

variable {sum formula operand : Parser Expr} {input rest : List Token}

theorem readsOnly_primary (hformula : ReadsOnly formula .iff) :
    ReadsOnly (primary formula) .primary := by
  intro input e rest h
  obtain ⟨t, _, ht, hread⟩ := yields_bind h
  obtain ⟨rfl, rfl⟩ := yields_peek ht
  split at hread
  · next n htoken =>
    obtain ⟨_, _, hadvance, hpure⟩ := yields_bind hread
    obtain rfl := yields_advance_of_head hadvance htoken
    obtain ⟨rfl, rfl⟩ := yields_pure hpure
    exact ⟨[.int n], rfl, .int⟩
  · next htoken =>
    obtain ⟨_, _, hadvance, hpure⟩ := yields_bind hread
    obtain rfl := yields_advance_of_head hadvance htoken
    obtain ⟨rfl, rfl⟩ := yields_pure hpure
    exact ⟨[.kwTrue], rfl, .true⟩
  · next htoken =>
    obtain ⟨_, _, hadvance, hpure⟩ := yields_bind hread
    obtain rfl := yields_advance_of_head hadvance htoken
    obtain ⟨rfl, rfl⟩ := yields_pure hpure
    exact ⟨[.kwFalse], rfl, .false⟩
  · next x htoken =>
    obtain ⟨_, _, hadvance, hmore⟩ := yields_bind hread
    obtain rfl := yields_advance_of_head hadvance htoken
    obtain ⟨b, _, hb, hend⟩ := yields_bind hmore
    rcases yields_accept hb with ⟨rfl, rfl⟩ | ⟨rfl, rfl, -⟩
    · obtain ⟨args, _, hargs, hpure⟩ := yields_bind hend
      obtain ⟨rfl, rfl⟩ := yields_pure hpure
      have hsame : List.Forall₂ (· = ·) args args := List.forall₂_refl args
      obtain ⟨items, last, rfl, rfl, hitems, hlast⟩ := hargs.commaList (T := Derives .iff)
        (by rintro _ _ _ _ h rfl; exact hformula h) hsame
      exact ⟨_, by simp, .call hitems hlast⟩
    · obtain ⟨rfl, rfl⟩ := yields_pure hend
      exact ⟨[.ident x], rfl, .var⟩
  · next htoken =>
    obtain ⟨_, _, hadvance, hmore⟩ := yields_bind hread
    obtain rfl := yields_advance_of_head hadvance htoken
    obtain ⟨e', _, hinner, hend⟩ := yields_bind hmore
    obtain ⟨_, _, hexpect, hpure⟩ := yields_bind hend
    obtain rfl := yields_expect hexpect
    obtain ⟨rfl, rfl⟩ := yields_pure hpure
    obtain ⟨ts, rfl, he⟩ := hformula hinner
    exact ⟨_, by simp, .parens he⟩
  · exact absurd hread not_yields_unexpected

/-- An optional bound of a slice is a sum or nothing. -/
theorem exists_phrase_of_sumUnless (hsum : ReadsOnly sum .sum) {stops : List Token}
    {r : Option Expr} (h : Yields (sumUnless stops sum) input r rest) :
    ∃ p : Option (Phrase Expr), input = Phrase.optional p ++ rest ∧ p.map (·.value) = r ∧
      ∀ q ∈ p, Derives .sum q.tokens q.value := by
  have hsome {r : Option Expr} {input : List Token} (h : Yields (some <$> sum) input r rest) :
      ∃ p : Option (Phrase Expr), input = Phrase.optional p ++ rest ∧ p.map (·.value) = r ∧
        ∀ q ∈ p, Derives .sum q.tokens q.value := by
    obtain ⟨e, rfl, hread⟩ := yields_map h
    obtain ⟨ts, rfl, he⟩ := hsum hread
    exact ⟨some ⟨ts, e⟩, rfl, rfl, by simpa using he⟩
  obtain ⟨t, _, ht, hread⟩ := yields_bind h
  obtain ⟨rfl, rfl⟩ := yields_peek ht
  split at hread
  · split_ifs at hread
    · obtain ⟨rfl, rfl⟩ := yields_pure hread
      exact ⟨none, rfl, rfl, by simp⟩
    · exact hsome hread
  · exact hsome hread

/-- Between brackets only an index or a slice is read. -/
theorem readsOnly_index (hsum : ReadsOnly sum .sum) : ReadsOnly (index sum) .index := by
  intro input e rest h
  obtain ⟨_, _, hfirst, hread⟩ := yields_bind h
  obtain ⟨lower, rfl, rfl, hlower⟩ := exists_phrase_of_sumUnless hsum hfirst
  obtain ⟨b, _, hb, hmore⟩ := yields_bind hread
  rcases yields_accept hb with ⟨rfl, rfl⟩ | ⟨rfl, rfl, -⟩
  · obtain ⟨_, _, hsecond, hthird⟩ := yields_bind hmore
    obtain ⟨upper, rfl, rfl, hupper⟩ := exists_phrase_of_sumUnless hsum hsecond
    obtain ⟨b, _, hb, hend⟩ := yields_bind hthird
    rcases yields_accept hb with ⟨rfl, rfl⟩ | ⟨rfl, rfl, -⟩
    · obtain ⟨_, _, hlast, hpure⟩ := yields_bind hend
      obtain ⟨step, rfl, rfl, hstep⟩ := exists_phrase_of_sumUnless hsum hlast
      obtain ⟨rfl, rfl⟩ := yields_pure hpure
      exact ⟨_, by simp, @Derives.slice lower upper (some step) hlower hupper hstep⟩
    · obtain ⟨_, _, hlast, hpure⟩ := yields_bind hend
      obtain ⟨rfl, rfl⟩ := yields_pure hlast
      obtain ⟨rfl, rfl⟩ := yields_pure hpure
      exact ⟨_, by simp, @Derives.slice lower upper none hlower hupper (by simp)⟩
  obtain ⟨b, _, hb, hend⟩ := yields_bind hmore
  rcases yields_accept hb with ⟨rfl, rfl⟩ | ⟨rfl, rfl, -⟩
  · obtain ⟨_, _, hlast, hpure⟩ := yields_bind hend
    obtain ⟨step, rfl, rfl, hstep⟩ := exists_phrase_of_sumUnless hsum hlast
    obtain ⟨rfl, rfl⟩ := yields_pure hpure
    exact ⟨_, by simp, .sliceStep hlower hstep⟩
  · cases lower with
    | none => exact absurd hend not_yields_unexpected
    | some p =>
      obtain ⟨rfl, rfl⟩ := yields_pure hend
      exact ⟨p.tokens, rfl, .unit List.mem_cons_self (hlower p rfl)⟩

theorem readsOnly_subscripted (hsum : ReadsOnly sum .sum) (hformula : ReadsOnly formula .iff) :
    ReadsOnly (subscripted sum formula) .subscripted := by
  have hitem : ∀ {input r rest}, Yields (subscript? sum) input r rest →
      r = none ∧ input = rest ∨ ∃ us i, r = some i ∧ Derives .index us i ∧
        input = .lBracket :: (us ++ [.rBracket]) ++ rest := by
    intro input r rest h
    obtain ⟨b, _, hb, hread⟩ := yields_bind h
    rcases yields_accept hb with ⟨rfl, rfl⟩ | ⟨rfl, rfl, -⟩
    · obtain ⟨i, _, hindex, hmore⟩ := yields_bind hread
      obtain ⟨_, _, hexpect, hpure⟩ := yields_bind hmore
      obtain rfl := yields_expect hexpect
      obtain ⟨rfl, rfl⟩ := yields_pure hpure
      obtain ⟨us, rfl, hi⟩ := readsOnly_index hsum hindex
      exact .inr ⟨us, i, rfl, hi, by simp⟩
    · obtain ⟨rfl, rfl⟩ := yields_pure hread
      exact .inl ⟨rfl, rfl⟩
  intro input e rest h
  obtain ⟨base, _, hfirst, hread⟩ := yields_bind h
  obtain ⟨ts, rfl, hbase⟩ := readsOnly_primary hformula hfirst
  obtain ⟨indices, _, hindices, hpure⟩ := yields_bind hread
  obtain ⟨rfl, rfl⟩ := yields_pure hpure
  obtain ⟨us, rfl, he, -⟩ := hindices.repeatWhile (P := fun ts e _ => Derives .subscripted ts e)
    (Q := fun _ => True) (f := .subscript)
    (by
      intro ts e input i mid he h
      obtain ⟨h, -⟩ | ⟨us, _, ⟨⟩, hi, rfl⟩ := hitem h
      · cases h
      · exact ⟨_, List.cons_ne_nil _ _, rfl, .subscript he hi⟩)
    (by
      intro input mid h
      obtain ⟨-, rfl⟩ | ⟨_, _, h, -⟩ := hitem h
      · exact ⟨rfl, trivial⟩
      · cases h)
    trivial (.unit List.mem_cons_self hbase)
  exact ⟨ts ++ us, by simp, he⟩

/-- Signs are read in front of an operand, and nothing else. -/
theorem readsOnly_negative (h : ReadsOnly operand .subscripted) (n : Nat) :
    ReadsOnly (negative operand n) .unary := by
  have hplain : ReadsOnly operand .unary := by
    intro input e rest hread
    obtain ⟨ts, rfl, he⟩ := h hread
    exact ⟨ts, rfl, .unit List.mem_cons_self he⟩
  induction n with
  | zero => exact hplain
  | succ n ih =>
    intro input e rest h
    obtain ⟨b, _, hb, hread⟩ := yields_bind h
    rcases yields_accept hb with ⟨rfl, rfl⟩ | ⟨rfl, rfl, -⟩
    · obtain ⟨e, _, hmore, hpure⟩ := yields_bind hread
      obtain ⟨rfl, rfl⟩ := yields_pure hpure
      obtain ⟨ts, rfl, he⟩ := ih hmore
      exact ⟨.minus :: ts, rfl, .neg he⟩
    · exact hplain hread

/-- A level whose operators nest to the left. Of its operands, those of `C` may be the last one
only: nothing that may follow them is an operator of the level. What is known of the tokens left by
an operand is known of those left in the end. -/
theorem yields_leftLevel {op? : Token → Option Op} {A B C D : List Token → Expr → Prop}
    {L E : List Token → Prop} {n : Nat} (hlast : ∀ {rest}, L rest → rest.head?.bind op? = none)
    (hoperand : ∀ {input e rest}, input.length ≤ n → Yields operand input e rest →
      ∃ ts, input = ts ++ rest ∧ (A ts e ∨ C ts e ∧ L rest) ∧ E rest)
    (hunit : ∀ {ts e}, A ts e → B ts e) (hunit' : ∀ {ts e}, C ts e → D ts e)
    (hstep : ∀ {ts l t op us r}, B ts l → op? t = some op → A us r →
      B (ts ++ t :: us) (.binary op l r))
    (hstep' : ∀ {ts l t op us r}, B ts l → op? t = some op → C us r →
      D (ts ++ t :: us) (.binary op l r))
    {e : Expr} (hn : input.length ≤ n) (h : Yields (leftLevel op? operand) input e rest) :
    ∃ ts, input = ts ++ rest ∧ (B ts e ∨ D ts e ∧ L rest) ∧ E rest ∧
      rest.head?.bind op? = none := by
  obtain ⟨first, mid, hfirst, hread⟩ := yields_bind h
  obtain ⟨ts, rfl, hts, hE⟩ := hoperand hn hfirst
  obtain ⟨steps, _, hsteps, hpure⟩ := yields_bind hread
  obtain ⟨rfl, rfl⟩ := yields_pure hpure
  rw [List.length_append] at hn
  obtain ⟨us, rfl, ⟨hB, hE, -⟩, hstop⟩ := hsteps.repeatWhile
    (P := fun ts e rest => (B ts e ∨ D ts e ∧ L rest) ∧ E rest ∧ rest.length ≤ n)
    (Q := fun rest => rest.head?.bind op? = none)
    (f := fun l x => .binary x.1 l x.2.1)
    (by
      rintro ts l input ⟨op, r, stop⟩ mid ⟨hB, -, hn⟩ h
      obtain ⟨h, -⟩ | ⟨t, _, _, _, input, ⟨⟩, ht, rfl, hr⟩ := yields_operation? h
      · cases h
      rw [List.length_cons] at hn
      obtain ⟨us, rfl, hus, hE⟩ := hoperand (by omega) hr
      refine ⟨t :: us, List.cons_ne_nil _ _, rfl, ?_, hE, by rw [List.length_append] at hn; omega⟩
      obtain hB | ⟨-, hend⟩ := hB
      · exact hus.imp (hstep hB ht) (And.imp_left (hstep' hB ht))
      · exact absurd (hlast hend) (by simp [ht]))
    (by
      intro input mid h
      obtain ⟨-, rfl, hstop⟩ | ⟨_, _, _, _, _, h, -⟩ := yields_operation? h
      · exact ⟨rfl, hstop⟩
      · cases h)
    rfl ⟨hts.imp hunit (And.imp_left hunit'), hE, by omega⟩
  exact ⟨ts ++ us, by simp, hB, hE, hstop⟩

/-- One more operator of a chain that nests to the left. -/
theorem derives_step {s a : Symbol} {op? : Token → Option Op} (hs : s.LeftLevel a op?)
    {ts us : List Token} {l r : Expr} {t : Token} {op : Op} (hl : Derives s ts l)
    (ht : op? t = some op) (hr : Derives a us r) : Derives s (ts ++ t :: us) (.binary op l r) :=
  @Derives.binary s ⟨s, t, op, a⟩ ts us l r ((hs.operations _).2 ⟨rfl, ht, rfl⟩) hl hr

/-- A level of operators reads only chains over what its operand's parser reads. -/
theorem readsOnly_leftLevel {s a : Symbol} {op? : Token → Option Op} (hs : s.LeftLevel a op?)
    (h : ReadsOnly operand a) : ReadsOnly (leftLevel op? operand) s := by
  intro input e rest hread
  obtain ⟨ts, rfl, he, -⟩ := yields_leftLevel (A := Derives a) (B := Derives s)
    (C := fun _ _ => False) (D := fun _ _ => False) (L := fun _ => False) (E := fun _ => True)
    False.elim
    (fun _ hread => by
      obtain ⟨ts, rfl, he⟩ := h hread
      exact ⟨ts, rfl, .inl he, trivial⟩)
    (fun h => .unit (by simp [hs.units]) h) id (derives_step hs) (fun _ _ h => h) le_rfl hread
  exact ⟨ts, rfl, by simpa using he⟩

theorem readsOnly_sum (hsum : ReadsOnly sum .sum) (hformula : ReadsOnly formula .iff) :
    ReadsOnly (Assertion.sum sum formula) .sum := by
  refine readsOnly_leftLevel Symbol.leftLevel_sum <| readsOnly_leftLevel Symbol.leftLevel_product <|
    readsOnly_leftLevel Symbol.leftLevel_modulo ?_
  intro input e rest h
  obtain ⟨n, _, hn, hread⟩ := yields_bind h
  obtain ⟨-, rfl⟩ := yields_remaining hn
  exact readsOnly_negative (readsOnly_subscripted hsum hformula) n hread

/-- What is read is a sum alone, or two sums with a comparison sign between them. -/
theorem readsOnly_relation (hsum : ReadsOnly sum .sum) : ReadsOnly (relation sum) .comparison := by
  intro input e rest h
  obtain ⟨l, _, hleft, hread⟩ := yields_bind h
  obtain ⟨ts, rfl, hl⟩ := hsum hleft
  obtain ⟨r, _, hop, hend⟩ := yields_bind hread
  obtain ⟨rfl, rfl, -⟩ | ⟨t, op, r, _, _, rfl, ht, rfl, hright⟩ := yields_operation? hop
  · obtain ⟨rfl, rfl⟩ := yields_pure hend
    exact ⟨ts, rfl, .unit List.mem_cons_self hl⟩
  · obtain ⟨rfl, rfl⟩ := yields_pure hend
    obtain ⟨us, rfl, hr⟩ := hsum hright
    have ho : ⟨.sum, t, op, .sum⟩ ∈ Symbol.comparison.operations := by
      cases t <;> cases ht <;> simp [Symbol.operations]
    exact ⟨ts ++ t :: us, by simp, .binary ho hl hr⟩

end Assertion

/-! ## Connectives and quantifiers -/

/-- The tokens do not begin with a connective that binds as tightly as `k`. -/
def Quits (k : Nat) (rest : List Token) : Prop :=
  ∀ t, rest.head? = some t → t.binding < k ∨ 4 < t.binding

/-- What the parser reads from at most `n` tokens can be derived from `s`, or it can be derived from
`s'` and no connective follows. In any case no connective follows that binds as tightly as `k`. -/
def Parser.ReadsLevel (n : Nat) (p : Parser Expr) (s s' : Symbol) (k : Nat) : Prop :=
  ∀ ⦃input e rest⦄, input.length ≤ n → Yields p input e rest →
    ∃ ts, input = ts ++ rest ∧ (Derives s ts e ∨ Derives s' ts e ∧ Quits 1 rest) ∧ Quits k rest

theorem quits_nil (k : Nat) : Quits k [] := nofun

/-- If the next token is not the connective that binds as tightly as `k`, one more is excluded. -/
theorem Quits.of_ne {k : Nat} {token : Token} {rest : List Token} (h : Quits (k + 1) rest)
    (htoken : ∀ t : Token, t.binding = k → t = token) (hrest : rest.head? ≠ some token) :
    Quits k rest := by
  intro t ht
  have hk : t.binding ≠ k := fun hk => hrest (htoken t hk ▸ ht)
  have := h t ht
  omega

namespace Assertion

variable {sum formula operand : Parser Expr} {n : Nat}

/-- A quantified formula has a variable, perhaps a type, and a body that no connective follows. -/
theorem exists_of_quantified (hformula : ∀ n, ReadsLevel n formula .iff .iff 1)
    {quantify : String → Option Ty → Expr → Expr} {input rest : List Token} {e : Expr}
    (h : Yields (quantified formula quantify) input e rest) :
    ∃ x written ty ts body, input = .ident x :: (written ++ .colonColon :: ts) ++ rest ∧
      QuantType written ty ∧ Derives .iff ts body ∧ e = quantify x ty body ∧ Quits 1 rest := by
  -- What follows the type is read in the same way whether there is one or not.
  have hrest : ∀ {x : Spanned String} {written : Option TypeExpr} {input : List Token},
      Yields (do
        expect .colonColon
        let ty ← liftM (written.mapM TypeExpr.resolve)
        let body ← formula
        return quantify x.node ty body) input e rest →
      ∃ ty ts body, input = .colonColon :: (ts ++ rest) ∧ written.mapM TypeExpr.resolve = .ok ty ∧
        Derives .iff ts body ∧ e = quantify x.node ty body ∧ Quits 1 rest := by
    intro x written input h
    obtain ⟨_, _, hexpect, hread⟩ := yields_bind h
    obtain rfl := yields_expect hexpect
    obtain ⟨ty, _, hlift, hmore⟩ := yields_bind hread
    obtain ⟨hty, rfl⟩ := yields_liftM hlift
    obtain ⟨body, _, hbody, hpure⟩ := yields_bind hmore
    obtain ⟨rfl, rfl⟩ := yields_pure hpure
    obtain ⟨ts, rfl, hts, hquits⟩ := hformula _ le_rfl hbody
    exact ⟨ty, ts, body, rfl, hty, by tauto, rfl, hquits⟩
  obtain ⟨x, _, hx, hread⟩ := yields_bind h
  obtain rfl := yields_name hx
  obtain ⟨b, _, hb, hmore⟩ := yields_bind hread
  rcases yields_accept hb with ⟨rfl, rfl⟩ | ⟨rfl, rfl, -⟩
  · obtain ⟨_, _, hwritten, hend⟩ := yields_bind hmore
    obtain ⟨t, rfl, ht⟩ := yields_map hwritten
    obtain ⟨n, _, hn, ht⟩ := yields_bind ht
    obtain ⟨rfl, rfl⟩ := yields_remaining hn
    obtain ⟨_, ts, body, rfl, hresolve, hbody, rfl, hquits⟩ := hrest hend
    obtain ⟨ty, hty, ⟨⟩⟩ := Exec.bind_eq_ok.1 hresolve
    obtain ⟨us, rfl, hus⟩ := TypeExpr.derives_of_parseWithin ht hty
    exact ⟨x.node, .colon :: us, some ty, ts, body, by simp, .written hus, hbody, rfl, hquits⟩
  · obtain ⟨_, _, hwritten, hend⟩ := yields_bind hmore
    obtain ⟨rfl, rfl⟩ := yields_pure hwritten
    obtain ⟨_, ts, body, rfl, ⟨⟩, hbody, rfl, hquits⟩ := hrest hend
    exact ⟨x.node, [], none, ts, body, by simp, .absent, hbody, rfl, hquits⟩

theorem quits_five (rest : List Token) : Quits 5 rest := fun t _ => by omega

/-- Negations end in a comparison, or in a quantified formula that no connective follows. -/
theorem readsLevel_negation (hsum : ReadsOnly sum .sum)
    (hformula : ∀ n, ReadsLevel n formula .iff .iff 1) (m : Nat) :
    ReadsLevel n (negation sum formula m) .negation .negationQuant 5 := by
  have hrelation {n : Nat} : ReadsLevel n (relation sum) .negation .negationQuant 5 := by
    intro input e rest _ h
    obtain ⟨ts, rfl, he⟩ := readsOnly_relation hsum h
    exact ⟨ts, rfl, .inl (.unit List.mem_cons_self he), quits_five rest⟩
  induction m generalizing n with
  | zero => exact hrelation
  | succ m ih =>
    intro input e rest hn h
    obtain ⟨t, _, ht, hread⟩ := yields_bind h
    obtain ⟨rfl, rfl⟩ := yields_peek ht
    split at hread
    · next htoken =>
      obtain ⟨_, _, hadvance, hmore⟩ := yields_bind hread
      obtain rfl := yields_advance_of_head hadvance htoken
      obtain ⟨e, _, hinner, hpure⟩ := yields_bind hmore
      obtain ⟨rfl, rfl⟩ := yields_pure hpure
      obtain ⟨ts, rfl, he, hquits⟩ := ih le_rfl hinner
      exact ⟨.kwNot :: ts, rfl, he.imp .not (And.imp_left .notQuant), hquits⟩
    · next htoken =>
      obtain ⟨_, _, hadvance, hmore⟩ := yields_bind hread
      obtain rfl := yields_advance_of_head hadvance htoken
      obtain ⟨x, written, ty, ts, body, rfl, hty, hbody, rfl, hquits⟩ :=
        exists_of_quantified hformula hmore
      exact ⟨_, by simp, .inr ⟨.unit List.mem_cons_self (.forAll hty hbody), hquits⟩,
        quits_five rest⟩
    · next htoken =>
      obtain ⟨_, _, hadvance, hmore⟩ := yields_bind hread
      obtain rfl := yields_advance_of_head hadvance htoken
      obtain ⟨x, written, ty, ts, body, rfl, hty, hbody, rfl, hquits⟩ :=
        exists_of_quantified hformula hmore
      exact ⟨_, by simp, .inr ⟨.unit List.mem_cons_self (.thereExists hty hbody), hquits⟩,
        quits_five rest⟩
    · exact hrelation hn hread

/-- A level of a connective that nests to the left, over a level whose forms may end in a
quantifier: `s` and `s'` are its symbols, `a` and `a'` those of its operands. -/
theorem readsLevel_leftLevel {s a s' a' : Symbol} {token : Token} {op : Op}
    {op? : Token → Option Op} {k : Nat} (hs : s.LeftLevel a op?) (hunit : a' ∈ s'.units)
    (hoperation : ⟨s, token, op, a'⟩ ∈ s'.operations)
    (hop : ∀ t, op? t = if t = token then some op else none)
    (htoken : ∀ t : Token, t.binding = k ↔ t = token) (hk : 1 ≤ k ∧ k ≤ 4)
    (h : ReadsLevel n operand a a' (k + 1)) : ReadsLevel n (leftLevel op? operand) s s' k := by
  intro input e rest hn hread
  obtain ⟨ts, rfl, he, hquits, hend⟩ := yields_leftLevel (A := Derives a) (B := Derives s)
    (C := Derives a') (D := Derives s') (L := Quits 1) (E := Quits (k + 1))
    (by
      intro rest hquits
      cases hrest : rest.head? with
      | none => rfl
      | some t =>
        rw [Option.bind_some, hop, if_neg]
        rw [← htoken]
        have := hquits t hrest
        omega)
    (fun hn hread => h hn hread) (.unit (by simp [hs.units])) (.unit hunit) (derives_step hs)
    (fun hl ht hr => by
      rw [hop] at ht
      split_ifs at ht with heq
      cases ht
      exact heq ▸ .binary hoperation hl hr)
    hn hread
  refine ⟨ts, rfl, he, hquits.of_ne (fun t => (htoken t).1) fun hrest => ?_⟩
  simp [hrest, hop] at hend

theorem readsLevel_disjunction (hsum : ReadsOnly sum .sum)
    (hformula : ∀ n, ReadsLevel n formula .iff .iff 1) :
    ReadsLevel n (disjunction sum formula) .disj .disjQuant 3 := by
  have hnegation : ReadsLevel n (do negation sum formula (← remaining)) .negation .negationQuant
      5 := by
    intro input e rest hn h
    obtain ⟨m, _, hm, hread⟩ := yields_bind h
    obtain ⟨-, rfl⟩ := yields_remaining hm
    exact readsLevel_negation hsum hformula m hn hread
  have hconj : ReadsLevel n (leftLevel conjunctive? do negation sum formula (← remaining)) .conj
      .conjQuant 4 :=
    readsLevel_leftLevel Symbol.leftLevel_conj List.mem_cons_self List.mem_cons_self
      (fun t => by cases t <;> simp [conjunctive?])
      (fun t => by cases t <;> simp [Token.binding]) (by decide) hnegation
  exact readsLevel_leftLevel Symbol.leftLevel_disj List.mem_cons_self List.mem_cons_self
      (fun t => by cases t <;> simp [disjunctive?])
      (fun t => by cases t <;> simp [Token.binding]) (by decide) hconj

/-- A level of a connective that nests to the right: `b` and `b'` are its symbols, `a` and `a'`
those of its operands. There are not more operands than tokens, so it does not stop too early. -/
theorem readsLevel_rightLevel {a a' b b' : Symbol} {token : Token} {op : Op} {k : Nat}
    (hunit : ∀ {ts e}, Derives a ts e → Derives b ts e)
    (hunit' : ∀ {ts e}, Derives a' ts e → Derives b' ts e)
    (hoperation : ⟨a, token, op, b⟩ ∈ b.operations)
    (hoperation' : ⟨a, token, op, b'⟩ ∈ b'.operations)
    (htoken : ∀ t : Token, t.binding = k ↔ t = token) (hk : 1 ≤ k ∧ k ≤ 4)
    (h : ReadsLevel n operand a a' (k + 1)) {m : Nat} (hm : m ≤ n) :
    ReadsLevel m (rightLevel token op operand m) b b' k := by
  induction m with
  | zero =>
    intro input e rest hn hread
    obtain ⟨ts, rfl, he, -⟩ := h (hn.trans hm) hread
    obtain ⟨-, rfl⟩ := List.append_eq_nil_iff.1 (List.length_eq_zero_iff.1 (Nat.le_zero.1 hn))
    exact ⟨ts, rfl, he.imp hunit (And.imp_left hunit'), quits_nil k⟩
  | succ m ih =>
    intro input e rest hn hread
    obtain ⟨l, _, hleft, hmore⟩ := yields_bind hread
    obtain ⟨ts, rfl, hl, hquits⟩ := h (hn.trans hm) hleft
    obtain ⟨c, _, hc, hend⟩ := yields_bind hmore
    rcases yields_accept hc with ⟨rfl, rfl⟩ | ⟨rfl, rfl, hnext⟩
    · obtain ⟨r, _, hright, hpure⟩ := yields_bind hend
      obtain ⟨rfl, rfl⟩ := yields_pure hpure
      rw [List.length_append, List.length_cons] at hn
      obtain ⟨us, rfl, hr, hquits'⟩ := ih (by omega) (by omega) hright
      have hl : Derives a ts l := by
        obtain hl | ⟨-, hlast⟩ := hl
        · exact hl
        · have := hlast token rfl
          have := (htoken token).2 rfl
          omega
      exact ⟨ts ++ token :: us, by simp,
        hr.imp (.binary hoperation hl) (And.imp_left (.binary hoperation' hl)), hquits'⟩
    · obtain ⟨rfl, rfl⟩ := yields_pure hend
      exact ⟨ts, rfl, hl.imp hunit (And.imp_left hunit'),
        hquits.of_ne (fun t => (htoken t).1) hnext⟩

/-- A chain of implications without a quantifier at its end is a chain of implications. -/
theorem implies_of_impliesNoQuant {ts : List Token} {e : Expr} (h : Derives .impliesNoQuant ts e) :
    Derives .implies ts e := by
  generalize hs : Symbol.impliesNoQuant = s at h
  induction h with
  | unit ha h _ =>
    subst hs
    obtain rfl := List.mem_singleton.1 ha
    exact .unit List.mem_cons_self h
  | binary ho hl _ _ ih =>
    subst hs
    obtain rfl := List.mem_singleton.1 ho
    exact @Derives.binary .implies ⟨.disj, .implies, .implies, .implies⟩ _ _ _ _
      List.mem_cons_self hl (ih rfl)
  | _ => cases hs

theorem readsLevel_formula (hsum : ReadsOnly sum .sum)
    (hformula : ∀ n, ReadsLevel n formula .iff .iff 1) :
    ReadsLevel n (Assertion.formula sum formula) .iff .iff 1 := by
  intro input e rest hn h
  obtain ⟨m, _, hm, hread⟩ := yields_bind h
  obtain ⟨rfl, rfl⟩ := yields_remaining hm
  have himplies : ReadsLevel input.length (rightLevel .implies .implies (disjunction sum formula)
      input.length) .impliesNoQuant .implies 2 :=
    readsLevel_rightLevel (.unit List.mem_cons_self)
      (.unit (List.mem_cons_of_mem _ List.mem_cons_self)) List.mem_cons_self List.mem_cons_self
      (fun t => by cases t <;> simp [Token.binding]) (by decide)
      (readsLevel_disjunction hsum hformula) le_rfl
  exact readsLevel_rightLevel (fun h => .unit List.mem_cons_self (implies_of_impliesNoQuant h))
    (.unit List.mem_cons_self) List.mem_cons_self List.mem_cons_self
    (fun t => by cases t <;> simp [Token.binding]) (by decide) himplies le_rfl le_rfl hread

/-- By induction on the depth: only sums and formulas are read. -/
theorem readsLevel_within (depth : Nat) :
    ReadsOnly (sumWithin depth) .sum ∧ ∀ n, ReadsLevel n (formulaWithin depth) .iff .iff 1 := by
  induction depth with
  | zero =>
    exact ⟨fun _ _ _ h => absurd h not_yields_unexpected,
      fun _ _ _ _ _ h => absurd h not_yields_unexpected⟩
  | succ depth ih =>
    have hformula : ReadsOnly (formulaWithin depth) .iff := by
      intro input e rest h
      obtain ⟨ts, rfl, he, -⟩ := ih.2 _ le_rfl h
      exact ⟨ts, rfl, by tauto⟩
    have hsum := readsOnly_sum ih.1 hformula
    exact ⟨hsum, fun n => readsLevel_formula hsum ih.2⟩

/-- The tokens of an expression that was read can be derived, with that expression. -/
theorem derives_of_ofTokens {tokens : List (Spanned Token)} {e : Expr}
    (h : ofTokens tokens = .ok e) : Derives .assertion (tokens.map (·.node)) e := by
  obtain ⟨ts, hts, he, -⟩ := (readsLevel_within _).2 _ le_rfl (yields_of_run h)
  rw [hts, List.append_nil]
  exact .unit List.mem_cons_self (by tauto)

end Assertion

end Precond.Grammar
