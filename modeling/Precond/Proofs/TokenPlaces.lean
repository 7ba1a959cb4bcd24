import Mathlib.Tactic
import Precond.Grammar.TypeExpr
import Precond.Proofs.ProgramCues

/-!
# Tokens between two places

A parser leads from one place among the tokens of a text to another one. `c.Between ts c'` says that
the tokens `ts` stand between the places `c` and `c'`. Tokens are kept with their ranges here, and
`spanOf ts` is the range from the first of them to the last.

Each step that a parser can make has two lemmas. The one says which tokens stand between the places
if the step succeeds, the other one that it succeeds if these tokens stand there. Repetitions and
lists with commas are put together from a `Piece` for each value: its tokens and the value.
-/

namespace Precond.Grammar

/-- Where some tokens end, if `last` is where the tokens before them end. -/
def stopAfter (last : Nat) (ts : List (Spanned Token)) : Nat := ts.getLast?.elim last (·.span.stop)

/-- The range from the first of some tokens to the last one. -/
def spanOf (ts : List (Spanned Token)) : Span := ⟨ts.head?.elim 0 (·.span.start), stopAfter 0 ts⟩

theorem stopAfter_append (last : Nat) (ts us : List (Spanned Token)) :
    stopAfter last (ts ++ us) = stopAfter (stopAfter last ts) us := by
  rcases List.eq_nil_or_concat us with rfl | ⟨us, t, rfl⟩
  · simp [stopAfter]
  · simp [stopAfter, List.getLast?_append]

/-- Behind some token it does not matter where the tokens before it end. -/
theorem stopAfter_of_ne_nil {ts : List (Spanned Token)} (h : ts ≠ []) (last : Nat) :
    stopAfter last ts = (spanOf ts).stop := by
  obtain ⟨ts, t, rfl⟩ := (List.eq_nil_or_concat ts).resolve_left h
  simp [stopAfter, spanOf]

@[simp] theorem spanOf_singleton (t : Spanned Token) : spanOf [t] = t.span := rfl

/-- Tokens begin where the first of them does. -/
theorem spanOf_start_append {ts : List (Spanned Token)} (h : ts ≠ []) (us : List (Spanned Token)) :
    (spanOf (ts ++ us)).start = (spanOf ts).start := by
  obtain ⟨t, ts, rfl⟩ := List.exists_cons_of_ne_nil h
  rfl

/-- Tokens end where the last of them does. -/
theorem spanOf_stop_append {us : List (Spanned Token)} (h : us ≠ []) (ts : List (Spanned Token)) :
    (spanOf (ts ++ us)).stop = (spanOf us).stop := by
  rw [← stopAfter_of_ne_nil (by simp [h]) 0, stopAfter_append, stopAfter_of_ne_nil h]

namespace Cursor

/-- The next token. -/
def next (c : Cursor) : Option Token := c.rest.head?.map (·.node)

/-- Where the next token begins. -/
def start (c : Cursor) : Nat := c.rest.head?.elim c.last (·.span.start)

/-- The tokens `ts` stand between two places. -/
structure Between (c : Cursor) (ts : List (Spanned Token)) (c' : Cursor) : Prop where
  rest : c.rest = ts ++ c'.rest
  last : c'.last = stopAfter c.last ts

namespace Between

variable {c c' d : Cursor} {ts us : List (Spanned Token)} {t : Spanned Token}

theorem refl (c : Cursor) : c.Between [] c := ⟨rfl, rfl⟩

theorem eq_of_nil (h : c.Between [] c') : c' = c := by
  obtain ⟨hrest, hlast⟩ := h
  cases c
  cases c'
  simp_all [stopAfter]

/-- Tokens that stand one after the other stand between the outer places. -/
theorem append (h : c.Between ts d) (h' : d.Between us c') : c.Between (ts ++ us) c' := by
  refine ⟨?_, ?_⟩
  · rw [h.rest, h'.rest, List.append_assoc]
  · rw [h'.last, h.last, stopAfter_append]

/-- There is a place between tokens that stand one after the other. -/
theorem split (h : c.Between (ts ++ us) c') : ∃ d, c.Between ts d ∧ d.Between us c' := by
  refine ⟨⟨us ++ c'.rest, stopAfter c.last ts⟩, ⟨?_, rfl⟩, rfl, ?_⟩
  · rw [h.rest, List.append_assoc]
  · rw [h.last, stopAfter_append]

theorem cons (h : c.Between [t] d) (h' : d.Between us c') : c.Between (t :: us) c' := h.append h'

theorem split_cons (h : c.Between (t :: us) c') : ∃ d, c.Between [t] d ∧ d.Between us c' :=
  (show c.Between ([t] ++ us) c' from h).split

/-- The first token between two places is the next one at the first place. -/
theorem next_eq (h : c.Between (t :: us) c') : c.next = some t.node := by
  rw [next, h.rest]
  rfl

theorem start_eq (h : c.Between ts c') (hne : ts ≠ []) : c.start = (spanOf ts).start := by
  obtain ⟨t, ts, rfl⟩ := List.exists_cons_of_ne_nil hne
  rw [start, h.rest]
  rfl

theorem last_eq (h : c.Between ts c') (hne : ts ≠ []) : c'.last = (spanOf ts).stop := by
  rw [h.last, stopAfter_of_ne_nil hne]

/-- What is read has the range of its tokens. -/
theorem span_eq (h : c.Between ts c') (hne : ts ≠ []) : ⟨c.start, c'.last⟩ = spanOf ts := by
  rw [h.start_eq hne, h.last_eq hne]

/-- The tokens between two places, and those behind, are as many as there are from the first place
on. -/
theorem length_le (h : c.Between ts c') : ts.length + c'.rest.length = c.rest.length := by
  rw [h.rest, List.length_append]

end Between

end Cursor

namespace Parser

variable {α β : Type} {c c' d : Cursor} {ts us : List (Spanned Token)} {t : Spanned Token}

/-- Whatever the parser reads is related to the tokens by `T`. -/
def Follows (p : Parser α) (T : List (Spanned Token) → α → Prop) : Prop :=
  ∀ ⦃c d x⦄, p c = .ok (x, d) → ∃ ts, c.Between ts d ∧ T ts x

/-! ## What was read -/

theorem eq_of_peek {r : Option Token} (h : peek c = .ok (r, d)) : c.next = r ∧ c = d := by
  cases h
  exact ⟨rfl, rfl⟩

theorem eq_of_here {n : Nat} (h : here c = .ok (n, d)) : c.start = n ∧ c = d := by
  cases h
  exact ⟨rfl, rfl⟩

/-- Going on reads the next token. -/
theorem between_of_advance {u : Unit} (h : advance c = .ok (u, d)) :
    ∃ t, c.next = some t.node ∧ c.Between [t] d := by
  unfold advance at h
  split at h
  · exact absurd h (unexpected_ne_ok _)
  · next t rest hrest =>
    cases h
    exact ⟨t, by rw [Cursor.next, hrest]; rfl, hrest, rfl⟩

/-- The token that was looked at is the one that is read. -/
theorem between_of_advance_of_next {u : Unit} {token : Token} (h : advance c = .ok (u, d))
    (hnext : c.next = some token) : ∃ t, t.node = token ∧ c.Between [t] d := by
  obtain ⟨t, ht, hbetween⟩ := between_of_advance h
  exact ⟨t, Option.some.inj (ht.symm.trans hnext), hbetween⟩

/-- A token is accepted, or nothing is read and another one comes next. -/
theorem between_of_accept {token : Token} {b : Bool} (h : accept token c = .ok (b, d)) :
    (b = true ∧ ∃ t, t.node = token ∧ c.Between [t] d) ∨
      (b = false ∧ d = c ∧ c.next ≠ some token) := by
  obtain ⟨_, _, hpeek, hread⟩ := exists_of_bind h
  cases hpeek
  split_ifs at hread with hnext
  · obtain ⟨_, _, hadvance, hpure⟩ := exists_of_bind hread
    cases hpure
    exact .inl ⟨rfl, between_of_advance_of_next hadvance hnext⟩
  · cases hread
    exact .inr ⟨rfl, rfl, hnext⟩

/-- A token that is expected is read. -/
theorem between_of_expect {token : Token} {u : Unit} (h : expect token c = .ok (u, d)) :
    ∃ t, t.node = token ∧ c.Between [t] d := by
  obtain ⟨b, _, hb, hread⟩ := exists_of_bind h
  rcases between_of_accept hb with ⟨rfl, t, ht, hbetween⟩ | ⟨rfl, rfl, -⟩
  · cases hread
    exact ⟨t, ht, hbetween⟩
  · exact absurd hread (unexpected_ne_ok _)

/-- A name that is read has the range of its token. -/
theorem between_of_name {x : Spanned String} (h : name c = .ok (x, d)) :
    ∃ t, t.node = .ident x.node ∧ t.span = x.span ∧ c.Between [t] d := by
  unfold name at h
  split at h
  · next y span rest hrest =>
    cases h
    exact ⟨_, rfl, rfl, hrest, rfl⟩
  · exact absurd h (unexpected_ne_ok _)

theorem exists_of_map {p : Parser α} {f : α → β} {y : β} (h : (f <$> p) c = .ok (y, d)) :
    ∃ x, p c = .ok (x, d) ∧ f x = y := by
  rw [map_eq_pure_bind] at h
  obtain ⟨x, e, hx, hpure⟩ := exists_of_bind h
  cases hpure
  exact ⟨x, hx, rfl⟩

/-- An operator and an operand behind it, or nothing. -/
theorem between_of_operation? {op? : Token → Option Op} {operand : Parser α}
    {r : Option (Op × α × Nat)} (h : operation? op? operand c = .ok (r, d)) :
    (r = none ∧ d = c) ∨ ∃ t op x e, r = some (op, x, d.last) ∧ op? t.node = some op ∧
      c.Between [t] e ∧ operand e = .ok (x, d) := by
  obtain ⟨_, _, hpeek, hread⟩ := exists_of_bind h
  obtain ⟨rfl, rfl⟩ := eq_of_peek hpeek
  cases hop : c.next.bind op? with
  | none =>
    rw [hop] at hread
    cases hread
    exact .inl ⟨rfl, rfl⟩
  | some op =>
    obtain ⟨token, hnext, htoken⟩ := Option.bind_eq_some_iff.1 hop
    rw [hop] at hread
    obtain ⟨_, e, hadvance, hmore⟩ := exists_of_bind hread
    obtain ⟨x, _, hx, hlast⟩ := exists_of_bind hmore
    cases hlast
    obtain ⟨t, rfl, hbetween⟩ := between_of_advance_of_next hadvance hnext
    exact .inr ⟨t, op, x, e, rfl, htoken, hbetween, hx⟩

theorem eq_of_operation?_none {op? : Token → Option Op} {operand : Parser α}
    (h : operation? op? operand c = .ok (none, d)) : d = c := by
  rcases between_of_operation? h with ⟨-, hd⟩ | ⟨_, _, _, _, hsome, -⟩
  · exact hd
  · cases hsome

/-- An operation that is read has an operator and then an operand. -/
theorem between_of_operation?_some {op? : Token → Option Op} {operand : Parser α}
    {D : List (Spanned Token) → α → Prop} (hoperand : Follows operand D) {x : Op × α × Nat}
    (h : operation? op? operand c = .ok (some x, d)) :
    ∃ ts, c.Between ts d ∧ ∃ t us, ts = t :: us ∧ op? t.node = some x.1 ∧ D us x.2.1 ∧
      (us ≠ [] → x.2.2 = (spanOf us).stop) := by
  rcases between_of_operation? h with ⟨hnone, -⟩ | ⟨t, op, r, e, hsome, hop, ht, hr⟩
  · cases hnone
  · cases hsome
    obtain ⟨us, hus, hD⟩ := hoperand hr
    exact ⟨_, ht.cons hus, t, us, rfl, hop, hD, hus.last_eq⟩

/-! ## What has to be read -/

/-- A parser whose first part reads something goes on from there. -/
theorem bind_eq_of_ok {p : Parser α} {f : α → Parser β} {x : α} (h : p c = .ok (x, d)) :
    (p >>= f) c = f x d := by
  change (p c >>= fun r => f r.1 r.2) = f x d
  rw [h]
  rfl

theorem map_eq_of_ok {p : Parser α} {f : α → β} {x : α} (h : p c = .ok (x, d)) :
    (f <$> p) c = .ok (f x, d) := by
  rw [map_eq_pure_bind, bind_eq_of_ok h]
  rfl

theorem peek_eq (c : Cursor) : peek c = .ok (c.next, c) := rfl

theorem here_eq (c : Cursor) : here c = .ok (c.start, c) := rfl

theorem remaining_eq (c : Cursor) : remaining c = .ok (c.rest.length, c) := rfl

theorem spanFrom_eq (start : Nat) (c : Cursor) : spanFrom start c = .ok (⟨start, c.last⟩, c) := rfl

/-- A token that is there is read. -/
theorem advance_of_between (h : c.Between [t] d) : advance c = .ok ((), d) := by
  obtain ⟨rest, last⟩ := d
  obtain rfl : last = t.span.stop := h.last
  rw [advance, h.rest]
  rfl

theorem accept_of_between {token : Token} (h : c.Between [t] d) (ht : t.node = token) :
    accept token c = .ok (true, d) := by
  have hnext : c.next = some token := by rw [h.next_eq, ht]
  rw [accept, bind_eq_of_ok (peek_eq c), if_pos hnext, bind_eq_of_ok (advance_of_between h)]
  rfl

/-- Any other token is left alone. -/
theorem accept_of_ne {token : Token} (h : c.next ≠ some token) :
    accept token c = .ok (false, c) := by
  rw [accept, bind_eq_of_ok (peek_eq c), if_neg h]
  rfl

theorem expect_of_between {token : Token} (h : c.Between [t] d) (ht : t.node = token) :
    expect token c = .ok ((), d) :=
  bind_eq_of_ok (accept_of_between h ht)

/-- A name that is there is read with its range. -/
theorem name_of_between {x : String} (h : c.Between [t] d) (ht : t.node = .ident x) :
    name c = .ok (⟨x, t.span⟩, d) := by
  obtain ⟨node, span⟩ := t
  obtain ⟨rest, last⟩ := d
  obtain rfl : last = span.stop := h.last
  subst ht
  rw [name, h.rest]
  rfl

/-- An operator with its operand is read. -/
theorem operation?_of_between {op? : Token → Option Op} {operand : Parser α} {op : Op} {x : α}
    {e : Cursor} (h : c.Between [t] e) (ht : op? t.node = some op) (hx : operand e = .ok (x, d)) :
    operation? op? operand c = .ok (some (op, x, d.last), d) := by
  have hop : c.next.bind op? = some op := by rw [h.next_eq, Option.bind_some, ht]
  rw [operation?, bind_eq_of_ok (peek_eq c), hop]
  dsimp only
  rw [bind_eq_of_ok (advance_of_between h), bind_eq_of_ok hx]
  rfl

theorem operation?_of_ne {op? : Token → Option Op} {operand : Parser α}
    (h : c.next.bind op? = none) : operation? op? operand c = .ok (none, c) := by
  rw [operation?, bind_eq_of_ok (peek_eq c), h]
  rfl

end Parser

/-! ## Repetition -/

/-- Some tokens of a text and what they stand for. -/
structure Piece (α : Type) where
  /-- The tokens, with their ranges. -/
  tokens : List (Spanned Token)
  /-- What they stand for. -/
  value : α

namespace Parser

variable {α : Type} {c c' : Cursor} {item? : Parser (Option α)}

/-- By induction on how often an item is read: the items are pieces of the tokens. -/
theorem between_of_repeatAtMost {T : List (Spanned Token) → α → Prop}
    (hitem : ∀ ⦃c d x⦄, item? c = .ok (some x, d) → ∃ ts, c.Between ts d ∧ T ts x)
    (hnone : ∀ ⦃c d⦄, item? c = .ok (none, d) → d = c) {n : Nat} {xs : List α}
    (h : repeatAtMost item? n c = .ok (xs, c')) :
    ∃ pieces : List (Piece α), c.Between (pieces.flatMap (·.tokens)) c' ∧
      xs = pieces.map (·.value) ∧ ∀ p ∈ pieces, T p.tokens p.value := by
  induction n generalizing c xs with
  | zero =>
    cases h
    exact ⟨[], .refl _, rfl, by simp⟩
  | succ n ih =>
    obtain ⟨r, d, hr, hread⟩ := exists_of_bind h
    cases r with
    | none =>
      cases hread
      obtain rfl := hnone hr
      exact ⟨[], .refl _, rfl, by simp⟩
    | some x =>
      obtain ⟨xs, _, hxs, hpure⟩ := exists_of_bind hread
      cases hpure
      obtain ⟨ts, hbetween, hT⟩ := hitem hr
      obtain ⟨pieces, hrest, rfl, hpieces⟩ := ih hxs
      exact ⟨⟨ts, x⟩ :: pieces, hbetween.append hrest, rfl, List.forall_mem_cons.2 ⟨hT, hpieces⟩⟩

theorem between_of_repeatWhile {T : List (Spanned Token) → α → Prop}
    (hitem : ∀ ⦃c d x⦄, item? c = .ok (some x, d) → ∃ ts, c.Between ts d ∧ T ts x)
    (hnone : ∀ ⦃c d⦄, item? c = .ok (none, d) → d = c) {xs : List α}
    (h : repeatWhile item? c = .ok (xs, c')) :
    ∃ pieces : List (Piece α), c.Between (pieces.flatMap (·.tokens)) c' ∧
      xs = pieces.map (·.value) ∧ ∀ p ∈ pieces, T p.tokens p.value :=
  between_of_repeatAtMost hitem hnone h

/-- Where pieces follow, or none, the next token fits if all that they begin with does. -/
theorem next_of_pieces {pieces : List (Piece α)} {fits : Option Token → Prop}
    (hhead : ∀ p ∈ pieces, ∃ t us, p.tokens = t :: us ∧ fits (some t.node)) (hend : fits c'.next)
    (h : c.Between (pieces.flatMap (·.tokens)) c') : fits c.next := by
  cases pieces with
  | nil => rwa [← h.eq_of_nil]
  | cons p pieces =>
    obtain ⟨t, us, hts, ht⟩ := hhead p (by simp)
    rw [List.flatMap_cons, hts, List.cons_append] at h
    rwa [h.next_eq]

/-- Pieces are read one after the other, if each is read in front of the next one and the last one
in front of what comes then. -/
theorem repeatWhile_of_between {pieces : List (Piece α)} (fits : Option Token → Prop)
    (hitem : ∀ p ∈ pieces, ∀ {c d : Cursor}, c.Between p.tokens d → fits d.next →
      item? c = .ok (some p.value, d))
    (hhead : ∀ p ∈ pieces, ∃ t us, p.tokens = t :: us ∧ fits (some t.node)) (hend : fits c'.next)
    (hnone : item? c' = .ok (none, c')) (h : c.Between (pieces.flatMap (·.tokens)) c') :
    repeatWhile item? c = .ok (pieces.map (·.value), c') := by
  have hall : ∀ n, c.rest.length ≤ n →
      repeatAtMost item? n c = .ok (pieces.map (·.value), c') := by
    induction pieces generalizing c with
    | nil =>
      intro n _
      obtain rfl := h.eq_of_nil
      cases n with
      | zero => rfl
      | succ n => exact bind_eq_of_ok hnone
    | cons p pieces ih =>
      intro n hn
      obtain ⟨hp, hpieces⟩ := List.forall_mem_cons.1 hitem
      obtain ⟨⟨t, us, hts, -⟩, hheads⟩ := List.forall_mem_cons.1 hhead
      rw [List.flatMap_cons] at h
      obtain ⟨d, hfirst, hrest⟩ := h.split
      have hfits : fits d.next := next_of_pieces hheads hend hrest
      have hlength := hfirst.length_le
      rw [hts, List.length_cons] at hlength
      cases n with
      | zero => omega
      | succ n =>
        have hmore := ih hpieces hheads hrest n (by omega)
        exact (bind_eq_of_ok (hp hfirst hfits)).trans (bind_eq_of_ok hmore)
  exact hall _ le_rfl

end Parser

/-! ## Lists with commas -/

/-- A piece with a token beside it. -/
structure Linked (α : Type) extends Piece α where
  /-- The token that links the piece to the others. -/
  mark : Spanned Token

/-- Where pieces with tokens in front follow, or none, the next token fits if these tokens do. -/
theorem next_fits {α : Type} {rest : List (Linked α)} {fits : Option Token → Prop} {c c' : Cursor}
    (hmarks : ∀ p ∈ rest, fits (some p.mark.node)) (hend : fits c'.next)
    (h : c.Between (rest.flatMap fun p => p.mark :: p.tokens) c') : fits c.next := by
  cases rest with
  | nil => rwa [← h.eq_of_nil]
  | cons p rest =>
    rw [List.flatMap_cons, List.cons_append] at h
    rw [h.next_eq]
    exact hmarks p (by simp)

/-- Linked pieces are read one after another, if each fits in front of the next. -/
theorem Parser.repeatWhile_linked {α β : Type} {item? : Parser (Option α)} {rest : List (Linked β)}
    {g : Linked β → α} {fits : Option Token → Prop} {c c' : Cursor}
    (hitem : ∀ p ∈ rest, ∀ {c d : Cursor}, c.Between (p.mark :: p.tokens) d → fits d.next →
      item? c = .ok (some (g p), d))
    (hmarks : ∀ p ∈ rest, fits (some p.mark.node)) (hend : fits c'.next)
    (hnone : item? c' = .ok (none, c'))
    (h : c.Between (rest.flatMap fun p => p.mark :: p.tokens) c') :
    repeatWhile item? c = .ok (rest.map g, c') := by
  have hpieces : c.Between
      ((rest.map fun p => (⟨p.mark :: p.tokens, g p⟩ : Piece α)).flatMap (·.tokens)) c' := by
    rwa [List.flatMap_map]
  have hread := repeatWhile_of_between fits ?_ ?_ hend hnone hpieces
  · rw [hread, List.map_map]
    rfl
  · intro q hq
    obtain ⟨p, hp, rfl⟩ := List.mem_map.1 hq
    exact hitem p hp
  · intro q hq
    obtain ⟨p, hp, rfl⟩ := List.mem_map.1 hq
    exact ⟨p.mark, p.tokens, rfl, hmarks p hp⟩

/-- Pieces with a comma behind each of them, and possibly one more. -/
structure CommaList (α : Type) where
  /-- The pieces that have a comma behind them. -/
  items : List (Linked α)
  /-- The last piece, if it has none. -/
  last : Option (Piece α)
  commas : ∀ p ∈ items, p.mark.node = .comma

/-- Pieces that begin with a token are linked by it. -/
theorem exists_linked {α β : Type} {pieces : List (Piece α)} {f : α → β}
    {T : Spanned Token → List (Spanned Token) → β → Prop}
    (h : ∀ p ∈ pieces, ∃ t us, p.tokens = t :: us ∧ T t us (f p.value)) :
    ∃ rest : List (Linked β), rest.map (·.value) = pieces.map (fun p => f p.value) ∧
      rest.flatMap (fun q => q.mark :: q.tokens) = pieces.flatMap (·.tokens) ∧
      ∀ q ∈ rest, T q.mark q.tokens q.value := by
  induction pieces with
  | nil => exact ⟨[], rfl, rfl, by simp⟩
  | cons p pieces ih =>
    obtain ⟨⟨t, us, hts, hT⟩, hpieces⟩ := List.forall_mem_cons.1 h
    obtain ⟨rest, hvalues, htokens, hrest⟩ := ih hpieces
    refine ⟨⟨⟨us, f p.value⟩, t⟩ :: rest, ?_, ?_, List.forall_mem_cons.2 ⟨hT, hrest⟩⟩
    · simp [hvalues]
    · simp [hts, htokens]

namespace CommaList

variable {α : Type}

/-- All tokens, with the commas. -/
def tokens (l : CommaList α) : List (Spanned Token) :=
  l.items.flatMap (fun p => p.tokens ++ [p.mark]) ++ l.last.elim [] (·.tokens)

/-- The pieces alone. -/
def pieces (l : CommaList α) : List (Piece α) := l.items.map (·.toPiece) ++ l.last.toList

/-- What the pieces stand for. -/
def values (l : CommaList α) : List α := l.pieces.map (·.value)

/-- No piece. -/
def nil : CommaList α := ⟨[], none, by simp⟩

/-- One piece without a comma. -/
def single (p : Piece α) : CommaList α := ⟨[], some p, by simp⟩

/-- One more piece in front. -/
def cons (p : Linked α) (h : p.mark.node = .comma) (l : CommaList α) : CommaList α :=
  ⟨p :: l.items, l.last, List.forall_mem_cons.2 ⟨h, l.commas⟩⟩

theorem tokens_cons (p : Linked α) (h : p.mark.node = .comma) (l : CommaList α) :
    (cons p h l).tokens = p.tokens ++ p.mark :: l.tokens := by
  simp [tokens, cons]

theorem pieces_single (p : Piece α) : (single p).pieces = [p] := rfl

theorem pieces_cons (p : Linked α) (h : p.mark.node = .comma) (l : CommaList α) :
    (cons p h l).pieces = p.toPiece :: l.pieces := rfl

/-- Lists are built up from the front. -/
theorem induction {motive : CommaList α → Prop} (hnil : motive nil)
    (hsingle : ∀ p, motive (single p)) (hcons : ∀ p h l, motive l → motive (cons p h l))
    (l : CommaList α) : motive l := by
  obtain ⟨items, last, hcommas⟩ := l
  induction items with
  | nil =>
    cases last with
    | none => exact hnil
    | some p => exact hsingle p
  | cons p items ih =>
    obtain ⟨hp, hitems⟩ := List.forall_mem_cons.1 hcommas
    exact hcons p hp ⟨items, last, hitems⟩ (ih hitems)

/-- A piece of a list with commas is a piece of its tokens. -/
theorem isInfix_tokens {l : CommaList α} {p : Piece α} (h : p ∈ l.pieces) :
    p.tokens <:+: l.tokens := by
  induction l using induction with
  | hnil => simp [nil, pieces] at h
  | hsingle q =>
    obtain rfl : p = q := by simpa [pieces_single] using h
    exact List.infix_rfl
  | hcons q hq l ih =>
    rw [tokens_cons]
    rw [pieces_cons] at h
    rcases List.mem_cons.1 h with rfl | hmem
    · exact ⟨[], q.mark :: l.tokens, rfl⟩
    · exact (ih hmem).trans ⟨q.tokens ++ [q.mark], [], by simp⟩

theorem length_le_tokens {l : CommaList α} {p : Piece α} (h : p ∈ l.pieces) :
    p.tokens.length ≤ l.tokens.length := (isInfix_tokens h).length_le

end CommaList

namespace Parser

variable {α : Type} {c c' d : Cursor} {item : Parser α} {close : Token}

/-- By induction on the number of items: they are pieces of the tokens, with commas. -/
theorem between_of_commaItems {T : List (Spanned Token) → α → Prop}
    (hitem : Follows item T) {n : Nat} {xs : List α}
    (h : commaItems item close n c = .ok (xs, c')) :
    ∃ l : CommaList α, c.Between l.tokens c' ∧ xs = l.values ∧
      ∀ p ∈ l.pieces, T p.tokens p.value := by
  induction n generalizing c xs with
  | zero => exact absurd h (unexpected_ne_ok _)
  | succ n ih =>
    obtain ⟨_, _, hpeek, hread⟩ := exists_of_bind h
    cases hpeek
    split_ifs at hread
    · cases hread
      exact ⟨.nil, .refl _, rfl, by simp [CommaList.nil, CommaList.pieces]⟩
    obtain ⟨x, d, hx, hmore⟩ := exists_of_bind hread
    obtain ⟨ts, hfirst, hT⟩ := hitem hx
    obtain ⟨b, e, hb, hrest⟩ := exists_of_bind hmore
    rcases between_of_accept hb with ⟨rfl, t, ht, hcomma⟩ | ⟨rfl, rfl, -⟩
    · obtain ⟨xs, _, hxs, hpure⟩ := exists_of_bind hrest
      cases hpure
      obtain ⟨l, hbetween, rfl, hpieces⟩ := ih hxs
      refine ⟨.cons ⟨⟨ts, x⟩, t⟩ ht l, ?_, rfl, List.forall_mem_cons.2 ⟨hT, hpieces⟩⟩
      rw [CommaList.tokens_cons]
      exact hfirst.append (hcomma.cons hbetween)
    · cases hrest
      exact ⟨.single ⟨ts, x⟩, hfirst, rfl, by simpa [CommaList.single, CommaList.pieces] using hT⟩

theorem between_of_commaList {T : List (Spanned Token) → α → Prop}
    (hitem : Follows item T) {xs : List α} (h : commaList item close c = .ok (xs, c')) :
    ∃ (l : CommaList α) (t : Spanned Token), t.node = close ∧ c.Between (l.tokens ++ [t]) c' ∧
      xs = l.values ∧ ∀ p ∈ l.pieces, T p.tokens p.value := by
  obtain ⟨_, _, hremaining, hread⟩ := exists_of_bind h
  cases hremaining
  obtain ⟨xs, d, hxs, hclose⟩ := exists_of_bind hread
  obtain ⟨_, _, hexpect, hpure⟩ := exists_of_bind hclose
  cases hpure
  obtain ⟨l, hbetween, rfl, hpieces⟩ := between_of_commaItems hitem hxs
  obtain ⟨t, ht, hend⟩ := between_of_expect hexpect
  exact ⟨l, t, ht, hbetween.append hend, rfl, hpieces⟩

/-- A piece that is read in front of a comma and in front of the closing token, with which it does
not begin. -/
structure Listed (item : Parser α) (close : Token) (p : Piece α) : Prop where
  reads : ∀ {c d : Cursor}, c.Between p.tokens d → d.next = some .comma ∨ d.next = some close →
    item c = .ok (p.value, d)
  head : ∃ t us, p.tokens = t :: us ∧ t.node ≠ close

/-- The closing token does not come where a piece begins. -/
theorem Listed.next_ne {p : Piece α} (h : Listed item close p) (us : List (Spanned Token))
    (hc : c.Between (p.tokens ++ us) c') : c.next ≠ some close := by
  obtain ⟨t, ts, hts, ht⟩ := h.head
  rw [hts, List.cons_append] at hc
  rw [hc.next_eq]
  exact fun heq => ht (Option.some.inj heq)

theorem commaItems_cons {x : α} {n : Nat} (hnext : c.next ≠ some close)
    (hx : item c = .ok (x, d)) : commaItems item close (n + 1) c =
      (do if ← accept .comma then return x :: (← commaItems item close n) else return [x] :
        Parser (List α)) d := by
  rw [commaItems, bind_eq_of_ok (peek_eq c), if_neg hnext]
  exact bind_eq_of_ok hx

/-- By induction on the list: its pieces are read, up to the closing token. -/
theorem commaItems_of_between {l : CommaList α} (hclose : close ≠ .comma)
    (hitem : ∀ p ∈ l.pieces, Listed item close p) (h : c.Between l.tokens c')
    (hnext : c'.next = some close) {n : Nat} (hn : c.rest.length ≤ n) :
    commaItems item close n c = .ok (l.values, c') := by
  induction l using CommaList.induction generalizing c n with
  | hnil =>
    obtain rfl := h.eq_of_nil
    have hpos : c'.rest ≠ [] := by
      intro hnil
      simp [Cursor.next, hnil] at hnext
    obtain ⟨n, rfl⟩ := Nat.exists_eq_add_one.2 ((List.length_pos_iff.2 hpos).trans_le hn)
    rw [commaItems, bind_eq_of_ok (peek_eq c'), if_pos hnext]
    rfl
  | hsingle p =>
    have hp := hitem p (by simp [CommaList.pieces_single])
    have hfirst : c.Between p.tokens c' := h
    have hstart := hp.next_ne [] (by simpa using hfirst)
    obtain ⟨t, us, hts, -⟩ := hp.head
    have hlength := hfirst.length_le
    rw [hts, List.length_cons] at hlength
    obtain ⟨n, rfl⟩ := Nat.exists_eq_add_one.2 (show 0 < n by omega)
    rw [commaItems_cons hstart (hp.reads hfirst (.inr hnext)), bind_eq_of_ok (accept_of_ne _)]
    · rfl
    · rw [hnext]
      exact fun heq => hclose (Option.some.inj heq)
  | hcons p hp l ih =>
    rw [CommaList.pieces_cons] at hitem
    obtain ⟨hfirst, hrest⟩ := List.forall_mem_cons.1 hitem
    rw [CommaList.tokens_cons] at h
    have hstart := hfirst.next_ne _ h
    obtain ⟨d, hpiece, hmore⟩ := h.split
    obtain ⟨e, hcomma, hitems⟩ := hmore.split_cons
    have hlength := hpiece.length_le
    have hlength' := hcomma.length_le
    rw [List.length_singleton] at hlength'
    obtain ⟨n, rfl⟩ := Nat.exists_eq_add_one.2 (show 0 < n by omega)
    have hread := hfirst.reads hpiece (.inl (by rw [hcomma.next_eq, hp]))
    rw [commaItems_cons hstart hread, bind_eq_of_ok (accept_of_between hcomma hp)]
    exact bind_eq_of_ok (ih hrest hitems (by omega))

/-- A list with commas is read with its closing token. -/
theorem commaList_of_between {l : CommaList α} {t : Spanned Token} (hclose : close ≠ .comma)
    (ht : t.node = close) (hitem : ∀ p ∈ l.pieces, Listed item close p)
    (h : c.Between (l.tokens ++ [t]) c') : commaList item close c = .ok (l.values, c') := by
  obtain ⟨d, hitems, hend⟩ := h.split
  have hnext : d.next = some close := by rw [hend.next_eq, ht]
  have hread := commaItems_of_between hclose hitem hitems hnext le_rfl
  have hexpect := expect_of_between hend ht
  rw [commaList, bind_eq_of_ok (remaining_eq c), bind_eq_of_ok hread, bind_eq_of_ok hexpect]
  rfl

end Parser

end Precond.Grammar
