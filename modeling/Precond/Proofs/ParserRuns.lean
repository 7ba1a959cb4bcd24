import Mathlib.Tactic
import Precond.Proofs.AssertionGrammar
import Precond.Proofs.ComputedValues

/-!
# What parsers read

A parser reads tokens with their places, a grammar knows tokens only. Two relations tell what a
parser does with tokens. `Parser.Yields p input x rest` says that `p` may read `x` from `input` and
leave `rest`, `Parser.Takes p input good rest` that it is bound to read a value that is good and
leave `rest`. Statements that a parser reads nothing else start from the first one, statements that
it reads all there is end in the second one.

Each way of putting parsers together has a lemma for both. For repetition the state is a value that
the items are folded into: `Parser.Loops` for what is read, `Parser.Yields.repeatAtMost` for what
was.
-/

namespace Precond.Grammar

/-- The tokens still to come, without their places. -/
def Cursor.tokens (c : Cursor) : List Token := c.rest.map (·.node)

namespace Parser

variable {α β : Type} {input mid rest : List Token}

/-- The parser can read `x` from `input` and leave `rest`. -/
def Yields (p : Parser α) (input : List Token) (x : α) (rest : List Token) : Prop :=
  ∃ c c' : Cursor, c.tokens = input ∧ p c = .ok (x, c') ∧ c'.tokens = rest

/-- From `input`, wherever its tokens stand, the parser reads a good value and leaves `rest`. -/
def Takes (p : Parser α) (input : List Token) (good : α → Prop) (rest : List Token) : Prop :=
  ∀ c : Cursor, c.tokens = input → ∃ x c', p c = .ok (x, c') ∧ good x ∧ c'.tokens = rest

/-- A parser does not read anything but what it is bound to read. -/
theorem Takes.of_yields {p : Parser α} {good : α → Prop} {x : α} {rest' : List Token}
    (h : Takes p input good rest) (hy : Yields p input x rest') : good x ∧ rest' = rest := by
  obtain ⟨c, c', hc, hx, hc'⟩ := hy
  obtain ⟨y, d, hy, hgood, hd⟩ := h c hc
  cases hx.symm.trans hy
  exact ⟨hgood, hc'.symm.trans hd⟩

/-- What a parser is bound to leave depends on nothing but what there is to read. -/
theorem Takes.rest_unique {p : Parser α} {good good' : α → Prop} {rest' : List Token}
    (h : Takes p input good rest) (h' : Takes p input good' rest') : rest = rest' := by
  have hc : Cursor.tokens ⟨input.map (⟨·, .point 0⟩), 0⟩ = input := by
    simp [Cursor.tokens, Function.comp_def]
  obtain ⟨x, c, hx, -, hrest⟩ := h _ hc
  exact (h'.of_yields ⟨_, c, hc, hx, hrest⟩).2

/-! ## What was read -/

/-- What two parsers in a row read is read by one and then by the other. -/
theorem yields_bind {p : Parser α} {f : α → Parser β} {y : β} (h : Yields (p >>= f) input y rest) :
    ∃ x mid, Yields p input x mid ∧ Yields (f x) mid y rest := by
  obtain ⟨c, c', hc, h, hc'⟩ := h
  obtain ⟨⟨x, d⟩, hx, hy⟩ := Exec.bind_eq_ok.1 h
  exact ⟨x, d.tokens, ⟨c, d, hc, hx, rfl⟩, ⟨d, c', rfl, hy, hc'⟩⟩

theorem yields_pure {x y : α} (h : Yields (pure x) input y rest) : x = y ∧ input = rest := by
  obtain ⟨c, c', rfl, h, rfl⟩ := h
  cases h
  exact ⟨rfl, rfl⟩

theorem yields_map {p : Parser α} {f : α → β} {y : β} (h : Yields (f <$> p) input y rest) :
    ∃ x, y = f x ∧ Yields p input x rest := by
  rw [map_eq_pure_bind] at h
  obtain ⟨x, mid, hx, h⟩ := yields_bind h
  obtain ⟨rfl, rfl⟩ := yields_pure h
  exact ⟨x, rfl, hx⟩

theorem not_yields_unexpected {x : α} : ¬Yields unexpected input x rest := by
  rintro ⟨c, c', -, h, -⟩
  unfold unexpected at h
  split at h <;> cases h

theorem yields_liftM {r : Except Error α} {x : α} (h : Yields (liftM r) input x rest) :
    r = .ok x ∧ input = rest := by
  obtain ⟨c, c', rfl, h, rfl⟩ := h
  obtain ⟨y, hr, hy⟩ := Exec.bind_eq_ok.1 h
  cases hy
  exact ⟨hr, rfl⟩

theorem yields_peek {t : Option Token} (h : Yields peek input t rest) :
    t = input.head? ∧ input = rest := by
  obtain ⟨c, c', rfl, h, rfl⟩ := h
  cases h
  exact ⟨by simp [Cursor.tokens], rfl⟩

theorem yields_remaining {n : Nat} (h : Yields remaining input n rest) :
    n = input.length ∧ input = rest := by
  obtain ⟨c, c', rfl, h, rfl⟩ := h
  cases h
  exact ⟨by simp [Cursor.tokens], rfl⟩

theorem yields_reached {n : Nat} (h : Yields reached input n rest) : input = rest := by
  obtain ⟨c, c', rfl, h, rfl⟩ := h
  cases h
  rfl

theorem yields_spanFrom {start : Nat} {span : Span} (h : Yields (spanFrom start) input span rest) :
    input = rest := by
  obtain ⟨stop, _, hstop, hpure⟩ := yields_bind h
  obtain rfl := yields_reached hstop
  exact (yields_pure hpure).2

theorem yields_advance {u : Unit} (h : Yields advance input u rest) : ∃ t, input = t :: rest := by
  obtain ⟨c, c', rfl, h, rfl⟩ := h
  unfold advance at h
  split at h
  · exact absurd ⟨c, c', rfl, h, rfl⟩ not_yields_unexpected
  · next t rest hrest =>
    cases h
    exact ⟨t.node, by simp [Cursor.tokens, hrest]⟩

/-- The token that was looked at is the one that is read. -/
theorem yields_advance_of_head {u : Unit} {t : Token} (h : Yields advance input u rest)
    (ht : input.head? = some t) : input = t :: rest := by
  obtain ⟨t, rfl⟩ := yields_advance h
  cases ht
  rfl

/-- A token is accepted if it is the next one, and otherwise nothing is read. -/
theorem yields_accept {token : Token} {b : Bool} (h : Yields (accept token) input b rest) :
    b = true ∧ input = token :: rest ∨ b = false ∧ input = rest ∧ input.head? ≠ some token := by
  obtain ⟨t, _, ht, hread⟩ := yields_bind h
  obtain ⟨rfl, rfl⟩ := yields_peek ht
  split_ifs at hread with htoken
  · obtain ⟨_, _, hadvance, hpure⟩ := yields_bind hread
    obtain ⟨t, rfl⟩ := yields_advance hadvance
    obtain ⟨rfl, rfl⟩ := yields_pure hpure
    cases htoken
    exact .inl ⟨rfl, rfl⟩
  · obtain ⟨rfl, rfl⟩ := yields_pure hread
    exact .inr ⟨rfl, rfl, htoken⟩

/-- A token that is expected is the next one. -/
theorem yields_expect {token : Token} {u : Unit} (h : Yields (expect token) input u rest) :
    input = token :: rest := by
  obtain ⟨b, mid, hb, hread⟩ := yields_bind h
  rcases yields_accept hb with ⟨rfl, rfl⟩ | ⟨rfl, rfl, -⟩
  · rw [← (yields_pure hread).2]
  · exact absurd hread not_yields_unexpected

theorem yields_name {x : Spanned String} (h : Yields name input x rest) :
    input = .ident x.node :: rest := by
  obtain ⟨c, c', rfl, h, rfl⟩ := h
  unfold name at h
  split at h
  · next y span rest hrest =>
    cases h
    simp [Cursor.tokens, hrest]
  · exact absurd ⟨c, c', rfl, h, rfl⟩ not_yields_unexpected

/-- An operator with its operand is read, or nothing. -/
theorem yields_operation? {op? : Token → Option Op} {operand : Parser α}
    {r : Option (Op × α × Nat)} (h : Yields (operation? op? operand) input r rest) :
    (r = none ∧ input = rest ∧ input.head?.bind op? = none) ∨
      ∃ t op x stop mid, r = some (op, x, stop) ∧ op? t = some op ∧ input = t :: mid ∧
        Yields operand mid x rest := by
  obtain ⟨t, _, ht, hread⟩ := yields_bind h
  obtain ⟨rfl, rfl⟩ := yields_peek ht
  cases hop : input.head?.bind op? with
  | none =>
    rw [hop] at hread
    obtain ⟨rfl, rfl⟩ := yields_pure hread
    exact .inl ⟨rfl, rfl, rfl⟩
  | some op =>
    rw [hop] at hread
    obtain ⟨_, mid, hadvance, hrest⟩ := yields_bind hread
    obtain ⟨t, rfl⟩ := yields_advance hadvance
    obtain ⟨x, _, hx, hlast⟩ := yields_bind hrest
    obtain ⟨stop, _, hstop, hpure⟩ := yields_bind hlast
    obtain rfl := yields_reached hstop
    obtain ⟨rfl, rfl⟩ := yields_pure hpure
    exact .inr ⟨t, op, x, stop, mid, rfl, hop, rfl, hx⟩

/-- What holds of a value and the tokens left is kept by each item that is read and folded into the
value, so it holds in the end, where no further item is found. -/
theorem Yields.repeatAtMost {item? : Parser (Option α)} {f : β → α → β}
    {P : List Token → β → List Token → Prop} {Q : List Token → Prop}
    (hstep : ∀ {ts b input x mid}, P ts b input → Yields item? input (some x) mid →
      ∃ us, us ≠ [] ∧ input = us ++ mid ∧ P (ts ++ us) (f b x) mid)
    (hstop : ∀ {input mid}, Yields item? input none mid → input = mid ∧ Q input)
    (hnil : Q []) {n : Nat} {xs : List α} (h : Yields (repeatAtMost item? n) input xs rest)
    (hn : input.length ≤ n) {ts : List Token} {b : β} (hP : P ts b input) :
    ∃ us, input = us ++ rest ∧ P (ts ++ us) (xs.foldl f b) rest ∧ Q rest := by
  induction n generalizing input xs ts b with
  | zero =>
    obtain ⟨rfl, rfl⟩ := yields_pure h
    obtain rfl := List.length_eq_zero_iff.1 (Nat.le_zero.1 hn)
    exact ⟨[], rfl, by simpa using hP, hnil⟩
  | succ n ih =>
    obtain ⟨r, mid, hr, hread⟩ := yields_bind h
    cases r with
    | none =>
      obtain ⟨rfl, rfl⟩ := yields_pure hread
      obtain ⟨rfl, hinput⟩ := hstop hr
      exact ⟨[], rfl, by simpa using hP, hinput⟩
    | some x =>
      obtain ⟨us, hus, rfl, hP'⟩ := hstep hP hr
      obtain ⟨xs', _, hxs, hpure⟩ := yields_bind hread
      obtain ⟨rfl, rfl⟩ := yields_pure hpure
      have hlength := List.length_pos_iff.2 hus
      rw [List.length_append] at hn
      obtain ⟨vs, rfl, hP'', hend⟩ := ih hxs (by omega) hP'
      exact ⟨us ++ vs, (List.append_assoc ..).symm, by simpa using hP'', hend⟩

/-- What each item adds to the tokens read so far, the repetition does; where it stops, there is no
more item. -/
theorem Yields.repeatWhile {item? : Parser (Option α)} {f : β → α → β}
    {P : List Token → β → List Token → Prop} {Q : List Token → Prop}
    (hstep : ∀ {ts b input x mid}, P ts b input → Yields item? input (some x) mid →
      ∃ us, us ≠ [] ∧ input = us ++ mid ∧ P (ts ++ us) (f b x) mid)
    (hstop : ∀ {input mid}, Yields item? input none mid → input = mid ∧ Q input) (hnil : Q [])
    {xs : List α} (h : Yields (repeatWhile item?) input xs rest) {ts : List Token} {b : β}
    (hP : P ts b input) :
    ∃ us, input = us ++ rest ∧ P (ts ++ us) (xs.foldl f b) rest ∧ Q rest := by
  obtain ⟨n, _, hn, hrepeat⟩ := yields_bind h
  obtain ⟨rfl, rfl⟩ := yields_remaining hn
  exact hrepeat.repeatAtMost hstep hstop hnil le_rfl hP

/-- Items with commas between them and the closing token. The values of the items may be looked at
in another way than the parser gives them, which `fits` relates. -/
theorem Yields.commaList {item : Parser α} {fits : α → β → Prop} {T : List Token → β → Prop}
    (hitem : ∀ {input x rest y}, Yields item input x rest → fits x y →
      ∃ ts, input = ts ++ rest ∧ T ts y)
    {close : Token} {xs : List α} (h : Yields (commaList item close) input xs rest) {ys : List β}
    (hys : List.Forall₂ fits xs ys) :
    ∃ items last, input = Phrase.commas items last ++ close :: rest ∧
      ys = Phrase.values items last ∧ (∀ p ∈ items, T p.tokens p.value) ∧
      ∀ p ∈ last, T p.tokens p.value := by
  have hitems : ∀ n {input mid xs ys}, Yields (commaItems item close n) input xs mid →
      List.Forall₂ fits xs ys → ∃ items last, input = Phrase.commas items last ++ mid ∧
        ys = Phrase.values items last ∧ (∀ p ∈ items, T p.tokens p.value) ∧
        ∀ p ∈ last, T p.tokens p.value := by
    intro n
    induction n with
    | zero => exact fun h => absurd h not_yields_unexpected
    | succ n ih =>
      intro input mid xs ys h hys
      obtain ⟨t, _, ht, hread⟩ := yields_bind h
      obtain ⟨rfl, rfl⟩ := yields_peek ht
      split_ifs at hread
      · obtain ⟨rfl, rfl⟩ := yields_pure hread
        cases hys
        exact ⟨[], none, rfl, rfl, by simp, by simp⟩
      obtain ⟨x, _, hx, hmore⟩ := yields_bind hread
      obtain ⟨b, _, hb, hend⟩ := yields_bind hmore
      rcases yields_accept hb with ⟨rfl, rfl⟩ | ⟨rfl, rfl, -⟩
      · obtain ⟨xs', _, hxs, hpure⟩ := yields_bind hend
        obtain ⟨rfl, rfl⟩ := yields_pure hpure
        obtain _ | ⟨hy, hys⟩ := hys
        obtain ⟨ts, rfl, hT⟩ := hitem hx hy
        obtain ⟨items, last, rfl, rfl, hitems, hlast⟩ := ih hxs hys
        exact ⟨⟨ts, _⟩ :: items, last, by simp [Phrase.commas], rfl,
          List.forall_mem_cons.2 ⟨hT, hitems⟩, hlast⟩
      · obtain ⟨rfl, rfl⟩ := yields_pure hend
        obtain _ | ⟨hy, ⟨⟩⟩ := hys
        obtain ⟨ts, rfl, hT⟩ := hitem hx hy
        exact ⟨[], some ⟨ts, _⟩, by simp [Phrase.commas, Phrase.optional], rfl, by simp,
          by simpa using hT⟩
  obtain ⟨n, _, hn, hread⟩ := yields_bind h
  obtain ⟨rfl, rfl⟩ := yields_remaining hn
  obtain ⟨xs', _, hxs, hclose⟩ := yields_bind hread
  obtain ⟨_, _, hexpect, hpure⟩ := yields_bind hclose
  obtain rfl := yields_expect hexpect
  obtain ⟨rfl, rfl⟩ := yields_pure hpure
  exact hitems _ hxs hys

/-! ## What has to be read -/

section Takes

variable {good : α → Prop} {good' : β → Prop}

/-- Two parsers in a row read their inputs one after the other. -/
theorem Takes.bind {p : Parser α} {f : α → Parser β} (hp : Takes p input good mid)
    (hf : ∀ x, good x → Takes (f x) mid good' rest) : Takes (p >>= f) input good' rest := by
  intro c hc
  obtain ⟨x, d, hx, hgood, hd⟩ := hp c hc
  obtain ⟨y, c', hy, hgood', hc'⟩ := hf x hgood d hd
  exact ⟨y, c', Exec.bind_eq_ok.2 ⟨(x, d), hx, hy⟩, hgood', hc'⟩

/-- A parser that reads a good value reads one that is good in a weaker sense. -/
theorem Takes.mono {p : Parser α} {good₂ : α → Prop} (hp : Takes p input good rest)
    (h : ∀ x, good x → good₂ x) : Takes p input good₂ rest := by
  intro c hc
  obtain ⟨x, c', hx, hgood, hc'⟩ := hp c hc
  exact ⟨x, c', hx, h x hgood, hc'⟩

theorem takes_pure {x : α} (h : good x) : Takes (pure x) input good input :=
  fun c hc => ⟨x, c, rfl, h, hc⟩

theorem Takes.map {p : Parser α} {f : α → β} (hp : Takes p input good rest)
    (hf : ∀ x, good x → good' (f x)) : Takes (f <$> p) input good' rest := by
  rw [map_eq_pure_bind]
  exact hp.bind fun x hx => takes_pure (hf x hx)

theorem takes_liftM {r : Except Error α} {x : α} (h : r = .ok x) :
    Takes (liftM r) input (· = x) input := by
  subst h
  exact fun c hc => ⟨x, c, rfl, rfl, hc⟩

theorem takes_peek : Takes peek input (· = input.head?) input :=
  fun c hc => ⟨_, c, rfl, by simp [← hc, Cursor.tokens], hc⟩

theorem takes_remaining : Takes remaining input (· = input.length) input :=
  fun c hc => ⟨_, c, rfl, by simp [← hc, Cursor.tokens], hc⟩

theorem takes_reached : Takes reached input (fun _ => True) input :=
  fun c hc => ⟨_, c, rfl, trivial, hc⟩

theorem takes_spanFrom (start : Nat) : Takes (spanFrom start) input (fun _ => True) input :=
  takes_reached.bind fun _ _ => takes_pure trivial

theorem takes_advance {t : Token} : Takes advance (t :: input) (fun _ => True) input := by
  intro c hc
  obtain ⟨u, us, hrest, -, hus⟩ := List.map_eq_cons_iff.1 hc
  exact ⟨(), ⟨us, u.span.stop⟩, by rw [advance, hrest], trivial, hus⟩

/-- The next token is accepted if it is the one. -/
theorem takes_accept {token : Token} : Takes (accept token) (token :: input) (· = true) input := by
  refine takes_peek.bind ?_
  rintro _ rfl
  rw [if_pos List.head?_cons]
  exact takes_advance.bind fun _ _ => takes_pure rfl

/-- Any other token is left alone. -/
theorem takes_accept_of_ne {token : Token} (h : input.head? ≠ some token) :
    Takes (accept token) input (· = false) input := by
  refine takes_peek.bind ?_
  rintro _ rfl
  rw [if_neg h]
  exact takes_pure rfl

theorem takes_expect {token : Token} :
    Takes (expect token) (token :: input) (fun _ => True) input := by
  refine takes_accept.bind ?_
  rintro _ rfl
  exact takes_pure trivial

theorem takes_name {x : String} : Takes name (.ident x :: input) (·.node = x) input := by
  intro c hc
  obtain ⟨⟨t, span⟩, us, hrest, rfl, hus⟩ := List.map_eq_cons_iff.1 hc
  exact ⟨⟨x, span⟩, ⟨us, span.stop⟩, by rw [name, hrest], rfl, hus⟩

/-- An operator is read with its operand. -/
theorem takes_operation? {op? : Token → Option Op} {operand : Parser α} {t : Token} {op : Op}
    (ht : op? t = some op) (h : Takes operand input good rest) :
    Takes (operation? op? operand) (t :: input)
      (fun r => ∃ x stop, r = some (op, x, stop) ∧ good x) rest := by
  refine takes_peek.bind ?_
  rintro _ rfl
  simp only [List.head?_cons, Option.bind_some, ht]
  exact takes_advance.bind fun _ _ => h.bind fun x hx => takes_reached.bind fun stop _ =>
    takes_pure ⟨x, stop, rfl, hx⟩

theorem takes_operation?_none {op? : Token → Option Op} {operand : Parser α}
    (h : input.head?.bind op? = none) :
    Takes (operation? op? operand) input (· = none) input := by
  refine takes_peek.bind ?_
  rintro _ rfl
  simp only [h]
  exact takes_pure rfl

end Takes

/-! ### Repetition -/

section Loops

variable {item? : Parser (Option α)} {f : β → α → β} {b b' : β}

/-- Reading items as long as there are some and folding them into `b` comes to `b'`. -/
def Loops (item? : Parser (Option α)) (f : β → α → β) (b : β) (input : List Token) (b' : β)
    (rest : List Token) : Prop :=
  ∀ n, input.length ≤ n →
    Takes (repeatAtMost item? n) input (fun xs => xs.foldl f b = b') rest

/-- Reading items stops where there is none. -/
theorem loops_stop (h : Takes item? input (· = none) input) :
    Loops item? f b input b input := by
  intro n _
  cases n with
  | zero => exact takes_pure rfl
  | succ n =>
    refine h.bind ?_
    rintro _ rfl
    exact takes_pure rfl

/-- Reading items goes on if one is read that shortens the input. -/
theorem Loops.step {next : β} (h : Loops item? f next mid b' rest)
    (hitem : Takes item? input (fun r => ∃ x, r = some x ∧ f b x = next) mid)
    (hmid : mid.length < input.length) : Loops item? f b input b' rest := by
  intro n hn
  cases n with
  | zero => omega
  | succ n =>
    refine hitem.bind ?_
    rintro _ ⟨x, rfl, hx⟩
    refine (h n (by omega)).bind fun xs hxs => takes_pure ?_
    rw [List.foldl_cons, hx, hxs]

/-- Reading items as long as there are some comes to what the loop gives. -/
theorem Loops.takes (h : Loops item? f b input b' rest) :
    Takes (repeatWhile item?) input (fun xs => xs.foldl f b = b') rest := by
  refine takes_remaining.bind ?_
  rintro _ rfl
  exact h _ le_rfl

end Loops

/-- A chain of operators goes on with an operator and its operand. -/
theorem Loops.step_operation {op? : Token → Option Op} {operand : Parser Expr} {l r e : Expr}
    {t : Token} {op : Op} {us : List Token}
    (h : Loops (operation? op? operand) (fun l (op, r, _) => .binary op l r) (.binary op l r) mid e
      rest)
    (ht : op? t = some op) (hr : Takes operand (us ++ mid) (· = r) mid) :
    Loops (operation? op? operand) (fun l (op, r, _) => .binary op l r) l (t :: (us ++ mid)) e
      rest := by
  refine h.step ((takes_operation? ht hr).mono ?_) (by simp)
  rintro _ ⟨_, stop, rfl, rfl⟩
  exact ⟨_, rfl, rfl⟩

/-- Items with commas between them are read, if each is read before a comma and before the closing
token and does not begin with the closing token. -/
theorem takes_commaList {item : Parser α} {close : Token} {fits : α → β → Prop}
    {items : List (Phrase β)} {last : Option (Phrase β)} (hclose : close ≠ .comma)
    (hitem : ∀ p, p ∈ items ∨ p ∈ last → ∀ t rest, t = .comma ∨ t = close →
      Takes item (p.tokens ++ t :: rest) (fits · p.value) (t :: rest))
    (hhead : ∀ p, p ∈ items ∨ p ∈ last → ∃ t ts, p.tokens = t :: ts ∧ t ≠ close) :
    Takes (commaList item close) (Phrase.commas items last ++ close :: rest)
      (List.Forall₂ fits · (Phrase.values items last)) rest := by
  have hitems : ∀ n, (Phrase.commas items last ++ close :: rest).length ≤ n →
      Takes (commaItems item close n) (Phrase.commas items last ++ close :: rest)
        (List.Forall₂ fits · (Phrase.values items last)) (close :: rest) := by
    induction items with
    | nil =>
      intro n hn
      obtain ⟨n, rfl⟩ := Nat.exists_eq_add_one.2 (by simp at hn; omega : 0 < n)
      refine takes_peek.bind ?_
      rintro _ rfl
      cases last with
      | none =>
        rw [if_pos (by simp [Phrase.commas, Phrase.optional])]
        exact takes_pure .nil
      | some p =>
        obtain ⟨t, ts, hts, ht⟩ := hhead p (.inr rfl)
        simp only [Phrase.commas, Phrase.optional, Option.elim_some, List.flatMap_nil,
          List.nil_append]
        rw [if_neg (by simpa [hts] using ht)]
        refine (hitem p (.inr rfl) close rest (.inr rfl)).bind fun x hx => ?_
        refine (takes_accept_of_ne (by simpa using hclose)).bind ?_
        rintro _ rfl
        exact takes_pure (.cons hx .nil)
    | cons p items ih =>
      intro n hn
      obtain ⟨n, rfl⟩ := Nat.exists_eq_add_one.2 (by simp at hn; omega : 0 < n)
      obtain ⟨t, ts, hts, ht⟩ := hhead p (.inl List.mem_cons_self)
      have hcommas : Phrase.commas (p :: items) last ++ close :: rest =
          p.tokens ++ .comma :: (Phrase.commas items last ++ close :: rest) := by
        simp [Phrase.commas]
      rw [hcommas] at hn ⊢
      refine takes_peek.bind ?_
      rintro _ rfl
      rw [if_neg (by simpa [hts] using ht)]
      refine (hitem p (.inl List.mem_cons_self) .comma _ (.inl rfl)).bind fun x hx => ?_
      refine takes_accept.bind ?_
      rintro _ rfl
      refine (ih (fun q hq => hitem q (hq.imp_left (List.mem_cons_of_mem p)))
        (fun q hq => hhead q (hq.imp_left (List.mem_cons_of_mem p))) n ?_).bind fun xs hxs =>
          takes_pure (.cons hx hxs)
      rw [List.length_append, List.length_cons] at hn
      omega
  refine takes_remaining.bind ?_
  rintro _ rfl
  exact (hitems _ le_rfl).bind fun xs hxs => takes_expect.bind fun _ _ => takes_pure hxs

/-! ## Whole texts -/

/-- A whole text is read if nothing is left of it. -/
theorem yields_of_run {p : Parser α} {tokens : List (Spanned Token)} {x : α}
    (h : p.run tokens = .ok x) : Yields p (tokens.map (·.node)) x [] := by
  obtain ⟨⟨y, c⟩, hread, h⟩ := Exec.bind_eq_ok.1 h
  dsimp only at h
  split_ifs at h with hrest
  · cases h
    exact ⟨_, c, rfl, hread, by rw [Cursor.tokens, List.isEmpty_iff.1 hrest, List.map_nil]⟩
  · obtain ⟨⟨z, c'⟩, hz, -⟩ := Exec.bind_eq_ok.1 h
    exact absurd ⟨c, c', rfl, hz, rfl⟩ not_yields_unexpected

/-- A parser that takes all tokens of a text reads the text. -/
theorem Takes.run {p : Parser α} {tokens : List (Spanned Token)} {x : α}
    (h : Takes p (tokens.map (·.node)) (· = x) []) : p.run tokens = .ok x := by
  obtain ⟨_, c, hread, rfl, hc⟩ := h { rest := tokens } rfl
  refine Exec.bind_eq_ok.2 ⟨_, hread, ?_⟩
  dsimp only
  rw [List.map_eq_nil_iff.1 hc]
  rfl

end Parser

end Precond.Grammar
