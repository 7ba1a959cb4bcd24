import Mathlib.Tactic
import Precond.Grammar.Cursor
import Precond.Grammar.Layout
import Precond.Proofs.BinderNames
import Precond.Proofs.ComputedValues

/-!
# Names in texts

No name in a text holds a dollar sign, so none is a name that a supply hands out. The tokens of
a text have this property (`Grammar.plainTokens_tokenize`, `Grammar.plainTokens_tokenizeLayout`), and
`Parser.Reads p P` carries it through a parser: from such tokens `p` reads a value with `P` and
leaves such tokens. It is kept by sequencing and by the ways of repeating a parser.
-/

namespace Precond.Grammar

/-! ## Tokens -/

/-- The name that a token stands for, if it is one, is plain. -/
def Token.Plain (token : Token) : Prop := ∀ x, token = .ident x → Name.Plain x

/-- All tokens of a list are plain. -/
def PlainTokens (tokens : List (Spanned Token)) : Prop := ∀ t ∈ tokens, t.node.Plain

/-- A word that is no keyword is the name that it stands for. -/
theorem ofWord_eq_ident {word x : String} (h : Token.ofWord word = .ident x) : word = x := by
  unfold Token.ofWord at h
  split at h <;> simp_all

theorem isWordPart_of_isWordStart {c : Char} (h : isWordStart c = true) : isWordPart c = true := by
  simp only [isWordStart, isWordPart, Bool.or_eq_true, Char.isAlphanum] at h ⊢
  tauto

/-- There is no dollar sign in a word. -/
theorem plain_word {c : Char} {rest : List Char} (hc : isWordStart c = true) :
    Name.Plain (String.ofList (c :: rest.takeWhile isWordPart)) := by
  have hall : ∀ d ∈ c :: rest.takeWhile isWordPart, isWordPart d = true := by
    simp only [List.forall_mem_cons]
    exact ⟨isWordPart_of_isWordStart hc, List.all_eq_true.1 List.all_takeWhile⟩
  rw [Name.Plain, String.toList_ofList]
  intro h
  exact absurd (hall _ h) (by decide)

/-- Signs are no names. -/
theorem sign_ne_ident {c : Char} {rest : List Char} {x : String} :
    (sign c rest).1 ≠ .token (.ident x) := by
  unfold sign
  split <;> simp

/-- A token that is read has a plain name, if it is one. -/
theorem plain_of_lexeme {c : Char} {rest : List Char} {token : Token} {n : Nat}
    (h : lexeme c rest = (.token token, n)) : token.Plain := by
  rintro x rfl
  unfold lexeme at h
  split_ifs at h with hgap hcomment hword hdigit hquote
  · simp at h
  · simp at h
  · simp only [Prod.mk.injEq, Lexeme.token.injEq] at h
    obtain rfl := ofWord_eq_ident h.1
    exact plain_word hword
  · have hfound := congrArg Prod.fst h
    dsimp only at hfound
    split_ifs at hfound
    simp at hfound
  · have hfound := congrArg Prod.fst h
    dsimp only at hfound
    split_ifs at hfound
    simp at hfound
  · exact absurd (congrArg Prod.fst h) sign_ne_ident

/-- By induction on the text: the scanner gives plain tokens. -/
theorem plainTokens_scan {skip pos : Nat} {text : List Char} {tokens : List (Spanned Token)}
    (h : scan skip pos text = .ok tokens) : PlainTokens tokens := by
  induction text generalizing skip pos tokens with
  | nil =>
    obtain rfl : tokens = [] := by simpa [scan] using h.symm
    simp [PlainTokens]
  | cons c cs ih =>
    cases skip with
    | succ skip => exact ih h
    | zero =>
      rcases hlexeme : lexeme c cs with ⟨found, n⟩
      simp only [scan, hlexeme] at h
      cases found with
      | gap => exact ih h
      | bad => cases h
      | token token =>
        obtain ⟨rest, hrest, h⟩ := Exec.bind_eq_ok.1 h
        obtain rfl := Except.ok.inj h
        exact List.forall_mem_cons.2 ⟨plain_of_lexeme hlexeme, ih hrest⟩

/-- A text is cut into plain tokens. -/
theorem plainTokens_tokenize {text : List Char} {tokens : List (Spanned Token)}
    (h : tokenize text = .ok tokens) : PlainTokens tokens := plainTokens_scan h

/-! ## Layout -/

theorem plainTokens_append {ts us : List (Spanned Token)} :
    PlainTokens (ts ++ us) ↔ PlainTokens ts ∧ PlainTokens us := List.forall_mem_append

/-- Layout has no names. -/
theorem plainTokens_of_isLayout {ts : List (Spanned Token)}
    (h : ∀ t ∈ ts, t.node.isLayout = true) : PlainTokens ts := by
  intro t ht x hx
  have := h t ht
  simp [hx, Token.isLayout] at this

/-- The tokens in front of a line are plain. -/
theorem plainTokens_openLine {line : Line} {levels levels' : List Nat}
    {ts : List (Spanned Token)} (h : openLine line levels = .ok (ts, levels')) :
    PlainTokens ts := by
  apply plainTokens_of_isLayout
  simp only [openLine] at h
  split_ifs at h
  · cases h
    simp [Token.isLayout]
  · cases h
    simp +contextual [Token.isLayout, List.mem_replicate]

/-- The tokens of a line are plain. -/
theorem plainTokens_layoutLine {state state' : LayoutState} {line : Line}
    {ts : List (Spanned Token)} (h : layoutLine state line = .ok (ts, state')) :
    PlainTokens ts := by
  obtain ⟨tokens, htokens, h⟩ := Exec.bind_eq_ok.1 h
  have hafter : ∀ depth, PlainTokens (if depth = 0 then
      [⟨.newline, .point (line.start + byteLength line.content)⟩] else []) := by
    intro depth
    apply plainTokens_of_isLayout
    split_ifs <;> simp [Token.isLayout]
  split_ifs at h
  · cases h
    simp [PlainTokens]
  · obtain ⟨⟨before, levels⟩, hbefore, h⟩ := Exec.bind_eq_ok.1 h
    cases h
    exact plainTokens_append.2 ⟨plainTokens_append.2
      ⟨plainTokens_openLine hbefore, plainTokens_scan htokens⟩, hafter _⟩
  · cases h
    exact plainTokens_append.2 ⟨plainTokens_scan htokens, hafter _⟩

/-- The tokens of all lines are plain, as are those that close the blocks at the end. -/
theorem plainTokens_layoutLines {stop : Nat} {state : LayoutState} {lines : List Line}
    {ts : List (Spanned Token)} (h : layoutLines stop state lines = .ok ts) : PlainTokens ts := by
  induction lines generalizing state ts with
  | nil =>
    simp only [layoutLines] at h
    split_ifs at h
    cases h
    apply plainTokens_of_isLayout
    simp +contextual [Token.isLayout, List.mem_replicate]
  | cons line lines ih =>
    obtain ⟨⟨tokens, state'⟩, hline, h⟩ := Exec.bind_eq_ok.1 h
    obtain ⟨more, hmore, h⟩ := Exec.bind_eq_ok.1 h
    obtain rfl := Except.ok.inj h
    exact plainTokens_append.2 ⟨plainTokens_layoutLine hline, ih hmore⟩

/-- A text with layout is cut into plain tokens. -/
theorem plainTokens_tokenizeLayout {text : List Char} {tokens : List (Spanned Token)}
    (h : tokenizeLayout text = .ok tokens) : PlainTokens tokens := plainTokens_layoutLines h

/-! ## Parsers -/

namespace Parser

variable {α β : Type}

/-- From plain tokens, the parser reads a value with `P` and leaves plain tokens. -/
def Reads (p : Parser α) (P : α → Prop) : Prop :=
  ∀ c x c', PlainTokens c.rest → p c = .ok (x, c') → P x ∧ PlainTokens c'.rest

/-- What is known of the value that is read may be weakened. -/
theorem Reads.mono {p : Parser α} {P Q : α → Prop} (h : Reads p P) (hPQ : ∀ x, P x → Q x) :
    Reads p Q := fun c x c' hc hp => (h c x c' hc hp).imp_left (hPQ x)

/-- Two parsers in a row: the second one begins with plain tokens, as the first one leaves them. -/
theorem Reads.bind {p : Parser α} {f : α → Parser β} {P : α → Prop} {Q : β → Prop}
    (hp : Reads p P) (hf : ∀ x, P x → Reads (f x) Q) : Reads (p >>= f) Q := by
  intro c y c' hc h
  obtain ⟨⟨x, mid⟩, hx, h⟩ := Exec.bind_eq_ok.1 h
  obtain ⟨hPx, hmid⟩ := hp c x mid hc hx
  exact hf x hPx mid y c' hmid h

theorem reads_pure {x : α} {P : α → Prop} (h : P x) : Reads (pure x) P := by
  intro c y c' hc hp
  cases hp
  exact ⟨h, hc⟩

theorem Reads.map {p : Parser α} {f : α → β} {P : α → Prop} {Q : β → Prop} (hp : Reads p P)
    (hf : ∀ x, P x → Q (f x)) : Reads (f <$> p) Q := by
  rw [map_eq_pure_bind]
  exact hp.bind fun x hx => reads_pure (hf x hx)

theorem reads_unexpected {P : α → Prop} : Reads unexpected P := by
  intro c x c' hc h
  unfold unexpected at h
  split at h <;> cases h

/-- A result from elsewhere is as good as it is there. -/
theorem reads_liftM {r : Except Error α} {P : α → Prop} (h : ∀ x, r = .ok x → P x) :
    Reads (liftM r) P := by
  intro c x c' hc hx
  obtain ⟨y, hr, hy⟩ := Exec.bind_eq_ok.1 hx
  cases hy
  exact ⟨h x hr, hc⟩

/-- If the next token is a name, it is plain. -/
theorem reads_peek : Reads peek fun t => ∀ x, t = some (.ident x) → Name.Plain x := by
  intro c t c' hc h
  cases h
  refine ⟨fun x hx => ?_, hc⟩
  obtain ⟨t, ht, hnode⟩ := Option.map_eq_some_iff.1 hx
  exact hc t (List.mem_of_head? ht) x hnode

theorem reads_remaining : Reads remaining fun _ => True := by
  intro c x c' hc h
  cases h
  exact ⟨trivial, hc⟩

theorem reads_here : Reads here fun _ => True := by
  intro c x c' hc h
  cases h
  exact ⟨trivial, hc⟩

theorem reads_reached : Reads reached fun _ => True := by
  intro c x c' hc h
  cases h
  exact ⟨trivial, hc⟩

theorem reads_spanFrom (start : Nat) : Reads (spanFrom start) fun _ => True :=
  reads_reached.bind fun _ _ => reads_pure trivial

/-- Behind a plain token there are plain tokens. -/
theorem reads_advance : Reads advance fun _ => True := by
  intro c x c' hc h
  unfold advance at h
  split at h
  · exact reads_unexpected (P := fun _ => _) c x c' hc h
  · next t rest hrest =>
    cases h
    exact ⟨trivial, fun u hu => hc u (hrest ▸ List.mem_cons_of_mem t hu)⟩

theorem reads_accept (token : Token) : Reads (accept token) fun _ => True := by
  refine reads_peek.bind fun _ _ => ?_
  split
  · exact reads_advance.bind fun _ _ => reads_pure trivial
  · exact reads_pure trivial

theorem reads_expect (token : Token) : Reads (expect token) fun _ => True := by
  refine (reads_accept token).bind fun _ _ => ?_
  split
  · exact reads_pure trivial
  · exact reads_unexpected

/-- A name that is read is plain. -/
theorem reads_name : Reads name fun x => Name.Plain x.node := by
  intro c x c' hc h
  unfold name at h
  split at h
  · next y span rest hrest =>
    cases h
    have hmem : ⟨.ident y, span⟩ ∈ c.rest := hrest ▸ List.mem_cons_self
    exact ⟨hc _ hmem y rfl, fun u hu => hc u (hrest ▸ List.mem_cons_of_mem _ hu)⟩
  · exact reads_unexpected (P := fun _ => _) c x c' hc h

section Repetition

variable {P : α → Prop}

/-- What holds of each item that is read holds of all items of a repetition. -/
theorem reads_repeatAtMost {item? : Parser (Option α)}
    (h : Reads item? fun r => ∀ x, r = some x → P x) (n : Nat) :
    Reads (repeatAtMost item? n) fun xs => ∀ x ∈ xs, P x := by
  induction n with
  | zero => exact reads_pure (by simp)
  | succ n ih =>
    refine h.bind fun r hr => ?_
    cases r with
    | none => exact reads_pure (by simp)
    | some x =>
      exact ih.bind fun xs hxs => reads_pure (List.forall_mem_cons.2 ⟨hr x rfl, hxs⟩)

theorem reads_repeatWhile {item? : Parser (Option α)}
    (h : Reads item? fun r => ∀ x, r = some x → P x) :
    Reads (repeatWhile item?) fun xs => ∀ x ∈ xs, P x :=
  reads_remaining.bind fun n _ => reads_repeatAtMost h n

/-- What holds of each item that is read holds of all items between commas. -/
theorem reads_commaItems {item : Parser α} (h : Reads item P) (close : Token) (n : Nat) :
    Reads (commaItems item close n) fun xs => ∀ x ∈ xs, P x := by
  induction n with
  | zero => exact reads_unexpected
  | succ n ih =>
    refine reads_peek.bind fun _ _ => ?_
    split
    · exact reads_pure (by simp)
    refine h.bind fun x hx => (reads_accept _).bind fun _ _ => ?_
    split
    · exact ih.bind fun xs hxs => reads_pure (List.forall_mem_cons.2 ⟨hx, hxs⟩)
    · exact reads_pure (by simpa using hx)

theorem reads_commaList {item : Parser α} (h : Reads item P) (close : Token) :
    Reads (commaList item close) fun xs => ∀ x ∈ xs, P x :=
  reads_remaining.bind fun n _ => (reads_commaItems h close n).bind fun _ hxs =>
    (reads_expect close).bind fun _ _ => reads_pure hxs

/-- An operator is read with an operand, each as it should be. -/
theorem reads_operation? {op? : Token → Option Op} {Q : Op → Prop}
    (hop : ∀ token op, op? token = some op → Q op) {operand : Parser α} (h : Reads operand P) :
    Reads (operation? op? operand) fun r => ∀ x, r = some x → Q x.1 ∧ P x.2.1 := by
  refine reads_peek.bind fun t _ => ?_
  cases ht : t.bind op? with
  | none => exact reads_pure (by simp)
  | some op =>
    obtain ⟨token, -, htoken⟩ := Option.bind_eq_some_iff.1 ht
    refine reads_advance.bind fun _ _ => h.bind fun x hx => reads_reached.bind fun stop _ => ?_
    refine reads_pure ?_
    rintro _ heq
    cases heq
    exact ⟨hop token op htoken, hx⟩

end Repetition

/-- A value read from plain tokens has what the parser ensures. -/
theorem Reads.of_run {p : Parser α} {P : α → Prop} (h : Reads p P)
    {tokens : List (Spanned Token)} {x : α} (htokens : PlainTokens tokens)
    (hx : p.run tokens = .ok x) : P x := by
  obtain ⟨⟨y, c⟩, hy, hx⟩ := Exec.bind_eq_ok.1 hx
  have hread := (h _ _ _ htokens hy).1
  dsimp only at hx
  split_ifs at hx
  · cases hx
    exact hread
  · obtain ⟨⟨z, c'⟩, hz, hx⟩ := Exec.bind_eq_ok.1 hx
    unfold unexpected at hz
    split at hz <;> cases hz

end Parser

end Precond.Grammar
