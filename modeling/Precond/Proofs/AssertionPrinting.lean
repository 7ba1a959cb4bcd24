import Mathlib.Tactic
import Precond.Proofs.AssertionCompleteness
import Precond.Proofs.Scanning
import Precond.Proofs.TokenNames

/-!
# Assertions read back

An expression is written with all its parentheses, and reading the text gives the expression again.
`Expr.Legible` says which expressions can be written: those without quantifiers whose names and
numbers can be written and whose slices stand in subscripts.

The tokens of such an expression are `Expr.tokens`. They are found in its text (`Spells`): what
follows a piece of the text is never a character with which its last token would go on. They can be
derived from the symbol of subscripted expressions (`Expr.Legible.derives`), since everything that
has an operator is in parentheses. The parser reads what can be derived, so it gives the expression
back.
-/

namespace Precond

open Grammar

/-! ## Legible expressions -/

/-- Whether a text is a name: it is a word, and no keyword. -/
def Name.isIdentifier (x : String) : Bool :=
  x.toList.head?.any isWordStart && x.toList.all isWordPart && Token.ofWord x == .ident x

/-- The first character of an identifier starts a word, the others continue it, and the word is no
keyword. -/
theorem Name.exists_of_isIdentifier {x : String} (hx : Name.isIdentifier x = true) :
    ∃ c cs, x.toList = c :: cs ∧ isWordStart c = true ∧ cs.all isWordPart = true ∧
      Token.ofWord x = .ident x := by
  simp only [Name.isIdentifier, Bool.and_eq_true, beq_iff_eq] at hx
  obtain ⟨⟨hstart, hparts⟩, hident⟩ := hx
  cases hchars : x.toList with
  | nil => simp [hchars] at hstart
  | cons c cs =>
    rw [hchars, List.all_cons, Bool.and_eq_true] at hparts
    exact ⟨c, cs, rfl, by simpa [hchars] using hstart, hparts.2, hident⟩

namespace Expr

/-- The expression has no quantifiers and can be written; `index` tells whether it may be a
slice. -/
inductive Legible : (index : Bool) → Expr → Prop
  | var {index x} (hx : Name.isIdentifier x = true) : Legible index (.var x)
  | int {index} {n : Nat} (hn : n ≤ maxNumber) : Legible index (.lit (.int n))
  | bool {index b} : Legible index (.lit (.bool b))
  | binary {index op l r} (hop : op.isUnary = false) (hl : Legible false l)
      (hr : Legible false r) : Legible index (.binary op l r)
  | unary {index op e} (hop : op.isUnary = true) (he : Legible false e) :
      Legible index (.unary op e)
  | subscript {index b i} (hb : Legible false b) (hi : Legible true i) :
      Legible index (.subscript b i)
  | slice {l u s} (hl : Legible false l) (hu : Legible false u) (hs : Legible false s) :
      Legible true (.slice l u s)
  | sliceFrom {l s} (hl : Legible false l) (hs : Legible false s) :
      Legible true (.sliceFrom l s)
  | call {index f args} (hf : Name.isIdentifier f = true) (hargs : ∀ a ∈ args, Legible false a) :
      Legible index (.call f args)

end Expr

/-- The token that an operator is written as. -/
def Op.token : Op → Token
  | .add => .plus
  | .sub | .neg => .minus
  | .mul => .star
  | .div => .slashSlash
  | .mod => .percent
  | .eq => .eqEq
  | .ne => .notEq
  | .lt => .lt
  | .le => .ltEq
  | .gt => .gt
  | .ge => .gtEq
  | .and => .kwAnd
  | .or => .kwOr
  | .not => .kwNot
  | .implies => .implies
  | .iff => .iff

namespace Expr

mutual

/-- The tokens that an expression without quantifiers is written with. -/
def tokens : Expr → List Token
  | .var x => [.ident x]
  | .lit (.int n) => [.int n.toNat]
  | .lit (.bool true) => [.kwTrue]
  | .lit (.bool false) => [.kwFalse]
  | .binary op l r => .lParen :: (tokens l ++ op.token :: tokens r ++ [.rParen])
  | .unary op e => .lParen :: (op.token :: tokens e ++ [.rParen])
  | .subscript b i => tokens b ++ .lBracket :: (tokens i ++ [.rBracket])
  | .slice l u s => tokens l ++ .colon :: (tokens u ++ .colon :: tokens s)
  | .sliceFrom l s => tokens l ++ .colonColon :: tokens s
  | .call f args => .ident f :: .lParen :: ([Token.comma].intercalate (tokensAll args) ++ [.rParen])
  | .forAll .. => []

/-- The tokens of the expressions of a list. -/
def tokensAll : List Expr → List (List Token)
  | [] => []
  | e :: es => tokens e :: tokensAll es

end

/-- The tokens of a list of expressions, one by one. -/
theorem tokensAll_eq_map (es : List Expr) : tokensAll es = es.map tokens := by
  induction es with
  | nil => rfl
  | cons e es ih => rw [tokensAll, ih, List.map_cons]

/-- The texts of a list of expressions, one by one. -/
theorem renderAll_eq_map (es : List Expr) : renderAll es = es.map render := by
  induction es with
  | nil => rfl
  | cons e es ih => rw [renderAll, ih, List.map_cons]

/-! ## Texts of expressions -/

section Text

variable (op : Op) (e l u s b i : Expr) (f : String) (args : List Expr)

attribute [local simp] render

/-- A number that is not negative is written with its digits. -/
theorem toList_render_int (n : Nat) : (render (.lit (.int n))).toList = Nat.toDigits 10 n := by
  simp [Int.repr]

/-- A binary operation is written in parentheses, with blanks around the operator. -/
theorem toList_render_binary : (render (.binary op l u)).toList =
    '(' :: (l.render.toList ++ ' ' :: (op.symbol.toList ++ ' ' :: (u.render.toList ++ [')']))) := by
  simp [toString]

theorem toList_render_not : (render (.unary .not e)).toList =
    '(' :: (['n', 'o', 't'] ++ ' ' :: (e.render.toList ++ [')'])) := by
  simp [toString]

theorem toList_render_neg : (render (.unary .neg e)).toList =
    '(' :: '-' :: (e.render.toList ++ [')']) := by
  simp [Op.symbol, toString]

/-- A subscript is written without parentheses around it. -/
theorem toList_render_subscript : (render (.subscript b i)).toList =
    b.render.toList ++ '[' :: (i.render.toList ++ [']']) := by
  simp [toString]

theorem toList_render_slice : (render (.slice l u s)).toList =
    l.render.toList ++ ':' :: (u.render.toList ++ ':' :: s.render.toList) := by
  simp [toString]

theorem toList_render_sliceFrom : (render (.sliceFrom l s)).toList =
    l.render.toList ++ [':', ':'] ++ s.render.toList := by
  simp [toString]

/-- The arguments of a call are divided by a comma and a blank. -/
theorem toList_render_call : (render (.call f args)).toList =
    f.toList ++ '(' :: ([',', ' '].intercalate (args.map (·.render.toList)) ++ [')']) := by
  simp [String.toList_intercalate, renderAll_eq_map, Function.comp_def]

end Text

end Expr

namespace Grammar

/-! ## Spelling -/

/-- Wherever `text` stands, unless it is in front of a character that `next` excludes, it is cut
into `tokens`. -/
def Spells (next : Char → Prop) (text : List Char) (tokens : List Token) : Prop :=
  ∀ pos rest us, (∀ c ∈ rest.head?, next c) → Scans (pos + byteLength text) rest us →
    ∃ ts : List (Spanned Token), ts.map (·.node) = tokens ∧ Scans pos (text ++ rest) (ts ++ us)

/-- Any character may follow. -/
def Anything (_ : Char) : Prop := True

/-- The character does not go on with a word or number. -/
def EndsWord (c : Char) : Prop := isWordPart c = false

/-- The character does not go on with a sign. -/
def EndsSign (c : Char) : Prop := c ∉ ['=', '>', '/', ':']

/-- The character can be the first one of an expression. -/
def Opens (c : Char) : Prop := isWordPart c = true ∨ c = '('

variable {P Q : Char → Prop} {a b : List Char} {ts us : List Token} {c : Char} {cs : List Char}
  {t : Token}

/-- The text begins with a character of the kind. -/
def Begins (P : Char → Prop) (text : List Char) : Prop := ∃ c cs, text = c :: cs ∧ P c

theorem begins_cons (h : P c) : Begins P (c :: cs) := ⟨c, cs, rfl, h⟩

/-- A text begins in the same way with more behind it. -/
theorem Begins.append (h : Begins P a) (b : List Char) : Begins P (a ++ b) := by
  obtain ⟨c, cs, rfl, hc⟩ := h
  exact begins_cons hc

theorem Begins.mono (h : Begins P a) (hQ : ∀ c, P c → Q c) : Begins Q a := by
  obtain ⟨c, cs, rfl, hc⟩ := h
  exact begins_cons (hQ c hc)

/-! ## Characters of words -/

/-- A character of a word is neither blank nor the start of a comment. -/
theorem not_gap_of_isWordPart (hc : isWordPart c = true) : isGap c = false ∧ c ≠ '#' := by
  constructor
  · by_contra hgap
    simp only [isGap, Bool.not_eq_false, Bool.or_eq_true, decide_eq_true_eq] at hgap
    rcases hgap with (((rfl | rfl) | rfl) | rfl) | rfl <;> simp [isWordPart] at hc
  · rintro rfl
    simp [isWordPart] at hc

theorem isWordPart_of_isDigit (hc : c.isDigit = true) : isWordPart c = true := by
  simp [isWordPart, Char.isAlphanum, hc]

/-- A digit starts no word. -/
theorem isWordStart_of_isDigit (hc : c.isDigit = true) : isWordStart c = false := by
  have hcode := Char.isDigit_iff_toNat.1 hc
  simp at hcode
  have halpha : c.isAlpha = false := isAlpha_of_toNat (by omega)
  have hne : c ≠ '_' := by
    rintro rfl
    simp at hc
  simp [isWordStart, halpha, hne]

/-- A character that can start an expression ends an operator sign. -/
theorem endsSign_of_opens (hc : Opens c) : EndsSign c := by
  intro hmem
  simp only [List.mem_cons, List.not_mem_nil, or_false] at hmem
  rcases hmem with rfl | rfl | rfl | rfl <;> simp [Opens, isWordPart] at hc

theorem begins_of_isIdentifier {x : String} (hx : Name.isIdentifier x = true) :
    Begins Opens x.toList := by
  obtain ⟨c, cs, hchars, hc, -⟩ := Name.exists_of_isIdentifier hx
  rw [hchars]
  exact begins_cons (Or.inl (isWordPart_of_isWordStart hc))

/-! ## Tokens -/

namespace Spells

theorem nil : Spells P [] [] := fun _ _ _ _ h => ⟨[], rfl, h⟩

/-- What is cut into tokens in front of some characters is so in front of fewer. -/
theorem mono (h : Spells P a ts) (hQ : ∀ c, Q c → P c) : Spells Q a ts :=
  fun pos rest us hrest => h pos rest us fun c hc => hQ c (hrest c hc)

/-- A piece of a text and all that follows it. -/
theorem append_of_head? (ha : Spells P a ts) (hb : Spells Q b us)
    (hhead : ∀ rest, ∀ c ∈ (b ++ rest).head?, P c) : Spells Q (a ++ b) (ts ++ us) := by
  intro pos rest vs hrest hscans
  rw [byteLength_append, ← Nat.add_assoc] at hscans
  obtain ⟨placed, hplaced, hscans⟩ := hb _ rest vs hrest hscans
  obtain ⟨placed', hplaced', hscans⟩ := ha pos (b ++ rest) _ (hhead rest) hscans
  refine ⟨placed' ++ placed, by rw [List.map_append, hplaced', hplaced], ?_⟩
  rwa [List.append_assoc, List.append_assoc]

/-- A text behind another one, where it begins with a character that may follow the other. -/
theorem append (ha : Spells P a ts) (hb : Spells Q b us) (hbegins : Begins P b) :
    Spells Q (a ++ b) (ts ++ us) := by
  refine ha.append_of_head? hb fun rest d hd => ?_
  obtain ⟨c, cs, rfl, hc⟩ := hbegins
  cases hd
  exact hc

/-- A text that any character may follow, in front of another one. -/
theorem followedBy (ha : Spells Anything a ts) (hb : Spells Q b us) :
    Spells Q (a ++ b) (ts ++ us) :=
  ha.append_of_head? hb fun _ _ _ => trivial

theorem blank : Spells Anything [' '] [] :=
  fun _ _ _ _ h => ⟨[], rfl, h.cons_gap (by decide)⟩

/-- A text that is one token. -/
theorem token (h : ∀ rest, (∀ d ∈ rest.head?, P d) →
    lexeme c (cs ++ rest) = (.token t, cs.length)) : Spells P (c :: cs) [t] :=
  fun _ _ _ hrest hscans => ⟨[_], rfl, .token (h _ hrest) hscans⟩

theorem lParen : Spells Anything ['('] [.lParen] := token fun _ _ => rfl

theorem rParen : Spells Anything [')'] [.rParen] := token fun _ _ => rfl

theorem lBracket : Spells Anything ['['] [.lBracket] := token fun _ _ => rfl

theorem rBracket : Spells Anything [']'] [.rBracket] := token fun _ _ => rfl

theorem comma : Spells Anything [','] [.comma] := token fun _ _ => rfl

theorem colonColon : Spells Anything [':', ':'] [.colonColon] := token fun _ _ => rfl

/-- A sign in front of a character with which no sign goes on. -/
theorem sign (hc : ∀ rest, lexeme c rest = Grammar.sign c rest)
    (hsign : Grammar.sign c cs = (.token t, cs.length)) : Spells EndsSign (c :: cs) [t] :=
  token fun _ hrest => (hc _).trans (sign_append hsign hrest)

/-- A run of word characters is one token, if no word character follows. -/
theorem word (hc : isWordStart c = true) (hcs : cs.all isWordPart = true) :
    Spells EndsWord (c :: cs) [.ofWord (String.ofList (c :: cs))] := by
  refine token fun rest hrest => ?_
  have htail : (cs ++ rest).takeWhile isWordPart = cs := by
    rw [takeWhile_append_of_head? cs hrest, List.takeWhile_eq_self_iff.2 (List.all_eq_true.1 hcs)]
  obtain ⟨hgap, hcomment⟩ := not_gap_of_isWordPart (isWordPart_of_isWordStart hc)
  simp [lexeme, hgap, hcomment, hc, htail]

/-- An identifier is a token of its own. -/
theorem name {x : String} (hx : Name.isIdentifier x = true) :
    Spells EndsWord x.toList [.ident x] := by
  obtain ⟨c, cs, hchars, hc, hcs, hident⟩ := Name.exists_of_isIdentifier hx
  have hword := word hc hcs
  rwa [← hchars, String.ofList_toList, hident] at hword

/-- The digits of a number are one token, if the number is not too great. -/
theorem number {n : Nat} (hn : n ≤ maxNumber) : Spells EndsWord (Nat.toDigits 10 n) [.int n] := by
  have hdigits : ∀ d ∈ Nat.toDigits 10 n, d.isDigit = true := fun d hd =>
    Nat.isDigit_of_mem_toDigits (by decide) (by decide) hd
  have hvalue : decimal (Nat.toDigits 10 n) = n :=
    Nat.ofDigitChars_toDigits (by decide) (by decide)
  cases hchars : Nat.toDigits 10 n with
  | nil => simp at hchars
  | cons c cs =>
    rw [hchars] at hvalue
    rw [hchars, List.forall_mem_cons] at hdigits
    refine token fun rest hrest => ?_
    have hnext : ∀ d ∈ rest.head?, d.isDigit = false := fun d hd => by
      by_contra hdigit
      have hpart := isWordPart_of_isDigit (Bool.not_eq_false _ ▸ hdigit)
      rw [hrest d hd] at hpart
      cases hpart
    have htail : (cs ++ rest).takeWhile Char.isDigit = cs := by
      rw [takeWhile_append_of_head? cs hnext, List.takeWhile_eq_self_iff.2 hdigits.2]
    obtain ⟨hgap, hcomment⟩ := not_gap_of_isWordPart (isWordPart_of_isDigit hdigits.1)
    simp [lexeme, hgap, hcomment, isWordStart_of_isDigit hdigits.1, hdigits.1, htail, hvalue, hn]

/-- The sign of a binary operator is one token, if a blank follows. -/
theorem operator {op : Op} (hop : op.isUnary = false) :
    Spells (· = ' ') op.symbol.toList [op.token] := by
  have hsign : ∀ c, c = ' ' → EndsSign c := by
    rintro _ rfl
    simp [EndsSign]
  have hword : ∀ c, c = ' ' → EndsWord c := by
    rintro _ rfl
    rfl
  cases op
  case neg | not => cases hop
  case and => exact (word (by decide) (by decide)).mono hword
  case or => exact (word (by decide) (by decide)).mono hword
  all_goals exact (sign (fun _ => rfl) rfl).mono hsign

/-- Pieces with commas between them. -/
theorem intercalate {pieces : List (List Char × List Token)}
    (h : ∀ p ∈ pieces, Spells EndsWord p.1 p.2) :
    Spells EndsWord ([',', ' '].intercalate (pieces.map Prod.fst))
      ([Token.comma].intercalate (pieces.map Prod.snd)) := by
  induction pieces with
  | nil => exact nil
  | cons p pieces ih =>
    rw [List.forall_mem_cons] at h
    cases pieces with
    | nil => simpa using h.1
    | cons q pieces =>
      simp only [List.map_cons, List.intercalate_cons_cons, List.append_assoc]
      exact h.1.append (comma.followedBy (blank.followedBy (ih h.2))) (begins_cons (by rfl))

end Spells

/-! ## Symbols that contain one another -/

variable {s o : Symbol} {e : Expr}

/-- The symbols from formulas down to subscripted expressions, each of which contains the next. -/
def Symbol.ladder : List Symbol :=
  [iff, implies, disj, conj, negation, comparison, sum, product, modulo, unary, subscripted]

/-- Each symbol of the ladder may stand alone in the one before it. -/
theorem Symbol.isChain_ladder : ladder.IsChain fun s o => o ∈ s.units := by decide

/-- What a symbol further down the chain derives, the one at the top derives. -/
theorem Derives.of_isChain {l : List Symbol} (hl : (s :: l).IsChain fun s o => o ∈ s.units)
    (ho : o ∈ s :: l) (h : Derives o ts e) : Derives s ts e := by
  induction l generalizing s with
  | nil => rwa [← List.mem_singleton.1 ho]
  | cons r l ih =>
    rw [List.isChain_cons_cons] at hl
    rcases List.mem_cons.1 ho with rfl | ho
    · exact h
    · exact .unit hl.1 (ih hl.2 ho)

/-- Everything on the ladder is a formula. -/
theorem Derives.toIff (h : Derives s ts e) (hs : s ∈ Symbol.ladder) : Derives .iff ts e :=
  .of_isChain Symbol.isChain_ladder hs h

/-- What needs no parentheses can stand anywhere. -/
theorem Derives.ofSubscripted (h : Derives .subscripted ts e) (hs : s ∈ Symbol.ladder) :
    Derives s ts e := by
  obtain ⟨above, below, hladder⟩ := List.append_of_mem hs
  have hlast : Symbol.subscripted ∈ s :: below := by
    have hlast : Symbol.ladder.getLast? = some .subscripted := rfl
    rw [hladder, List.getLast?_append_of_ne_nil _ (by simp)] at hlast
    exact List.mem_of_getLast? hlast
  exact .of_isChain (hladder ▸ Symbol.isChain_ladder).right_of_append hlast h

/-- Every binary operator has a production, whose operands may be subscripted expressions. -/
theorem exists_operation {op : Op} (hop : op.isUnary = false) :
    ∃ s ∈ Symbol.ladder, ∃ o ∈ s.operations, o.op = op ∧ o.token = op.token ∧
      (o.left ∈ Symbol.ladder ∨ o.left = .impliesNoQuant) ∧ o.right ∈ Symbol.ladder := by
  cases op
  case neg | not => cases hop
  all_goals decide

/-- The symbol of expressions in a place where a slice may stand or not. -/
def Symbol.place : (index : Bool) → Symbol
  | true => .index
  | false => .subscripted

theorem Derives.place {index : Bool} (h : Derives .subscripted ts e) :
    Derives (.place index) ts e := by
  cases index with
  | false => exact h
  | true =>
    have hsum : Derives .sum ts e := h.ofSubscripted (by decide)
    exact .unit (by decide) hsum

/-- In parentheses any formula may stand where an operand may. -/
theorem Derives.inParens {index : Bool} (h : Derives s ts e) (hs : s ∈ Symbol.ladder) :
    Derives (.place index) (.lParen :: (ts ++ [.rParen])) e :=
  .place (.unit (by decide) (.parens (h.toIff hs)))

/-- A binary operation over operands derives from some symbol of the ladder. -/
theorem derives_binary {op : Op} {l r : Expr} (hop : op.isUnary = false)
    (hl : Derives .subscripted ts l) (hr : Derives .subscripted us r) :
    ∃ s ∈ Symbol.ladder, Derives s (ts ++ op.token :: us) (.binary op l r) := by
  obtain ⟨s, hs, o, ho, rfl, htoken, hleft, hright⟩ := exists_operation hop
  have hl : Derives o.left ts l := by
    rcases hleft with hleft | hleft
    · exact hl.ofSubscripted hleft
    · have hdisj : Derives .disj ts l := hl.ofSubscripted (by decide)
      exact hleft ▸ .unit (by decide) hdisj
  exact ⟨s, hs, htoken ▸ .binary ho hl (hr.ofSubscripted hright)⟩

theorem Derives.sum_of_mem (h : Derives .subscripted ts e) :
    ∀ p ∈ some (Phrase.mk ts e), Derives .sum p.tokens p.value := by
  rintro _ ⟨⟩
  exact h.ofSubscripted (by decide)

end Grammar

namespace Expr

/-! ## Tokens of expressions -/

/-- The arguments of a call, as pieces of a text with commas. -/
theorem exists_commas (args : List Expr) :
    ∃ (items : List (Phrase Expr)) (last : Option (Phrase Expr)),
    Phrase.values items last = args ∧
    Phrase.commas items last = [Token.comma].intercalate (args.map tokens) ∧
    ∀ p, p ∈ items ∨ p ∈ last → p.value ∈ args ∧ p.tokens = p.value.tokens := by
  induction args with
  | nil => exact ⟨[], none, rfl, rfl, by simp⟩
  | cons a args ih =>
    obtain ⟨items, last, hvalues, hcommas, hpieces⟩ := ih
    cases args with
    | nil => exact ⟨[], some ⟨a.tokens, a⟩, rfl, by simp [Phrase.commas, Phrase.optional], by simp⟩
    | cons b args =>
      refine ⟨⟨a.tokens, a⟩ :: items, last, by simpa [Phrase.values] using hvalues, ?_, ?_⟩
      · rw [List.map_cons, List.map_cons, List.intercalate_cons_cons, ← List.map_cons, ← hcommas]
        simp [Phrase.commas]
      · rintro p (hp | hp)
        · rcases List.mem_cons.1 hp with rfl | hp
          · simp
          · exact (hpieces p (Or.inl hp)).imp_left (List.mem_cons_of_mem _)
        · exact (hpieces p (Or.inr hp)).imp_left (List.mem_cons_of_mem _)

namespace Legible

open Spells

variable {index : Bool} {e : Expr}

/-- The text of a legible expression begins with a character that an expression can begin with. -/
theorem begins (h : Legible index e) : Begins Opens e.render.toList := by
  induction h with
  | var hx => exact begins_of_isIdentifier hx
  | @int _ n =>
    rw [toList_render_int]
    cases hchars : Nat.toDigits 10 n with
    | nil => simp at hchars
    | cons c cs =>
      have hdigit : c.isDigit = true :=
        Nat.isDigit_of_mem_toDigits (b := 10) (n := n) (by decide) (by decide) (by simp [hchars])
      exact begins_cons (Or.inl (isWordPart_of_isDigit hdigit))
  | @bool _ b => cases b <;> exact begins_cons (Or.inl (by decide))
  | binary =>
    rw [toList_render_binary]
    exact begins_cons (Or.inr rfl)
  | @unary _ op _ hop =>
    cases op <;> cases hop
    · rw [toList_render_neg]
      exact begins_cons (Or.inr rfl)
    · rw [toList_render_not]
      exact begins_cons (Or.inr rfl)
  | subscript _ _ ih =>
    rw [toList_render_subscript]
    exact ih.append _
  | slice _ _ _ ih =>
    rw [toList_render_slice]
    exact ih.append _
  | sliceFrom _ _ ih =>
    rw [toList_render_sliceFrom, List.append_assoc]
    exact ih.append _
  | call hf =>
    rw [toList_render_call]
    exact (begins_of_isIdentifier hf).append _

/-- The text of an expression is cut into its tokens. -/
theorem spells (h : Legible index e) : Spells EndsWord e.render.toList e.tokens := by
  have hanything : ∀ c, EndsWord c → Anything c := fun _ _ => trivial
  have hcolon : Spells EndsSign [':'] [.colon] := sign (fun _ => rfl) rfl
  induction h with
  | var hx => exact name hx
  | int hn =>
    rw [toList_render_int]
    exact number hn
  | @bool _ b => cases b <;> exact word (by decide) (by decide)
  | @binary _ op l r hop _ _ ihl ihr =>
    have hright := blank.followedBy (ihr.append rParen (begins_cons rfl))
    have hoperator := blank.followedBy ((operator hop).append hright (begins_cons rfl))
    have hleft := lParen.followedBy (ihl.append hoperator (begins_cons rfl))
    simpa [toList_render_binary, tokens] using hleft.mono hanything
  | @unary _ op _ hop he ih =>
    have hoperand := ih.append rParen (begins_cons rfl)
    cases op <;> cases hop
    · have hminus : Spells EndsSign ['-'] [.minus] := sign (fun _ => rfl) rfl
      have hneg := hminus.append hoperand ((he.begins.append _).mono fun _ => endsSign_of_opens)
      rw [toList_render_neg]
      exact (lParen.followedBy hneg).mono hanything
    · have hnot : Spells EndsWord ['n', 'o', 't'] [.kwNot] := word (by decide) (by decide)
      have hnegation := hnot.append (blank.followedBy hoperand) (begins_cons rfl)
      rw [toList_render_not]
      exact (lParen.followedBy hnegation).mono hanything
  | subscript _ _ ihb ihi =>
    have hindex := lBracket.followedBy (ihi.append rBracket (begins_cons rfl))
    rw [toList_render_subscript]
    exact (ihb.append hindex (begins_cons rfl)).mono hanything
  | slice _ hu hs ihl ihu ihs =>
    have hstep := hcolon.append ihs (hs.begins.mono fun _ => endsSign_of_opens)
    have hupper := hcolon.append (ihu.append hstep (begins_cons rfl))
      ((hu.begins.append _).mono fun _ => endsSign_of_opens)
    rw [toList_render_slice]
    exact ihl.append hupper (begins_cons rfl)
  | sliceFrom _ _ ihl ihs =>
    rw [toList_render_sliceFrom, List.append_assoc]
    exact ihl.append (colonColon.followedBy ihs) (begins_cons rfl)
  | @call _ f args hf _ ih =>
    have hpieces : Spells EndsWord ([',', ' '].intercalate (args.map (·.render.toList)))
        ([Token.comma].intercalate (args.map tokens)) := by
      have hargs : ∀ p ∈ args.map fun a => (a.render.toList, a.tokens), Spells EndsWord p.1 p.2 :=
        List.forall_mem_map.2 ih
      simpa [Function.comp_def] using intercalate hargs
    have hall := lParen.followedBy (hpieces.append rParen (begins_cons rfl))
    rw [toList_render_call, tokens, tokensAll_eq_map]
    exact ((name hf).append hall (begins_cons rfl)).mono hanything

/-- The tokens of an expression stand for it. -/
theorem derives (h : Legible index e) : Derives (.place index) e.tokens e := by
  induction h with
  | var => exact .place (.unit (by decide) .var)
  | int => exact .place (.unit (by decide) .int)
  | @bool _ b =>
    cases b
    · exact .place (.unit (by decide) .false)
    · exact .place (.unit (by decide) .true)
  | binary hop _ _ ihl ihr =>
    obtain ⟨s, hs, hbinary⟩ := derives_binary hop ihl ihr
    exact Derives.inParens hbinary hs
  | @unary _ op _ hop _ ih =>
    cases op <;> cases hop
    · exact Derives.inParens (.neg (ih.ofSubscripted (by decide))) (by decide)
    · exact Derives.inParens (.not (ih.ofSubscripted (by decide))) (by decide)
  | subscript _ _ ihb ihi => exact .place (.subscript ihb ihi)
  | @slice l u s _ _ _ ihl ihu ihs =>
    have hstep : ∀ p ∈ (some (some (Phrase.mk s.tokens s))).join, Derives .sum p.tokens p.value :=
      Derives.sum_of_mem ihs
    exact .slice (Derives.sum_of_mem ihl) (Derives.sum_of_mem ihu) hstep
  | sliceFrom _ _ ihl ihs => exact .sliceStep (Derives.sum_of_mem ihl) (Derives.sum_of_mem ihs)
  | @call _ f args _ _ ih =>
    obtain ⟨items, last, hvalues, hcommas, hpieces⟩ := exists_commas args
    have hiff : ∀ p, p ∈ items ∨ p ∈ last → Derives .iff p.tokens p.value := fun p hp => by
      rw [(hpieces p hp).2]
      exact (ih _ (hpieces p hp).1).ofSubscripted (by decide)
    rw [tokens, tokensAll_eq_map, ← hcommas, ← hvalues]
    exact .place (.unit (by decide)
      (.call (fun p hp => hiff p (Or.inl hp)) fun p hp => hiff p (Or.inr hp)))

/-! ## Reading a text back -/

/-- Renaming leaves a list of expressions alone if it leaves each of them alone. -/
theorem alphaRenameAll_of_forall {args : List Expr} (h : ∀ a ∈ args, a.alphaRename = pure a) :
    alphaRenameAll args = pure args := by
  induction args with
  | nil => rfl
  | cons a args ih =>
    rw [List.forall_mem_cons] at h
    simp [alphaRenameAll, h.1, ih h.2]

/-- No names are drawn for an expression without quantifiers. -/
theorem alphaRename (h : Legible index e) : e.alphaRename = pure e := by
  induction h with
  | var | int | bool => rfl
  | binary _ _ _ ihl ihr => simp [Expr.alphaRename, ihl, ihr]
  | unary _ _ ih => simp [Expr.alphaRename, ih]
  | subscript _ _ ihb ihi => simp [Expr.alphaRename, ihb, ihi]
  | slice _ _ _ ihl ihu ihs => simp [Expr.alphaRename, ihl, ihu, ihs]
  | sliceFrom _ _ ihl ihs => simp [Expr.alphaRename, ihl, ihs]
  | @call _ _ args _ _ ih =>
    simp [Expr.alphaRename, alphaRenameAll_of_forall ih]

/-- The text of a legible expression is read back as the expression. -/
theorem ofText_render (h : Legible false e) : Assertion.ofText e.render = .ok e := by
  obtain ⟨ts, hts, hscans⟩ := h.spells 0 [] [] (by simp) .nil
  have htokens : tokenize e.render.toList = .ok ts := by
    simpa [tokenize] using hscans.scan
  have hiff : Derives .iff (ts.map (·.node)) e := hts ▸ h.derives.ofSubscripted (by decide)
  rw [Assertion.ofText, htokens]
  exact Assertion.ofTokens_of_derives hiff

/-- The text of an expression is read as this expression, and no names are drawn. So different
expressions have different texts. -/
theorem parse_render (h : Legible false e) (supply : Supply) :
    (Assertion.parse e.render).run.run supply = (.ok e, supply) ∧
      ∀ d, Legible false d → d ≠ e → d.render ≠ e.render := by
  refine ⟨?_, fun d hd hne hrender => hne ?_⟩
  · have htext := Naming.run_ofExcept_eq_ok.2 ⟨h.ofText_render, (rfl : supply = supply)⟩
    rw [Assertion.parse, Naming.run_bind_ok htext, h.alphaRename]
    rfl
  · have hread := hd.ofText_render
    rw [hrender, h.ofText_render] at hread
    exact (Except.ok.inj hread).symm

/-- A formula with slices and calls:
`((not ((-xs[(i + 1):n_2:2][0]) <= max(9223372036854775807, f()))) <==> rows[(-k)::1][0])`. -/
def nestedFormula : Expr :=
  .binary .iff
    (.unary .not (.binary .le
      (.unary .neg (.subscript (.subscript (.var "xs")
        (.slice (.binary .add (.var "i") (.int 1)) (.var "n_2") (.int 2))) (.int 0)))
      (.call "max" [.int maxNumber, .call "f" []])))
    (.subscript (.subscript (.var "rows") (.sliceFrom (.unary .neg (.var "k")) (.int 1))) (.int 0))

theorem legible_nestedFormula : Legible false nestedFormula := by
  have hpart : Legible true (.slice (.binary .add (.var "i") (.int 1)) (.var "n_2") (.int 2)) :=
    .slice (.binary rfl (.var (by decide)) (.int (by decide))) (.var (by decide)) (.int (by decide))
  have hfirst : Legible true (.int 0) := .int (by decide)
  have hcall : Legible false (.call "max" [.int maxNumber, .call "f" []]) :=
    .call (by decide) (List.forall_mem_cons.2 ⟨.int le_rfl,
      List.forall_mem_cons.2 ⟨.call (by decide) nofun, nofun⟩⟩)
  have hrest : Legible true (.sliceFrom (.unary .neg (.var "k")) (.int 1)) :=
    .sliceFrom (.unary rfl (.var (by decide))) (.int (by decide))
  exact .binary rfl
    (.unary rfl (.binary rfl (.unary rfl (.subscript (.subscript (.var (by decide)) hpart) hfirst))
      hcall))
    (.subscript (.subscript (.var (by decide)) hrest) hfirst)

theorem parse_render_nestedFormula : Legible false nestedFormula ∧
    (Assertion.parse nestedFormula.render).run.run ⟨7⟩ = (.ok nestedFormula, ⟨7⟩) :=
  ⟨legible_nestedFormula, (parse_render legible_nestedFormula ⟨7⟩).1⟩

end Legible

end Expr

end Precond
