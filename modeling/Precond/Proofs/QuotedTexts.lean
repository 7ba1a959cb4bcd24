import Mathlib.Tactic
import Precond.Proofs.LayoutTokens

/-!
# Texts between quotes

A text between quotes is not written as it is read: a backslash and a character stand for one
character. `Decodes quote raw text n` says that `raw`, written between quotes, stands for `text`,
and that `n` characters of it are written with a backslash. All else is written as it is read, so
`raw` is longer than `text` by `n` bytes.

An `Excerpt` is a piece of a text between quotes, seen from both sides. It has a place in the text
that is read (`Excerpt.place`) and one in the source (`Excerpt.origin`). If the former is moved to
where the text begins in the source, each of its ends lies too far to the left by the number of
backslashes in front of it (`Excerpt.start_add`, `Excerpt.stop_add`).
-/

namespace Precond.Grammar

/-! ## Pieces of a text -/

/-- The range covers the given piece of a text, no less and no more. -/
def Selects (text : List Char) (span : Span) (piece : List Char) : Prop :=
  ∃ front back, text = front ++ (piece ++ back) ∧
    span = ⟨byteLength front, byteLength front + byteLength piece⟩

/-- The offset lies between two characters of a text. -/
def IsBoundary (text : List Char) (offset : Nat) : Prop :=
  ∃ front back, text = front ++ back ∧ byteLength front = offset

/-- Two beginnings of one text that are equally long are the same. -/
theorem eq_of_byteLength_eq {a b c d : List Char} (h : a ++ b = c ++ d)
    (hlength : byteLength a = byteLength c) : a = c ∧ b = d := by
  obtain ⟨x, rfl, rfl⟩ := exists_append_of_byteLength_le h hlength.le
  have hx : x = [] := by
    by_contra hx
    have := byteLength_pos hx
    rw [byteLength_append] at hlength
    omega
  simp [hx]

/-- A range covers one piece at most. -/
theorem Selects.unique {text piece piece' : List Char} {span : Span} (h : Selects text span piece)
    (h' : Selects text span piece') : piece = piece' := by
  obtain ⟨front, back, rfl, rfl⟩ := h
  obtain ⟨front', back', htext, hspan⟩ := h'
  obtain ⟨hstart, hstop⟩ := Span.mk.inj hspan
  obtain ⟨rfl, hpieces⟩ := eq_of_byteLength_eq htext hstart
  exact (eq_of_byteLength_eq hpieces (by omega)).1

/-- Between two boundaries there is a piece of the text. -/
theorem exists_selects {text : List Char} {span : Span} (hstart : IsBoundary text span.start)
    (hstop : IsBoundary text span.stop) (hle : span.start ≤ span.stop) :
    ∃ piece, Selects text span piece := by
  obtain ⟨front, rest, rfl, hfront⟩ := hstart
  obtain ⟨upto, back, htext, hupto⟩ := hstop
  obtain ⟨piece, rfl, rfl⟩ := exists_append_of_byteLength_le htext (by omega)
  rw [byteLength_append] at hupto
  exact ⟨piece, front, back, rfl, by rw [hupto, hfront]⟩

/-! ## Escapes -/

/-- Between quotes, `raw` stands for `text`, and `n` characters of it are written with a
backslash. -/
inductive Decodes (quote : Char) : (raw text : List Char) → (n : Nat) → Prop
  | nil : Decodes quote [] [] 0
  | plain {c raw text n} (hquote : c ≠ quote) (hescape : c ≠ '\\') (hline : c ≠ '\n')
      (h : Decodes quote raw text n) : Decodes quote (c :: raw) (c :: text) n
  | escape {c raw text n} (hline : c ≠ '\n') (h : Decodes quote raw text n) :
      Decodes quote ('\\' :: c :: raw) (unescape c :: text) (n + 1)

theorem utf8Size_unescape (c : Char) : (unescape c).utf8Size = c.utf8Size := by
  unfold unescape
  split <;> rfl

namespace Decodes

variable {quote : Char} {raw text : List Char} {n : Nat}

/-- A backslash takes one byte more than is read. -/
theorem byteLength_eq (h : Decodes quote raw text n) : byteLength raw = byteLength text + n := by
  induction h with
  | nil => rfl
  | plain _ _ _ _ ih =>
    rw [byteLength_cons, byteLength_cons, ih]
    omega
  | escape _ _ ih =>
    rw [byteLength_cons, byteLength_cons, byteLength_cons, ih, utf8Size_unescape]
    have hbackslash : '\\'.utf8Size = 1 := rfl
    omega

/-- Without a backslash a text is written as it is read. -/
theorem eq_of_zero (h : Decodes quote raw text 0) : raw = text := by
  generalize hn : 0 = n at h
  induction h with
  | nil => rfl
  | plain _ _ _ _ ih => rw [ih hn]
  | escape => cases hn

/-- Each piece of a text is written by a piece of what is between the quotes. -/
theorem split {front back : List Char} (h : Decodes quote raw (front ++ back) n) :
    ∃ rawFront rawBack k m, raw = rawFront ++ rawBack ∧ n = k + m ∧
      Decodes quote rawFront front k ∧ Decodes quote rawBack back m := by
  induction front generalizing raw n with
  | nil => exact ⟨[], raw, 0, n, rfl, (Nat.zero_add n).symm, .nil, h⟩
  | cons c front ih =>
    cases h with
    | plain hquote hescape hline h =>
      obtain ⟨rawFront, rawBack, k, m, rfl, rfl, hfront, hback⟩ := ih h
      exact ⟨c :: rawFront, rawBack, k, m, rfl, rfl, .plain hquote hescape hline hfront, hback⟩
    | @escape d _ _ _ hline h =>
      obtain ⟨rawFront, rawBack, k, m, rfl, rfl, hfront, hback⟩ := ih h
      exact ⟨'\\' :: d :: rawFront, rawBack, k + 1, m, rfl, by omega, .escape hline hfront, hback⟩

end Decodes

/-- What is read behind an opening quote is the text that is written up to the closing one. -/
theorem exists_decodes {quote : Char} {cs text : List Char} {length : Nat}
    (h : readQuoted quote cs = (text, length, true)) :
    ∃ raw back n, cs = raw ++ quote :: back ∧ length = raw.length + 1 ∧
      Decodes quote raw text n := by
  fun_induction readQuoted quote cs generalizing text length with
  | case1 | case3 | case4 | case5 => cases h
  | case2 cs =>
    cases h
    exact ⟨[], cs, 0, rfl, rfl, .nil⟩
  | case6 d ds hd text' k closed hread _ _ ih =>
    simp only [Prod.mk.injEq] at h
    obtain ⟨rfl, rfl, rfl⟩ := h
    obtain ⟨raw, back, n, rfl, rfl, hraw⟩ := ih hread
    exact ⟨'\\' :: d :: raw, back, n + 1, rfl, rfl, .escape hd hraw⟩
  | case7 c cs hquote hline hescape text' k closed hread ih =>
    simp only [Prod.mk.injEq] at h
    obtain ⟨rfl, rfl, rfl⟩ := h
    obtain ⟨raw, back, n, rfl, rfl, hraw⟩ := ih hread
    exact ⟨c :: raw, back, n, rfl, rfl, .plain hquote hescape hline hraw⟩

/-- In the source, `text` is written between quotes, and `start` is where it begins. -/
def Quotes (source : List Char) (start : Nat) (text : List Char) : Prop :=
  ∃ front quote raw back n, source = front ++ quote :: (raw ++ quote :: back) ∧
    (quote = '"' ∨ quote = '\'') ∧ start = byteLength front + 1 ∧ Decodes quote raw text n

/-- Only a text between quotes is read as a text. -/
theorem readQuoted_of_lexeme {c : Char} {rest : List Char} {text : String} {n : Nat}
    (h : lexeme c rest = (.token (.str text), n)) :
    (c = '"' ∨ c = '\'') ∧ readQuoted c rest = (text.toList, n, true) := by
  have hword (word : String) : Token.ofWord word ≠ .str text := by
    unfold Token.ofWord
    split <;> simp
  unfold lexeme at h
  split_ifs at h with hgap hcomment hstart hdigit hquote
  · simp at h
  · simp at h
  · simp only [Prod.mk.injEq, Lexeme.token.injEq] at h
    exact absurd h.1 (hword _)
  · have hfound := congrArg Prod.fst h
    dsimp only at hfound
    split_ifs at hfound
    cases hfound
  · rcases hread : readQuoted c rest with ⟨text', k, closed⟩
    simp only [hread, Prod.mk.injEq] at h
    obtain ⟨hfound, rfl⟩ := h
    split_ifs at hfound with hclosed
    cases hfound
    exact ⟨by simpa using hquote, by simp [hclosed]⟩
  · unfold sign at h
    split at h <;> cases h

/-- Every token is the lexeme that stands at its place. -/
theorem Scans.exists_of_mem {source : List Char} {pos : Nat} {ts : List (Spanned Token)}
    (h : Scans pos source ts) {t : Spanned Token} (ht : t ∈ ts) :
    ∃ front c cs rest, source = front ++ c :: (cs ++ rest) ∧
      t.span = ⟨pos + byteLength front, pos + byteLength front + byteLength (c :: cs)⟩ ∧
      lexeme c (cs ++ rest) = (.token t.node, cs.length) := by
  induction h with
  | nil => cases ht
  | @gap pos c cs rest ts _ _ ih =>
    obtain ⟨front, d, ds, more, rfl, hspan, hd⟩ := ih ht
    refine ⟨c :: (cs ++ front), d, ds, more, by simp, ?_, hd⟩
    rw [hspan]
    simp [Nat.add_assoc]
  | @token pos c cs rest node ts hc _ ih =>
    rcases List.mem_cons.1 ht with rfl | ht
    · exact ⟨[], c, cs, rest, rfl, rfl, hc⟩
    · obtain ⟨front, d, ds, more, rfl, hspan, hd⟩ := ih ht
      refine ⟨c :: (cs ++ front), d, ds, more, by simp, ?_, hd⟩
      rw [hspan]
      simp [Nat.add_assoc]

/-- A token that is a text stands for what is written between quotes at its place. -/
theorem Scans.quotes {source : List Char} {ts : List (Spanned Token)} (h : Scans 0 source ts)
    {t : Spanned Token} (ht : t ∈ ts) {text : String} (htext : t.node = .str text) :
    Quotes source (t.span.start + 1) text.toList := by
  obtain ⟨front, c, cs, rest, hsource, hspan, hc⟩ := h.exists_of_mem ht
  rw [htext] at hc
  obtain ⟨hquote, hread⟩ := readQuoted_of_lexeme hc
  obtain ⟨raw, back, n, hcs, -, hraw⟩ := exists_decodes hread
  exact ⟨front, c, raw, back, n, by rw [hsource, hcs], hquote, by rw [hspan, Nat.zero_add], hraw⟩

/-- A token of a text begins and ends at boundaries. -/
theorem Scans.isBoundary {source : List Char} {ts : List (Spanned Token)} (h : Scans 0 source ts)
    {t : Spanned Token} (ht : t ∈ ts) :
    IsBoundary source t.span.start ∧ IsBoundary source t.span.stop := by
  obtain ⟨front, c, cs, rest, hsource, hspan, -⟩ := h.exists_of_mem ht
  rw [hspan]
  refine ⟨⟨front, c :: (cs ++ rest), hsource, by simp⟩, front ++ c :: cs, rest, ?_, by simp⟩
  rw [hsource, List.append_assoc, List.cons_append]

/-! ## Excerpts -/

/-- Characters between quotes and what they stand for. -/
structure Spelling (quote : Char) where
  /-- The characters of the source. -/
  raw : List Char
  /-- What they stand for. -/
  text : List Char
  /-- The number of backslashes that are not part of it. -/
  escapes : Nat
  decodes : Decodes quote raw text escapes

/-- A piece of a text between quotes. -/
structure Excerpt where
  /-- What stands in front of the opening quote. -/
  front : List Char
  quote : Char
  isQuote : quote = '"' ∨ quote = '\''
  /-- The text in front of the piece. -/
  before : Spelling quote
  piece : Spelling quote
  /-- The text behind the piece. -/
  after : Spelling quote
  /-- What stands behind the closing quote. -/
  back : List Char

namespace Excerpt

/-- The source with the text in it. -/
def source (x : Excerpt) : List Char :=
  x.front ++ x.quote :: (x.before.raw ++ (x.piece.raw ++ x.after.raw) ++ x.quote :: x.back)

/-- The text that is read. -/
def text (x : Excerpt) : List Char := x.before.text ++ (x.piece.text ++ x.after.text)

/-- Where the text begins in the source. -/
def start (x : Excerpt) : Nat := byteLength x.front + 1

/-- Where the piece stands in the text. -/
def place (x : Excerpt) : Span :=
  ⟨byteLength x.before.text, byteLength x.before.text + byteLength x.piece.text⟩

/-- Where the piece stands in the source. -/
def origin (x : Excerpt) : Span :=
  ⟨x.start + byteLength x.before.raw, x.start + byteLength x.before.raw + byteLength x.piece.raw⟩

theorem selects_place (x : Excerpt) : Selects x.text x.place x.piece.text :=
  ⟨x.before.text, x.after.text, rfl, rfl⟩

theorem selects_origin (x : Excerpt) : Selects x.source x.origin x.piece.raw := by
  have hquote : x.quote.utf8Size = 1 := by rcases x.isQuote with h | h <;> rw [h] <;> rfl
  refine ⟨x.front ++ x.quote :: x.before.raw, x.after.raw ++ x.quote :: x.back, ?_, ?_⟩
  · simp [source]
  · simp only [origin, start, byteLength_append, byteLength_cons, hquote, Nat.add_assoc]

theorem start_add (x : Excerpt) :
    (x.place.shift x.start).start + x.before.escapes = x.origin.start := by
  have hbefore := x.before.decodes.byteLength_eq
  simp only [place, origin, Span.shift]
  omega

theorem stop_add (x : Excerpt) :
    (x.place.shift x.start).stop + (x.before.escapes + x.piece.escapes) = x.origin.stop := by
  have hbefore := x.before.decodes.byteLength_eq
  have hpiece := x.piece.decodes.byteLength_eq
  simp only [place, origin, Span.shift]
  omega

/-- The place that is moved is the right one if and only if there is no backslash up to its end. -/
theorem shift_eq_origin_iff (x : Excerpt) : x.place.shift x.start = x.origin ↔
    x.before.escapes = 0 ∧ x.piece.escapes = 0 := by
  have hstart := x.start_add
  have hstop := x.stop_add
  constructor
  · intro heq
    rw [heq] at hstart hstop
    omega
  · rintro ⟨hbefore, hpiece⟩
    rw [hbefore, Nat.add_zero] at hstart
    rw [hbefore, hpiece, Nat.add_zero] at hstop
    exact congrArg₂ Span.mk hstart hstop

theorem selects_shift (x : Excerpt) (hbefore : x.before.escapes = 0)
    (hpiece : x.piece.escapes = 0) :
    Selects x.source (x.place.shift x.start) x.piece.text := by
  have hraw : x.piece.raw = x.piece.text := by
    have hdecodes := x.piece.decodes
    rw [hpiece] at hdecodes
    exact hdecodes.eq_of_zero
  rw [x.shift_eq_origin_iff.2 ⟨hbefore, hpiece⟩, ← hraw]
  exact x.selects_origin

end Excerpt

/-- What is selected in a text between quotes is an excerpt of the source. -/
theorem Quotes.exists_excerpt {source text piece : List Char} {start : Nat} {span : Span}
    (h : Quotes source start text) (hspan : Selects text span piece) :
    ∃ x : Excerpt, x.source = source ∧ x.start = start ∧ x.text = text ∧ x.place = span := by
  obtain ⟨front, quote, raw, back, n, rfl, hquote, rfl, hraw⟩ := h
  obtain ⟨before, after, rfl, rfl⟩ := hspan
  obtain ⟨rawBefore, rest, k, m, rfl, rfl, hbefore, hrest⟩ := hraw.split
  obtain ⟨rawPiece, rawAfter, i, j, rfl, rfl, hpiece, hafter⟩ := hrest.split
  exact ⟨⟨front, quote, hquote, ⟨rawBefore, before, k, hbefore⟩, ⟨rawPiece, piece, i, hpiece⟩,
    ⟨rawAfter, after, j, hafter⟩, back⟩, rfl, rfl, rfl, rfl⟩

end Precond.Grammar
