import Mathlib.Data.List.TakeWhile
import Mathlib.Tactic
import Precond.Grammar.Lexeme
import Precond.Text.Blank

/-!
# How a text is cut into tokens

`Scans pos text ts` says that `text`, which begins at offset `pos`, is cut into the tokens `ts` with
gaps between them, each piece being what `lexeme` finds there. It holds exactly if `scan` gives `ts`
(`scan_eq_ok_iff`), and it has one rule for a gap and one for a token, so what scanning keeps is
shown by induction on the pieces of the text.

A token never reaches beyond the end of its line, so a line has the same tokens whether it is read
alone or with the text behind it (`Scans.append`). The places of the tokens come one after another
(`Scans.inOrder`).
-/

namespace Precond.Grammar

/-! ## Pieces -/

/-- No more is read of a text between quotes than there is. -/
theorem readQuoted_length_le (quote : Char) (cs : List Char) :
    (readQuoted quote cs).2.1 ≤ cs.length := by
  fun_induction readQuoted quote cs <;> simp_all

theorem sign_length_le (c : Char) (rest : List Char) : (sign c rest).2 ≤ rest.length := by
  unfold sign
  split <;> simp

/-- A piece of a text is not longer than the text. -/
theorem lexeme_length_le (c : Char) (rest : List Char) : (lexeme c rest).2 ≤ rest.length := by
  unfold lexeme
  split_ifs
  · simp
  · exact (List.takeWhile_prefix _).length_le
  · exact (List.takeWhile_prefix _).length_le
  · exact (List.takeWhile_prefix _).length_le
  · exact readQuoted_length_le c rest
  · exact sign_length_le c rest

/-- What a text begins with can be cut off it. -/
theorem exists_lexeme (c : Char) (rest : List Char) :
    ∃ found cs more, rest = cs ++ more ∧ lexeme c (cs ++ more) = (found, cs.length) := by
  refine ⟨(lexeme c rest).1, rest.take (lexeme c rest).2, rest.drop (lexeme c rest).2, ?_, ?_⟩
  · rw [List.take_append_drop]
  · rw [List.take_append_drop, List.length_take_of_le (lexeme_length_le c rest)]

/-- The tokens that a text that begins at offset `pos` is cut into. -/
inductive Scans : Nat → List Char → List (Spanned Token) → Prop
  | nil {pos} : Scans pos [] []
  | gap {pos c cs rest ts} (hc : lexeme c (cs ++ rest) = (.gap, cs.length))
      (h : Scans (pos + byteLength (c :: cs)) rest ts) : Scans pos (c :: (cs ++ rest)) ts
  | token {pos c cs rest t ts} (hc : lexeme c (cs ++ rest) = (.token t, cs.length))
      (h : Scans (pos + byteLength (c :: cs)) rest ts) :
      Scans pos (c :: (cs ++ rest)) (⟨t, pos, pos + byteLength (c :: cs)⟩ :: ts)

variable {pos : Nat} {c : Char} {cs rest text tail : List Char} {t : Token} {n : Nat}
  {ts us : List (Spanned Token)}

/-- The characters of a piece that was read are skipped. -/
theorem scan_append (cs rest : List Char) (pos : Nat) :
    scan cs.length pos (cs ++ rest) = scan 0 (pos + byteLength cs) rest := by
  induction cs generalizing pos with
  | nil => simp
  | cons c cs ih => simp [scan, ih, Nat.add_assoc]

theorem scan_of_gap (hc : lexeme c (cs ++ rest) = (.gap, cs.length)) :
    scan 0 pos (c :: (cs ++ rest)) = scan 0 (pos + byteLength (c :: cs)) rest := by
  simp only [scan, hc, scan_append, byteLength_cons, Nat.add_assoc]

/-- A token is read, and then the rest of the text. -/
theorem scan_of_token (hc : lexeme c (cs ++ rest) = (.token t, cs.length)) :
    scan 0 pos (c :: (cs ++ rest)) =
      (scan 0 (pos + byteLength (c :: cs)) rest).map
        (⟨t, pos, pos + byteLength (c :: cs)⟩ :: ·) := by
  simp only [scan, hc, scan_append, byteLength_cons, Nat.add_assoc, List.take_left]
  cases scan 0 (pos + (c.utf8Size + byteLength cs)) rest <;> rfl

/-- What the scanner reads is given by the rules. -/
theorem scans_of_scan (h : scan 0 pos text = .ok ts) : Scans pos text ts := by
  induction hlength : text.length using Nat.strong_induction_on generalizing pos text ts with
  | _ length ih =>
    cases text with
    | nil =>
      cases h
      exact .nil
    | cons c rest =>
      obtain ⟨found, cs, rest, rfl, hc⟩ := exists_lexeme c rest
      have hshorter : rest.length < length := by
        rw [← hlength, List.length_cons, List.length_append]
        omega
      cases found with
      | gap =>
        rw [scan_of_gap hc] at h
        exact .gap hc (ih _ hshorter h rfl)
      | bad =>
        simp only [scan, hc] at h
        cases h
      | token t =>
        rw [scan_of_token hc] at h
        cases hrest : scan 0 (pos + byteLength (c :: cs)) rest with
        | error e =>
          rw [hrest] at h
          cases h
        | ok us =>
          rw [hrest] at h
          cases h
          exact .token hc (ih _ hshorter hrest rfl)

/-- The scanner reads what the rules give. -/
theorem Scans.scan (h : Scans pos text ts) : scan 0 pos text = .ok ts := by
  induction h with
  | nil => rfl
  | gap hc _ ih => rw [scan_of_gap hc, ih]
  | token hc _ ih =>
    rw [scan_of_token hc, ih]
    rfl

theorem scan_eq_ok_iff : scan 0 pos text = .ok ts ↔ Scans pos text ts :=
  ⟨scans_of_scan, Scans.scan⟩

/-! ## Gaps -/

/-- A gap is a blank, or a comment up to the end of its line. -/
theorem lexeme_eq_gap : lexeme c rest = (.gap, n) ↔ (isGap c = true ∧ n = 0) ∨
    (c = '#' ∧ n = (rest.takeWhile (· ≠ '\n')).length) := by
  by_cases hcomment : c = '#'
  · subst hcomment
    have hgap : isGap '#' = false := by decide
    simp [lexeme, hgap, eq_comm]
  have hsign : (sign c rest).1 ≠ .gap := by
    unfold sign
    split <;> simp
  unfold lexeme
  split_ifs with hgap hword hdigit hquote
  · simp [hgap, hcomment, eq_comm]
  · simp [hgap, hcomment]
  · simp only [hgap, hcomment, Prod.mk.injEq]
    split_ifs <;> simp
  · simp only [hgap, hcomment, Prod.mk.injEq]
    split_ifs <;> simp
  · simp only [hgap, hcomment]
    simpa using fun h => hsign (congrArg Prod.fst h)

theorem Scans.cons_gap (hc : isGap c = true) (h : Scans (pos + c.utf8Size) rest ts) :
    Scans pos (c :: rest) ts :=
  @Scans.gap pos c [] rest ts (lexeme_eq_gap.2 (Or.inl ⟨hc, rfl⟩)) h

theorem isAlpha_of_toNat (hc : c.toNat < 65 ∨ 122 < c.toNat) : c.isAlpha = false := by
  have halpha : c.isAlpha = (decide ('A'.val ≤ c.val ∧ c.val ≤ 'Z'.val)
      || (decide ('a'.val ≤ c.val) && decide (c.val ≤ 'z'.val))) := rfl
  simp [halpha, UInt32.le_iff_toNat_le]
  omega

theorem toNat_of_isBlank (hc : Text.isBlank c = true) : c.toNat < 48 ∨ 122 < c.toNat := by
  simp only [Text.isBlank, Bool.or_eq_true, Bool.and_eq_true, decide_eq_true_eq,
    beq_iff_eq] at hc
  omega

/-- A blank starts no token. -/
theorem lexeme_of_isBlank (hc : Text.isBlank c = true) (rest : List Char) :
    lexeme c rest = (.gap, 0) ∨ lexeme c rest = (.bad, 0) := by
  by_cases hgap : isGap c = true
  · exact Or.inl (lexeme_eq_gap.2 (Or.inl ⟨hgap, rfl⟩))
  · have hcomment : c ≠ '#' := by
      rintro rfl
      cases hc
    have hcode := toNat_of_isBlank hc
    have hword : isWordStart c = false := by
      have hunderscore : c ≠ '_' := by
        rintro rfl
        cases hc
      have halpha : c.isAlpha = false := isAlpha_of_toNat (by omega)
      simp [isWordStart, halpha, hunderscore]
    have hdigit : c.isDigit = false := by
      rw [← Bool.not_eq_true, Char.isDigit_iff_toNat]
      simp
      omega
    have hquote : (c = '"' || c = '\'') = false := by
      rw [Bool.or_eq_false_iff, decide_eq_false_iff_not, decide_eq_false_iff_not]
      constructor <;> rintro rfl <;> cases hc
    right
    simp only [lexeme, hgap, hcomment, hword, hdigit, hquote, if_false, Bool.false_eq_true]
    unfold sign
    split <;> first | rfl | cases hc

/-- Where a text has tokens, blanks in front of it are a gap. -/
theorem Scans.of_blanks {blanks : List Char} (h : Scans pos (blanks ++ rest) ts)
    (hblanks : ∀ c ∈ blanks, Text.isBlank c = true) : Scans (pos + byteLength blanks) rest ts := by
  induction blanks generalizing pos with
  | nil => exact h
  | cons c blanks ih =>
    rw [List.forall_mem_cons] at hblanks
    have hscan := h.scan
    rw [List.cons_append] at hscan
    rcases lexeme_of_isBlank hblanks.1 (blanks ++ rest) with hc | hc
    · rw [← List.nil_append (blanks ++ rest), scan_of_gap hc] at hscan
      rw [byteLength_cons, ← Nat.add_assoc]
      exact ih (scans_of_scan hscan) hblanks.2
    · simp only [Grammar.scan, hc] at hscan
      cases hscan

/-! ## Ends of lines -/

theorem takeWhile_append_of_head? {p : Char → Bool} (cs : List Char)
    (h : ∀ c ∈ tail.head?, p c = false) : (cs ++ tail).takeWhile p = cs.takeWhile p := by
  induction cs with
  | nil =>
    cases tail with
    | nil => rfl
    | cons c tail => simp [h c (by simp)]
  | cons c cs ih => simp [List.takeWhile_cons, ih]

/-- A quoted text ends with its closing quote, whatever follows. -/
theorem readQuoted_append {quote : Char} (tail : List Char)
    (h : (readQuoted quote cs).2.2 = true) :
    readQuoted quote (cs ++ tail) = readQuoted quote cs := by
  fun_induction readQuoted quote cs with
  | case1 | case3 | case4 | case5 => cases h
  | case2 => simp [readQuoted.eq_def quote (quote :: _)]
  | case6 => simp_all [readQuoted]
  | case7 c => simp_all [readQuoted.eq_def quote (c :: _)]

/-- A sign stays as it is in front of a character with which no sign goes on. -/
theorem sign_append (h : sign c cs = (.token t, n))
    (htail : ∀ d ∈ tail.head?, d ∉ ['=', '>', '/', ':']) : sign c (cs ++ tail) = (.token t, n) := by
  cases tail with
  | nil => rwa [List.append_nil]
  | cons d tail =>
    have hd : d ∉ ['=', '>', '/', ':'] := htail d rfl
    simp only [List.mem_cons, List.not_mem_nil, or_false, not_or] at hd
    rw [← h]
    fun_cases sign c cs
    case case26 => simp_all [sign]
    -- the signs that are the beginning of a longer one
    case case2 | case5 | case6 =>
      simp only [List.cons_append]
      rw [sign] <;> simp_all [List.append_eq_cons_iff]
    case case3 | case7 | case9 | case13 | case16 | case24 =>
      rw [sign] <;> simp_all [List.append_eq_cons_iff]
    all_goals rfl

/-- The text is at the end of a line: there are only carriage returns in front of the next newline
or the end of the text. -/
def AtLineEnd (tail : List Char) : Prop :=
  ∃ returns rest, tail = returns ++ rest ∧ (∀ c ∈ returns, c = '\r') ∧ ∀ c ∈ rest.head?, c = '\n'

theorem AtLineEnd.head? (h : AtLineEnd tail) : ∀ c ∈ tail.head?, c = '\r' ∨ c = '\n' := by
  obtain ⟨returns, rest, rfl, hreturns, hrest⟩ := h
  cases returns with
  | nil => exact fun c hc => Or.inr (hrest c hc)
  | cons r returns =>
    rintro _ ⟨⟩
    exact Or.inl (hreturns r (by simp))

/-- A token does not reach beyond the end of its line. -/
theorem lexeme_append (h : lexeme c cs = (.token t, n)) (htail : AtLineEnd tail) :
    lexeme c (cs ++ tail) = (.token t, n) := by
  have hhead := htail.head?
  have hword : (cs ++ tail).takeWhile isWordPart = cs.takeWhile isWordPart :=
    takeWhile_append_of_head? cs fun d hd => by rcases hhead d hd with rfl | rfl <;> decide
  have hdigits : (cs ++ tail).takeWhile Char.isDigit = cs.takeWhile Char.isDigit :=
    takeWhile_append_of_head? cs fun d hd => by rcases hhead d hd with rfl | rfl <;> decide
  unfold lexeme at h ⊢
  split_ifs at h ⊢
  · simp at h
  · simp at h
  · rwa [hword]
  · rwa [hdigits]
  · have hclosed : (readQuoted c cs).2.2 = true := by
      by_contra hopen
      simp [hopen] at h
    rwa [readQuoted_append tail hclosed]
  · exact sign_append h fun d hd => by rcases hhead d hd with rfl | rfl <;> decide

/-- A comment reaches to the end of its line, with the carriage returns there. -/
theorem Scans.comment {comment : List Char} (hbreak : '\n' ∉ comment) (htail : AtLineEnd tail)
    (h : Scans (pos + byteLength ('#' :: comment)) tail us) :
    Scans pos ('#' :: (comment ++ tail)) us := by
  obtain ⟨returns, rest, rfl, hreturns, hrest⟩ := htail
  have hall : ∀ d ∈ comment ++ returns, decide (d ≠ '\n') = true := by
    intro d hd
    rw [decide_eq_true_eq]
    rintro rfl
    rcases List.mem_append.1 hd with hd | hd
    · exact hbreak hd
    · exact absurd (hreturns _ hd) (by decide)
  rw [← List.append_assoc]
  refine .gap (lexeme_eq_gap.2 (Or.inr ⟨rfl, ?_⟩)) ?_
  · rw [takeWhile_append_of_head? _ fun d hd => by simp [hrest d hd],
      List.takeWhile_eq_self_iff.2 hall]
  · have hblanks : ∀ d ∈ returns, Text.isBlank d = true := fun d hd => by
      rw [hreturns d hd]
      decide
    simpa [Nat.add_assoc] using h.of_blanks hblanks

/-- A line has the same tokens whether or not the text goes on behind it. -/
theorem Scans.append {line : List Char} (hline : Scans pos line ts) (hbreak : '\n' ∉ line)
    (htail : AtLineEnd tail) (h : Scans (pos + byteLength line) tail us) :
    Scans pos (line ++ tail) (ts ++ us) := by
  induction hline with
  | nil => exact h
  | @token pos c cs rest t ts hc _ ih =>
    have hc' := lexeme_append hc htail
    rw [List.append_assoc] at hc'
    rw [List.cons_append, List.append_assoc, List.cons_append]
    refine .token hc' (ih (fun hmem => hbreak (by simp [hmem])) ?_)
    simpa [Nat.add_assoc] using h
  | @gap pos c cs rest ts hc hrest ih =>
    rcases lexeme_eq_gap.1 hc with ⟨hgap, hcs⟩ | ⟨rfl, hcs⟩
    · obtain rfl := List.length_eq_zero_iff.1 hcs
      refine .cons_gap hgap (ih (fun hmem => hbreak (by simp [hmem])) ?_)
      simpa [Nat.add_assoc] using h
    · have hall : ∀ d ∈ cs ++ rest, decide (d ≠ '\n') = true := by
        intro d hd
        rw [decide_eq_true_eq]
        rintro rfl
        exact hbreak (List.mem_cons_of_mem _ hd)
      obtain rfl : rest = [] := by
        rw [List.takeWhile_eq_self_iff.2 hall, List.length_append] at hcs
        exact List.length_eq_zero_iff.1 (by omega)
      cases hrest
      rw [List.append_nil] at h hbreak ⊢
      exact .comment (fun hmem => hbreak (List.mem_cons_of_mem _ hmem)) htail h

/-! ## Places -/

/-- The ranges come one after another between two offsets. -/
def InOrder {α : Type} (start stop : Nat) : List (Spanned α) → Prop
  | [] => start ≤ stop
  | x :: xs => start ≤ x.span.start ∧ x.span.start ≤ x.span.stop ∧ InOrder x.span.stop stop xs

namespace InOrder

variable {α : Type} {start mid stop : Nat} {xs ys : List (Spanned α)}

theorem mono (h : InOrder mid stop xs) (hstart : start ≤ mid) : InOrder start stop xs := by
  cases xs with
  | nil => exact hstart.trans h
  | cons x xs => exact ⟨hstart.trans h.1, h.2⟩

/-- Ranges in order, and then others behind them. -/
theorem append (h : InOrder start mid xs) (h' : InOrder mid stop ys) :
    InOrder start stop (xs ++ ys) := by
  induction xs generalizing start with
  | nil => exact h'.mono h
  | cons x xs ih => exact ⟨h.1, h.2.1, ih h.2.2⟩

theorem start_le_stop (h : InOrder start stop xs) : start ≤ stop := by
  induction xs generalizing start with
  | nil => exact h
  | cons x xs ih => exact h.1.trans (h.2.1.trans (ih h.2.2))

/-- Each range lies between the offsets. -/
theorem mem {x : Spanned α} (h : InOrder start stop xs) (hx : x ∈ xs) :
    start ≤ x.span.start ∧ x.span.stop ≤ stop := by
  induction xs generalizing start with
  | nil => cases hx
  | cons y ys ih =>
    rcases List.mem_cons.1 hx with rfl | hx
    · exact ⟨h.1, h.2.2.start_le_stop⟩
    · obtain ⟨hstart, hstop⟩ := ih h.2.2 hx
      exact ⟨h.1.trans (h.2.1.trans hstart), hstop⟩

end InOrder

/-- The tokens of a text come one after another within it. -/
theorem Scans.inOrder (h : Scans pos text ts) : InOrder pos (pos + byteLength text) ts := by
  induction h with
  | nil => exact Nat.le_add_right _ _
  | @gap pos c cs rest ts _ _ ih =>
    have h := ih.mono (Nat.le_add_right pos _)
    simpa [Nat.add_assoc] using h
  | token _ _ ih =>
    refine ⟨le_rfl, Nat.le_add_right _ _, ?_⟩
    simpa [Nat.add_assoc] using ih

/-- No token of a text stands for layout. -/
theorem isLayout_of_lexeme (h : lexeme c rest = (.token t, n)) : t.isLayout = false := by
  have hword (word : String) : (Token.ofWord word).isLayout = false := by
    unfold Token.ofWord
    split <;> rfl
  unfold lexeme at h
  split_ifs at h with hgap hcomment hstart hdigit hquote
  · simp at h
  · simp at h
  · simp only [Prod.mk.injEq, Lexeme.token.injEq] at h
    rw [← h.1, hword]
  · have hfound := congrArg Prod.fst h
    dsimp only at hfound
    split_ifs at hfound
    cases hfound
    rfl
  · have hfound := congrArg Prod.fst h
    dsimp only at hfound
    split_ifs at hfound
    cases hfound
    rfl
  · unfold sign at h
    split at h <;> cases h <;> rfl

/-- Scanning gives no tokens of layout. -/
theorem Scans.isLayout_eq_false (h : Scans pos text ts) : ∀ t ∈ ts, t.node.isLayout = false := by
  induction h with
  | nil => exact List.forall_mem_nil _
  | gap _ _ ih => exact ih
  | token hc _ ih => exact List.forall_mem_cons.2 ⟨isLayout_of_lexeme hc, ih⟩

end Precond.Grammar
