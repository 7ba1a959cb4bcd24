import Mathlib.Tactic
import Precond.Proofs.LayoutTokens
import Precond.Text.Blank
import Precond.Text.Lines

/-!
# Texts that differ in their white space

`Respaced P a b` says that `b` is the text `a` with some of its gaps replaced by others, where a
gap may be replaced if it satisfies `P`. Such texts have the same words (`Respaced.words_eq`) and
the same characters but for the blanks (`Respaced.solids_eq`), and where the one is cut at a
character that is not blank, so is the other (`Respaced.exists_of_solid`).

Two ways of changing a text do no more than this. `collapse` makes every gap a space
(`respaced_collapse`), and reading a text by lines without the blanks at their ends changes the gaps
with a line break in them (`respaced_lines`).
-/

namespace Precond.Text

variable {a b g word rest : List Char} {c : Char}

/-- All characters are blank. -/
def Blanks (cs : List Char) : Prop := ∀ c ∈ cs, isBlank c = true

/-- No character is blank. -/
def Solid (cs : List Char) : Prop := ∀ c ∈ cs, isBlank c = false

/-- Blanks, of which there is at least one. -/
def IsGap (cs : List Char) : Prop := cs ≠ [] ∧ Blanks cs

instance (cs : List Char) : Decidable (Blanks cs) := List.decidableBAll _ cs

instance (cs : List Char) : Decidable (Solid cs) := List.decidableBAll _ cs

instance (cs : List Char) : Decidable (IsGap cs) := inferInstanceAs (Decidable (_ ∧ _))

theorem Blanks.append (ha : Blanks a) (hb : Blanks b) : Blanks (a ++ b) :=
  List.forall_mem_append.2 ⟨ha, hb⟩

/-! ## Words -/

/-- Characters that are not blank go on with the word. -/
theorem wordsFrom_solid (hsolid : Solid a) (word rest : List Char) :
    wordsFrom word (a ++ rest) = wordsFrom (a.reverse ++ word) rest := by
  induction a generalizing word with
  | nil => rfl
  | cons c a ih =>
    obtain ⟨hc, ha⟩ := List.forall_mem_cons.1 hsolid
    rw [List.cons_append, wordsFrom, if_neg (by simp [hc]), ih ha]
    simp

/-- Behind a blank the words start anew. -/
theorem wordsFrom_append_cons (hc : isBlank c = true) (word a b : List Char) :
    wordsFrom word (a ++ c :: b) = wordsFrom word a ++ words b := by
  induction a generalizing word with
  | nil =>
    simp only [List.nil_append, wordsFrom, hc, if_true]
    split_ifs <;> rfl
  | cons d a ih =>
    simp only [List.cons_append, wordsFrom]
    split_ifs <;> simp [ih]

theorem wordsFrom_append_gap (hg : IsGap g) (word a b : List Char) :
    wordsFrom word (a ++ (g ++ b)) = wordsFrom word a ++ words b := by
  obtain ⟨hne, hblanks⟩ := hg
  induction g generalizing word a with
  | nil => exact absurd rfl hne
  | cons c g ih =>
    obtain ⟨hc, hg⟩ := List.forall_mem_cons.1 hblanks
    rw [List.cons_append, wordsFrom_append_cons hc]
    cases g with
    | nil => rfl
    | cons d g => rw [words, ← List.nil_append (d :: g ++ b), ih [] [] (by simp) hg]; rfl

/-- A gap divides the words of a text. -/
theorem words_append_gap (hg : IsGap g) (a b : List Char) :
    words (a ++ (g ++ b)) = words a ++ words b :=
  wordsFrom_append_gap hg [] a b

/-- Blanks in front of a text do not change its words. -/
theorem words_blanks_append (hg : Blanks g) (b : List Char) : words (g ++ b) = words b := by
  cases g with
  | nil => rfl
  | cons c g => exact words_append_gap ⟨List.cons_ne_nil c g, hg⟩ [] b

/-- Blanks behind a text do not change its words. -/
theorem words_append_blanks (hg : Blanks g) (a : List Char) : words (a ++ g) = words a := by
  cases g with
  | nil => rw [List.append_nil]
  | cons c g => simpa [words, wordsFrom] using words_append_gap ⟨List.cons_ne_nil c g, hg⟩ a []

/-- A text without blanks is one word. -/
theorem words_solid (hne : a ≠ []) (hsolid : Solid a) : words a = [a] := by
  rw [words, ← List.append_nil a, wordsFrom_solid hsolid]
  simp [wordsFrom, hne]

/-- A text without blanks is left alone. -/
theorem collapse_solid (hne : a ≠ []) (hsolid : Solid a) : collapse a = a := by
  rw [collapse, words_solid hne hsolid, List.intercalate_singleton]

theorem intercalate_append {ws vs : List (List Char)} (hws : ws ≠ []) (hvs : vs ≠ []) :
    [' '].intercalate (ws ++ vs) = [' '].intercalate ws ++ ' ' :: [' '].intercalate vs := by
  induction ws with
  | nil => exact absurd rfl hws
  | cons w ws ih =>
    cases ws with
    | nil =>
      obtain ⟨v, vs, rfl⟩ := List.exists_cons_of_ne_nil hvs
      simp [List.intercalate_cons_cons]
    | cons w' ws =>
      rw [List.cons_append, List.cons_append, List.intercalate_cons_cons, ← List.cons_append,
        ih (List.cons_ne_nil _ _), List.intercalate_cons_cons]
      simp

/-- Two texts that have words, with a gap between them. -/
theorem collapse_append_gap (ha : words a ≠ []) (hg : IsGap g) (hb : words b ≠ []) :
    collapse (a ++ (g ++ b)) = collapse a ++ ' ' :: collapse b := by
  rw [collapse, words_append_gap hg, intercalate_append ha hb]
  rfl

/-- Blanks behind a text are dropped. -/
theorem collapse_append_blanks (hg : Blanks g) (a : List Char) :
    collapse (a ++ g) = collapse a := by
  rw [collapse, words_append_blanks hg, collapse]

/-! ## Changes of white space -/

/-- The second text is the first one with some gaps that satisfy `P` replaced by other gaps. -/
inductive Respaced (P : List Char → Prop) : List Char → List Char → Prop
  | nil : Respaced P [] []
  | keep {c : Char} {a b : List Char} (h : Respaced P a b) : Respaced P (c :: a) (c :: b)
  | gap {g g' a b : List Char} (hP : P g) (hg : IsGap g) (hg' : IsGap g') (h : Respaced P a b) :
      Respaced P (g ++ a) (g' ++ b)

/-- The characters of a text that are not blank. -/
def solids (cs : List Char) : List Char := cs.filter (!isBlank ·)

@[simp] theorem solids_append (a b : List Char) : solids (a ++ b) = solids a ++ solids b :=
  List.filter_append ..

theorem solids_cons_of_solid (hc : isBlank c = false) (a : List Char) :
    solids (c :: a) = c :: solids a := by
  simp [solids, hc]

theorem solids_cons_of_blank (hc : isBlank c = true) (a : List Char) :
    solids (c :: a) = solids a := by
  simp [solids, hc]

/-- Of blanks nothing is left without the blanks. -/
theorem Blanks.solids_eq (h : Blanks g) : solids g = [] := by
  rw [solids, List.filter_eq_nil_iff]
  intro c hc
  simp [h c hc]

/-- A text of which nothing is left without its blanks is blank. -/
theorem blanks_of_solids (h : solids a = []) : Blanks a := by
  rw [solids, List.filter_eq_nil_iff] at h
  intro c hc
  simpa using h c hc

namespace Respaced

variable {P : List Char → Prop}

theorem refl (a : List Char) : Respaced P a a := by
  induction a with
  | nil => exact .nil
  | cons c a ih => exact .keep ih

/-- Another text may stand in front, with the spaces that it has. -/
theorem append_left (h : Respaced P a b) (cs : List Char) : Respaced P (cs ++ a) (cs ++ b) := by
  induction cs with
  | nil => exact h
  | cons c cs ih => exact .keep ih

theorem wordsFrom_eq (h : Respaced P a b) (word : List Char) :
    wordsFrom word a = wordsFrom word b := by
  induction h generalizing word with
  | nil => rfl
  | keep h ih => simp only [wordsFrom, ih]
  | @gap g g' a b _ hg hg' h ih =>
    rw [← List.nil_append (g ++ a), ← List.nil_append (g' ++ b), wordsFrom_append_gap hg,
      wordsFrom_append_gap hg', words, ih]
    rfl

/-- The words of a text do not depend on its gaps. -/
theorem words_eq (h : Respaced P a b) : words a = words b := h.wordsFrom_eq []

/-- Changing gaps changes nothing but blanks. -/
theorem solids_eq (h : Respaced P a b) : solids a = solids b := by
  induction h with
  | nil => rfl
  | @keep c _ _ _ ih => rw [← List.singleton_append, solids_append, ih, ← solids_append]; rfl
  | gap _ hg hg' _ ih => rw [solids_append, solids_append, hg.2.solids_eq, hg'.2.solids_eq, ih]

/-- A text that is cut at a character that is not blank. -/
theorem exists_of_solid {t : List Char} (h : Respaced P (a ++ c :: b) t) (hc : isBlank c = false) :
    ∃ a' b', t = a' ++ c :: b' ∧ Respaced P a a' ∧ Respaced P b b' := by
  generalize hs : a ++ c :: b = s at h
  induction h generalizing a with
  | nil => simp at hs
  | @keep d s t h ih =>
    cases a with
    | nil =>
      obtain ⟨rfl, rfl⟩ := List.cons.inj hs
      exact ⟨[], t, rfl, .nil, h⟩
    | cons e a =>
      obtain ⟨rfl, htail⟩ := List.cons.inj hs
      obtain ⟨a', b', rfl, ha, hb⟩ := ih htail
      exact ⟨e :: a', b', rfl, .keep ha, hb⟩
  | @gap g g' s t hP hg hg' h ih =>
    rcases List.append_eq_append_iff.1 hs with ⟨front, rfl, hfront⟩ | ⟨more, rfl, hmore⟩
    · -- The gap would have to hold the character.
      cases front with
      | nil =>
        obtain ⟨a', b', rfl, ha, hb⟩ := ih (a := []) hfront
        refine ⟨g' ++ a', b', by simp, ?_, hb⟩
        simpa using Respaced.gap hP hg hg' ha
      | cons d front =>
        obtain ⟨rfl, -⟩ := List.cons.inj hfront
        exact absurd (hg.2 c (by simp)) (by simp [hc])
    · obtain ⟨a', b', rfl, ha, hb⟩ := ih hmore.symm
      exact ⟨g' ++ a', b', by simp, .gap hP hg hg' ha, hb⟩

theorem eq_nil {t : List Char} (h : Respaced P [] t) : t = [] := by
  generalize hs : ([] : List Char) = s at h
  cases h with
  | nil => rfl
  | keep => cases hs
  | gap _ hg => exact absurd (List.append_eq_nil_iff.1 hs.symm).1 hg.1

/-- A text without blanks stays as it is, in front of what is respaced. -/
theorem exists_of_solids {t : List Char} (h : Respaced P (a ++ b) t) (ha : Solid a) :
    ∃ b', t = a ++ b' ∧ Respaced P b b' := by
  induction a generalizing t with
  | nil => exact ⟨t, rfl, h⟩
  | cons c a ih =>
    obtain ⟨hc, ha⟩ := List.forall_mem_cons.1 ha
    obtain ⟨front, t, rfl, hfront, ht⟩ := exists_of_solid (a := []) h hc
    obtain rfl := hfront.eq_nil
    obtain ⟨b', rfl, hb⟩ := ih ht ha
    exact ⟨b', rfl, hb⟩

/-- A single blank that may not be replaced. -/
theorem eq_singleton {t : List Char} (h : Respaced P [c] t) (hP : ¬P [c]) : t = [c] := by
  generalize hs : [c] = s at h
  cases h with
  | nil => cases hs
  | keep h =>
    obtain ⟨rfl, rfl⟩ := List.cons.inj hs
    rw [h.eq_nil]
  | gap hP' hg _ h =>
    obtain ⟨hne, -⟩ := hg
    rcases List.singleton_eq_append_iff.1 hs with ⟨rfl, -⟩ | ⟨rfl, -⟩
    · exact absurd rfl hne
    · exact absurd hP' hP

end Respaced

/-! ## Collapsing -/

/-- A text that starts with a character that is not blank. -/
def Starts (cs : List Char) : Prop := ∃ c ∈ cs.head?, isBlank c = false

/-- A text that ends with a character that is not blank. -/
def Ends (cs : List Char) : Prop := ∃ c ∈ cs.getLast?, isBlank c = false

/-- A text begins with blanks, perhaps none, and then with something else. -/
theorem exists_blanks (a : List Char) :
    ∃ g b, a = g ++ b ∧ Blanks g ∧ ∀ c ∈ b.head?, isBlank c = false := by
  induction a with
  | nil => exact ⟨[], [], rfl, by simp [Blanks], by simp⟩
  | cons c a ih =>
    cases hc : isBlank c with
    | false => exact ⟨[], c :: a, rfl, by simp [Blanks], by simp [hc]⟩
    | true =>
      obtain ⟨g, b, rfl, hg, hb⟩ := ih
      exact ⟨c :: g, b, rfl, List.forall_mem_cons.2 ⟨hc, hg⟩, hb⟩

/-- Behind the first word a text ends, but for blanks, or there is a gap. -/
theorem exists_word (h : Starts a) :
    ∃ w g b, a = w ++ (g ++ b) ∧ w ≠ [] ∧ Solid w ∧ Blanks g ∧ (b = [] ∨ g ≠ [] ∧ Starts b) := by
  induction a with
  | nil => simp [Starts] at h
  | cons c a ih =>
    have hc : isBlank c = false := by simpa [Starts] using h
    rcases a with - | ⟨d, a⟩
    · exact ⟨[c], [], [], rfl, by simp, by simp [Solid, hc], by simp [Blanks], .inl rfl⟩
    cases hd : isBlank d with
    | false =>
      obtain ⟨w, g, b, ha, -, hw, hrest⟩ := ih ⟨d, rfl, hd⟩
      exact ⟨c :: w, g, b, by rw [ha]; rfl, by simp, List.forall_mem_cons.2 ⟨hc, hw⟩, hrest⟩
    | true =>
      obtain ⟨g, b, ha, hg, hb⟩ := exists_blanks (d :: a)
      refine ⟨[c], g, b, by rw [ha]; rfl, by simp, by simp [Solid, hc], hg, ?_⟩
      rcases b with - | ⟨e, b⟩
      · exact .inl rfl
      refine .inr ⟨?_, e, rfl, hb e rfl⟩
      rintro rfl
      obtain ⟨rfl, -⟩ := List.cons.inj ha
      simp [hd] at hb

theorem Ends.of_append (h : Ends (a ++ b)) (hb : b ≠ []) : Ends b := by
  rwa [Ends, List.getLast?_append_of_ne_nil _ hb] at h

theorem Ends.eq_nil_of_blanks (h : Ends (a ++ g)) (hg : Blanks g) : g = [] := by
  by_contra hne
  obtain ⟨c, hc, hsolid⟩ := h.of_append hne
  simp [hg c (List.mem_of_getLast? hc)] at hsolid

theorem wordsFrom_ne_nil (hword : word ≠ []) (a : List Char) : wordsFrom word a ≠ [] := by
  induction a generalizing word with
  | nil => simp [wordsFrom, hword]
  | cons c a ih =>
    rw [wordsFrom]
    split_ifs with hc hempty
    · exact absurd (List.isEmpty_iff.1 hempty) hword
    · exact List.cons_ne_nil _ _
    · exact ih (List.cons_ne_nil _ _)

/-- A text that starts with something else than a blank has a word. -/
theorem words_ne_nil (h : Starts a) : words a ≠ [] := by
  obtain ⟨c, hc, hsolid⟩ := h
  obtain ⟨a, rfl⟩ := List.head?_eq_some_iff.1 hc
  rw [words, wordsFrom, if_neg (by simp [hsolid])]
  exact wordsFrom_ne_nil (List.cons_ne_nil _ _) a

/-- The text is a word, a gap and such a text again, unless it is one word. -/
theorem respaced_collapse (hstarts : Starts a) (hends : Ends a) :
    Respaced (fun _ => True) a (collapse a) := by
  induction hn : a.length using Nat.strong_induction_on generalizing a with
  | _ n ih =>
    obtain ⟨w, g, b, rfl, hw, hsolid, hg, rfl | ⟨hgap, hb⟩⟩ := exists_word hstarts
    · rw [List.append_nil] at hends ⊢
      rw [hends.eq_nil_of_blanks hg, List.append_nil, collapse_solid hw hsolid]
      exact .refl w
    · have hbne : b ≠ [] := by
        rintro rfl
        simp [Starts] at hb
      have hbends : Ends b := (hends.of_append (by simp [hbne])).of_append hbne
      have hlength : b.length < n := by
        have := List.length_pos_iff.2 hw
        simp only [List.length_append] at hn
        omega
      have hwords : words w ≠ [] := by simp [words_solid hw hsolid]
      rw [collapse_append_gap hwords ⟨hgap, hg⟩ (words_ne_nil hb), collapse_solid hw hsolid]
      have hrest := ih b.length hlength hb hbends rfl
      exact (Respaced.gap trivial ⟨hgap, hg⟩ (by decide : IsGap [' ']) hrest).append_left w

/-! ## Trimming -/

theorem trimLeft_append (hg : Blanks g) (b : List Char) : trimLeft (g ++ b) = trimLeft b :=
  List.dropWhile_append_of_pos hg

/-- Nothing is trimmed off a text that starts with something else than a blank. -/
theorem trimLeft_of_starts (h : Starts a) : trimLeft a = a := by
  obtain ⟨c, hc, hsolid⟩ := h
  obtain ⟨a, rfl⟩ := List.head?_eq_some_iff.1 hc
  exact List.dropWhile_cons_of_neg (by simp [hsolid])

/-- Trimming drops nothing but blanks. -/
theorem solids_trimLeft (a : List Char) : solids (trimLeft a) = solids a := by
  induction a with
  | nil => rfl
  | cons c a ih =>
    cases hc : isBlank c with
    | false => rw [trimLeft_of_starts ⟨c, rfl, hc⟩]
    | true => rw [solids_cons_of_blank hc, ← ih, trimLeft, List.dropWhile_cons_of_pos hc, trimLeft]

theorem Starts.append (h : Starts a) (b : List Char) : Starts (a ++ b) := by
  obtain ⟨c, hc, hsolid⟩ := h
  obtain ⟨a, rfl⟩ := List.head?_eq_some_iff.1 hc
  exact ⟨c, rfl, hsolid⟩

theorem Ends.starts_reverse (h : Ends a) : Starts a.reverse := by
  rwa [Starts, List.head?_reverse]

theorem trimRight_append (hends : Ends a) (hg : Blanks g) : trimRight (a ++ g) = a := by
  have hblanks : Blanks g.reverse := fun c hc => hg c (List.mem_reverse.1 hc)
  have hdrop : trimLeft (g.reverse ++ a.reverse) = a.reverse := by
    rw [trimLeft_append hblanks, trimLeft_of_starts hends.starts_reverse]
  rw [trimRight, dropWhileRight, List.reverse_append]
  exact (congrArg List.reverse hdrop).trans a.reverse_reverse

/-- What is trimmed is what stands between the blanks at both ends. -/
theorem trim_eq {z : List Char} (hg : Blanks g) (hstarts : Starts a) (hends : Ends a)
    (hz : Blanks z) : trim (g ++ (a ++ z)) = a := by
  rw [trim, trimLeft_append hg, trimLeft_of_starts (hstarts.append z), trimRight_append hends hz]

theorem trim_blanks (hg : Blanks g) : trim g = [] := by
  rw [trim, ← List.append_nil g, trimLeft_append hg]
  rfl

/-- Every text consists of the trimmed text and blanks around it. -/
theorem exists_trim (a : List Char) :
    Blanks a ∨ ∃ g z, a = g ++ (trim a ++ z) ∧ Blanks g ∧ Blanks z ∧
      Starts (trim a) ∧ Ends (trim a) := by
  obtain ⟨g, b, rfl, hg, hb⟩ := exists_blanks a
  obtain ⟨z, s, hs, hz, hlast⟩ := exists_blanks b.reverse
  have hbs : b = s.reverse ++ z.reverse := by rw [← List.reverse_append, ← hs, b.reverse_reverse]
  have hz' : Blanks z.reverse := fun c hc => hz c (List.mem_reverse.1 hc)
  rcases hs' : s with - | ⟨c, s'⟩
  · left
    rw [hbs, hs']
    exact hg.append hz'
  right
  have hends : Ends s.reverse := ⟨c, by simp [hs'], hlast c (by simp [hs'])⟩
  have hstarts : Starts s.reverse := by
    obtain ⟨d, s'', hd⟩ := List.exists_cons_of_ne_nil (l := s.reverse) (by simp [hs'])
    exact ⟨d, by simp [hd], hb d (by simp [hbs, hd])⟩
  rw [hbs, trim_eq hg hstarts hends hz']
  exact ⟨g, z.reverse, rfl, hg, hz', hstarts, hends⟩

/-- Collapsing drops nothing but blanks. -/
theorem solids_collapse (a : List Char) : solids (collapse a) = solids a := by
  rcases exists_trim a with hblanks | ⟨g, z, ha, hg, hz, hstarts, hends⟩
  · have hcollapse : collapse a = [] := by
      rw [← List.append_nil a, collapse, words_blanks_append hblanks]
      rfl
    rw [hcollapse, hblanks.solids_eq]
    rfl
  · have hcollapse : collapse a = collapse (trim a) := by
      rw [ha, collapse, words_blanks_append hg, words_append_blanks hz, collapse, ← ha]
    rw [hcollapse, ← (respaced_collapse hstarts hends).solids_eq]
    conv_rhs => rw [ha]
    simp [hg.solids_eq, hz.solids_eq]

/-! ## Reading by lines -/

/-- The lines of a text without the blanks at their ends, each with a line break. -/
def trimLines (lines : List (List Char)) : List Char :=
  lines.flatMap fun line => trim line ++ ['\n']

theorem Ends.append_left (h : Ends b) (a : List Char) : Ends (a ++ b) := by
  rw [Ends, List.getLast?_append_of_ne_nil]
  · exact h
  · rintro rfl
    simp [Ends] at h

/-- A blank at the end of a text does not belong to a part that ends otherwise. -/
theorem mem_of_append_singleton {z : List Char} (hc : isBlank c = true) (hends : Ends b)
    (h : a ++ [c] = b ++ z) : c ∈ z := by
  rcases List.eq_nil_or_concat z with rfl | ⟨z, d, rfl⟩
  · rw [List.append_nil] at h
    rw [← h] at hends
    simp [Ends, hc] at hends
  · rw [List.concat_eq_append, ← List.append_assoc] at h
    obtain ⟨-, hcd⟩ := List.append_inj' h rfl
    simp [List.singleton_inj.1 hcd]

/-- A gap that is replaced at a line break goes from the last word of a line to the first one of a
later line, so the gap `g` in front of the lines is carried along. -/
theorem respaced_lines {lines : List (List Char)} (hlines : Grammar.AreLines lines)
    {g' : List Char} (hg : IsGap g) (hbreak : '\n' ∈ g) (hg' : IsGap g') :
    Respaced ('\n' ∈ ·) (g ++ (lines.flatten ++ ['\n'])) (g' ++ trimLines lines) := by
  induction hlines generalizing g g' with
  | nil =>
    have hgap : IsGap (g ++ ['\n']) := ⟨by simp, hg.2.append (by decide)⟩
    simpa [trimLines] using Respaced.gap (by simp) hgap hg' .nil
  | @cons line newline lines hline hnewline hlines ih =>
    have hlast : trimLines ((line ++ newline) :: lines) =
        trim (line ++ newline) ++ (['\n'] ++ trimLines lines) := by
      simp [trimLines]
    rw [hlast, List.flatten_cons]
    rcases exists_trim (line ++ newline) with
      hblanks | ⟨lead, trail, hsplit, hlead, htrail, -, hends⟩
    · rw [trim_blanks hblanks, List.nil_append, ← List.append_assoc g',
        List.append_assoc _ _ ['\n'], ← List.append_assoc g]
      exact ih ⟨by simp [hg.1], hg.2.append hblanks⟩ (by simp [hbreak])
        ⟨by simp, hg'.2.append (by decide)⟩
    · generalize trim (line ++ newline) = core at *
      have hrest : Respaced ('\n' ∈ ·) (trail ++ (lines.flatten ++ ['\n']))
          (['\n'] ++ trimLines lines) := by
        rcases hnewline with rfl | ⟨rfl, rfl⟩
        · have hmem : '\n' ∈ trail := by
            rw [← List.append_assoc] at hsplit
            exact mem_of_append_singleton rfl (hends.append_left lead) hsplit
          exact ih ⟨List.ne_nil_of_mem hmem, htrail⟩ hmem (by decide)
        · have hgap : IsGap (trail ++ ['\n']) := ⟨by simp, htrail.append (by decide)⟩
          simpa [trimLines] using Respaced.gap (by simp) hgap (by decide : IsGap ['\n']) .nil
      have hgap : IsGap (g ++ lead) := ⟨by simp [hg.1], hg.2.append hlead⟩
      have h := Respaced.gap (by simp [hbreak]) hgap hg' (hrest.append_left core)
      rw [hsplit]
      simpa using h

end Precond.Text
