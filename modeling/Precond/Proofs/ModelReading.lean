import Mathlib.Tactic
import Precond.Proofs.LayoutTokens
import Precond.Proofs.ModelEntries
import Precond.Proofs.SpacedTexts
import Precond.Smt.Process

/-!
# Reading models by lines

A model that a process writes is read line by line, without the blanks at the ends of the lines,
until all parentheses are closed. Up to its last character a model has an open parenthesis
(`one_le_nesting`), so reading stops with its last line (`receiveBalanced_lines`), and the lines
together are the model respaced (`exists_trimLines`). What is read is therefore what the entries
assign (`reads_back`), and what the process writes next is not touched.
-/

namespace Precond.Smt.Model

open Text

variable {a b cs inner rest : List Char} {d e : Nat}

/-! ## Reading by lines -/

open Conversation (nesting receive receiveBalanced)

theorem nesting_append (a b : List Char) : nesting (a ++ b) = nesting a + nesting b := by
  simp only [nesting, List.count_append]
  omega

/-- Blanks do not matter to the nesting of a text. -/
theorem nesting_of_solids (h : solids a = solids b) : nesting a = nesting b := by
  have hcount (c : Char) (hc : isBlank c = false) : a.count c = b.count c := by
    have hkeep (l : List Char) : (solids l).count c = l.count c :=
      List.count_filter (by simp [hc])
    rw [← hkeep a, h, hkeep b]
  rw [nesting, nesting, hcount '(' rfl, hcount ')' rfl]

/-- The nesting of a text is the number of parentheses that it leaves open. -/
theorem nesting_eq (h : openAfter? d cs = some e) : nesting cs = e - d := by
  fun_induction openAfter? d cs with
  | case1 => simp_all [nesting]
  | case2 d cs ih =>
    have := ih h
    simp [nesting] at *
    omega
  | case3 => simp at h
  | case4 cs _ d ih =>
    have := ih h
    simp [nesting] at *
    omega
  | case5 d c cs hopen hclose ih =>
    have := ih h
    simp [nesting, hopen, hclose] at *
    omega

/-- Before its last character a balanced text is open. -/
theorem one_le_nesting {rest : List Char} (hinner : openAfter? 0 inner = some 0) (ha : a ≠ [])
    (hrest : rest ≠ []) (h : a ++ rest = '(' :: (inner ++ [')'])) : 1 ≤ nesting a := by
  obtain ⟨c, a, rfl⟩ := List.exists_cons_of_ne_nil ha
  obtain ⟨rest, last, rfl⟩ := (List.eq_nil_or_concat rest).resolve_left hrest
  obtain ⟨rfl, htail⟩ := List.cons.inj h
  rw [List.append_eq, List.concat_eq_append, ← List.append_assoc] at htail
  obtain ⟨rfl, -⟩ := List.append_inj' htail rfl
  rw [openAfter?_append] at hinner
  obtain ⟨depth, hdepth, -⟩ := Option.bind_eq_some_iff.1 hinner
  have hnesting := nesting_eq hdepth
  have hcons : nesting ('(' :: a) = nesting ['('] + nesting a := nesting_append ['('] a
  have hone : nesting ['('] = 1 := by decide
  omega

/-- One more line is read. It is the last one if no parenthesis is open by then and not only blanks
were read. -/
theorem receiveBalanced_cons (depth : Int) (text : List Char) (n : Nat) (line : List Char)
    (lines : List (List Char)) (traffic : List String) :
    ∃ traffic', (receiveBalanced depth text (n + 1)).run.run ⟨line :: lines, traffic⟩ =
      if depth + nesting (trim line) ≤ 0 ∧ trim (text ++ trim line ++ ['\n']) ≠ [] then
        (.ok (text ++ trim line ++ ['\n']), ⟨lines, traffic'⟩)
      else (receiveBalanced (depth + nesting (trim line)) (text ++ trim line ++ ['\n']) n).run.run
        ⟨lines, traffic'⟩ := by
  refine ⟨("< " ++ String.ofList (trim line)) :: traffic, ?_⟩
  have hread : (receiveBalanced depth text (n + 1)).run.run ⟨line :: lines, traffic⟩ =
      (if depth + nesting (String.ofList (trim line)).toList ≤ 0 &&
          !(trim (text ++ (String.ofList (trim line)).toList ++ ['\n'])).isEmpty then
        pure (text ++ (String.ofList (trim line)).toList ++ ['\n'])
      else receiveBalanced (depth + nesting (String.ofList (trim line)).toList)
        (text ++ (String.ofList (trim line)).toList ++ ['\n']) n :
          Solving Conversation (List Char)).run.run
        ⟨lines, ("< " ++ String.ofList (trim line)) :: traffic⟩ := rfl
  rw [hread, String.toList_ofList]
  simp only [Bool.and_eq_true, decide_eq_true_eq, Bool.not_eq_true', List.isEmpty_eq_false_iff]
  split_ifs <;> rfl

theorem solids_trim (a : List Char) : solids (trim a) = solids a := by
  rcases exists_trim a with hblanks | ⟨g, z, ha, hg, hz, -, -⟩
  · rw [trim_blanks hblanks, hblanks.solids_eq]
    rfl
  · conv_rhs => rw [ha]
    simp [hg.solids_eq, hz.solids_eq]

/-- A whole model leaves no parenthesis open. -/
theorem nesting_closed (hinner : openAfter? 0 inner = some 0) {tail : List Char}
    (htail : Blanks tail) : nesting ('(' :: (inner ++ [')']) ++ tail) = 0 := by
  have hclosed : openAfter? 0 ('(' :: (inner ++ [')'])) = some 0 := by
    have hinner := openAfter?_add hinner 1
    simp only [Nat.zero_add] at hinner
    simp [openAfter?, openAfter?_append, hinner]
  rw [nesting_append, nesting_eq hclosed, nesting_of_solids (a := tail) (b := []) htail.solids_eq]
  rfl

/-- A line break with more behind it stands in front of the last parenthesis. -/
theorem exists_of_line_break {tail : List Char}
    (h : a ++ ['\n'] ++ rest = b ++ [')'] ++ tail) (hrest : rest ≠ [])
    (hbreak : '\n' ∉ tail.dropLast) : ∃ r, r ≠ [] ∧ a ++ ['\n'] ++ r = b ++ [')'] := by
  have hne (x y : List Char) : x ++ ['\n'] ≠ y ++ [')'] := by
    intro heq
    have hlast := (List.append_inj' heq rfl).2
    exact absurd hlast (by decide)
  rcases List.append_eq_append_iff.1 h with ⟨r, hr, -⟩ | ⟨r, hr, rfl⟩
  · refine ⟨r, ?_, hr.symm⟩
    rintro rfl
    exact hne a b (by simpa using hr.symm)
  · have hmem : '\n' ∈ r := by
      rcases List.eq_nil_or_concat r with rfl | ⟨r, last, rfl⟩
      · rw [List.append_nil] at hr
        exact absurd hr (hne a b)
      · rw [List.concat_eq_append, ← List.append_assoc] at hr
        rw [List.concat_eq_append, ← (List.append_inj' hr rfl).2]
        simp
    rw [List.dropLast_append_of_ne_nil hrest] at hbreak
    exact absurd (List.mem_append_left _ hmem) hbreak

/-- A text that is open to its last character is read to its last line. -/
theorem receiveBalanced_lines {lines : List (List Char)} (hlines : Grammar.AreLines lines)
    (hne : lines ≠ []) (hnil : [] ∉ lines) (hinner : openAfter? 0 inner = some 0)
    {tail : List Char} (htail : Blanks tail) (hbreak : '\n' ∉ tail.dropLast)
    {before text : List Char}
    (hwhole : before ++ lines.flatten = '(' :: (inner ++ [')']) ++ tail)
    (htext : solids text = solids before) {n : Nat} (hn : lines.length ≤ n)
    (later : List (List Char)) (traffic : List String) :
    ∃ traffic', (receiveBalanced (nesting before) text n).run.run ⟨lines ++ later, traffic⟩ =
      (.ok (text ++ trimLines lines), ⟨later, traffic'⟩) := by
  induction hlines generalizing before text n traffic with
  | nil => exact absurd rfl hne
  | @cons line newline lines hline hnewline hlines ih =>
    obtain ⟨n, rfl⟩ : ∃ m, n = m + 1 := ⟨n - 1, by simp at hn; omega⟩
    obtain ⟨traffic₁, hstep⟩ :=
      receiveBalanced_cons (nesting before) text n (line ++ newline) (lines ++ later) traffic
    have hnesting : nesting before + nesting (trim (line ++ newline)) =
        nesting (before ++ (line ++ newline)) := by
      rw [nesting_append, nesting_of_solids (solids_trim (line ++ newline))]
    have hsolids : solids (text ++ trim (line ++ newline) ++ ['\n']) =
        solids (before ++ (line ++ newline)) := by
      rw [solids_append, solids_append, htext, solids_trim, solids_append before]
      exact List.append_nil _
    rw [hnesting] at hstep
    rw [List.cons_append, hstep]
    rcases eq_or_ne lines [] with rfl | hmore
    · have hend : before ++ (line ++ newline) = '(' :: (inner ++ [')']) ++ tail := by
        simpa using hwhole
      have hwritten : trim (text ++ trim (line ++ newline) ++ ['\n']) ≠ [] := by
        intro hempty
        rw [← solids_trim, hempty, hend, List.cons_append, solids_cons_of_solid rfl] at hsolids
        cases hsolids
      rw [if_pos ⟨by rw [hend, nesting_closed hinner htail], hwritten⟩]
      exact ⟨traffic₁, by simp [trimLines]⟩
    · have hopen : 1 ≤ nesting (before ++ (line ++ newline)) := by
        obtain rfl := hnewline.resolve_right fun hlast => hmore hlast.2
        have hrest : lines.flatten ≠ [] := by
          obtain ⟨l, ls, rfl⟩ := List.exists_cons_of_ne_nil hmore
          have hl : l ≠ [] := by
            rintro rfl
            simp at hnil
          simp [hl]
        have hsplit : (before ++ line) ++ ['\n'] ++ lines.flatten =
            ('(' :: inner) ++ [')'] ++ tail := by
          simpa using hwhole
        obtain ⟨rest, hne, hinside⟩ := exists_of_line_break hsplit hrest hbreak
        exact one_le_nesting hinner (by simp) hne (by simpa using hinside)
      rw [if_neg (by omega)]
      obtain ⟨traffic₂, hrest⟩ := ih hmore (fun hmem => hnil (List.mem_cons_of_mem _ hmem))
        (by simpa using hwhole) hsolids (Nat.le_of_succ_le_succ hn) traffic₁
      exact ⟨traffic₂, by rw [hrest]; simp [trimLines]⟩

/-- No line that a text is split into is empty. -/
theorem nil_notMem_linesFrom (line cs : List Char) : [] ∉ linesFrom line cs := by
  induction cs generalizing line with
  | nil =>
    rw [linesFrom]
    split_ifs with hline <;> simp_all
  | cons c cs ih =>
    rw [linesFrom]
    split_ifs <;> simp [ih]

/-- The answer to a request for a model is read as one, unless it is an error. -/
theorem model_eq {lines : List (List Char)} {traffic : List String} {text : List Char}
    {c : Conversation}
    (h : (receiveBalanced 0 [] (lines.length + 1)).run.run ⟨lines, "> (get-model)" :: traffic⟩ =
      (.ok text, c))
    (hmodel : dropLead? "(error".toList (trimLeft text) = none) :
    Conversation.model.run.run ⟨lines, traffic⟩ = (parse text, c) := by
  have hrun : Conversation.model.run.run ⟨lines, traffic⟩ =
      ((receiveBalanced 0 [] (lines.length + 1) >>= fun text => do
        if (dropLead? "(error".toList (trimLeft text)).isSome then
          throw (.rejected "(get-model)" (String.ofList (trim text)))
        ExceptT.mk (pure (parse text)) : Solving Conversation Model)).run.run
          ⟨lines, "> (get-model)" :: traffic⟩ := rfl
  rw [hrun, ExceptT.run_bind, StateT.run_bind, h]
  change StateT.run (ExceptT.run (ite _ _ _)) c = _
  rw [if_neg (by rw [hmodel]; decide)]
  rfl

/-- The lines of a model without the blanks at their ends are a respaced model. -/
theorem exists_trimLines {tail : List Char} (htail : Blanks tail) (inner : List Char) :
    ∃ g t z, trimLines (splitLines ('(' :: (inner ++ [')']) ++ tail)) =
        g ++ ('(' :: (t ++ [')']) ++ z) ∧
      Blanks g ∧ Respaced ('\n' ∈ ·) inner t ∧ Blanks z := by
  have hgap : IsGap ['\n'] := by decide
  have hspaced := respaced_lines (Grammar.areLines_splitLines ('(' :: (inner ++ [')']) ++ tail))
    hgap (by simp) hgap
  rw [flatten_splitLines] at hspaced
  generalize trimLines (splitLines ('(' :: (inner ++ [')']) ++ tail)) = text at hspaced
  have hshape : ['\n'] ++ ('(' :: (inner ++ [')']) ++ tail ++ ['\n']) =
      ['\n'] ++ '(' :: (inner ++ ')' :: (tail ++ ['\n'])) := by
    simp
  rw [hshape] at hspaced
  obtain ⟨front, t₁, htext, hfront, h₁⟩ := hspaced.exists_of_solid rfl
  obtain ⟨t, z, rfl, ht, hz⟩ := h₁.exists_of_solid rfl
  have hfrontBlanks : Blanks front := blanks_of_solids (by rw [← hfront.solids_eq]; decide)
  have hzBlanks : Blanks z := by
    refine blanks_of_solids ?_
    rw [← hz.solids_eq, solids_append, htail.solids_eq]
    decide
  cases front with
  | nil => exact absurd (List.cons.inj htext).1 (by decide)
  | cons c g =>
    refine ⟨g, t, z, ?_, fun d hd => hfrontBlanks d (List.mem_cons_of_mem _ hd), ht, hzBlanks⟩
    simpa using (List.cons.inj htext).2

/-- However the entries of a model are laid out, reading its text and reading it by lines gives the
values of its variables, and no line behind it is read. -/
theorem reads_back {inner tail : List Char} {found : List (String × List Char)}
    (h : Entries inner found) (htail : Blanks tail) (hbreak : '\n' ∉ tail.dropLast) :
    ∃ m : Model, Assigns m found ∧ parse ('(' :: (inner ++ [')']) ++ tail) = .ok m ∧
      ∀ later traffic, ∃ traffic', Conversation.model.run.run
          ⟨splitLines ('(' :: (inner ++ [')']) ++ tail) ++ later, traffic⟩ =
        (.ok m, ⟨later, traffic'⟩) := by
  refine ⟨_, assigns_shownPairs found, h.parse_eq (g := []) (.refl inner) (by decide) htail, ?_⟩
  intro later traffic
  obtain ⟨g, t, z, htext, hg, ht, hz⟩ := exists_trimLines htail inner
  have hwhole := flatten_splitLines ('(' :: (inner ++ [')']) ++ tail)
  have hnonempty : splitLines ('(' :: (inner ++ [')']) ++ tail) ≠ [] := by
    intro hnil
    rw [hnil] at hwhole
    cases hwhole
  have hlength : (splitLines ('(' :: (inner ++ [')']) ++ tail)).length ≤
      (splitLines ('(' :: (inner ++ [')']) ++ tail) ++ later).length + 1 := by
    rw [List.length_append]
    omega
  rw [← List.nil_append (splitLines _).flatten] at hwhole
  obtain ⟨traffic', hread⟩ := receiveBalanced_lines (Grammar.areLines_splitLines _) hnonempty
    (nil_notMem_linesFrom [] _) h.openAfter?_eq htail hbreak hwhole (Eq.refl (solids [])) hlength
    later ("> (get-model)" :: traffic)
  refine ⟨traffic', ?_⟩
  have hhead := h.solids_head
  rw [ht.solids_eq] at hhead
  have hnoError :
      dropLead? "(error".toList (trimLeft (g ++ ('(' :: (t ++ [')']) ++ z))) = none := by
    rw [trimLeft_append hg, trimLeft_of_starts ⟨'(', rfl, rfl⟩]
    simpa using dropLead?_word (c := 'e') rfl (by decide) (by decide) hhead z
  rw [List.nil_append, htext] at hread
  rw [model_eq hread hnoError, h.parse_eq ht hg hz]

theorem Entries.cast {found : List (String × List Char)} (h : Entries a found) (heq : b = a) :
    Entries b found :=
  heq ▸ h

/-- A negative number under a name between bars, a helper with a parameter, and an array over
several lines. -/
def threeEntries : List Char :=
  "\n  (define-fun |v_x'| () Int\n    (- 3))\n".toList ++
    "  (define-fun len_Int ((a (Array Int Int))) Int 0)\n".toList ++
    "  (define-fun v_a ()\n    (Array Int Int)\n    ".toList ++
    "(store ((as const\n (Array Int Int)) 0) 1\n 7))\n".toList

/-- The value of the array in `threeEntries`. -/
def brokenArray : List Char :=
  '(' :: ("store ((as const\n (Array Int Int)) 0) 1\n 7".toList ++ [')'])

theorem entries_threeEntries :
    Entries threeEntries [("x'", "(- 3)".toList), ("a", brokenArray)] := by
  have hnegative : IsTerm "(- 3)".toList := @IsTerm.group "- 3".toList (by decide)
  have harray : IsTerm brokenArray := .group (by decide)
  have hgap : Blanks "\n  ".toList := by decide
  have hname (cs : List Char) (h : cs.all fun c => c.isAlphanum || c ∈ ['_', '$', '\'']) :
      ∀ c ∈ cs, c.isAlphanum = true ∨ c ∈ ['_', '$', '\''] := by simpa using h
  have hx := @Body.constant "x'" "|v_x'|".toList _ _ [' '] [' '] "\n    ".toList [] (by decide)
    (hname _ (by decide)) (by decide) (isTerm_render .int) hnegative (by decide) (by decide)
    (by decide) (by decide)
  have hlen := @Body.helper "len_Int".toList [' '] "(a (Array Int Int))".toList " Int 0".toList
    (by decide) (by decide) (by decide) (by decide) (by decide)
  have ha := @Body.constant "a" "v_a".toList _ _ [' '] "\n    ".toList "\n    ".toList []
    (by decide) (hname _ (by decide)) (by decide) (isTerm_render (.array .int)) harray (by decide)
    (by decide) (by decide) (by decide)
  have hend : Blanks "\n".toList := by decide
  exact (Entries.cons hgap hx (.cons hgap hlen (.cons hgap ha (.nil hend)))).cast (by decide +kernel)

/-- The three entries are read back, from a text and from a solver. -/
theorem reads_back_threeEntries :
    Entries threeEntries [("x'", "(- 3)".toList), ("a", brokenArray)] ∧
      ∃ m : Model, Assigns m [("x'", "(- 3)".toList), ("a", brokenArray)] ∧
        parse ('(' :: (threeEntries ++ [')']) ++ " \n".toList) = .ok m ∧
        ∀ later traffic, ∃ traffic', Conversation.model.run.run
            ⟨splitLines ('(' :: (threeEntries ++ [')']) ++ " \n".toList) ++ later, traffic⟩ =
          (.ok m, ⟨later, traffic'⟩) :=
  ⟨entries_threeEntries, reads_back entries_threeEntries (by decide) (by decide)⟩

end Precond.Smt.Model
