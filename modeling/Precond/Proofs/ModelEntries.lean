import Mathlib.Data.Prod.Lex
import Mathlib.Data.String.Basic
import Mathlib.Tactic
import Precond.Proofs.SpacedTexts
import Precond.Proofs.StoreInterpretation
import Precond.Smt.Model

/-!
# The entries of a model

The text of a model is a list of entries between parentheses. `Entries text found` says what such a
text is and which variables it gives which values. An entry is `entryLead`, a `Body` and a
parenthesis: either the constant of a program variable, its sort and its value (a term, `IsTerm`),
or a helper function that has parameters or another name.

Reading finds the end of an entry by counting parentheses outside bars, and `openAfter?` counts them
without regard to bars. In an entry both counts agree, since its name alone may stand between bars
(`Enclosed.sexpRest?_eq`). What is read does not depend on the white space (`Entries.parse_eq`): a
model that is respaced at its line breaks gives the same assignments, sorted (`Assigns`), with the
sign of a negative number in front (`Shown`).
-/

namespace Precond.Smt.Model

open Text

/-! ## Balanced texts -/

/-- How many parentheses are open behind a text if `depth` of them are open in front of it, and none
if one is closed that is not open. -/
def openAfter? (depth : Nat) : List Char → Option Nat
  | [] => some depth
  | c :: cs =>
    if c = '(' then openAfter? (depth + 1) cs
    else if c = ')' then
      match depth with
      | 0 => none
      | depth + 1 => openAfter? depth cs
    else openAfter? depth cs

/-- A text without bars in which every parenthesis has its partner. -/
def Balanced (cs : List Char) : Prop := '|' ∉ cs ∧ openAfter? 0 cs = some 0

instance (cs : List Char) : Decidable (Balanced cs) := inferInstanceAs (Decidable (_ ∧ _))

/-- A word without parentheses and bars. -/
def IsAtom (cs : List Char) : Prop :=
  cs ≠ [] ∧ ∀ c ∈ cs, isBlank c = false ∧ c ≠ '(' ∧ c ≠ ')' ∧ c ≠ '|'

instance (cs : List Char) : Decidable (IsAtom cs) :=
  @instDecidableAnd _ _ inferInstance (List.decidableBAll _ cs)

variable {a b cs inner rest : List Char} {d e : Nat}

/-- Parentheses are counted through one text and then through the other. -/
theorem openAfter?_append (d : Nat) (a b : List Char) :
    openAfter? d (a ++ b) = (openAfter? d a).bind (openAfter? · b) := by
  fun_induction openAfter? d a <;> simp_all [openAfter?]

/-- More parentheses that are open in front stay open behind. -/
theorem openAfter?_add (h : openAfter? d cs = some e) (n : Nat) :
    openAfter? (d + n) cs = some (e + n) := by
  fun_induction openAfter? d cs with
  | case1 => simp_all [openAfter?]
  | case2 d cs ih => simpa [openAfter?, Nat.add_right_comm] using ih h
  | case3 => simp at h
  | case4 cs _ d ih => simpa [openAfter?, Nat.add_right_comm] using ih h
  | case5 d c cs hopen hclose ih => simpa [openAfter?, hopen, hclose] using ih h

/-- Characters that are not parentheses open nothing. -/
theorem openAfter?_plain (h : ∀ c ∈ cs, c ≠ '(' ∧ c ≠ ')') (d : Nat) :
    openAfter? d cs = some d := by
  induction cs with
  | nil => rfl
  | cons c cs ih =>
    obtain ⟨⟨hopen, hclose⟩, hcs⟩ := List.forall_mem_cons.1 h
    simpa [openAfter?, hopen, hclose] using ih hcs

/-- Blanks do not matter to parentheses. -/
theorem openAfter?_solids (d : Nat) (cs : List Char) :
    openAfter? d (solids cs) = openAfter? d cs := by
  fun_induction openAfter? d cs with
  | case1 => rfl
  | case2 d cs ih => simpa [solids_cons_of_solid (c := '(') rfl, openAfter?] using ih
  | case3 cs => simp [solids_cons_of_solid (c := ')') rfl, openAfter?]
  | case4 cs _ d ih => simpa [solids_cons_of_solid (c := ')') rfl, openAfter?] using ih
  | case5 d c cs hopen hclose ih =>
    cases hc : isBlank c with
    | false => simpa [solids_cons_of_solid hc, openAfter?, hopen, hclose] using ih
    | true => simpa [solids, hc] using ih

/-- A balanced text leaves as many parentheses open as there were. -/
theorem Balanced.openAfter?_eq (h : Balanced cs) (d : Nat) : openAfter? d cs = some d := by
  simpa using openAfter?_add h.2 d

/-- A text stays balanced when only its blanks change. -/
theorem Balanced.of_solids (h : Balanced a) (heq : solids a = solids b) : Balanced b := by
  refine ⟨fun hbar => h.1 ?_, ?_⟩
  · have hmem : '|' ∈ solids b := List.mem_filter.2 ⟨hbar, by decide⟩
    rw [← heq] at hmem
    exact List.mem_of_mem_filter hmem
  · rw [← openAfter?_solids, ← heq, openAfter?_solids]
    exact h.2

theorem Balanced.append (ha : Balanced a) (hb : Balanced b) : Balanced (a ++ b) :=
  ⟨by simp [ha.1, hb.1], by simp [openAfter?_append, ha.2, hb.2]⟩

/-- A balanced text is one between parentheses too. -/
theorem Balanced.group (h : Balanced cs) : Balanced ('(' :: (cs ++ [')'])) := by
  refine ⟨by simp [h.1], ?_⟩
  simp [openAfter?, openAfter?_append, h.openAfter?_eq]

theorem IsAtom.balanced (h : IsAtom cs) : Balanced cs := by
  refine ⟨fun hbar => (h.2 _ hbar).2.2.2 rfl, openAfter?_plain (fun c hc => ?_) 0⟩
  exact ⟨(h.2 c hc).2.1, (h.2 c hc).2.2.1⟩

/-! ## The end of a balanced text -/

/-- The text was read with more parentheses open in front of it than it closes. -/
theorem sexpRest?_balanced (hbar : '|' ∉ cs) (h : openAfter? d cs = some e) (tail : List Char) :
    sexpRest? (d + 1) false (cs ++ tail) =
      (sexpRest? (e + 1) false tail).map fun p => (p.1 + cs.length, p.2) := by
  fun_induction openAfter? d cs with
  | case1 => simp_all
  | case2 d cs ih =>
    have hcs := ih (fun hc => hbar (List.mem_cons_of_mem _ hc)) h
    simp [sexpRest?, hcs, Function.comp_def, Nat.add_assoc]
  | case3 => simp at h
  | case4 cs _ d ih =>
    have hcs := ih (fun hc => hbar (List.mem_cons_of_mem _ hc)) h
    simp [sexpRest?, hcs, Function.comp_def, Nat.add_assoc]
  | case5 d c cs hopen hclose ih =>
    have hcs := ih (fun hc => hbar (List.mem_cons_of_mem _ hc)) h
    have hc : c ≠ '|' := fun hc => hbar (by simp [hc])
    simp [sexpRest?, hcs, hc, hopen, hclose, Function.comp_def, Nat.add_assoc]

/-- Between bars parentheses do not count. -/
theorem sexpRest?_barred (hbar : '|' ∉ cs) (d : Nat) (tail : List Char) :
    sexpRest? d true (cs ++ '|' :: tail) =
      (sexpRest? d false tail).map fun p => (p.1 + (cs.length + 1), p.2) := by
  induction cs with
  | nil => simp [sexpRest?]
  | cons c cs ih =>
    have hcs := ih (fun hc => hbar (List.mem_cons_of_mem _ hc))
    have hc : c ≠ '|' := fun hc => hbar (by simp [hc])
    simp [sexpRest?, hcs, hc, Function.comp_def, Nat.add_assoc]

/-- What begins with a parenthesis is split off behind its partner. -/
theorem splitSexp?_group (h : Balanced inner) (rest : List Char) :
    splitSexp? ('(' :: (inner ++ ')' :: rest)) = some ('(' :: (inner ++ [')']), rest) := by
  have hinner := sexpRest?_balanced h.1 h.2 (')' :: rest)
  simp [splitSexp?, sexpRest?, hinner, List.take_append]

/-! ## Terms -/

/-- An atom or a balanced text between parentheses. -/
inductive IsTerm : List Char → Prop
  | atom {cs : List Char} (h : IsAtom cs) : IsTerm cs
  | group {cs : List Char} (h : Balanced cs) : IsTerm ('(' :: (cs ++ [')']))

theorem IsAtom.solid (h : IsAtom cs) : Solid cs := fun c hc => (h.2 c hc).1

theorem IsAtom.starts (h : IsAtom cs) : Starts cs := by
  obtain ⟨c, cs, rfl⟩ := List.exists_cons_of_ne_nil h.1
  exact ⟨c, rfl, h.solid c (by simp)⟩

theorem IsTerm.starts (h : IsTerm cs) : Starts cs := by
  cases h with
  | atom h => exact h.starts
  | group h => exact ⟨'(', rfl, rfl⟩

theorem IsTerm.ends (h : IsTerm cs) : Ends cs := by
  cases h with
  | atom h =>
    obtain ⟨c, hc⟩ := List.getLast?_isSome.2 h.1 |> Option.isSome_iff_exists.1
    exact ⟨c, hc, h.solid c (List.mem_of_getLast? hc)⟩
  | @group cs h => exact Ends.append_left ⟨')', rfl, rfl⟩ ('(' :: cs)

theorem IsTerm.balanced (h : IsTerm cs) : Balanced cs := by
  cases h with
  | atom h => exact h.balanced
  | group h => exact h.group

/-- A term stays one when its blanks are collapsed. -/
theorem IsTerm.collapse (h : IsTerm cs) : IsTerm (Text.collapse cs) := by
  cases h with
  | atom h => exact .atom (by rwa [collapse_solid h.1 h.solid])
  | @group cs h =>
    have hspaced := respaced_collapse (IsTerm.group h).starts (IsTerm.group h).ends
    generalize Text.collapse ('(' :: (cs ++ [')'])) = t at hspaced
    obtain ⟨t, rfl, htail⟩ := hspaced.exists_of_solids (a := ['(']) (by decide)
    obtain ⟨inner, z, rfl, hinner, hz⟩ := htail.exists_of_solid rfl
    obtain rfl := hz.eq_nil
    exact .group (h.of_solids hinner.solids_eq)

/-! ## Symbols -/

/-- An atom, possibly between bars. -/
inductive IsSymbol : List Char → List Char → Prop
  | plain {cs : List Char} (h : IsAtom cs) : IsSymbol cs cs
  | barred {cs : List Char} (h : IsAtom cs) : IsSymbol cs ('|' :: (cs ++ ['|']))

theorem IsAtom.bar_notMem (h : IsAtom cs) : '|' ∉ cs := h.balanced.1

/-- A symbol is split off at the blank behind it. -/
theorem splitSymbol?_eq {s : List Char} (h : IsSymbol cs s) (rest : List Char) :
    splitSymbol? (s ++ ' ' :: rest) = some (s, ' ' :: rest) := by
  cases h with
  | plain h =>
    have hsolid : ∀ c ∈ cs, (!isBlank c) = true := fun c hc => by simp [h.solid c hc]
    have hspace : isBlank ' ' = true := rfl
    obtain ⟨c, cs, rfl⟩ := List.exists_cons_of_ne_nil h.1
    have hc : c ≠ '|' := (h.2 c (by simp)).2.2.2
    rw [splitSymbol?.eq_2 _ (by simp [hc]), List.takeWhile_append_of_pos hsolid,
      List.dropWhile_append_of_pos hsolid]
    simp [hspace]
  | barred h =>
    have hbars : ∀ c ∈ cs, decide (c ≠ '|') = true := fun c hc => by simp [(h.2 c hc).2.2.2]
    rw [List.cons_append, List.append_assoc, List.singleton_append, splitSymbol?,
      List.takeWhile_append_of_pos hbars, List.dropWhile_append_of_pos hbars]
    simp

/-- A term is split off at the blank behind it. -/
theorem splitTerm?_eq (h : IsTerm cs) (rest : List Char) :
    splitTerm? (cs ++ ' ' :: rest) = some (cs, ' ' :: rest) := by
  have hleft := trimLeft_of_starts (h.starts.append (' ' :: rest))
  cases h with
  | atom h =>
    rw [← splitSymbol?_eq (.plain h), splitTerm?, hleft]
    obtain ⟨c, cs, rfl⟩ := List.exists_cons_of_ne_nil h.1
    have hc : c ≠ '(' := (h.2 c (by simp)).2.1
    split
    next heq => exact absurd (List.cons.inj heq).1 hc
    next => rfl
  | group h =>
    rw [splitTerm?, hleft]
    simpa using splitSexp?_group h (' ' :: rest)

/-- The name between the bars is what counts. -/
theorem trimBars_eq {s : List Char} (h : IsSymbol cs s) : trimBars s = cs := by
  have hkeep (l : List Char) (hl : l ≠ []) (hbar : '|' ∉ l) (z : List Char) :
      (l ++ z).dropWhile (· = '|') = l ++ z := by
    obtain ⟨c, l, rfl⟩ := List.exists_cons_of_ne_nil hl
    exact List.dropWhile_cons_of_neg (by simpa using fun hc => hbar (by simp [hc]))
  cases h with
  | plain h =>
    have hfront := hkeep cs h.1 h.bar_notMem []
    have hback := hkeep cs.reverse (by simp [h.1]) (by simp [h.bar_notMem]) []
    rw [List.append_nil] at hfront hback
    rw [trimBars, dropWhileRight, hfront, hback, List.reverse_reverse]
  | barred h =>
    have hfront := hkeep cs h.1 h.bar_notMem ['|']
    have hback := hkeep cs.reverse (by simp [h.1]) (by simp [h.bar_notMem]) []
    rw [List.append_nil] at hback
    rw [trimBars, dropWhileRight, List.dropWhile_cons_of_pos (by rfl), hfront,
      List.reverse_append, List.reverse_singleton, List.singleton_append,
      List.dropWhile_cons_of_pos (by rfl), hback, List.reverse_reverse]

/-! ## Sorts -/

/-- The text of a sort is a term. -/
theorem isTerm_render (s : SmtSort) : IsTerm s.render.toList := by
  induction s with
  | int => exact .atom (by decide)
  | bool => exact .atom (by decide)
  | array elem ih =>
    have hrender : (SmtSort.array elem).render.toList =
        '(' :: ("Array Int ".toList ++ elem.render.toList ++ [')']) := by
      rw [SmtSort.render, String.toList_append, String.toList_append]
      rfl
    rw [hrender]
    exact .group (Balanced.append (by decide) ih.balanced)

/-! ## Values -/

/-- The way a value is shown: the sign of a negative number is written in front. -/
inductive Shown : List Char → List Char → Prop
  | negative {digits : List Char} (h : ∀ c ∈ digits, c.isDigit = true) :
      Shown ('(' :: '-' :: ' ' :: (digits ++ [')'])) ('-' :: digits)
  | other {value : List Char}
      (h : ∀ digits, (∀ c ∈ digits, c.isDigit = true) →
        value ≠ '(' :: '-' :: ' ' :: (digits ++ [')'])) :
      Shown value value

theorem dropLead?_eq_some {lead : List Char} (h : dropLead? lead cs = some rest) :
    cs = lead ++ rest := by
  fun_induction dropLead? lead cs <;> simp_all

/-- A value is simplified to what is shown of it. -/
theorem shown_simplifyValue (value : List Char) : Shown value (simplifyValue value) := by
  by_cases hnegative : ∃ digits, (∀ c ∈ digits, c.isDigit = true) ∧
      value = '(' :: '-' :: ' ' :: (digits ++ [')'])
  · obtain ⟨digits, hdigits, rfl⟩ := hnegative
    have hsimplify : simplifyValue ('(' :: '-' :: ' ' :: (digits ++ [')'])) = '-' :: digits := by
      simpa [simplifyValue, dropLead?] using hdigits
    rw [hsimplify]
    exact .negative hdigits
  · have hsame : simplifyValue value = value := by
      unfold simplifyValue
      split
      next rest hrest =>
        split
        next digits hreverse =>
          refine if_neg fun hdigits => hnegative ⟨digits.reverse, by simpa using hdigits, ?_⟩
          rw [dropLead?_eq_some hrest, ← List.reverse_reverse rest, hreverse, List.reverse_cons]
          rfl
        next => rfl
      next => rfl
    rw [hsame]
    exact .other fun digits hdigits hvalue => hnegative ⟨digits, hdigits, hvalue⟩

/-! ## Entries -/

/-- What stands between `(define-fun ` and the closing parenthesis, with the variable and the value
that it assigns. -/
inductive Body : List Char → Option (String × List Char) → Prop
  /-- The constant of a program variable, possibly between bars. Its sort may be any term, such as
  the text of a sort (`isTerm_render`). -/
  | constant {name : String} {s sort value g₁ g₂ g₃ g₄ : List Char} (hne : name ≠ "")
      (hname : ∀ c ∈ name.toList, c.isAlphanum = true ∨ c ∈ ['_', '$', '\''])
      (hs : s = (symbol name).toList ∨ s = '|' :: (constantLead ++ name.toList ++ ['|']))
      (hsort : IsTerm sort) (hvalue : IsTerm value) (hg₁ : IsGap g₁) (hg₂ : IsGap g₂)
      (hg₃ : IsGap g₃) (hg₄ : Blanks g₄) :
      Body (s ++ (g₁ ++ ('(' :: ')' :: (g₂ ++ (sort ++ (g₃ ++ (value ++ g₄)))))))
        (some (name, value))
  /-- Any other function: it has parameters, or it stands for no program variable. -/
  | helper {s g params rest : List Char} (hs : IsAtom s) (hg : IsGap g) (hparams : Balanced params)
      (hrest : Balanced rest) (h : ¬Blanks params ∨ ¬constantLead <+: s) :
      Body (s ++ (g ++ ('(' :: (params ++ ')' :: rest)))) none

/-- Entries with blanks around them, and the variables and values that they assign. -/
inductive Entries : List Char → List (String × List Char) → Prop
  | nil {g : List Char} (hg : Blanks g) : Entries g []
  | cons {g body rest : List Char} {found : Option (String × List Char)}
      {more : List (String × List Char)} (hg : Blanks g) (hbody : Body body found)
      (hrest : Entries rest more) :
      Entries (g ++ (entryLead ++ (body ++ ')' :: rest))) (found.toList ++ more)

/-- The assignment of a variable as it is shown. -/
def shownPair (p : String × List Char) : String × String :=
  (p.1, String.ofList (simplifyValue (collapse p.2)))

theorem toNat_of_isAlphanum {c : Char} (h : c.isAlphanum = true) :
    (48 ≤ c.toNat ∧ c.toNat ≤ 57) ∨ (65 ≤ c.toNat ∧ c.toNat ≤ 90) ∨
      (97 ≤ c.toNat ∧ c.toNat ≤ 122) := by
  have hdef : c.isAlphanum = ((decide (65 ≤ c.val ∧ c.val ≤ 90) || (97 ≤ c.val && c.val ≤ 122)) ||
      (48 ≤ c.val && c.val ≤ 57)) := rfl
  rw [hdef] at h
  simp only [Bool.or_eq_true, Bool.and_eq_true, decide_eq_true_eq,
    UInt32.le_iff_toNat_le] at h
  simp only [UInt32.reduceToNat] at h
  have hc : c.toNat = c.val.toNat := rfl
  omega

theorem isBlank_of_isAlphanum {c : Char} (h : c.isAlphanum = true) : isBlank c = false := by
  have := toNat_of_isAlphanum h
  simp only [isBlank, Bool.or_eq_false_iff, Bool.and_eq_false_iff, decide_eq_false_iff_not,
    beq_eq_false_iff_ne]
  omega

/-- The constant of a variable is an atom. -/
theorem isAtom_constantLead_append {name : List Char}
    (h : ∀ c ∈ name, c.isAlphanum = true ∨ c ∈ ['_', '$', '\'']) :
    IsAtom (constantLead ++ name) := by
  have hlead : IsAtom constantLead := by decide
  refine ⟨by simp [constantLead], List.forall_mem_append.2 ⟨hlead.2, fun c hc => ?_⟩⟩
  rcases h c hc with hc | hc
  · refine ⟨isBlank_of_isAlphanum hc, ?_, ?_, ?_⟩ <;> rintro rfl <;> exact absurd hc (by decide)
  · simp only [List.mem_cons, List.not_mem_nil, or_false] at hc
    rcases hc with rfl | rfl | rfl <;> decide

/-- The constant of a variable is a symbol, with bars or without. -/
theorem isSymbol_constant {name : String} {s : List Char}
    (hname : ∀ c ∈ name.toList, c.isAlphanum = true ∨ c ∈ ['_', '$', '\''])
    (hs : s = (symbol name).toList ∨ s = '|' :: (constantLead ++ name.toList ++ ['|'])) :
    IsSymbol (constantLead ++ name.toList) s := by
  have hatom := isAtom_constantLead_append hname
  rcases hs with rfl | rfl
  · rw [toList_symbol]
    split_ifs
    · exact .plain hatom
    · exact .barred hatom
  · exact .barred hatom

theorem IsSymbol.solid {s : List Char} (h : IsSymbol cs s) : Solid s := by
  cases h with
  | plain h => exact h.solid
  | barred h =>
    have hbar : Solid ['|'] := by decide
    exact List.forall_mem_cons.2 ⟨rfl, List.forall_mem_append.2 ⟨h.solid, hbar⟩⟩

theorem IsSymbol.ne_nil {s : List Char} (h : IsSymbol cs s) : s ≠ [] := by
  cases h with
  | plain h => exact h.1
  | barred h => exact List.cons_ne_nil _ _

/-- A symbol, a gap and what is behind it. -/
theorem collapse_symbol {s g : List Char} (h : IsSymbol cs s) (hg : IsGap g) (hrest : Starts rest) :
    collapse (s ++ (g ++ rest)) = s ++ ' ' :: collapse rest := by
  have hwords : words s ≠ [] := by simp [words_solid h.ne_nil h.solid]
  rw [collapse_append_gap hwords hg (words_ne_nil hrest), collapse_solid h.ne_nil h.solid]

/-- An entry for a constant of a program variable gives its name and its value as it is shown. -/
theorem parseDefinition?_constant {name : String} {s sort value g₁ g₂ g₃ g₄ : List Char}
    (hs : IsSymbol (constantLead ++ name.toList) s) (hsort : IsTerm sort) (hvalue : IsTerm value)
    (hg₁ : IsGap g₁) (hg₂ : IsGap g₂) (hg₃ : IsGap g₃) (hg₄ : Blanks g₄) :
    parseDefinition? (s ++ (g₁ ++ ('(' :: ')' :: (g₂ ++ (sort ++ (g₃ ++
      (value ++ g₄))))))) = some (shownPair (name, value)) := by
  have hparams : Starts ('(' :: ')' :: (g₂ ++ (sort ++ (g₃ ++ (value ++ g₄))))) :=
    ⟨'(', rfl, rfl⟩
  have hafter : collapse ('(' :: ')' :: (g₂ ++ (sort ++ (g₃ ++ (value ++ g₄))))) =
      '(' :: ')' :: ' ' :: (collapse sort ++ ' ' :: collapse value) := by
    have hpair : collapse ['(', ')'] = ['(', ')'] := by decide
    have h := collapse_append_gap (a := ['(', ')']) (by decide) hg₂
      (words_ne_nil (hsort.starts.append (g₃ ++ (value ++ g₄))))
    rw [collapse_append_gap (words_ne_nil hsort.starts) hg₃
      (words_ne_nil (hvalue.starts.append g₄)), collapse_append_blanks hg₄, hpair] at h
    exact h
  have hname : dropLead? constantLead (trimBars s) = some name.toList := by
    rw [trimBars_eq hs, dropLead?_append]
  have hvalues : trim (' ' :: collapse value) = collapse value := by
    simpa using trim_eq (g := [' ']) (by decide) hvalue.collapse.starts hvalue.collapse.ends
      (z := []) (by decide)
  rw [parseDefinition?, collapse_symbol hs hg₁ hparams, hafter, splitSymbol?_eq hs]
  have hleft : trimLeft (' ' :: (collapse sort ++ ' ' :: collapse value)) =
      collapse sort ++ ' ' :: collapse value :=
    trimLeft_of_starts (hsort.collapse.starts.append _)
  have hsplit := splitTerm?_eq hsort.collapse (collapse value)
  change (dropLead? constantLead (trimBars s)).bind (fun name =>
    (splitTerm? (trimLeft (' ' :: (collapse sort ++ ' ' :: collapse value)))).bind
      fun p => some (String.ofList name, String.ofList (simplifyValue (trim p.2)))) = _
  rw [hname, hleft, hsplit]
  simp [hvalues, shownPair]

/-- Parameters are still there when the text has been collapsed. -/
theorem dropLead?_params {params : List Char} (h : Balanced params) (hparams : ¬Blanks params)
    (rest : List Char) :
    dropLead? ['(', ')'] (trimLeft (' ' :: collapse ('(' :: (params ++ ')' :: rest)))) = none := by
  rw [Option.eq_none_iff_forall_ne_some]
  intro tail htail
  have hsolids := solids_trimLeft (' ' :: collapse ('(' :: (params ++ ')' :: rest)))
  rw [solids_cons_of_blank rfl, solids_collapse] at hsolids
  obtain ⟨c, cs, hcs⟩ := List.exists_cons_of_ne_nil (mt blanks_of_solids hparams)
  rw [dropLead?_eq_some htail, solids_append, solids_cons_of_solid rfl (params ++ ')' :: rest),
    solids_append, hcs] at hsolids
  obtain rfl : ')' = c := (List.cons.inj (List.cons.inj hsolids).2).1
  have hnone : openAfter? 0 (solids params) = none := by simp [hcs, openAfter?]
  rw [openAfter?_solids, h.2] at hnone
  cases hnone

/-- An entry for any other function gives nothing. -/
theorem parseDefinition?_helper {s g params : List Char} (hs : IsAtom s) (hg : IsGap g)
    (hbalanced : Balanced params) (h : ¬Blanks params ∨ ¬constantLead <+: s) (rest : List Char) :
    parseDefinition? (s ++ (g ++ ('(' :: (params ++ ')' :: rest)))) = none := by
  have hstarts : Starts ('(' :: (params ++ ')' :: rest)) := ⟨'(', rfl, rfl⟩
  rw [parseDefinition?, collapse_symbol (.plain hs) hg hstarts, splitSymbol?_eq (.plain hs)]
  change (dropLead? ['(', ')'] (trimLeft (' ' :: collapse ('(' :: (params ++ ')' :: rest))))).bind
    (fun rest => (dropLead? constantLead (trimBars s)).bind fun name =>
      (splitTerm? (trimLeft rest)).bind
        fun p => some (String.ofList name, String.ofList (simplifyValue (trim p.2)))) = none
  rcases h with hparams | hlead
  · rw [dropLead?_params hbalanced hparams]
    rfl
  · have hname : dropLead? constantLead (trimBars s) = none := by
      rw [trimBars_eq (.plain hs), Option.eq_none_iff_forall_ne_some]
      intro tail htail
      exact hlead ⟨tail, (dropLead?_eq_some htail).symm⟩
    simp [hname]

/-! ## Respaced entries

A gap may only be replaced where it has a line break, so the blank of `entryLead` stays as it is. -/

/-- A symbol with a balanced text behind it. -/
def Enclosed (body : List Char) : Prop :=
  ∃ name s rest, body = s ++ rest ∧ IsSymbol name s ∧ Balanced rest

/-- What an entry holds is a symbol with a balanced text behind it. -/
theorem Body.enclosed {body : List Char} {found : Option (String × List Char)}
    (h : Body body found) : Enclosed body := by
  cases h with
  | @constant name s sort value g₁ g₂ g₃ g₄ hne hname hs hsort hvalue hg₁ hg₂ hg₃ hg₄ =>
    refine ⟨_, s, _, rfl, isSymbol_constant hname hs, ?_⟩
    have hblanks {g : List Char} (hg : Blanks g) : Balanced g :=
      Balanced.of_solids (a := []) (by decide) hg.solids_eq.symm
    exact (hblanks hg₁.2).append (Balanced.append (a := ['(', ')']) (by decide)
      ((hblanks hg₂.2).append (hsort.balanced.append
        ((hblanks hg₃.2).append (hvalue.balanced.append (hblanks hg₄))))))
  | @helper s g params rest hs hg hparams hrest h =>
    refine ⟨s, s, _, rfl, .plain hs, ?_⟩
    have hblanks : Balanced g := Balanced.of_solids (a := []) (by decide) hg.2.solids_eq.symm
    simpa using hblanks.append (hparams.group.append hrest)

/-- What is read from an entry is what it assigns. -/
theorem Body.parseDefinition?_eq {body : List Char} {found : Option (String × List Char)}
    (h : Body body found) : parseDefinition? body = found.map shownPair := by
  cases h with
  | constant hne hname hs hsort hvalue hg₁ hg₂ hg₃ hg₄ =>
    exact parseDefinition?_constant (isSymbol_constant hname hs) hsort hvalue hg₁ hg₂ hg₃ hg₄
  | helper hs hg hparams hrest h => exact parseDefinition?_helper hs hg hparams h _

/-- An entry is read in the same way after its blanks have changed. -/
theorem parseDefinition?_respaced {P : List Char → Prop} (h : Respaced P a b) :
    parseDefinition? a = parseDefinition? b := by
  rw [parseDefinition?, parseDefinition?, collapse, h.words_eq, collapse]

theorem Enclosed.respaced {P : List Char → Prop} (h : Enclosed a) (hspaced : Respaced P a b) :
    Enclosed b := by
  obtain ⟨name, s, rest, rfl, hs, hrest⟩ := h
  obtain ⟨rest', rfl, hrest'⟩ := hspaced.exists_of_solids hs.solid
  exact ⟨name, s, rest', rfl, hs, hrest.of_solids hrest'.solids_eq⟩

theorem Enclosed.openAfter?_eq (h : Enclosed a) (d : Nat) : openAfter? d a = some d := by
  obtain ⟨name, s, rest, rfl, hs, hrest⟩ := h
  have hplain : openAfter? d s = some d := by
    cases hs with
    | plain h => exact h.balanced.openAfter?_eq d
    | barred h =>
      simp [openAfter?, openAfter?_append, h.balanced.openAfter?_eq d]
  simp [openAfter?_append, hplain, hrest.openAfter?_eq d]

theorem Enclosed.exists_cons (h : Enclosed a) : ∃ c cs, a = c :: cs ∧ isBlank c = false := by
  obtain ⟨name, s, rest, rfl, hs, -⟩ := h
  obtain ⟨c, cs, rfl⟩ := List.exists_cons_of_ne_nil hs.ne_nil
  exact ⟨c, cs ++ rest, rfl, hs.solid c (by simp)⟩

/-- The parenthesis behind an entry is the one that closes it. -/
theorem Enclosed.sexpRest?_eq (h : Enclosed a) (tail : List Char) :
    sexpRest? 1 false (a ++ ')' :: tail) = some (a.length + 1, tail) := by
  obtain ⟨name, s, rest, rfl, hs, hrest⟩ := h
  have hclose : sexpRest? 1 false (rest ++ ')' :: tail) = some (rest.length + 1, tail) := by
    have hrest := sexpRest?_balanced hrest.1 hrest.2 (')' :: tail)
    simpa [sexpRest?, Nat.add_comm] using hrest
  have hsymbol : sexpRest? 1 false (s ++ (rest ++ ')' :: tail)) =
      (sexpRest? 1 false (rest ++ ')' :: tail)).map fun p => (p.1 + s.length, p.2) := by
    cases hs with
    | plain h => exact sexpRest?_balanced h.balanced.1 h.balanced.2 _
    | barred h =>
      have hbars := sexpRest?_barred h.balanced.1 1 (rest ++ ')' :: tail)
      simp [sexpRest?, hbars, Function.comp_def, Nat.add_assoc]
  rw [List.append_assoc, hsymbol, hclose, List.length_append]
  simp only [Option.map_some, Option.some.injEq, Prod.mk.injEq, and_true]
  omega

/-! ## The assignments of a model -/

/-- As many characters as there are to skip are skipped. -/
theorem parseEntries_skip (a b : List Char) :
    parseEntries a.length (a ++ b) = parseEntries 0 b := by
  induction a with
  | nil => rfl
  | cons c a ih => exact ih

/-- What does not start an entry is passed over. -/
theorem parseEntries_pass {c : Char} (h : dropLead? entryLead (c :: cs) = none) :
    parseEntries 0 (c :: cs) = parseEntries 0 cs := by
  rw [parseEntries, h]

theorem parseEntries_other {c : Char} (hc : c ≠ '(') (cs : List Char) :
    parseEntries 0 (c :: cs) = parseEntries 0 cs :=
  parseEntries_pass (if_neg (Ne.symm hc))

theorem parseEntries_blanks {g : List Char} (hg : Blanks g) (cs : List Char) :
    parseEntries 0 (g ++ cs) = parseEntries 0 cs := by
  induction g with
  | nil => rfl
  | cons c g ih =>
    obtain ⟨hc, hg⟩ := List.forall_mem_cons.1 hg
    have hne : c ≠ '(' := by
      rintro rfl
      exact absurd hc (by decide)
    rw [List.cons_append, parseEntries_other hne, ih hg]

/-- An entry is read and then the rest, from behind its closing parenthesis. -/
theorem parseEntries_entry {found : Option (String × String)} (h : Enclosed a)
    (hfound : parseDefinition? a = found) (tail : List Char) :
    parseEntries 0 (entryLead ++ (a ++ ')' :: tail)) =
      (parseEntries 0 tail).map (found.toList ++ ·) := by
  have hlead := dropLead?_append entryLead (a ++ ')' :: tail)
  have hskip : parseEntries (entryLead.length + (a.length + 1) - 1)
      (entryLead.tail ++ (a ++ ')' :: tail)) = parseEntries 0 tail := by
    have hlength : entryLead.length + (a.length + 1) - 1 =
        (entryLead.tail ++ (a ++ [')'])).length := by
      rw [List.length_append, List.length_append, List.length_tail]
      have hpos : 0 < entryLead.length := by decide
      simp only [List.length_singleton]
      omega
    rw [hlength, ← parseEntries_skip (entryLead.tail ++ (a ++ [')'])) tail]
    simp
  have hcons : entryLead ++ (a ++ ')' :: tail) = '(' :: (entryLead.tail ++ (a ++ ')' :: tail)) := by
    rfl
  rw [hcons] at hlead ⊢
  rw [parseEntries, hlead]
  simp only [h.sexpRest?_eq, hskip, Nat.add_sub_cancel, List.take_left, hfound]
  cases parseEntries 0 tail <;> cases found <;> rfl

/-- What an entry begins with is not respaced, so it is found at the same place. -/
theorem exists_of_respaced_entry {body t : List Char} (h : Enclosed body)
    (hspaced : Respaced ('\n' ∈ ·) (entryLead ++ (body ++ ')' :: rest)) t) :
    ∃ body' rest', t = entryLead ++ (body' ++ ')' :: rest') ∧
      Respaced ('\n' ∈ ·) body body' ∧ Respaced ('\n' ∈ ·) rest rest' := by
  obtain ⟨c, body, rfl, hc⟩ := h.exists_cons
  have hlead : entryLead = "(define-fun".toList ++ [' '] := rfl
  rw [hlead, List.append_assoc] at hspaced
  obtain ⟨t₁, rfl, h₁⟩ := hspaced.exists_of_solids (by decide)
  obtain ⟨space, t₂, rfl, hspace, h₂⟩ := h₁.exists_of_solid hc
  obtain ⟨body', rest', rfl, hbody, hrest⟩ := h₂.exists_of_solid rfl
  obtain rfl := hspace.eq_singleton (by decide)
  exact ⟨c :: body', rest', rfl, .keep hbody, hrest⟩

/-- All entries are read, also if they have been spaced in another way. -/
theorem Entries.parseEntries_eq {found : List (String × List Char)} (h : Entries inner found)
    {t : List Char} (hspaced : Respaced ('\n' ∈ ·) inner t) :
    parseEntries 0 (t ++ [')']) = .ok (found.map shownPair) := by
  induction h generalizing t with
  | nil hg =>
    have hblanks : Blanks t := blanks_of_solids (by rw [← hspaced.solids_eq, hg.solids_eq])
    rw [parseEntries_blanks hblanks, parseEntries_other (by decide)]
    rfl
  | @cons g body rest found more hg hbody hrest ih =>
    obtain ⟨g', t, rfl, hgap, hentry⟩ := hspaced.exists_of_solid (c := '(') rfl
    have hblanks : Blanks g' := blanks_of_solids (by rw [← hgap.solids_eq, hg.solids_eq])
    obtain ⟨body', rest', ht, hbody', hrest'⟩ :=
      exists_of_respaced_entry hbody.enclosed (Respaced.keep (c := '(') hentry)
    have hfound : parseDefinition? body' = found.map shownPair := by
      rw [← parseDefinition?_respaced hbody', hbody.parseDefinition?_eq]
    rw [ht, List.append_assoc, parseEntries_blanks hblanks, List.append_assoc, List.append_assoc,
      List.cons_append, parseEntries_entry (hbody.enclosed.respaced hbody') hfound, ih hrest']
    cases found <;> rfl

/-! ## Whole models -/

/-- Assignments are sorted by variable, and by value where that is the same. -/
theorem assignmentLe_iff (p q : String × String) :
    assignmentLe p q = true ↔ toLex p ≤ toLex q := by
  simp [assignmentLe, Prod.Lex.toLex_le_toLex]

/-- Assignments are in the order of their variables, and of their values for one variable. -/
theorem pairwise_mergeSort_assignmentLe (pairs : List (String × String)) :
    (pairs.mergeSort assignmentLe).Pairwise fun p q => p.1 < q.1 ∨ p.1 = q.1 ∧ p.2 ≤ q.2 := by
  have htrans (p q r : String × String) (hpq : assignmentLe p q = true)
      (hqr : assignmentLe q r = true) : assignmentLe p r = true := by
    rw [assignmentLe_iff] at hpq hqr ⊢
    exact hpq.trans hqr
  have htotal (p q : String × String) : (assignmentLe p q || assignmentLe q p) = true := by
    rw [Bool.or_eq_true, assignmentLe_iff, assignmentLe_iff]
    exact le_total _ _
  refine (List.pairwise_mergeSort htrans htotal pairs).imp fun {p q} hpq => ?_
  rwa [assignmentLe_iff, Prod.Lex.toLex_le_toLex] at hpq

/-- In front of the first entry there is no word. -/
theorem Entries.solids_head {found : List (String × List Char)} (h : Entries inner found) :
    ∀ c ∈ (solids inner).head?, c = '(' := by
  cases h with
  | nil hg => simp [hg.solids_eq]
  | @cons g body rest found more hg hbody hrest =>
    intro c hc
    rw [solids_append, hg.solids_eq, List.nil_append] at hc
    have hlead : solids (entryLead ++ (body ++ ')' :: rest)) =
        '(' :: solids (entryLead.tail ++ (body ++ ')' :: rest)) := solids_cons_of_solid rfl _
    rw [hlead] at hc
    simpa using hc.symm

/-- Behind the first parenthesis of a model there is no word. -/
theorem dropLead?_word {c : Char} {word : List Char} (hc : isBlank c = false) (hne : c ≠ '(')
    (hclose : c ≠ ')') (hhead : ∀ c ∈ (solids inner).head?, c = '(') (rest : List Char) :
    dropLead? ('(' :: c :: word) ('(' :: (inner ++ ')' :: rest)) = none := by
  rw [Option.eq_none_iff_forall_ne_some]
  intro tail htail
  have hsolids : solids (inner ++ ')' :: rest) = c :: solids (word ++ tail) := by
    have htext := (List.cons.inj (dropLead?_eq_some htail)).2
    rw [htext]
    exact solids_cons_of_solid hc _
  rw [solids_append, solids_cons_of_solid rfl] at hsolids
  cases hinner : solids inner with
  | nil =>
    rw [hinner] at hsolids
    exact hclose (List.cons.inj hsolids).1.symm
  | cons d cs =>
    rw [hinner] at hsolids hhead
    exact hne ((List.cons.inj hsolids).1.symm.trans (hhead d rfl))

/-- A respaced text of entries between parentheses and blanks is read as they say. -/
theorem Entries.parse_eq {found : List (String × List Char)} (h : Entries inner found)
    {t g z : List Char} (hspaced : Respaced ('\n' ∈ ·) inner t) (hg : Blanks g) (hz : Blanks z) :
    parse (g ++ ('(' :: (t ++ [')']) ++ z)) =
      .ok ⟨(found.map shownPair).mergeSort assignmentLe⟩ := by
  have htrim : trim (g ++ ('(' :: (t ++ [')']) ++ z)) = '(' :: (t ++ [')']) :=
    trim_eq hg ⟨'(', rfl, rfl⟩ (Ends.append_left ⟨')', rfl, rfl⟩ ('(' :: t)) hz
  have hhead := h.solids_head
  rw [hspaced.solids_eq] at hhead
  have hpass : parseEntries 0 ('(' :: (t ++ [')'])) = parseEntries 0 (t ++ [')']) :=
    parseEntries_pass (dropLead?_word rfl (by decide) (by decide) hhead [])
  rw [parse, htrim]
  simp only [hpass, h.parseEntries_eq hspaced]
  rfl

/-- Entries leave no parenthesis open. -/
theorem Entries.openAfter?_eq {found : List (String × List Char)} (h : Entries inner found) :
    openAfter? 0 inner = some 0 := by
  induction h with
  | nil hg => rw [← openAfter?_solids, hg.solids_eq]; rfl
  | @cons g body rest found more hg hbody hrest ih =>
    have hblanks : openAfter? 0 g = some 0 := by
      rw [← openAfter?_solids, hg.solids_eq]
      rfl
    have hlead : openAfter? 0 entryLead = some 1 := by decide
    simp [openAfter?_append, hblanks, hlead, hbody.enclosed.openAfter?_eq, openAfter?, ih]

/-- A model assigns to the variables that entries give values to these values, as they are shown,
in the order of the variables. -/
structure Assigns (m : Model) (found : List (String × List Char)) : Prop where
  shown : ∃ pairs, m.assignments.Perm pairs ∧
    List.Forall₂ (fun p q => p.1 = q.1 ∧ Shown (collapse p.2) q.2.toList) found pairs
  sorted : m.assignments.Pairwise fun p q => p.1 < q.1 ∨ p.1 = q.1 ∧ p.2 ≤ q.2

/-- The pairs that are shown, once sorted, make a model that assigns them. -/
theorem assigns_shownPairs (found : List (String × List Char)) :
    Assigns ⟨(found.map shownPair).mergeSort assignmentLe⟩ found := by
  refine ⟨⟨found.map shownPair, List.mergeSort_perm _ _, ?_⟩, pairwise_mergeSort_assignmentLe _⟩
  rw [List.forall₂_map_right_iff]
  refine List.forall₂_same.2 fun p _ => ⟨rfl, ?_⟩
  rw [shownPair, String.toList_ofList]
  exact shown_simplifyValue _

end Precond.Smt.Model
