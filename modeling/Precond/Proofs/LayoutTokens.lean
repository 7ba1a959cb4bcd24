import Mathlib.Data.List.DropRight
import Mathlib.Tactic
import Precond.Grammar.Layout
import Precond.Proofs.ComputedValues
import Precond.Proofs.Scanning

/-!
# Tokens with layout

A program text is read line by line, and the lines share a state: the columns of the open blocks and
the number of open brackets. `Laid text start stop state state' ts` says what is true of the tokens
`ts` that are read between two offsets while the state changes from `state` to `state'`: blocks are
opened and closed as the state says, layout stands outside of brackets, a line ends behind one of
its own tokens, and the places come one after another. One line keeps to it (`laid_layoutLine`), and
so do lines that follow one another (`Laid.append`), hence all lines of a text do
(`laid_layoutLines`).

The tokens that are not layout are those of the text read as a whole, since no token reaches beyond
the end of its line (`scans_layoutLine`).
-/

namespace Precond.Grammar

variable {text : List Char} {ts us : List (Spanned Token)}

/-! ## Blocks -/

/-- How often a token occurs. -/
def occurrences (token : Token) (ts : List (Spanned Token)) : Nat := ts.countP (·.node = token)

@[simp] theorem occurrences_append (token : Token) (ts us : List (Spanned Token)) :
    occurrences token (ts ++ us) = occurrences token ts + occurrences token us :=
  List.countP_append

/-- Where there is no layout, no token of it occurs. -/
theorem occurrences_eq_zero {token : Token} (htoken : token.isLayout = true)
    (h : ∀ t ∈ ts, t.node.isLayout = false) : occurrences token ts = 0 := by
  rw [occurrences, List.countP_eq_zero]
  intro t ht heq
  rw [decide_eq_true_eq] at heq
  rw [← heq, h t ht] at htoken
  cases htoken

/-- The tokens change the number of open blocks from `before` to `after`, and none of them closes a
block where none is open. -/
structure Blocks (before after : Nat) (ts : List (Spanned Token)) : Prop where
  closed_le : ∀ part, part <+: ts → occurrences .dedent part ≤ before + occurrences .indent part
  total : before + occurrences .indent ts = after + occurrences .dedent ts

namespace Blocks

variable {a b c : Nat}

/-- As long as no more blocks are closed than were open at first, the order does not matter. -/
theorem of_total (hclosed : occurrences .dedent ts ≤ a)
    (htotal : a + occurrences .indent ts = b + occurrences .dedent ts) : Blocks a b ts := by
  refine ⟨fun part hpart => ?_, htotal⟩
  have hle : occurrences .dedent part ≤ occurrences .dedent ts := hpart.sublist.countP_le
  omega

/-- Other tokens open and close no blocks. -/
theorem of_real (n : Nat) (h : ∀ t ∈ ts, t.node.isLayout = false) : Blocks n n ts := by
  have hindent : occurrences .indent ts = 0 := occurrences_eq_zero rfl h
  have hdedent : occurrences .dedent ts = 0 := occurrences_eq_zero rfl h
  apply of_total <;> omega

theorem append (h : Blocks a b ts) (h' : Blocks b c us) : Blocks a c (ts ++ us) := by
  have htotal := h.total
  have htotal' := h'.total
  constructor
  · intro part hpart
    rcases List.prefix_or_prefix_of_prefix hpart (List.prefix_append ts us) with hts | ⟨more, rfl⟩
    · exact h.closed_le part hts
    · have hmore := h'.closed_le more ((List.prefix_append_right_inj ts).1 hpart)
      rw [occurrences_append, occurrences_append]
      omega
  · rw [occurrences_append, occurrences_append]
    omega

end Blocks

/-! ## Brackets -/

/-- The number of open brackets behind some tokens. -/
def depthAfter (depth : Nat) (ts : List (Spanned Token)) : Nat :=
  ts.foldl (fun depth t => nextDepth depth t.node) depth

/-- Layout stands only where no bracket is open. -/
def OutsideBrackets (depth : Nat) : List (Spanned Token) → Prop
  | [] => True
  | t :: ts => (t.node.isLayout = true → depth = 0) ∧ OutsideBrackets (nextDepth depth t.node) ts

@[simp] theorem depthAfter_append (depth : Nat) (ts us : List (Spanned Token)) :
    depthAfter depth (ts ++ us) = depthAfter (depthAfter depth ts) us :=
  List.foldl_append

/-- Tokens of layout are no brackets. -/
theorem nextDepth_of_isLayout {token : Token} (h : token.isLayout = true) (depth : Nat) :
    nextDepth depth token = depth := by
  cases token <;> simp_all [Token.isLayout, nextDepth, Token.opensBracket, Token.closesBracket]

theorem depthAfter_of_layout (depth : Nat) (h : ∀ t ∈ ts, t.node.isLayout = true) :
    depthAfter depth ts = depth := by
  induction ts with
  | nil => rfl
  | cons t ts ih =>
    rw [List.forall_mem_cons] at h
    rw [depthAfter, List.foldl_cons, nextDepth_of_isLayout h.1]
    exact ih h.2

namespace OutsideBrackets

variable {depth : Nat}

/-- Layout stands outside of brackets in a text if it does so in both of its parts. -/
theorem append : OutsideBrackets depth (ts ++ us) ↔
    OutsideBrackets depth ts ∧ OutsideBrackets (depthAfter depth ts) us := by
  induction ts generalizing depth with
  | nil => simp [OutsideBrackets, depthAfter]
  | cons t ts ih =>
    rw [List.cons_append, OutsideBrackets, OutsideBrackets, ih, and_assoc]
    rfl

theorem of_real (h : ∀ t ∈ ts, t.node.isLayout = false) : OutsideBrackets depth ts := by
  induction ts generalizing depth with
  | nil => trivial
  | cons t ts ih =>
    rw [List.forall_mem_cons] at h
    exact ⟨fun ht => by simp [h.1] at ht, ih h.2⟩

theorem of_layout (h : ∀ t ∈ ts, t.node.isLayout = true) : OutsideBrackets 0 ts := by
  induction ts with
  | nil => trivial
  | cons t ts ih =>
    rw [List.forall_mem_cons] at h
    refine ⟨fun _ => rfl, ?_⟩
    rw [nextDepth_of_isLayout h.1]
    exact ih h.2

end OutsideBrackets

/-! ## Lines -/

/-- No newline of the text stands between two offsets. -/
def OnOneLine (text : List Char) (start stop : Nat) : Prop :=
  ∀ before after, text = before ++ '\n' :: after →
    byteLength before < start ∨ stop ≤ byteLength before

/-- Every token for the end of a line comes right behind a token of that line. -/
def LineEnds (text : List Char) (ts : List (Spanned Token)) : Prop :=
  ∀ before t after, ts = before ++ t :: after → t.node = .newline →
    ∃ front u, before = front ++ [u] ∧ u.node.isLayout = false ∧
      OnOneLine text u.span.start t.span.start

theorem byteLength_pos {cs : List Char} (h : cs ≠ []) : 0 < byteLength cs := by
  cases cs with
  | nil => exact absurd rfl h
  | cons c cs =>
    have := c.utf8Size_pos
    rw [byteLength_cons]
    omega

/-- Of two beginnings of one text, the shorter one is a beginning of the other one. -/
theorem exists_append_of_byteLength_le {a b c d : List Char} (h : a ++ b = c ++ d)
    (hle : byteLength a ≤ byteLength c) : ∃ x, c = a ++ x ∧ b = x ++ d := by
  rcases List.append_eq_append_iff.1 h with ⟨x, hc, hb⟩ | ⟨x, ha, hd⟩
  · exact ⟨x, hc, hb⟩
  · have hx : x = [] := by
      by_contra hx
      have := byteLength_pos hx
      rw [ha, byteLength_append] at hle
      omega
    subst hx
    exact ⟨[], by simpa using ha.symm, by simpa using hd.symm⟩

/-- What stands in a piece of the text without newlines is on one line. -/
theorem onOneLine_of_piece {front piece back : List Char} {start stop : Nat}
    (htext : text = front ++ (piece ++ back)) (hpiece : '\n' ∉ piece)
    (hstart : byteLength front ≤ start) (hstop : stop ≤ byteLength front + byteLength piece) :
    OnOneLine text start stop := by
  intro before after hbefore
  by_contra hbetween
  rw [not_or, not_lt, not_le] at hbetween
  obtain ⟨x, rfl, hx⟩ := exists_append_of_byteLength_le (htext.symm.trans hbefore)
    (hstart.trans hbetween.1)
  rw [byteLength_append] at hbetween
  obtain ⟨y, hy, hafter⟩ := exists_append_of_byteLength_le hx.symm (by omega)
  cases y with
  | nil =>
    rw [hy, List.append_nil] at hstop
    omega
  | cons c y =>
    obtain ⟨rfl, -⟩ := List.cons_eq_cons.1 hafter
    exact hpiece (by simp [hy])

namespace LineEnds

theorem of_ne (h : ∀ t ∈ ts, t.node ≠ .newline) : LineEnds text ts := by
  rintro before t after rfl ht
  exact absurd ht (h t (by simp))

theorem append (h : LineEnds text ts) (h' : LineEnds text us) : LineEnds text (ts ++ us) := by
  intro before t after hsplit ht
  rcases List.append_eq_append_iff.1 hsplit with ⟨more, rfl, hus⟩ | ⟨more, rfl, hmore⟩
  · obtain ⟨front, u, rfl, hu⟩ := h' more t after hus ht
    exact ⟨ts ++ front, u, by simp, hu⟩
  · cases more with
    | nil =>
      obtain ⟨front, u, hfront, -⟩ := h' [] t after (by simpa using hmore.symm) ht
      simp at hfront
    | cons t' more =>
      obtain ⟨rfl, rfl⟩ := List.cons_eq_cons.1 hmore
      exact h before t more rfl ht

/-- The end of a line behind its last token. -/
theorem snoc {offset : Nat} (hne : ts ≠ []) (hreal : ∀ t ∈ ts, t.node.isLayout = false)
    (hline : ∀ t ∈ ts, OnOneLine text t.span.start offset) :
    LineEnds text (ts ++ [⟨.newline, .point offset⟩]) := by
  obtain ⟨front, u, rfl⟩ := (List.eq_nil_or_concat' ts).resolve_left hne
  have hne : ∀ t ∈ front ++ [u], t.node ≠ .newline := by
    intro t ht heq
    have := hreal t ht
    rw [heq] at this
    cases this
  intro before t after hsplit ht
  rcases List.eq_nil_or_concat' after with rfl | ⟨after, last, rfl⟩
  · obtain ⟨rfl, hlast⟩ := List.append_inj' hsplit rfl
    obtain rfl := List.singleton_inj.1 hlast
    exact ⟨front, u, rfl, hreal u (by simp), hline u (by simp)⟩
  · rw [← List.cons_append, ← List.append_assoc] at hsplit
    obtain ⟨hfront, -⟩ := List.append_inj' hsplit rfl
    exact absurd ht (hne t (by simp [hfront]))

end LineEnds

/-! ## One line after another -/

/-- What is true of the tokens with layout that are read between two offsets, if the state before
and behind them is as given. -/
structure Laid (text : List Char) (start stop : Nat) (state state' : LayoutState)
    (ts : List (Spanned Token)) : Prop where
  blocks : Blocks state.levels.length state'.levels.length ts
  depth : depthAfter state.depth ts = state'.depth
  outside : OutsideBrackets state.depth ts
  lineEnds : LineEnds text ts
  places : InOrder start stop ts

variable {start mid stop : Nat} {state state' state'' : LayoutState}

theorem Laid.append (h : Laid text start mid state state' ts)
    (h' : Laid text mid stop state' state'' us) :
    Laid text start stop state state'' (ts ++ us) where
  blocks := h.blocks.append h'.blocks
  depth := by rw [depthAfter_append, h.depth, h'.depth]
  outside := OutsideBrackets.append.2 ⟨h.outside, h.depth ▸ h'.outside⟩
  lineEnds := h.lineEnds.append h'.lineEnds
  places := h.places.append h'.places

theorem Laid.mono (h : Laid text mid stop state state' ts) (hle : start ≤ mid) :
    Laid text start stop state state' ts :=
  { h with places := h.places.mono hle }

/-- The levels that are kept and those that are closed are all that there were. -/
theorem length_fallBack (width : Nat) (levels : List Nat) :
    levels.length = (fallBack width levels).1.length + (fallBack width levels).2 := by
  induction levels with
  | nil => rfl
  | cons level levels ih =>
    unfold fallBack
    split_ifs
    · simp only [List.length_cons, ih]
      omega
    · rfl

/-- Blocks are opened and closed outside of brackets. -/
theorem laid_of_layout {levels levels' : List Nat}
    (hblocks : Blocks levels.length levels'.length ts)
    (hlayout : ∀ t ∈ ts, t.node = .indent ∨ t.node = .dedent) (hplaces : InOrder start stop ts) :
    Laid text start stop ⟨levels, 0⟩ ⟨levels', 0⟩ ts := by
  have hall : ∀ t ∈ ts, t.node.isLayout = true := fun t ht => by
    rcases hlayout t ht with h | h <;> rw [h] <;> rfl
  refine ⟨hblocks, depthAfter_of_layout 0 hall, .of_layout hall, .of_ne fun t ht => ?_, hplaces⟩
  rcases hlayout t ht with h | h <;> rw [h] <;> decide

/-- Blocks are closed at one place. -/
theorem laid_dedents {levels levels' : List Nat} {closed : Nat}
    (hlength : levels.length = levels'.length + closed) (hle : start ≤ stop) :
    Laid text start stop ⟨levels, 0⟩ ⟨levels', 0⟩
      (List.replicate closed ⟨.dedent, .point stop⟩) := by
  refine laid_of_layout (.of_total ?_ ?_) (fun t ht => ?_) ?_
  · simp [occurrences, List.countP_replicate]
    omega
  · simp [occurrences, List.countP_replicate]
    omega
  · rw [List.eq_of_mem_replicate ht]
    exact Or.inr rfl
  · clear hlength
    induction closed generalizing start with
    | zero => exact hle
    | succ closed ih => exact ⟨hle, le_rfl, ih le_rfl⟩

/-- The layout in front of a line: the line opens a block, or else closes as many as it falls
back. -/
theorem openLine_eq_ok {line : Line} {levels levels' : List Nat}
    (h : openLine line levels = .ok (ts, levels')) :
    let reached := line.start + byteLength (line.content.takeWhile Text.isBlank)
    (ts = [⟨.indent, ⟨line.start, reached⟩⟩] ∧ levels'.length = levels.length + 1) ∨
      ∃ closed, ts = List.replicate closed ⟨.dedent, .point reached⟩ ∧
        levels.length = levels'.length + closed := by
  simp only [openLine] at h
  split_ifs at h with hdeeper hmatches
  · cases h
    exact Or.inl ⟨rfl, rfl⟩
  · cases h
    exact Or.inr ⟨_, rfl, length_fallBack _ _⟩

/-- In front of a line only layout is put. -/
theorem isLayout_openLine {line : Line} {levels levels' : List Nat}
    (h : openLine line levels = .ok (ts, levels')) : ∀ t ∈ ts, t.node.isLayout = true := by
  rcases openLine_eq_ok h with ⟨rfl, -⟩ | ⟨closed, rfl, -⟩
  · exact List.forall_mem_singleton.2 rfl
  · intro t ht
    rw [List.eq_of_mem_replicate ht]
    rfl

/-- The layout in front of a line stands before its first character that is not blank. -/
theorem laid_openLine {line : Line} {levels levels' : List Nat}
    (h : openLine line levels = .ok (ts, levels')) :
    Laid text line.start (line.start + byteLength (line.content.takeWhile Text.isBlank))
      ⟨levels, 0⟩ ⟨levels', 0⟩ ts := by
  rcases openLine_eq_ok h with ⟨rfl, hlength⟩ | ⟨closed, rfl, hlength⟩
  · refine laid_of_layout (.of_total ?_ ?_) (by simp) (by simp [InOrder])
    · simp [occurrences]
    · simp [occurrences, hlength]
  · exact laid_dedents hlength (Nat.le_add_right _ _)

/-- What a line comes to: nothing if it has no tokens, otherwise its tokens with layout around
them. -/
theorem layoutLine_eq_ok {line : Line} (h : layoutLine state line = .ok (ts, state')) :
    ∃ tokens, Scans line.start line.content tokens ∧
      ((tokens = [] ∧ ts = [] ∧ state' = state) ∨
        ∃ before, tokens ≠ [] ∧ state'.depth = depthAfter state.depth tokens ∧
          ts = before ++ (tokens ++ if state'.depth = 0 then
            [⟨.newline, .point (line.start + byteLength line.content)⟩] else []) ∧
          ((state.depth ≠ 0 ∧ before = [] ∧ state'.levels = state.levels) ∨
            (state.depth = 0 ∧ openLine line state.levels = .ok (before, state'.levels)))) := by
  obtain ⟨tokens, htokens, h⟩ := Exec.bind_eq_ok.1 h
  refine ⟨tokens, scans_of_scan htokens, ?_⟩
  split_ifs at h with hempty hdepth
  · cases h
    exact Or.inl ⟨by simpa using hempty, rfl, rfl⟩
  · obtain ⟨⟨before, levels⟩, hbefore, h⟩ := Exec.bind_eq_ok.1 h
    cases h
    exact Or.inr ⟨before, by simpa using hempty, rfl, by rw [List.append_assoc],
      Or.inr ⟨hdepth, hbefore⟩⟩
  · cases h
    exact Or.inr ⟨[], by simpa using hempty, rfl, by simp, Or.inl ⟨hdepth, rfl, rfl⟩⟩

/-- The tokens of a line, with the end of the line behind them if no bracket is open there. -/
theorem laid_tokens {levels : List Nat} {depth : Nat} {tokens : List (Spanned Token)}
    (hne : tokens ≠ []) (hreal : ∀ t ∈ tokens, t.node.isLayout = false)
    (hline : ∀ t ∈ tokens, OnOneLine text t.span.start stop) (hplaces : InOrder start stop tokens) :
    Laid text start stop ⟨levels, depth⟩ ⟨levels, depthAfter depth tokens⟩
      (tokens ++ if depthAfter depth tokens = 0 then [⟨.newline, .point stop⟩] else []) := by
  split_ifs with hdepth
  · have hlayout : ∀ t ∈ [(⟨.newline, .point stop⟩ : Spanned Token)], t.node.isLayout = true :=
      List.forall_mem_singleton.2 rfl
    refine ⟨(Blocks.of_real _ hreal).append (.of_total ?_ ?_), ?_, ?_, .snoc hne hreal hline,
      hplaces.append ⟨le_rfl, le_rfl, le_rfl⟩⟩
    · simp [occurrences]
    · simp [occurrences]
    · rw [depthAfter_append, depthAfter_of_layout _ hlayout]
    · refine OutsideBrackets.append.2 ⟨.of_real hreal, ?_⟩
      simpa only [hdepth] using OutsideBrackets.of_layout hlayout
  · rw [List.append_nil]
    refine ⟨.of_real _ hreal, rfl, .of_real hreal, .of_ne fun t ht heq => ?_, hplaces⟩
    have := hreal t ht
    rw [heq] at this
    cases this

/-- The tokens that do not stand for layout. -/
def withoutLayout (ts : List (Spanned Token)) : List (Spanned Token) :=
  ts.filter fun t => !t.node.isLayout

theorem withoutLayout_append (ts us : List (Spanned Token)) :
    withoutLayout (ts ++ us) = withoutLayout ts ++ withoutLayout us :=
  List.filter_append ..

theorem withoutLayout_of_real (h : ∀ t ∈ ts, t.node.isLayout = false) : withoutLayout ts = ts :=
  List.filter_eq_self.2 fun t ht => by rw [h t ht]; rfl

theorem withoutLayout_of_layout (h : ∀ t ∈ ts, t.node.isLayout = true) : withoutLayout ts = [] :=
  List.filter_eq_nil_iff.2 fun t ht => by simp [h t ht]

/-- The layout of one line. -/
theorem laid_layoutLine {line : Line} {front back : List Char}
    (h : layoutLine state line = .ok (ts, state')) (htext : text = front ++ (line.content ++ back))
    (hstart : line.start = byteLength front) (hline : '\n' ∉ line.content) :
    Laid text line.start (line.start + byteLength line.content) state state' ts := by
  obtain ⟨tokens, hscans, ⟨-, rfl, rfl⟩ | ⟨before, hne, hdepth, rfl, hopen⟩⟩ := layoutLine_eq_ok h
  · exact ⟨.of_real _ (by simp), rfl, trivial, .of_ne (by simp), Nat.le_add_right _ _⟩
  have hreal := hscans.isLayout_eq_false
  have hone : ∀ t ∈ tokens, OnOneLine text t.span.start (line.start + byteLength line.content) :=
    fun t ht => onOneLine_of_piece htext hline (hstart ▸ (hscans.inOrder.mem ht).1) (by rw [hstart])
  obtain ⟨levels, depth⟩ := state
  obtain ⟨levels', depth'⟩ := state'
  dsimp only at hdepth hopen ⊢
  subst hdepth
  rcases hopen with ⟨-, rfl, rfl⟩ | ⟨rfl, hbefore⟩
  · exact laid_tokens hne hreal hone hscans.inOrder
  · -- the tokens begin behind the blanks, where the layout in front of them ends
    have hblanks : Scans (line.start + byteLength (line.content.takeWhile Text.isBlank))
        (line.content.dropWhile Text.isBlank) tokens := by
      rw [← List.takeWhile_append_dropWhile (p := Text.isBlank) (l := line.content)] at hscans
      exact hscans.of_blanks fun c hc => List.mem_takeWhile_imp hc
    have hplaces := hblanks.inOrder
    rw [Nat.add_assoc, ← byteLength_append, List.takeWhile_append_dropWhile] at hplaces
    exact (laid_openLine hbefore).append (laid_tokens hne hreal hone hplaces)

/-- The tokens of a line, if its layout is left out. -/
theorem scans_layoutLine {line : Line} (h : layoutLine state line = .ok (ts, state')) :
    Scans line.start line.content (withoutLayout ts) := by
  obtain ⟨tokens, hscans, ⟨rfl, rfl, -⟩ | ⟨before, -, -, rfl, hopen⟩⟩ := layoutLine_eq_ok h
  · exact hscans
  have hbefore : withoutLayout before = [] := by
    rcases hopen with ⟨-, rfl, -⟩ | ⟨-, hbefore⟩
    · rfl
    · exact withoutLayout_of_layout (isLayout_openLine hbefore)
  have hafter (depth offset : Nat) : withoutLayout
      (if depth = 0 then [⟨.newline, .point offset⟩] else []) = [] := by
    split_ifs <;> rfl
  rwa [withoutLayout_append, hbefore, withoutLayout_append, hafter, List.nil_append,
    List.append_nil, withoutLayout_of_real hscans.isLayout_eq_false]

/-! ## All lines -/

/-- The lines of a text: each ends in a newline, or else at the end of the text, and has no other
newline. -/
inductive AreLines : List (List Char) → Prop
  | nil : AreLines []
  | cons {line newline lines} (hline : '\n' ∉ line)
      (hnewline : newline = ['\n'] ∨ newline = [] ∧ lines = []) (hlines : AreLines lines) :
      AreLines ((line ++ newline) :: lines)

theorem areLines_linesFrom {line : List Char} (h : '\n' ∉ line) (cs : List Char) :
    AreLines (Text.linesFrom line cs) := by
  induction cs generalizing line with
  | nil =>
    unfold Text.linesFrom
    split_ifs
    · exact .nil
    · rw [← List.append_nil line.reverse]
      exact .cons (by simpa using h) (Or.inr ⟨rfl, rfl⟩) .nil
  | cons c cs ih =>
    unfold Text.linesFrom
    split_ifs with hc
    · rw [hc, List.reverse_cons]
      exact .cons (by simpa using h) (Or.inl rfl) (ih (by simp))
    · exact ih (by simpa [Ne.symm hc] using h)

/-- The lines that a text is split into are lines. -/
theorem areLines_splitLines (text : List Char) : AreLines (Text.splitLines text) :=
  areLines_linesFrom (by simp) text

/-- A line consists of its content and a line break. -/
theorem exists_lineBreak {line newline : List Char} (hline : '\n' ∉ line)
    (hnewline : newline = ['\n'] ∨ newline = []) :
    ∃ content returns,
      Text.dropWhileRight (fun c => c = '\n' || c = '\r') (line ++ newline) = content ∧
        line = content ++ returns ∧ ∀ c ∈ returns, c = '\r' := by
  have hdrop : Text.dropWhileRight (fun c => c = '\n' || c = '\r') (line ++ newline) =
      line.rdropWhile fun c => c = '\n' || c = '\r' := by
    rcases hnewline with rfl | rfl
    · exact List.rdropWhile_concat_pos _ _ _ rfl
    · rw [List.append_nil]
      rfl
  refine ⟨_, line.rtakeWhile fun c => c = '\n' || c = '\r', hdrop, ?_, fun c hc => ?_⟩
  · rw [List.rdropWhile_append_rtakeWhile]
  · have hbreak := List.mem_rtakeWhile_imp hc
    have hmem : c ∈ line := (List.rtakeWhile_suffix _ _).subset hc
    have hne : c ≠ '\n' := fun hc' => hline (hc' ▸ hmem)
    simpa [hne] using hbreak

/-- A line break is a gap, and ends the line. -/
theorem atLineEnd_lineBreak {returns newline tail : List Char} (hreturns : ∀ c ∈ returns, c = '\r')
    (hnewline : newline = ['\n'] ∨ newline = [] ∧ tail = []) :
    (∀ c ∈ returns ++ newline, isGap c = true) ∧ AtLineEnd (returns ++ (newline ++ tail)) := by
  constructor
  · intro c hc
    rcases List.mem_append.1 hc with hc | hc
    · rw [hreturns c hc]
      rfl
    · rcases hnewline with rfl | ⟨rfl, -⟩
      · rw [List.mem_singleton.1 hc]
        rfl
      · cases hc
  · refine ⟨returns, newline ++ tail, rfl, hreturns, fun c hc => ?_⟩
    rcases hnewline with rfl | ⟨rfl, rfl⟩
    · exact (Option.mem_some_iff.1 hc).symm
    · cases hc

/-- Blanks in front of a text change none of its tokens. -/
theorem Scans.append_gaps {pos : Nat} {gaps rest : List Char}
    (hgaps : ∀ c ∈ gaps, isGap c = true) (h : Scans (pos + byteLength gaps) rest ts) :
    Scans pos (gaps ++ rest) ts := by
  induction gaps generalizing pos with
  | nil => exact h
  | cons c gaps ih =>
    rw [List.forall_mem_cons] at hgaps
    rw [byteLength_cons, ← Nat.add_assoc] at h
    exact .cons_gap hgaps.1 (ih hgaps.2 h)

/-- The layout of all lines from a state on, and the tokens that are left without it. -/
theorem laid_layoutLines {lines : List (List Char)} {front : List Char} (hlines : AreLines lines)
    (htext : text = front ++ lines.flatten)
    (h : layoutLines (byteLength text) state (placeLines (byteLength front) lines) = .ok ts) :
    Laid text (byteLength front) (byteLength text) state {} ts ∧
      Scans (byteLength front) lines.flatten (withoutLayout ts) := by
  induction hlines generalizing state front ts with
  | nil =>
    rw [List.flatten_nil, List.append_nil] at htext
    subst htext
    obtain ⟨levels, depth⟩ := state
    simp only [placeLines, layoutLines] at h
    split_ifs at h with hdepth
    cases h
    obtain rfl : depth = 0 := by simpa using hdepth
    refine ⟨laid_dedents (by simp) le_rfl, ?_⟩
    rw [withoutLayout_of_layout fun t ht => by rw [List.eq_of_mem_replicate ht]; rfl]
    exact .nil
  | @cons line newline lines hline hnewline _ ih =>
    obtain ⟨content, returns, hcontent, rfl, hreturns⟩ :=
      exists_lineBreak hline (hnewline.imp_right And.left)
    simp only [placeLines, layoutLines, hcontent] at h
    obtain ⟨⟨us, state₁⟩, hfirst, h⟩ := Exec.bind_eq_ok.1 h
    obtain ⟨vs, hmore, h⟩ := Exec.bind_eq_ok.1 h
    cases h
    rw [← byteLength_append] at hmore
    have hcontent : '\n' ∉ content := fun hmem => hline (by simp [hmem])
    have htext' : text = front ++ (content ++ (returns ++ newline ++ lines.flatten)) := by
      rw [htext]
      simp
    obtain ⟨hlaid, hscans⟩ := ih (by rw [htext]; simp) hmore
    have hend : newline = ['\n'] ∨ newline = [] ∧ lines.flatten = [] :=
      hnewline.imp_right (And.imp_right fun hlines => by rw [hlines]; rfl)
    obtain ⟨hgap, htail⟩ := atLineEnd_lineBreak hreturns hend
    constructor
    · refine (laid_layoutLine hfirst htext' rfl hcontent).append (hlaid.mono ?_)
      simp only [byteLength_append]
      omega
    · rw [withoutLayout_append, List.flatten_cons, List.append_assoc, List.append_assoc]
      refine (scans_layoutLine hfirst).append hcontent htail ?_
      rw [← List.append_assoc]
      refine .append_gaps hgap ?_
      simpa [Nat.add_assoc] using hscans

/-- What the layout of a text has to be like. -/
structure LaidOut (text : List Char) (ts : List (Spanned Token)) : Prop where
  /-- Without layout the tokens are those of the text, at their places. -/
  content : tokenize text = .ok (withoutLayout ts)
  /-- Nowhere have more blocks been closed than opened. -/
  nested : ∀ part, part <+: ts → occurrences .dedent part ≤ occurrences .indent part
  /-- All blocks are closed in the end. -/
  closed : occurrences .dedent ts = occurrences .indent ts
  /-- Where layout stands, no bracket is open. -/
  outside : ∀ before t after, ts = before ++ t :: after → t.node.isLayout = true →
    depthAfter 0 before = 0
  /-- A line ends behind a token of its own. -/
  lineEnds : LineEnds text ts
  /-- The places come one after another within the text. -/
  places : InOrder 0 (byteLength text) ts

/-- The layout of a program is balanced, and nothing of the text is lost. -/
theorem laidOut_of_tokenizeLayout (h : tokenizeLayout text = .ok ts) : LaidOut text ts := by
  have hlines := areLines_splitLines text
  have htext : text = [] ++ (Text.splitLines text).flatten := (Text.flatten_splitLines text).symm
  obtain ⟨hlaid, hscans⟩ := laid_layoutLines hlines htext h
  rw [Text.flatten_splitLines] at hscans
  refine ⟨hscans.scan, fun part hpart => ?_, ?_, ?_, hlaid.lineEnds, hlaid.places⟩
  · simpa using hlaid.blocks.closed_le part hpart
  · simpa using hlaid.blocks.total.symm
  · rintro before t after rfl ht
    exact (OutsideBrackets.append.1 hlaid.outside).2.1 ht

/-- A block with a call that goes on over a comment, between line breaks of several kinds. -/
def nestedCall : List Char := "if a:\r\n\tb = f(c,\n# d\n  \"e\")\n\n  \t # g\nh\r\r".toList

theorem laidOut_nestedCall :
    ∃ ts, tokenizeLayout nestedCall = .ok ts ∧
      ts.map (·.node) = [.kwIf, .ident "a", .colon, .newline, .indent, .ident "b", .equals,
        .ident "f", .lParen, .ident "c", .comma, .str "e", .rParen, .newline, .dedent, .ident "h",
        .newline] ∧ LaidOut nestedCall ts := by
  have hread : (tokenizeLayout nestedCall).map (fun ts => ts.map (·.node)) =
      .ok [.kwIf, .ident "a", .colon, .newline, .indent, .ident "b", .equals, .ident "f", .lParen,
        .ident "c", .comma, .str "e", .rParen, .newline, .dedent, .ident "h", .newline] := by
    decide +kernel
  cases hts : tokenizeLayout nestedCall with
  | error e =>
    rw [hts] at hread
    cases hread
  | ok ts =>
    rw [hts] at hread
    exact ⟨ts, rfl, Except.ok.inj hread, laidOut_of_tokenizeLayout hts⟩

end Precond.Grammar
