import Mathlib.Tactic
import Precond.Proofs.ExpressionCompleteness

/-!
# Every program of the grammar is read

What the grammar derives is read with the value of the derivation. An expression of a statement
stands in front of a token that does not go on with it (`parse_in_front`). The only statement that
may end too early or too late is a conditional: it is read as a whole if what follows is `Settled`,
that is, no `elif` or `else`. Inside a block this is so because every statement has a beginning of
its own (`Derives.opens`) and the last one stands in front of the dedent. `ReadsBlocks` is what
statements assume about the blocks in them, and `readsBlocks_blockWithin` is an induction on the
depth, which the number of tokens bounds.

With soundness, `itemsOfTokens_eq_ok_iff_derives` follows: parsing and deriving are the same, so a
list of tokens is derived with one value at most.
-/

namespace Precond.Host

open Grammar Grammar.Parser

namespace Stmt

/-! ## How statements begin -/

/-- The tokens that a statement on one line begins with. -/
def opensLine (t : Token) : Bool := Level.or.opens t || t ∈ [.kwReturn, .kwPass, .kwAssert]

/-- The tokens that a statement begins with. -/
def opens (t : Token) : Bool := opensLine t || t = .kwIf || t = .kwWhile

/-- A statement on one line begins with a token that opens one. -/
theorem Simple.opensLine {ts : List (Spanned Token)} {s : Stmt} (h : Simple ts s) :
    ∃ t us, ts = t :: us ∧ opensLine t.node = true := by
  cases h with
  | assign _ he _ | expr he =>
    obtain ⟨t, us, rfl, ht⟩ := he.opens
    exact ⟨t, _, rfl, by simp [Stmt.opensLine, ht]⟩
  | give ht | pass ht | assert ht => exact ⟨_, _, rfl, by simp [Stmt.opensLine, ht]⟩

/-- A statement begins with a token that opens one. -/
theorem Derives.opens {ts : List (Spanned Token)} {ss : List Stmt}
    (h : Derives .statement ts ss) : ∃ t us, ts = t :: us ∧ opens t.node = true := by
  cases h with
  | line _ h =>
    obtain ⟨t, us, rfl, ht⟩ := h.opensLine
    exact ⟨t, _, rfl, by simp [Stmt.opens, ht]⟩
  | branch ht | loop ht => exact ⟨_, _, rfl, by simp [Stmt.opens, ht]⟩

theorem Derives.exists_eq_singleton {ts : List (Spanned Token)} {ss : List Stmt}
    (h : Derives .statement ts ss) : ∃ s, ss = [s] := by
  cases h <;> exact ⟨_, rfl⟩

/-- Statements one after the other are a first one and further ones. -/
theorem Derives.exists_pieces {ts : List (Spanned Token)} {ss : List Stmt}
    (h : Derives .statements ts ss) : ∃ (first : Piece Stmt) (rest : List (Piece Stmt)),
      Derives .statement first.tokens [first.value] ∧
      (∀ p ∈ rest, Derives .statement p.tokens [p.value]) ∧
      ts = first.tokens ++ rest.flatMap (·.tokens) ∧ ss = first.value :: rest.map (·.value) := by
  generalize hp : Part.statements = part at h
  induction h with
  | @one ts ss h =>
    obtain ⟨s, rfl⟩ := h.exists_eq_singleton
    exact ⟨⟨ts, s⟩, [], h, by simp, by simp, rfl⟩
  | @more ts us ss rest h _ _ ih =>
    obtain ⟨s, rfl⟩ := h.exists_eq_singleton
    obtain ⟨first, pieces, hfirst, hpieces, rfl, rfl⟩ := ih rfl
    exact ⟨⟨ts, s⟩, first :: pieces, h, List.forall_mem_cons.2 ⟨hfirst, hpieces⟩, by simp, by simp⟩
  | _ => cases hp

/-! ## Lines -/

/-- A line that begins with an expression is an assignment or the expression alone. -/
theorem simple_of_opens {c : Cursor} {t : Token} (hnext : c.next = some t)
    (ht : Level.or.opens t = true) : simple c = (do
      let e ← Expr.parse
      if ← accept .equals then
        let value ← Expr.parse
        return .assign (← spanFrom c.start) e value
      return .expr (← spanFrom c.start) e : Parser Stmt) c := by
  rw [simple, bind_eq_of_ok (here_eq c), bind_eq_of_ok (peek_eq c), hnext]
  cases t <;> first | rfl | simp [Level.opens, opensAtom] at ht

/-- An expression in front of a token that does not go on with it. -/
theorem parse_in_front {ts : List (Spanned Token)} {e : Expr} (he : Expr.Derives .or ts e)
    {c c' : Cursor} (h : c.Between ts c') {token : Token} (hnext : c'.next = some token)
    (htoken : tightness token = 0) : Expr.parse c = .ok (e, c') := by
  refine Expr.readsAll_parse _ he (Nat.lt_succ_self _) h ?_
  rw [hnext]
  exact Expr.looser_one htoken one_pos

/-- A statement on one line is read up to the end of the line. -/
theorem simple_of_between {ts : List (Spanned Token)} {s : Stmt} (hs : Simple ts s) {c c' : Cursor}
    (h : c.Between ts c') (hnext : c'.next = some .newline) : simple c = .ok (s, c') := by
  cases hs with
  | assign ht htarget hvalue =>
    obtain ⟨t, us, rfl, hopen⟩ := htarget.opens
    rw [simple_of_opens h.next_eq hopen]
    obtain ⟨d, hfront, hmore⟩ := Cursor.Between.split h
    obtain ⟨d', hmid, hback⟩ := hmore.split_cons
    have hequals : d.next = some .equals := by rw [hmid.next_eq, ht]
    rw [bind_eq_of_ok (parse_in_front htarget hfront hequals rfl),
      bind_eq_of_ok (accept_of_between hmid ht), if_pos rfl,
      bind_eq_of_ok (parse_in_front hvalue hback hnext rfl), ← h.span_eq (by simp)]
    rfl
  | expr he =>
    obtain ⟨t, us, rfl, hopen⟩ := he.opens
    rw [simple_of_opens h.next_eq hopen, bind_eq_of_ok (parse_in_front he h hnext rfl),
      bind_eq_of_ok (accept_of_ne (by simp [hnext])), ← h.span_eq (by simp)]
    rfl
  | give ht hvalue =>
    obtain ⟨d, hfirst, hmore⟩ := h.split_cons
    have hread := Expr.parseUnless_in_front (Expr.readsAll_parse _) [.newline] (by decide) _ hvalue
      (Nat.lt_succ_self _) hmore hnext (by simp) rfl
    rw [simple, bind_eq_of_ok (here_eq c), bind_eq_of_ok (peek_eq c), h.next_eq, ht]
    dsimp only
    rw [bind_eq_of_ok (advance_of_between hfirst), bind_eq_of_ok hread, ← h.span_eq (by simp)]
    rfl
  | pass ht =>
    rw [simple, bind_eq_of_ok (here_eq c), bind_eq_of_ok (peek_eq c), h.next_eq, ht]
    dsimp only
    rw [bind_eq_of_ok (advance_of_between h), ← h.span_eq (by simp)]
    rfl
  | assert ht he =>
    obtain ⟨d, hfirst, hmore⟩ := h.split_cons
    rw [simple, bind_eq_of_ok (here_eq c), bind_eq_of_ok (peek_eq c), h.next_eq, ht]
    dsimp only
    rw [bind_eq_of_ok (advance_of_between hfirst),
      bind_eq_of_ok (parse_in_front he hmore hnext rfl), ← h.span_eq (by simp)]
    rfl

theorem simpleLine_of_between {ts : List (Spanned Token)} {s : Stmt} (hs : Simple ts s)
    {newline : Spanned Token} (hnewline : newline.node = .newline) {c c' : Cursor}
    (h : c.Between (ts ++ [newline]) c') : simpleLine c = .ok (s, c') := by
  obtain ⟨d, hline, hlast⟩ := h.split
  have hnext : d.next = some .newline := by rw [hlast.next_eq, hnewline]
  rw [simpleLine, bind_eq_of_ok (simple_of_between hs hline hnext),
    bind_eq_of_ok (expect_of_between hlast hnewline)]
  rfl

/-! ## Blocks -/

/-- Every block of less than `n` tokens is read. -/
def ReadsBlocks (block : Parser (List Stmt)) (n : Nat) : Prop :=
  ∀ ⦃ts ss c d⦄, Derives .block ts ss → ts.length < n → Cursor.Between c ts d →
    block c = .ok (ss, d)

/-- The next token does not go on with a conditional. -/
def Settled (next : Option Token) : Prop := next ≠ some .kwElif ∧ next ≠ some .kwElse

theorem settled_of_opens {t : Token} (h : opens t = true) : Settled (some t) := by
  constructor <;> rintro heq <;> obtain rfl := Option.some.inj heq <;> revert h <;> decide

section Blocks

variable {block : Parser (List Stmt)} {n : Nat}

/-- A condition with its block is read. -/
theorem governed_of_between (hblock : ReadsBlocks block n) {cond body : List (Spanned Token)}
    {colon : Spanned Token} {e : Expr} {ss : List Stmt} (hcolon : colon.node = .colon)
    (hcond : Expr.Derives .or cond e) (hbody : Derives .block body ss) (hn : body.length < n)
    {c c' : Cursor} (h : c.Between (cond ++ colon :: body) c') :
    governed block c = .ok ((e, ss), c') := by
  obtain ⟨d, hfront, hmore⟩ := h.split
  obtain ⟨d', hmid, hback⟩ := hmore.split_cons
  have hnext : d.next = some .colon := by rw [hmid.next_eq, hcolon]
  rw [governed, bind_eq_of_ok (parse_in_front hcond hfront hnext rfl),
    bind_eq_of_ok (expect_of_between hmid hcolon), bind_eq_of_ok (hblock hbody hn hback)]
  rfl

/-- Where a conditional does not go on, there is nothing more. -/
theorem otherwise_of_settled {m : Nat} {c : Cursor} (h : Settled c.next) :
    otherwise block m c = .ok ([], c) := by
  cases m with
  | zero => rfl
  | succ m =>
    rw [otherwise, bind_eq_of_ok (here_eq c), bind_eq_of_ok (peek_eq c)]
    generalize c.next = next at h
    cases next with
    | none => rfl
    | some t => cases t <;> first | rfl | simp [Settled] at h

/-- What follows the block of a condition is read to its end. Each further condition has tokens of
its own. -/
theorem otherwise_of_between (hblock : ReadsBlocks block n) {m : Nat} {ts : List (Spanned Token)}
    {ss : List Stmt} (hs : Derives .otherwise ts ss) (hm : ts.length ≤ m) (hn : ts.length ≤ n)
    {c c' : Cursor} (h : c.Between ts c') (hnext : Settled c'.next) :
    otherwise block m c = .ok (ss, c') := by
  induction m generalizing ts ss c with
  | zero =>
    obtain rfl := List.length_eq_zero_iff.1 (Nat.le_zero.1 hm)
    obtain rfl := h.eq_of_nil
    cases hs
    exact otherwise_of_settled hnext
  | succ m ih =>
    cases hs with
    | nothing =>
      obtain rfl := h.eq_of_nil
      exact otherwise_of_settled hnext
    | @elif t cond colon bodyTokens otherTokens e body orelse ht hcolon hcond hbody horelse =>
      have hall : c.Between (t :: ((cond ++ colon :: bodyTokens) ++ otherTokens)) c' := by
        rwa [List.append_assoc]
      obtain ⟨d, hfirst, hmore⟩ := hall.split_cons
      obtain ⟨d', hgoverned, hrest⟩ := hmore.split
      simp only [List.length_cons, List.length_append] at hm hn
      have hread := governed_of_between hblock hcolon hcond hbody (by omega) hgoverned
      have hother := ih horelse (by omega) (by omega) hrest
      rw [otherwise, bind_eq_of_ok (here_eq c), bind_eq_of_ok (peek_eq c), h.next_eq, ht]
      dsimp only
      rw [bind_eq_of_ok (advance_of_between hfirst), bind_eq_of_ok hread]
      dsimp only
      rw [bind_eq_of_ok hother, ← h.span_eq (by simp)]
      rfl
    | orElse ht hcolon hbody =>
      obtain ⟨d, hfirst, hmore⟩ := h.split_cons
      obtain ⟨d', hmid, hback⟩ := hmore.split_cons
      simp only [List.length_cons] at hn
      rw [otherwise, bind_eq_of_ok (here_eq c), bind_eq_of_ok (peek_eq c), h.next_eq, ht]
      dsimp only
      rw [bind_eq_of_ok (advance_of_between hfirst),
        bind_eq_of_ok (expect_of_between hmid hcolon)]
      exact hblock hbody (by omega) hback

theorem statement_of_opensLine {c : Cursor} {t : Token} (hnext : c.next = some t)
    (ht : opensLine t = true) : statement block c = simpleLine c := by
  rw [statement, bind_eq_of_ok (here_eq c), bind_eq_of_ok (peek_eq c), hnext]
  cases t <;> first | rfl | simp [opensLine, Level.opens, opensAtom] at ht

/-- A statement is read if the next token does not go on with it. -/
theorem statement_of_between (hblock : ReadsBlocks block n) {ts : List (Spanned Token)} {s : Stmt}
    (hs : Derives .statement ts [s]) (hn : ts.length ≤ n) {c c' : Cursor} (h : c.Between ts c')
    (hnext : Settled c'.next) : statement block c = .ok (s, c') := by
  cases hs with
  | line hnewline hs =>
    obtain ⟨t, us, rfl, ht⟩ := hs.opensLine
    rw [statement_of_opensLine h.next_eq ht]
    exact simpleLine_of_between hs hnewline h
  | @branch t cond colon bodyTokens otherTokens e body orelse ht hcolon hcond hbody horelse =>
    have hall : c.Between (t :: ((cond ++ colon :: bodyTokens) ++ otherTokens)) c' := by
      rwa [List.append_assoc]
    obtain ⟨d, hfirst, hmore⟩ := hall.split_cons
    obtain ⟨d', hgoverned, hrest⟩ := hmore.split
    simp only [List.length_cons, List.length_append] at hn
    have hread := governed_of_between hblock hcolon hcond hbody (by omega) hgoverned
    have hlength := hrest.length_le
    have hother := otherwise_of_between hblock (m := d'.rest.length) horelse (by omega) (by omega)
      hrest hnext
    rw [statement, bind_eq_of_ok (here_eq c), bind_eq_of_ok (peek_eq c), h.next_eq, ht]
    dsimp only
    rw [bind_eq_of_ok (advance_of_between hfirst), bind_eq_of_ok hread]
    dsimp only
    rw [bind_eq_of_ok (remaining_eq d'), bind_eq_of_ok hother, ← h.span_eq (by simp)]
    rfl
  | loop ht hcolon hcond hbody =>
    obtain ⟨d, hfirst, hmore⟩ := h.split_cons
    simp only [List.length_cons, List.length_append] at hn
    have hread := governed_of_between hblock hcolon hcond hbody (by omega) hmore
    rw [statement, bind_eq_of_ok (here_eq c), bind_eq_of_ok (peek_eq c), h.next_eq, ht]
    dsimp only
    rw [bind_eq_of_ok (advance_of_between hfirst), bind_eq_of_ok hread]
    dsimp only
    rw [← h.span_eq (by simp)]
    rfl

theorem statement?_of_between (hblock : ReadsBlocks block n) {ts : List (Spanned Token)} {s : Stmt}
    (hs : Derives .statement ts [s]) (hn : ts.length ≤ n) {c c' : Cursor} (h : c.Between ts c')
    (hnext : Settled c'.next) : statement? block c = .ok (some s, c') := by
  obtain ⟨t, us, rfl, ht⟩ := hs.opens
  have hne : c.next ≠ some .dedent := by
    rw [h.next_eq]
    rintro heq
    rw [Option.some.inj heq] at ht
    revert ht
    decide
  rw [statement?, bind_eq_of_ok (peek_eq c), if_neg hne]
  exact map_eq_of_ok (statement_of_between hblock hs hn h hnext)

end Blocks

/-- A block that is indented takes three tokens besides the blocks in it. -/
theorem readsBlocks_blockWithin (depth : Nat) : ReadsBlocks (blockWithin depth) depth := by
  induction depth with
  | zero => exact fun _ _ _ _ _ hn => absurd hn (Nat.not_lt_zero _)
  | succ depth ih =>
    intro ts ss c c' hs hn h
    cases hs with
    | indented hnewline hindent hdedent hs =>
      obtain ⟨first, rest, hfirst, hrest, rfl, rfl⟩ := hs.exists_pieces
      obtain ⟨d₁, hbreak, h₁⟩ := h.split_cons
      obtain ⟨d₂, hstart, h₂⟩ := h₁.split_cons
      obtain ⟨d₃, hbody, hend⟩ := h₂.split
      obtain ⟨d₄, hhead, hloop⟩ := hbody.split
      have hlast : d₃.next = some .dedent := by rw [hend.next_eq, hdedent]
      have hsettled : Settled d₃.next := by
        rw [hlast]
        exact ⟨by simp, by simp⟩
      have hheads : ∀ p ∈ rest, ∃ t us, p.tokens = t :: us ∧ Settled (some t.node) := by
        intro p hp
        obtain ⟨t, us, hts, ht⟩ := (hrest p hp).opens
        exact ⟨t, us, hts, settled_of_opens ht⟩
      simp only [List.length_cons, List.length_append] at hn
      have hread := statement_of_between ih hfirst (by omega) hhead
        (next_of_pieces hheads hsettled hloop)
      have hothers : repeatWhile (statement? (blockWithin depth)) d₄ =
          .ok (rest.map (·.value), d₃) := by
        refine repeatWhile_of_between Settled (fun p hp {c d} hpiece hd => ?_) hheads hsettled ?_
          hloop
        · have hlength : p.tokens.length ≤ (rest.flatMap (·.tokens)).length := by
            obtain ⟨front, back, rfl⟩ := List.append_of_mem hp
            simp
            omega
          exact statement?_of_between ih (hrest p hp) (by omega) hpiece hd
        · rw [statement?, bind_eq_of_ok (peek_eq d₃), if_pos hlast]
          rfl
      rw [blockWithin, bind_eq_of_ok (accept_of_between hbreak hnewline), if_pos rfl,
        bind_eq_of_ok (expect_of_between hstart hindent), bind_eq_of_ok hread,
        bind_eq_of_ok hothers, bind_eq_of_ok (expect_of_between hend hdedent)]
      rfl
    | sameLine hnewline hs =>
      obtain ⟨t, us, rfl, ht⟩ := hs.opensLine
      have hne : c.next ≠ some .newline := by
        rw [h.next_eq]
        rintro heq
        rw [Option.some.inj heq] at ht
        revert ht
        decide
      rw [blockWithin, bind_eq_of_ok (accept_of_ne hne)]
      exact bind_eq_of_ok (simpleLine_of_between hs hnewline h)

/-- A block is read to its end. -/
theorem block_of_between {ts : List (Spanned Token)} {ss : List Stmt} (hs : Derives .block ts ss)
    {c c' : Cursor} (h : c.Between ts c') : block c = .ok (ss, c') := by
  have hlength := h.length_le
  exact readsBlocks_blockWithin _ hs (by omega) h

end Stmt

/-! ## Functions and programs -/

/-- An argument is read up to a token that does not go on with an expression. -/
theorem Decorator.argument_of_between {ts : List (Spanned Token)} {x : Spanned String × Expr}
    (hx : Argument ts x) {c c' : Cursor} (h : c.Between ts c') {token : Token}
    (hnext : c'.next = some token) (htoken : tightness token = 0) :
    argument c = .ok (x, c') := by
  cases hx with
  | mk hkey hequals he =>
    obtain ⟨d, hfirst, hmore⟩ := h.split_cons
    obtain ⟨d', hmid, hback⟩ := hmore.split_cons
    rw [argument, bind_eq_of_ok (name_of_between hfirst hkey),
      bind_eq_of_ok (expect_of_between hmid hequals),
      bind_eq_of_ok (Stmt.parse_in_front he hback hnext htoken)]
    rfl

theorem Decorator.Argument.exists_cons {ts : List (Spanned Token)} {x : Spanned String × Expr}
    (h : Argument ts x) : ∃ t us key, ts = t :: us ∧ t.node = .ident key := by
  cases h with
  | mk hkey => exact ⟨_, _, _, rfl, hkey⟩

theorem Decorator.listed_argument {p : Piece (Spanned String × Expr)}
    (hp : Argument p.tokens p.value) : Listed argument .rParen p := by
  refine ⟨fun hpiece hend => ?_, ?_⟩
  · rcases hend with hend | hend
    · exact argument_of_between hp hpiece hend rfl
    · exact argument_of_between hp hpiece hend rfl
  · obtain ⟨t, us, key, hts, ht⟩ := hp.exists_cons
    exact ⟨t, us, hts, by simp [ht]⟩

/-- A mark is read with all its arguments. -/
theorem Decorator.parse?_of_between {ts : List (Spanned Token)} {x : Decorator}
    (hx : Derives ts x) {c c' : Cursor} (h : c.Between ts c') : parse? c = .ok (some x, c') := by
  rw [parse?, bind_eq_of_ok (here_eq c)]
  cases hx with
  | @plain t name newline x ht hname hnewline =>
    obtain ⟨d, hmark, hlast⟩ := (show c.Between ([t, name] ++ [newline]) c' from h).split
    obtain ⟨d', hfirst, hsecond⟩ := hmark.split_cons
    have hne : d.next ≠ some .lParen := by simp [hlast.next_eq, hnewline]
    rw [bind_eq_of_ok (accept_of_between hfirst ht), if_pos rfl,
      bind_eq_of_ok (name_of_between hsecond hname), bind_eq_of_ok (accept_of_ne hne),
      if_neg Bool.false_ne_true, pure_bind]
    dsimp only
    rw [bind_eq_of_ok (spanFrom_eq _ _), bind_eq_of_ok (expect_of_between hlast hnewline),
      ← hmark.span_eq (by simp)]
    rfl
  | applied ht hname hopening hclosing hnewline hargs =>
    obtain ⟨d, hmark, hlast⟩ := h.split
    obtain ⟨d₁, hfirst, h₁⟩ := hmark.split_cons
    obtain ⟨d₂, hsecond, h₂⟩ := h₁.split_cons
    obtain ⟨d₃, hparen, hlist⟩ := h₂.split_cons
    have hread := commaList_of_between (by simp) hclosing
      (fun p hp => listed_argument (hargs p hp)) hlist
    rw [bind_eq_of_ok (accept_of_between hfirst ht), if_pos rfl,
      bind_eq_of_ok (name_of_between hsecond hname),
      bind_eq_of_ok (accept_of_between hparen hopening), if_pos rfl, bind_eq_of_ok hread]
    dsimp only
    rw [bind_eq_of_ok (spanFrom_eq _ _), bind_eq_of_ok (expect_of_between hlast hnewline),
      ← hmark.span_eq (by simp)]
    rfl

theorem Decorator.Derives.exists_cons {ts : List (Spanned Token)} {x : Decorator}
    (h : Derives ts x) : ∃ t us, ts = t :: us ∧ t.node = .at := by
  cases h with
  | plain ht => exact ⟨_, _, rfl, ht⟩
  | applied ht => exact ⟨_, _, rfl, ht⟩

theorem Decorator.parse?_of_ne {c : Cursor} (h : c.next ≠ some .at) :
    parse? c = .ok (none, c) := by
  rw [parse?, bind_eq_of_ok (here_eq c), bind_eq_of_ok (accept_of_ne h)]
  rfl

/-- A parameter is read up to a comma or the closing parenthesis. -/
theorem Param.parse_of_between {ts : List (Spanned Token)} {x : Param} (hx : Derives ts x)
    {c c' : Cursor} (h : c.Between ts c') (hnext : c'.next = some .comma ∨ c'.next = some .rParen) :
    parse c = .ok (x, c') := by
  cases hx with
  | plain hname =>
    have hne : c'.next ≠ some .colon := by rcases hnext with hnext | hnext <;> simp [hnext]
    rw [parse, bind_eq_of_ok (name_of_between h hname), bind_eq_of_ok (accept_of_ne hne)]
    rfl
  | typed hname hcolon hty =>
    obtain ⟨d, hfirst, hmore⟩ := h.split_cons
    obtain ⟨d', hmid, hback⟩ := hmore.split_cons
    have hne : c'.next ≠ some .lBracket := by rcases hnext with hnext | hnext <;> simp [hnext]
    have hread := map_eq_of_ok (f := some) (TypeExpr.parse_of_between hty hback hne)
    rw [parse, bind_eq_of_ok (name_of_between hfirst hname),
      bind_eq_of_ok (accept_of_between hmid hcolon), if_pos rfl, bind_eq_of_ok hread]
    rfl

theorem Param.listed {p : Piece Param} (hp : Derives p.tokens p.value) :
    Listed parse .rParen p := by
  refine ⟨parse_of_between hp, ?_⟩
  obtain ⟨ts, x⟩ := p
  cases hp with
  | plain hname => exact ⟨_, _, rfl, by simp [hname]⟩
  | typed hname => exact ⟨_, _, rfl, by simp [hname]⟩

/-- The type of a result, or nothing, in front of the colon. -/
theorem Function.result_of_between {α : Type} {ts : List (Spanned Token)} {ty : Option TypeExpr}
    (hty : Result ts ty) {c c' : Cursor} (h : c.Between ts c') (hnext : c'.next = some .colon)
    (k : Option TypeExpr → Parser α) :
    (accept .arrow >>= fun b =>
      if b = true then some <$> TypeExpr.parse >>= k else pure none >>= k) c = k ty c' := by
  cases hty with
  | none =>
    obtain rfl := h.eq_of_nil
    rw [bind_eq_of_ok (accept_of_ne (by simp [hnext])), if_neg Bool.false_ne_true, pure_bind]
  | some harrow hty =>
    obtain ⟨d, hfirst, hmore⟩ := h.split_cons
    have hread := map_eq_of_ok (f := some)
      (TypeExpr.parse_of_between hty hmore (by simp [hnext]))
    rw [bind_eq_of_ok (accept_of_between hfirst harrow), if_pos rfl, bind_eq_of_ok hread]

/-- A function is read with its marks. -/
theorem Function.parse_of_between {ts : List (Spanned Token)} {f : Function} (hf : Derives ts f)
    {c c' : Cursor} (h : c.Between ts c') : parse c = .ok (f, c') := by
  cases hf with
  | @mk decorators _ _ _ _ _ _ _ _ _ _ _ hword hname hopening hclosing hcolon hdecorators hparams
      hresult hbody =>
    have hspan := h.span_eq (by simp [tokens])
    rw [tokens] at h
    obtain ⟨d₁, hmarks, h₁⟩ := h.split
    obtain ⟨d₂, hdef, h₂⟩ := h₁.split_cons
    obtain ⟨d₃, hfirst, h₃⟩ := h₂.split_cons
    obtain ⟨d₄, hparen, h₄⟩ := h₃.split_cons
    rw [List.append_cons] at h₄
    obtain ⟨d₅, hlist, h₅⟩ := h₄.split
    obtain ⟨d₆, harrow, h₆⟩ := h₅.split
    obtain ⟨d₇, hmid, hlast⟩ := h₆.split_cons
    have hdef' : d₁.next = some .kwDef := by rw [hdef.next_eq, hword]
    have hcolon' : d₆.next = some .colon := by rw [hmid.next_eq, hcolon]
    have hheads : ∀ p ∈ decorators, ∃ t us, p.tokens = t :: us ∧ True := by
      intro p hp
      obtain ⟨t, us, hts, -⟩ := (hdecorators p hp).exists_cons
      exact ⟨t, us, hts, trivial⟩
    have hreadMarks := repeatWhile_of_between (fun _ => True)
      (fun p hp {c d} hpiece _ => Decorator.parse?_of_between (hdecorators p hp) hpiece) hheads
      trivial (Decorator.parse?_of_ne (by simp [hdef'])) hmarks
    have hreadParams := commaList_of_between (by simp) hclosing
      (fun p hp => Param.listed (hparams p hp)) hlist
    rw [parse, bind_eq_of_ok (here_eq c), bind_eq_of_ok hreadMarks,
      bind_eq_of_ok (expect_of_between hdef hword), bind_eq_of_ok (name_of_between hfirst hname),
      bind_eq_of_ok (expect_of_between hparen hopening), bind_eq_of_ok hreadParams,
      result_of_between hresult harrow hcolon']
    dsimp only
    rw [bind_eq_of_ok (expect_of_between hmid hcolon),
      bind_eq_of_ok (Stmt.block_of_between hbody hlast), ← hspan]
    rfl

/-- A function begins with its first mark, or with its word if it has none. -/
theorem Function.Derives.opens {ts : List (Spanned Token)} {f : Function} (h : Derives ts f) :
    ∃ t us, ts = t :: us ∧ (t.node = .at ∨ t.node = .kwDef) := by
  cases h with
  | @mk decorators _ _ _ _ _ _ _ _ _ _ _ hword _ _ _ _ hdecorators =>
    cases decorators with
    | nil => exact ⟨_, _, rfl, .inr hword⟩
    | cons p decorators =>
      obtain ⟨t, us, hts, ht⟩ := (hdecorators p (by simp)).exists_cons
      exact ⟨t, _, by rw [tokens, List.flatMap_cons, hts]; rfl, .inl ht⟩

/-- An item is read if the next token does not go on with it. -/
theorem Item.parse?_of_between {ts : List (Spanned Token)} {x : Item} (hx : Derives ts x)
    {c c' : Cursor} (h : c.Between ts c') (hnext : Stmt.Settled c'.next) :
    parse? c = .ok (some x, c') := by
  rw [parse?, bind_eq_of_ok (peek_eq c)]
  cases hx with
  | function hf =>
    have hread := Function.parse_of_between hf h
    obtain ⟨t, us, rfl, ht⟩ := hf.opens
    rw [h.next_eq]
    rcases ht with ht | ht
    · rw [ht]
      exact bind_eq_of_ok hread
    · rw [ht]
      exact bind_eq_of_ok hread
  | stmt hs =>
    have hread := Stmt.statement_of_between (fun _ _ _ _ hs _ => Stmt.block_of_between hs) hs le_rfl
      h hnext
    obtain ⟨t, us, rfl, ht⟩ := hs.opens
    rw [h.next_eq]
    generalize t.node = token at ht
    cases token <;> first | exact bind_eq_of_ok hread | exact absurd ht (by decide)

/-- An item begins with a token that ends the one before it. -/
theorem Item.Derives.opens {ts : List (Spanned Token)} {x : Item} (h : Derives ts x) :
    ∃ t us, ts = t :: us ∧ Stmt.Settled (some t.node) := by
  cases h with
  | function h =>
    obtain ⟨t, us, hts, ht⟩ := h.opens
    exact ⟨t, us, hts, by rcases ht with ht | ht <;> simp [Stmt.Settled, ht]⟩
  | stmt h =>
    obtain ⟨t, us, hts, ht⟩ := h.opens
    exact ⟨t, us, hts, Stmt.settled_of_opens ht⟩

/-- What derives from the grammar is read as it is. -/
theorem itemsOfTokens_of_derives {tokens : List (Spanned Token)} {items : List Item}
    (h : Program.Derives tokens items) : itemsOfTokens tokens = .ok items := by
  cases h with
  | @mk pieces hpieces =>
    have hall : Cursor.Between ⟨pieces.flatMap (·.tokens), 0⟩ (pieces.flatMap (·.tokens))
        ⟨[], stopAfter 0 (pieces.flatMap (·.tokens))⟩ := ⟨by simp, rfl⟩
    have hread := repeatWhile_of_between Stmt.Settled
      (fun p hp {c d} => Item.parse?_of_between (hpieces p hp))
      (fun p hp => (hpieces p hp).opens) ⟨by simp [Cursor.next], by simp [Cursor.next]⟩ rfl hall
    exact Exec.bind_eq_ok.2 ⟨_, hread, rfl⟩

/-- The parser of programs accepts exactly what the grammar derives, with the value of the
derivation, and no list of tokens has two. -/
theorem itemsOfTokens_eq_ok_iff_derives (tokens : List (Spanned Token)) :
    (∀ items, itemsOfTokens tokens = .ok items ↔ Program.Derives tokens items) ∧
      ∀ items items', Program.Derives tokens items → Program.Derives tokens items' →
        items = items' := by
  refine ⟨fun items => ⟨derives_of_itemsOfTokens, itemsOfTokens_of_derives⟩, ?_⟩
  intro items items' h h'
  have hread := itemsOfTokens_of_derives h
  rw [itemsOfTokens_of_derives h'] at hread
  exact (Except.ok.inj hread).symm

end Precond.Host
