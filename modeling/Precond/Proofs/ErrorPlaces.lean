import Mathlib.Tactic
import Precond.Grammar.Assertion
import Precond.Proofs.ProgramSoundness
import Precond.Proofs.QuotedTexts

/-!
# Where errors in assertions lie

A text that is no assertion is refused with an error that has a place in the text
(`Error.LiesAt`), and that place covers a piece of it (`Assertion.exists_selects_of_ofText`).

The places of syntax errors are those of tokens. `Parser.Locates` says of a parser that its errors
lie at tokens that were still to come when it began, or behind the last one of them; there is
a lemma for each step that a parser can make, and one for each level of the grammar. The one error
that does not lie at the next token is that of a type that is not known: it is found behind the sign
that follows the type, and covers the tokens of the type (`locates_typed`).
-/

namespace Precond

/-- The errors that a text of an assertion may have, with their places. -/
inductive Error.LiesAt : Error → Span → Prop
  | lex {cause span} : LiesAt (.lex cause span) span
  | parse {cause span} : LiesAt (.parse cause (some span)) span
  | type {written span} : LiesAt (.type (.unknownType written) (some span)) span

/-- The place moves with the text. -/
theorem Error.LiesAt.shift {e : Error} {span : Span} (h : e.LiesAt span) (offset : Nat) :
    (e.shift offset).LiesAt (span.shift offset) := by
  cases h with
  | lex => exact .lex
  | parse => exact .parse
  | type => exact .type

namespace Grammar

/-- The error lies at tokens that are still to come, or behind the last one of them. -/
def Blames (c : Cursor) (e : Error) : Prop :=
  e.LiesAt (.point (stopAfter c.last c.rest)) ∨
    ∃ ts, ts ≠ [] ∧ ts <:+: c.rest ∧ e.LiesAt (spanOf ts)

/-- Errors at tokens that come later are errors at tokens that are still to come. -/
theorem Blames.of_between {c d : Cursor} {ts : List (Spanned Token)} {e : Error}
    (h : c.Between ts d) (he : Blames d e) : Blames c e := by
  rcases he with hend | ⟨us, hne, hus, hspan⟩
  · left
    rwa [h.rest, stopAfter_append, ← h.last]
  · right
    refine ⟨us, hne, hus.trans ⟨ts, [], ?_⟩, hspan⟩
    rw [h.rest, List.append_nil]

open Precond.Grammar.Parser

namespace Parser

variable {α β : Type} {c : Cursor} {e : Error}

/-- Where the parser succeeds it has read some tokens, and its errors lie at tokens that it did not
read before. -/
structure Locates (p : Parser α) : Prop where
  reads : ∀ {c x d}, p c = .ok (x, d) → ∃ ts, c.Between ts d
  blames : ∀ {c e}, p c = .error e → Blames c e

/-- A sequence fails in its first part or, behind what that read, in its second. -/
theorem eq_error_of_bind {p : Parser α} {f : α → Parser β} (h : (p >>= f) c = .error e) :
    p c = .error e ∨ ∃ x d, p c = .ok (x, d) ∧ f x d = .error e := by
  cases hp : p c with
  | error e' =>
    change (p c >>= fun r => f r.1 r.2) = .error e at h
    rw [hp] at h
    cases h
    exact .inl rfl
  | ok r =>
    rw [bind_eq_of_ok (x := r.1) (d := r.2) hp] at h
    exact .inr ⟨r.1, r.2, rfl, h⟩

/-- A sequence of parsers that locate their errors does so too. -/
theorem Locates.bind {p : Parser α} {f : α → Parser β} (hp : Locates p)
    (hf : ∀ x, Locates (f x)) : Locates (p >>= f) := by
  constructor
  · intro c y d' h
    obtain ⟨x, d, hx, hy⟩ := exists_of_bind h
    obtain ⟨ts, hts⟩ := hp.reads hx
    obtain ⟨us, hus⟩ := (hf x).reads hy
    exact ⟨ts ++ us, hts.append hus⟩
  · intro c e h
    rcases eq_error_of_bind h with hx | ⟨x, d, hx, he⟩
    · exact hp.blames hx
    · obtain ⟨ts, hts⟩ := hp.reads hx
      exact ((hf x).blames he).of_between hts

theorem eq_of_liftM {r : Except Error α} {x : α} {d : Cursor}
    (h : (liftM r : Parser α) c = .ok (x, d)) : c = d := by
  obtain ⟨y, -, hy⟩ := Exec.bind_eq_ok.1 h
  cases hy
  rfl

theorem eq_error_of_liftM {r : Except Error α} (h : (liftM r : Parser α) c = .error e) :
    r = .error e := by
  cases r with
  | ok x => cases h
  | error e' =>
    cases h
    rfl

/-- Looking at tokens reads none. -/
theorem locates_look {p : Parser α} (h : ∀ c, ∃ x, p c = .ok (x, c)) : Locates p := by
  constructor
  · intro c y d hy
    obtain ⟨x, hx⟩ := h c
    cases hx.symm.trans hy
    exact ⟨[], .refl c⟩
  · intro c e he
    obtain ⟨x, hx⟩ := h c
    cases hx.symm.trans he

theorem locates_pure (x : α) : Locates (pure x) := locates_look fun _ => ⟨x, rfl⟩

theorem locates_peek : Locates peek := locates_look fun _ => ⟨_, rfl⟩

theorem locates_remaining : Locates remaining := locates_look fun _ => ⟨_, rfl⟩

theorem locates_reached : Locates reached := locates_look fun _ => ⟨_, rfl⟩

theorem locates_spanFrom (start : Nat) : Locates (spanFrom start) := locates_look fun _ => ⟨_, rfl⟩

theorem Locates.map {p : Parser α} (hp : Locates p) (f : α → β) : Locates (f <$> p) := by
  rw [map_eq_pure_bind]
  exact hp.bind fun x => locates_pure (f x)

theorem locates_unexpected : Locates (unexpected : Parser α) := by
  refine ⟨fun h => absurd h (unexpected_ne_ok _), ?_⟩
  intro c e h
  unfold unexpected at h
  split at h
  · next hrest =>
    cases h
    left
    rw [hrest]
    exact .parse
  · next t rest hrest =>
    cases h
    right
    exact ⟨[t], by simp, ⟨[], rest, by simp [hrest]⟩, .parse⟩

/-- Going on fails only at the end of the text. -/
theorem locates_advance : Locates advance := by
  constructor
  · intro c u d h
    obtain ⟨t, -, ht⟩ := between_of_advance h
    exact ⟨[t], ht⟩
  · intro c e h
    unfold advance at h
    split at h
    · exact locates_unexpected.blames h
    · cases h

theorem locates_accept (token : Token) : Locates (accept token) := by
  refine locates_peek.bind fun r => ?_
  split_ifs
  · exact locates_advance.bind fun _ => locates_pure _
  · exact locates_pure _

/-- A token that is missing is reported at the one in its place. -/
theorem locates_expect (token : Token) : Locates (expect token) := by
  refine (locates_accept token).bind fun b => ?_
  split_ifs
  · exact locates_pure _
  · exact locates_unexpected

theorem locates_name : Locates name := by
  constructor
  · intro c x d h
    obtain ⟨t, -, -, ht⟩ := between_of_name h
    exact ⟨[t], ht⟩
  · intro c e h
    unfold name at h
    split at h
    · cases h
    · exact locates_unexpected.blames h

/-- A repetition locates its errors if its item does. -/
theorem locates_repeatAtMost {item? : Parser (Option α)} (h : Locates item?) (n : Nat) :
    Locates (repeatAtMost item? n) := by
  induction n with
  | zero => exact locates_pure _
  | succ n ih =>
    refine h.bind fun r => ?_
    cases r with
    | none => exact locates_pure _
    | some x => exact ih.bind fun _ => locates_pure _

theorem locates_repeatWhile {item? : Parser (Option α)} (h : Locates item?) :
    Locates (repeatWhile item?) := locates_remaining.bind fun n => locates_repeatAtMost h n

/-- Items with commas locate their errors if a single one does. -/
theorem locates_commaItems {item : Parser α} (h : Locates item) (close : Token) (n : Nat) :
    Locates (commaItems item close n) := by
  induction n with
  | zero => exact locates_unexpected
  | succ n ih =>
    refine locates_peek.bind fun r => ?_
    split_ifs
    · exact locates_pure _
    · refine h.bind fun x => (locates_accept _).bind fun b => ?_
      split_ifs
      · exact ih.bind fun _ => locates_pure _
      · exact locates_pure _

theorem locates_commaList {item : Parser α} (h : Locates item) (close : Token) :
    Locates (commaList item close) :=
  locates_remaining.bind fun n => (locates_commaItems h close n).bind fun _ =>
    (locates_expect close).bind fun _ => locates_pure _

theorem locates_operation? {operand : Parser α} (h : Locates operand) (op? : Token → Option Op) :
    Locates (operation? op? operand) := by
  refine locates_peek.bind fun r => ?_
  split
  · exact locates_pure _
  · exact locates_advance.bind fun _ => h.bind fun _ => locates_reached.bind fun _ =>
      locates_pure _

end Parser

/-! ## Types -/

namespace TypeExpr

theorem locates_parseWithin (depth : Nat) : Locates (parseWithin depth) := by
  induction depth with
  | zero => exact locates_unexpected
  | succ depth ih =>
    refine locates_name.bind fun x => (locates_accept _).bind fun b => ?_
    split_ifs
    · exact (locates_commaList ih _).bind fun _ => (locates_spanFrom _).bind fun _ =>
        locates_pure _
    · exact (locates_pure _).bind fun _ => (locates_spanFrom _).bind fun _ => locates_pure _

theorem locates_parse : Locates parse :=
  locates_remaining.bind fun n => locates_parseWithin (n + 1)

/-- If a list of types cannot be resolved, one of them cannot. -/
theorem resolveAll_eq_error {tys : List TypeExpr} {e : Error} (h : resolveAll tys = .error e) :
    ∃ ty ∈ tys, ty.resolve = .error e := by
  induction tys with
  | nil => cases h
  | cons ty tys ih =>
    cases hty : ty.resolve with
    | error e' =>
      rw [resolveAll, hty] at h
      cases h
      exact ⟨ty, List.mem_cons_self, hty⟩
    | ok r =>
      rw [resolveAll, hty] at h
      cases hrest : resolveAll tys with
      | ok rs =>
        rw [hrest] at h
        cases h
      | error e' =>
        rw [hrest] at h
        cases h
        obtain ⟨ty', hmem, hty'⟩ := ih hrest
        exact ⟨ty', List.mem_cons_of_mem _ hmem, hty'⟩

/-- A type is blamed for its own name, and otherwise for one of its arguments. -/
theorem resolve_eq_error {x : String} {args : List TypeExpr} {span : Span} {e : Error}
    (h : (mk x args span).resolve = .error e) :
    (∃ ty ∈ args, ty.resolve = .error e) ∨ e.LiesAt span := by
  cases hargs : resolveAll args with
  | error e' =>
    rw [resolve, hargs] at h
    cases h
    exact .inl (resolveAll_eq_error hargs)
  | ok tys =>
    rw [resolve, hargs] at h
    cases hnamed : Ty.named? x tys with
    | some ty =>
      simp only [bind, Except.bind, hnamed] at h
      cases h
    | none =>
      simp only [bind, Except.bind, hnamed] at h
      cases h
      exact .inr .type

/-- A type that is not known is reported with all its tokens. -/
theorem Derives.resolve_eq_error {ts : List (Spanned Token)} {ty : TypeExpr} (h : Derives ts ty)
    {e : Error} (he : ty.resolve = .error e) :
    ∃ us, us ≠ [] ∧ us <:+: ts ∧ e.LiesAt (spanOf us) := by
  induction h with
  | plain hname =>
    rcases TypeExpr.resolve_eq_error he with ⟨_, hmem, -⟩ | hspan
    · cases hmem
    · exact ⟨_, List.cons_ne_nil _ _, List.infix_rfl, hspan⟩
  | @applied name opening closing x args hname hopening hclosing hargs ih =>
    rcases TypeExpr.resolve_eq_error he with ⟨ty, hmem, hty⟩ | hspan
    · obtain ⟨p, hp, rfl⟩ := List.mem_map.1 hmem
      obtain ⟨us, hne, hus, hspan⟩ := ih p hp hty
      have hlist : args.tokens <:+: name :: opening :: (args.tokens ++ [closing]) :=
        ⟨[name, opening], [closing], rfl⟩
      exact ⟨us, hne, (hus.trans (CommaList.isInfix_tokens hp)).trans hlist, hspan⟩
    · exact ⟨_, List.cons_ne_nil _ _, List.infix_rfl, hspan⟩

end TypeExpr

/-! ## Assertions -/

namespace Assertion

variable {operand sum formula : Parser Expr}

theorem locates_leftLevel (h : Locates operand) (op? : Token → Option Op) :
    Locates (leftLevel op? operand) :=
  h.bind fun _ => (locates_repeatWhile (locates_operation? h op?)).bind fun _ => locates_pure _

theorem locates_primary (h : Locates formula) : Locates (primary formula) := by
  refine locates_peek.bind fun r => ?_
  split
  · exact locates_advance.bind fun _ => locates_pure _
  · exact locates_advance.bind fun _ => locates_pure _
  · exact locates_advance.bind fun _ => locates_pure _
  · refine locates_advance.bind fun _ => (locates_accept _).bind fun b => ?_
    split_ifs
    · exact (locates_commaList h _).bind fun _ => locates_pure _
    · exact locates_pure _
  · exact locates_advance.bind fun _ => h.bind fun _ => (locates_expect _).bind fun _ =>
      locates_pure _
  · exact locates_unexpected

theorem locates_sumUnless (stops : List Token) (h : Locates sum) :
    Locates (sumUnless stops sum) := by
  refine locates_peek.bind fun r => ?_
  cases r with
  | none => exact h.map _
  | some token =>
    dsimp only
    split_ifs
    · exact locates_pure _
    · exact h.map _

theorem locates_index (h : Locates sum) : Locates (index sum) := by
  have hread (stops : List Token) := locates_sumUnless stops h
  refine (hread _).bind fun lower => (locates_accept _).bind fun b => ?_
  split_ifs
  · refine (hread _).bind fun upper => (locates_accept _).bind fun b => ?_
    split_ifs
    · exact (hread _).bind fun _ => locates_pure _
    · exact (locates_pure _).bind fun _ => locates_pure _
  · refine (locates_accept _).bind fun b => ?_
    split_ifs
    · exact (hread _).bind fun _ => locates_pure _
    · cases lower with
      | none => exact locates_unexpected
      | some e => exact locates_pure _

theorem locates_subscripted (hsum : Locates sum) (hformula : Locates formula) :
    Locates (subscripted sum formula) := by
  have hsubscript : Locates (subscript? sum) := by
    refine (locates_accept _).bind fun b => ?_
    split_ifs
    · exact (locates_index hsum).bind fun _ => (locates_expect _).bind fun _ => locates_pure _
    · exact locates_pure _
  exact (locates_primary hformula).bind fun _ => (locates_repeatWhile hsubscript).bind fun _ =>
    locates_pure _

theorem locates_negative (h : Locates operand) (n : Nat) : Locates (negative operand n) := by
  induction n with
  | zero => exact h
  | succ n ih =>
    refine (locates_accept _).bind fun b => ?_
    split_ifs
    · exact ih.bind fun _ => locates_pure _
    · exact h

theorem locates_sum (hsum : Locates sum) (hformula : Locates formula) :
    Locates (Assertion.sum sum formula) := by
  refine locates_leftLevel (locates_leftLevel (locates_leftLevel ?_ _) _) _
  exact locates_remaining.bind fun n => locates_negative (locates_subscripted hsum hformula) n

theorem locates_relation (h : Locates sum) : Locates (relation sum) := by
  refine h.bind fun left => (locates_operation? h _).bind fun r => ?_
  cases r with
  | none => exact locates_pure _
  | some r => exact locates_pure _

/-- A written type is looked up behind the sign that follows it, and reported where it stands. -/
theorem locates_typed {k : Option Ty → Parser Expr} (hk : ∀ ty, Locates (k ty)) :
    Locates (do
      let written ← TypeExpr.parse
      expect .colonColon
      let ty ← liftM ((some written).mapM TypeExpr.resolve)
      k ty) := by
  constructor
  · intro c x d' h
    obtain ⟨written, d, hwritten, h⟩ := exists_of_bind h
    obtain ⟨_, d₁, hexpect, h⟩ := exists_of_bind h
    obtain ⟨ty, d₂, hty, h⟩ := exists_of_bind h
    obtain ⟨ts, hts⟩ := TypeExpr.locates_parse.reads hwritten
    obtain ⟨us, hus⟩ := (locates_expect _).reads hexpect
    obtain ⟨vs, hvs⟩ := (hk ty).reads h
    obtain rfl := eq_of_liftM hty
    exact ⟨_, hts.append (hus.append hvs)⟩
  · intro c e h
    rcases eq_error_of_bind h with h | ⟨written, d, hwritten, h⟩
    · exact TypeExpr.locates_parse.blames h
    obtain ⟨ts, hts, hderives⟩ := TypeExpr.follows_parse hwritten
    rcases eq_error_of_bind h with h | ⟨_, d₁, hexpect, h⟩
    · exact ((locates_expect _).blames h).of_between hts
    obtain ⟨us, hus⟩ := (locates_expect _).reads hexpect
    rcases eq_error_of_bind h with h | ⟨ty, d₂, hty, h⟩
    · have hresolve : written.resolve = .error e := by
        have hmap := eq_error_of_liftM h
        rw [Option.mapM_some] at hmap
        cases hr : written.resolve with
        | ok ty =>
          rw [hr] at hmap
          cases hmap
        | error e' =>
          rw [hr] at hmap
          cases hmap
          rfl
      obtain ⟨vs, hne, hvs, hspan⟩ := hderives.resolve_eq_error hresolve
      exact .inr ⟨vs, hne, hvs.trans ⟨[], d.rest, by rw [hts.rest]; rfl⟩, hspan⟩
    · obtain rfl := eq_of_liftM hty
      exact ((hk ty).blames h).of_between (hts.append hus)

theorem locates_quantified (h : Locates formula) (quantify : String → Option Ty → Expr → Expr) :
    Locates (quantified formula quantify) := by
  refine locates_name.bind fun x => (locates_accept _).bind fun b => ?_
  have hbody (ty : Option Ty) : Locates (do return quantify x.node ty (← formula)) :=
    h.bind fun _ => locates_pure _
  split_ifs
  · rw [bind_map_left]
    exact locates_typed hbody
  · rw [pure_bind]
    exact (locates_expect _).bind fun _ => (locates_look fun _ => ⟨_, rfl⟩).bind hbody

theorem locates_negation (hsum : Locates sum) (hformula : Locates formula) (n : Nat) :
    Locates (negation sum formula n) := by
  induction n with
  | zero => exact locates_relation hsum
  | succ n ih =>
    refine locates_peek.bind fun r => ?_
    split
    · exact locates_advance.bind fun _ => ih.bind fun _ => locates_pure _
    · exact locates_advance.bind fun _ => locates_quantified hformula _
    · exact locates_advance.bind fun _ => locates_quantified hformula _
    · exact locates_relation hsum

theorem locates_rightLevel (h : Locates operand) (token : Token) (op : Op) (n : Nat) :
    Locates (rightLevel token op operand n) := by
  induction n with
  | zero => exact h
  | succ n ih =>
    refine h.bind fun left => (locates_accept _).bind fun b => ?_
    split_ifs
    · exact ih.bind fun _ => locates_pure _
    · exact locates_pure _

theorem locates_formula (hsum : Locates sum) (hformula : Locates formula) :
    Locates (Assertion.formula sum formula) := by
  have hdisjunction : Locates (disjunction sum formula) := by
    refine locates_leftLevel (locates_leftLevel ?_ _) _
    exact locates_remaining.bind fun n => locates_negation hsum hformula n
  exact locates_remaining.bind fun n =>
    locates_rightLevel (locates_rightLevel hdisjunction _ _ n) _ _ n

/-- The parsers of sums and of formulas locate their errors, at every depth. -/
theorem locates_within (depth : Nat) :
    Locates (sumWithin depth) ∧ Locates (formulaWithin depth) := by
  induction depth with
  | zero => exact ⟨locates_unexpected, locates_unexpected⟩
  | succ depth ih => exact ⟨locates_sum ih.1 ih.2, locates_formula (locates_sum ih.1 ih.2) ih.2⟩

/-- The errors of an assertion lie at its tokens, or behind the last one of them. -/
theorem blames_of_ofTokens {tokens : List (Spanned Token)} {e : Error}
    (h : ofTokens tokens = .error e) : Blames ⟨tokens, 0⟩ e := by
  have hlocates := (locates_within (tokens.length + 1)).2
  rw [ofTokens, run] at h
  cases hread : formulaWithin (tokens.length + 1) ⟨tokens, 0⟩ with
  | error e' =>
    rw [hread] at h
    cases h
    exact hlocates.blames hread
  | ok r =>
    obtain ⟨x, d⟩ := r
    obtain ⟨ts, hts⟩ := hlocates.reads hread
    rw [hread] at h
    change (if d.rest.isEmpty = true then _ else _) = _ at h
    split_ifs at h
    · cases h
    · cases hend : (unexpected : Parser Expr) d with
      | ok r => exact absurd hend (unexpected_ne_ok r)
      | error e' =>
        rw [hend] at h
        cases h
        exact (locates_unexpected.blames hend).of_between hts

end Assertion

/-! ## Texts -/

namespace InOrder

variable {α : Type} {start stop : Nat} {xs ys : List (Spanned α)}

theorem of_append_left (h : InOrder start stop (xs ++ ys)) : InOrder start stop xs := by
  induction xs generalizing start with
  | nil => exact h.start_le_stop
  | cons x xs ih => exact ⟨h.1, h.2.1, ih h.2.2⟩

theorem of_append_right (h : InOrder start stop (xs ++ ys)) : InOrder start stop ys := by
  induction xs generalizing start with
  | nil => exact h
  | cons x xs ih => exact ih (h.2.2.mono (h.1.trans h.2.1))

/-- A piece of a list of ranges that are in order is in order. -/
theorem of_isInfix (h : InOrder start stop xs) (hys : ys <:+: xs) : InOrder start stop ys := by
  obtain ⟨front, back, rfl⟩ := hys
  exact h.of_append_left.of_append_right

end InOrder

/-- Tokens one after the other cover a piece of the text. -/
theorem Scans.exists_selects_spanOf {text : List Char} {tokens ts : List (Spanned Token)}
    (h : Scans 0 text tokens) (hts : ts <:+: tokens) (hne : ts ≠ []) :
    ∃ piece, Selects text (spanOf ts) piece := by
  obtain ⟨t, us, rfl⟩ := List.exists_cons_of_ne_nil hne
  obtain ⟨last, hlast⟩ : ∃ last, (t :: us).getLast? = some last := ⟨_, List.getLast?_cons⟩
  have hmem := List.mem_of_getLast? hlast
  have hstop : (spanOf (t :: us)).stop = last.span.stop := by simp [spanOf, stopAfter, hlast]
  refine exists_selects (h.isBoundary (hts.subset List.mem_cons_self)).1 ?_ ?_
  · rw [hstop]
    exact (h.isBoundary (hts.subset hmem)).2
  · rw [hstop]
    have horder := h.inOrder.of_isInfix hts
    rcases List.mem_cons.1 hmem with rfl | hlater
    · exact horder.2.1
    · obtain ⟨hle, -⟩ := horder.2.2.mem hlater
      obtain ⟨_, _, _, _, -, hspan, -⟩ := h.exists_of_mem (hts.subset hmem)
      have hpiece : last.span.start ≤ last.span.stop := by
        rw [hspan]
        exact Nat.le_add_right _ _
      exact horder.2.1.trans (hle.trans hpiece)

/-- Characters that start no token are reported where they stand. -/
theorem exists_selects_of_scan {text : List Char} {pos : Nat} {e : Error}
    (h : scan 0 pos text = .error e) :
    ∃ cause front piece back, text = front ++ (piece ++ back) ∧
      e = .lex cause ⟨pos + byteLength front, pos + byteLength front + byteLength piece⟩ := by
  induction hlength : text.length using Nat.strong_induction_on generalizing pos text with
  | _ length ih =>
    cases text with
    | nil => cases h
    | cons c rest =>
      obtain ⟨found, cs, rest, rfl, hc⟩ := exists_lexeme c rest
      have hshorter : rest.length < length := by
        rw [← hlength, List.length_cons, List.length_append]
        omega
      have hlater (hrest : scan 0 (pos + byteLength (c :: cs)) rest = .error e) :
          ∃ cause front piece back, c :: (cs ++ rest) = front ++ (piece ++ back) ∧ e = .lex cause
            ⟨pos + byteLength front, pos + byteLength front + byteLength piece⟩ := by
        obtain ⟨cause, front, piece, back, rfl, rfl⟩ := ih _ hshorter hrest rfl
        exact ⟨cause, c :: (cs ++ front), piece, back, by simp, by simp [Nat.add_assoc]⟩
      cases found with
      | gap =>
        rw [scan_of_gap hc] at h
        exact hlater h
      | bad =>
        simp only [scan, hc, List.take_left] at h
        cases h
        exact ⟨_, [], c :: cs, rest, rfl, rfl⟩
      | token t =>
        rw [scan_of_token hc] at h
        cases hrest : scan 0 (pos + byteLength (c :: cs)) rest with
        | ok us =>
          rw [hrest] at h
          cases h
        | error e' =>
          rw [hrest] at h
          cases h
          exact hlater hrest

/-- Every error of an assertion lies at a piece of its text. -/
theorem Assertion.exists_selects_of_ofText {text : String} {e : Error}
    (h : ofText text = .error e) :
    ∃ span piece, e.LiesAt span ∧ Selects text.toList span piece := by
  cases htokens : tokenize text.toList with
  | error e' =>
    rw [ofText, htokens] at h
    cases h
    obtain ⟨cause, front, piece, back, htext, rfl⟩ := exists_selects_of_scan htokens
    exact ⟨_, piece, .lex, front, back, htext, by simp⟩
  | ok tokens =>
    rw [ofText, htokens] at h
    have hscans := scans_of_scan htokens
    rcases blames_of_ofTokens h with hend | ⟨ts, hne, hts, hspan⟩
    · have hlast : IsBoundary text.toList (stopAfter 0 tokens) := by
        rcases List.eq_nil_or_concat tokens with rfl | ⟨ts, t, rfl⟩
        · exact ⟨[], text.toList, rfl, rfl⟩
        · simpa [stopAfter] using (hscans.isBoundary (t := t) (by simp)).2
      obtain ⟨front, back, htext, hfront⟩ := hlast
      exact ⟨_, [], hend, front, back, htext, by rw [hfront]; rfl⟩
    · obtain ⟨piece, hpiece⟩ := hscans.exists_selects_spanOf hts hne
      exact ⟨_, piece, hspan, hpiece⟩

end Grammar

end Precond
