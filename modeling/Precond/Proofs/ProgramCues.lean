import Mathlib.Tactic
import Precond.Host.Grammar
import Precond.Proofs.ComputedValues

/-!
# What a syntax tree keeps of a program

A `Cue` is a name, a text between quotes or one of the signs `@`, `def` and `=`. The parser of
programs loses none and changes none: the cues of a program, in the order of the text, are those of
its syntax tree (`Host.cues_of_itemsOfTokens`).

`Parser.Tells p tells` says this of a parser, with the cues that a value tells, and
`Parser.TellsFrom` of a run from one place, where some cues have been told already. There is a lemma
for each step that a parser can make, so a parser is gone through from its start to its end with the
cues told so far.
-/

namespace Precond.Grammar

/-! ## Cues -/

/-- A name, a text or a sign by which the parts of a program are told apart. -/
inductive Cue where
  /-- The sign in front of a mark. -/
  | mark
  /-- The word in front of a function. -/
  | function
  /-- The sign between a key and its value. -/
  | equals
  | name (x : String)
  /-- A text with its place, quotes included. -/
  | text (text : Spanned String)
  deriving DecidableEq, Repr

/-- The cue that a token is. -/
def Cue.ofToken? (t : Spanned Token) : Option Cue :=
  match t.node with
  | .at => some .mark
  | .kwDef => some .function
  | .equals => some .equals
  | .ident x => some (.name x)
  | .str s => some (.text ⟨s, t.span⟩)
  | _ => none

/-- The cues among some tokens. -/
def cues (tokens : List (Spanned Token)) : List Cue := tokens.filterMap Cue.ofToken?

theorem cues_cons (t : Spanned Token) (ts : List (Spanned Token)) :
    cues (t :: ts) = (Cue.ofToken? t).toList ++ cues ts := by
  cases h : Cue.ofToken? t <;> simp [cues, h]

/-! ## Parsers that tell cues -/

namespace Parser

variable {α β : Type} {c : Cursor} {told : List Cue} {tells : β → List Cue}

theorem exists_of_bind {p : Parser α} {f : α → Parser β} {r : β × Cursor}
    (h : (p >>= f) c = .ok r) : ∃ x d, p c = .ok (x, d) ∧ f x d = .ok r := by
  obtain ⟨⟨x, d⟩, hx, hr⟩ := Exec.bind_eq_ok.1 h
  exact ⟨x, d, hx, hr⟩

/-- From a place where some cues have been told, the parser reads a value that tells these and the
cues of the tokens that it reads. -/
def TellsFrom (c : Cursor) (told : List Cue) (p : Parser α) (tells : α → List Cue) : Prop :=
  ∀ x c', p c = .ok (x, c') → told ++ cues c.rest = tells x ++ cues c'.rest

/-- The value that the parser reads tells the cues of the tokens that it reads. -/
def Tells (p : Parser α) (tells : α → List Cue) : Prop := ∀ c, TellsFrom c [] p tells

/-- A parser tells its cues, and then the next one tells the others. -/
theorem Tells.bind {p : Parser α} {mid : α → List Cue} {f : α → Parser β} (hp : Tells p mid)
    (hf : ∀ x c', TellsFrom c' (told ++ mid x) (f x) tells) : TellsFrom c told (p >>= f) tells := by
  intro y c' h
  obtain ⟨x, d, hx, hy⟩ := exists_of_bind h
  have hfirst := hp c x d hx
  rw [List.nil_append] at hfirst
  rw [hfirst, ← List.append_assoc]
  exact hf x d y c' hy

/-- Nothing comes after the parser. -/
theorem Tells.last {p : Parser β} {mid : β → List Cue} (hp : Tells p mid)
    (h : ∀ y, told ++ mid y = tells y) : TellsFrom c told p tells := by
  intro y c' hy
  have hread := hp c y c' hy
  rw [List.nil_append] at hread
  rw [hread, ← List.append_assoc, h]

/-- The result of a parser may be changed to one that tells the same. -/
theorem Tells.map {p : Parser α} {mid : α → List Cue} {f : α → β} (hp : Tells p mid)
    (h : ∀ x, told ++ mid x = tells (f x)) : TellsFrom c told (f <$> p) tells := by
  rw [map_eq_pure_bind]
  refine hp.bind fun x c' => ?_
  intro y d hy
  cases hy
  rw [h]

theorem tells_pure {y : β} (h : told = tells y) : TellsFrom c told (pure y) tells := by
  intro x c' hx
  cases hx
  rw [h]

theorem tells_pure_bind {x : α} {f : α → Parser β} (h : TellsFrom c told (f x) tells) :
    TellsFrom c told (pure x >>= f) tells := h

theorem unexpected_ne_ok (r : α × Cursor) : unexpected c ≠ .ok r := by
  unfold unexpected
  split <;> exact fun h => by cases h

theorem tells_unexpected : TellsFrom c told unexpected tells :=
  fun _ _ h => absurd h (unexpected_ne_ok _)

theorem tells_here {f : Nat → Parser β}
    (h : TellsFrom c told (f (c.rest.head?.elim c.last (·.span.start))) tells) :
    TellsFrom c told (here >>= f) tells := h

theorem tells_peek {f : Option Token → Parser β}
    (h : TellsFrom c told (f (c.rest.head?.map (·.node))) tells) :
    TellsFrom c told (peek >>= f) tells := h

theorem tells_remaining {f : Nat → Parser β} (h : TellsFrom c told (f c.rest.length) tells) :
    TellsFrom c told (remaining >>= f) tells := h

theorem tells_reached {f : Nat → Parser β} (h : TellsFrom c told (f c.last) tells) :
    TellsFrom c told (reached >>= f) tells := h

theorem tells_spanFrom {start : Nat} {f : Span → Parser β}
    (h : TellsFrom c told (f ⟨start, c.last⟩) tells) :
    TellsFrom c told (spanFrom start >>= f) tells := h

/-- A token that is there can be read. -/
theorem advance_eq_ok {t : Spanned Token} {rest : List (Spanned Token)} (hc : c.rest = t :: rest) :
    advance c = .ok ((), ⟨rest, t.span.stop⟩) := by
  rw [advance, hc]

/-- A token that is read tells its own cue, if it is one. -/
theorem tells_advance {t : Spanned Token} {rest : List (Spanned Token)} {f : Unit → Parser β}
    (hc : c.rest = t :: rest)
    (h : TellsFrom ⟨rest, t.span.stop⟩ (told ++ (Cue.ofToken? t).toList) (f ()) tells) :
    TellsFrom c told (advance >>= f) tells := by
  intro y c' hy
  obtain ⟨_, d, hd, hy⟩ := exists_of_bind hy
  cases (advance_eq_ok hc).symm.trans hd
  rw [hc, cues_cons, ← List.append_assoc]
  exact h y c' hy

/-- The token that is read is the one that was looked at. -/
theorem tells_advance_of_head {token : Token} {f : Unit → Parser β}
    (hhead : c.rest.head?.map (·.node) = some token)
    (h : ∀ span c', TellsFrom c' (told ++ (Cue.ofToken? ⟨token, span⟩).toList) (f ()) tells) :
    TellsFrom c told (advance >>= f) tells := by
  obtain ⟨⟨token, span⟩, ht, rfl⟩ := Option.map_eq_some_iff.1 hhead
  obtain ⟨rest, hrest⟩ := List.head?_eq_some_iff.1 ht
  exact tells_advance hrest (h span _)

/-- A token that may be read or not. -/
theorem tells_accept {token : Token} {f : Bool → Parser β}
    (htrue : ∀ span c', TellsFrom c' (told ++ (Cue.ofToken? ⟨token, span⟩).toList) (f true) tells)
    (hfalse : TellsFrom c told (f false) tells) : TellsFrom c told (accept token >>= f) tells := by
  rw [accept, bind_assoc]
  refine tells_peek ?_
  split_ifs with hhead
  · rw [bind_assoc]
    exact tells_advance_of_head hhead fun span c' => tells_pure_bind (htrue span c')
  · exact tells_pure_bind hfalse

/-- A token that is expected tells its own cue, if it is one. -/
theorem tells_expect {token : Token} {f : Unit → Parser β}
    (h : ∀ span c', TellsFrom c' (told ++ (Cue.ofToken? ⟨token, span⟩).toList) (f ()) tells) :
    TellsFrom c told (expect token >>= f) tells := by
  rw [expect, bind_assoc]
  refine tells_accept h fun y c' hy => ?_
  obtain ⟨_, d, hx, -⟩ := exists_of_bind hy
  exact absurd hx (unexpected_ne_ok _)

theorem tells_name : Tells name fun x => [.name x.node] := by
  intro c x c' h
  unfold name at h
  split at h
  · next y span rest hrest =>
    cases h
    simp [hrest, cues_cons, Cue.ofToken?]
  · exact absurd h (unexpected_ne_ok _)

section Repetition

variable {text : α → List Cue}

/-- A repetition tells the cues of its items. -/
theorem tells_repeatAtMost {item? : Parser (Option α)}
    (h : Tells item? fun r => r.elim [] text) (n : Nat) :
    Tells (repeatAtMost item? n) fun xs => xs.flatMap text := by
  induction n with
  | zero => exact fun c => tells_pure rfl
  | succ n ih =>
    refine fun c => h.bind fun r c' => ?_
    cases r with
    | none => exact tells_pure rfl
    | some x => exact ih.bind fun xs c' => tells_pure rfl

theorem tells_repeatWhile {item? : Parser (Option α)}
    (h : Tells item? fun r => r.elim [] text) :
    Tells (repeatWhile item?) fun xs => xs.flatMap text :=
  fun _ => tells_remaining (tells_repeatAtMost h _ _)

/-- Items with commas tell their own cues, as a comma is none. -/
theorem tells_commaItems {item : Parser α} (h : Tells item text) (close : Token) (n : Nat) :
    Tells (commaItems item close n) fun xs => xs.flatMap text := by
  induction n with
  | zero => exact fun c => tells_unexpected
  | succ n ih =>
    intro c
    refine tells_peek ?_
    split
    · exact tells_pure rfl
    refine h.bind fun x c' => tells_accept (fun span d => ?_) ?_
    · exact ih.bind fun xs c' => tells_pure (by simp [Cue.ofToken?])
    · exact tells_pure (by simp)

/-- Between items, and before the closing token, there stand commas only. -/
theorem tells_commaList {item : Parser α} (h : Tells item text) {close : Token}
    (hclose : ∀ span, Cue.ofToken? ⟨close, span⟩ = none) :
    Tells (commaList item close) fun xs => xs.flatMap text := by
  refine fun c => tells_remaining ((tells_commaItems h close _).bind fun xs c' => ?_)
  exact tells_expect fun span d => tells_pure (by simp [hclose])

/-- An operator tells nothing, and its operand what it does. -/
theorem tells_operation? {op? : Token → Option Op}
    (hop : ∀ {token op}, op? token = some op → ∀ span, Cue.ofToken? ⟨token, span⟩ = none)
    {operand : Parser α} (h : Tells operand text) :
    Tells (operation? op? operand) fun r => r.elim [] fun p => text p.2.1 := by
  intro c
  refine tells_peek ?_
  cases htoken : (c.rest.head?.map (·.node)).bind op? with
  | none => exact tells_pure rfl
  | some op =>
    obtain ⟨token, hhead, hop?⟩ := Option.bind_eq_some_iff.1 htoken
    refine tells_advance_of_head hhead fun span c' => h.bind fun x d =>
      tells_reached (tells_pure ?_)
    simp [hop hop? span]

end Repetition

/-- All cues of a text are told by what is read from it. -/
theorem cues_of_run {p : Parser α} {text : α → List Cue} (h : Tells p text)
    {tokens : List (Spanned Token)} {x : α} (hx : p.run tokens = .ok x) : cues tokens = text x := by
  obtain ⟨⟨y, c⟩, hy, hx⟩ := Exec.bind_eq_ok.1 hx
  have hread := h _ y c hy
  dsimp only at hx
  split_ifs at hx with hend
  · cases hx
    simpa [List.isEmpty_iff.1 hend, cues] using hread
  · obtain ⟨⟨z, c'⟩, hz, -⟩ := Exec.bind_eq_ok.1 hx
    exact absurd hz (unexpected_ne_ok _)

end Parser

end Precond.Grammar

/-! ## Written types -/

namespace Precond.Grammar.TypeExpr

open Precond.Grammar.Parser

mutual

/-- The names in a written type. -/
def cues : TypeExpr → List Cue
  | mk name args _ => .name name :: cuesAll args

/-- The names in written types. -/
def cuesAll : List TypeExpr → List Cue
  | [] => []
  | t :: ts => cues t ++ cuesAll ts

end

theorem cuesAll_eq_flatMap (ts : List TypeExpr) : cuesAll ts = ts.flatMap cues := by
  induction ts with
  | nil => rfl
  | cons t ts ih => rw [cuesAll, ih, List.flatMap_cons]

/-- The names of a written type are told. -/
theorem tells_parseWithin (depth : Nat) : Tells (parseWithin depth) cues := by
  induction depth with
  | zero => exact fun c => tells_unexpected
  | succ depth ih =>
    refine fun c => tells_name.bind fun x c' => tells_accept (fun span d => ?_) ?_
    · refine (tells_commaList ih fun _ => rfl).bind fun args d => tells_spanFrom (tells_pure ?_)
      simp [Cue.ofToken?, cues, cuesAll_eq_flatMap]
    · exact tells_pure_bind (tells_spanFrom (tells_pure rfl))

theorem tells_parse : Tells parse cues := fun _ => tells_remaining (tells_parseWithin _ _)

end Precond.Grammar.TypeExpr

/-! ## Expressions -/

namespace Precond.Host

open Precond.Grammar Precond.Grammar.Parser

namespace Expr

mutual

/-- The names and texts in an expression. -/
def cues : Expr → List Cue
  | .name _ x => [.name x]
  | .int .. | .bool .. => []
  | .str span text => [.text ⟨text, span⟩]
  | .binary _ _ l r => cues l ++ cues r
  | .unary _ _ e => cues e
  | .chain _ _ first rest => cues first ++ cuesAll rest
  | .compare _ first rest => cues first ++ cuesCompared rest
  | .call _ f args => .name f.node :: cuesAll args
  | .subscript _ b i => cues b ++ cues i
  | .slice _ l u s => cuesOption l ++ cuesOption u ++ cuesOption s
  | .list _ items => cuesAll items

/-- The names and texts in a list of expressions. -/
def cuesAll : List Expr → List Cue
  | [] => []
  | e :: es => cues e ++ cuesAll es

/-- The names and texts in the expressions that something is compared with. -/
def cuesCompared : List (Op × Expr) → List Cue
  | [] => []
  | (_, e) :: rest => cues e ++ cuesCompared rest

/-- The names and texts in an expression that may be left out. -/
def cuesOption : Option Expr → List Cue
  | none => []
  | some e => cues e

end

attribute [local simp] cues cuesOption

theorem cuesAll_eq_flatMap (es : List Expr) : cuesAll es = es.flatMap cues := by
  induction es with
  | nil => rfl
  | cons e es ih => rw [cuesAll, ih, List.flatMap_cons]

theorem cuesCompared_eq_flatMap (rest : List (Op × Expr)) :
    cuesCompared rest = rest.flatMap fun p => cues p.2 := by
  induction rest with
  | nil => rfl
  | cons p rest ih =>
    obtain ⟨op, e⟩ := p
    rw [cuesCompared, ih, List.flatMap_cons]

variable {operand expr sum : Parser Expr}

theorem tells_leftLevel {op? : Token → Option Op}
    (hop : ∀ {token op}, op? token = some op → ∀ span, Cue.ofToken? ⟨token, span⟩ = none)
    (h : Tells operand cues) : Tells (leftLevel op? operand) cues := by
  refine fun c => tells_here (h.bind fun first c' =>
    (tells_repeatWhile (tells_operation? hop h)).bind fun rest d => tells_pure ?_)
  induction rest generalizing first with
  | nil => simp
  | cons next rest ih => simpa using ih (.binary _ next.1 first next.2.1)

/-- An atom tells its own cues. -/
theorem tells_atom (h : Tells expr cues) : Tells (atom expr) cues := by
  intro c
  refine tells_here (tells_peek ?_)
  cases hrest : c.rest with
  | nil => exact tells_unexpected
  | cons t rest =>
    obtain ⟨token, span⟩ := t
    simp only [List.head?_cons, Option.map_some, Option.elim_some]
    cases token
    case int n => exact tells_advance hrest (tells_spanFrom (tells_pure rfl))
    case kwTrue | kwFalse => exact tells_advance hrest (tells_spanFrom (tells_pure rfl))
    case str text => exact tells_advance hrest (tells_spanFrom (tells_pure rfl))
    case ident x =>
      refine tells_advance hrest (tells_spanFrom (tells_accept (fun span d => ?_) ?_))
      · refine (tells_commaList h fun _ => rfl).bind fun args d => tells_spanFrom (tells_pure ?_)
        simp [Cue.ofToken?, cuesAll_eq_flatMap]
      · exact tells_pure rfl
    case lParen =>
      refine tells_advance hrest (h.bind fun e d => tells_expect fun span d => tells_pure ?_)
      simp [Cue.ofToken?]
    case lBracket =>
      refine tells_advance hrest ((tells_commaList h fun _ => rfl).bind fun items d =>
        tells_spanFrom (tells_pure ?_))
      simp [Cue.ofToken?, cuesAll_eq_flatMap]
    all_goals exact tells_unexpected

theorem tells_parseUnless (stops : List Token) (h : Tells expr cues) :
    Tells (parseUnless stops expr) cuesOption := by
  have hsome : Tells (some <$> expr) cuesOption := fun c => h.map fun e => rfl
  refine fun c => tells_peek ?_
  split
  · split_ifs
    · exact tells_pure rfl
    · exact hsome c
  · exact hsome c

theorem tells_index (h : Tells expr cues) : Tells (index expr) cues := by
  refine fun c => tells_here ((tells_parseUnless _ h).bind fun lower d =>
    tells_accept (fun span d => ?_) (tells_accept (fun span d => ?_) ?_))
  · refine (tells_parseUnless _ h).bind fun upper d => tells_accept (fun span d => ?_) ?_
    · refine (tells_parseUnless _ h).bind fun step d => tells_spanFrom (tells_pure ?_)
      simp [Cue.ofToken?]
    · refine tells_pure_bind (tells_spanFrom (tells_pure ?_))
      simp [Cue.ofToken?]
  · refine (tells_parseUnless _ h).bind fun step d => tells_spanFrom (tells_pure ?_)
    simp [Cue.ofToken?]
  · cases lower with
    | none => exact tells_unexpected
    | some e => exact tells_pure rfl

/-- A subscript tells the cues of what it stands behind and of its index. -/
theorem tells_subscripted (h : Tells expr cues) : Tells (subscripted expr) cues := by
  have hindex : Tells (subscript? expr) fun r => r.elim [] fun p => cues p.1 := by
    refine fun c => tells_accept (fun span d => ?_) (tells_pure rfl)
    refine (tells_index h).bind fun i d => tells_expect fun span d => ?_
    exact tells_reached (tells_pure (by simp [Cue.ofToken?]))
  refine fun c => tells_here ((tells_atom h).bind fun base d =>
    (tells_repeatWhile hindex).bind fun indices d => tells_pure ?_)
  induction indices generalizing base with
  | nil => simp
  | cons i indices ih => simpa using ih (.subscript _ base i.1)

theorem tells_prefixed {token : Token} {op : Op}
    (htoken : ∀ span, Cue.ofToken? ⟨token, span⟩ = none) (h : Tells operand cues) (n : Nat) :
    Tells (prefixed token op operand n) cues := by
  induction n with
  | zero => exact h
  | succ n ih =>
    refine fun c => tells_here (tells_accept (fun span d => ?_) (h c))
    exact ih.bind fun e d => tells_spanFrom (tells_pure (by simp [htoken]))

theorem tells_sum (h : Tells expr cues) : Tells (Expr.sum expr) cues := by
  refine tells_leftLevel ?_ (tells_leftLevel ?_ ?_)
  · intro token op hop span
    cases token <;> cases hop <;> rfl
  · intro token op hop span
    cases token <;> cases hop <;> rfl
  · exact fun c => tells_remaining (tells_prefixed (fun _ => rfl) (tells_subscripted h) _ c)

theorem tells_comparison (h : Tells sum cues) : Tells (comparison sum) cues := by
  have hop : ∀ {token op}, comparison? token = some op → ∀ span,
      Cue.ofToken? ⟨token, span⟩ = none := by
    intro token op hop span
    cases token <;> cases hop <;> rfl
  refine fun c => tells_here (h.bind fun first d =>
    (tells_repeatWhile (tells_operation? hop h)).bind fun rest d => ?_)
  split
  · next hnone => exact tells_pure (by simp [List.isEmpty_iff.1 hnone])
  · refine tells_spanFrom (tells_pure ?_)
    simp [cuesCompared_eq_flatMap, List.flatMap_map]

theorem tells_chainLevel {token : Token} {op : Op}
    (htoken : ∀ span, Cue.ofToken? ⟨token, span⟩ = none) (h : Tells operand cues) :
    Tells (chainLevel token op operand) cues := by
  have hlinked : Tells (linked? token operand) fun r => r.elim [] cues := by
    refine fun c => tells_accept (fun span d => h.map fun e => ?_) (tells_pure rfl)
    simp [htoken]
  refine fun c => tells_here (h.bind fun first d =>
    (tells_repeatWhile hlinked).bind fun rest d => ?_)
  split
  · next hnone => exact tells_pure (by simp [List.isEmpty_iff.1 hnone])
  · exact tells_spanFrom (tells_pure (by simp [cuesAll_eq_flatMap]))

/-- Expressions tell their own cues, at every depth. -/
theorem tells_parseWithin (depth : Nat) : Tells (parseWithin depth) cues := by
  induction depth with
  | zero => exact fun c => tells_unexpected
  | succ depth ih =>
    refine tells_chainLevel (fun _ => rfl) (tells_chainLevel (fun _ => rfl) fun c => ?_)
    exact tells_remaining (tells_prefixed (fun _ => rfl) (tells_comparison (tells_sum ih)) _ c)

theorem tells_parse : Tells parse cues := fun c => tells_remaining (tells_parseWithin _ c)

end Expr

/-! ## Statements -/

namespace Stmt

mutual

/-- The cues in a statement. -/
def cues : Stmt → List Cue
  | .assign _ target value => target.cues ++ .equals :: value.cues
  | .branch _ cond body orelse => cond.cues ++ cuesAll body ++ cuesAll orelse
  | .loop _ cond body => cond.cues ++ cuesAll body
  | .give _ value => Expr.cuesOption value
  | .pass _ => []
  | .assert _ e | .expr _ e => e.cues

/-- The cues in a list of statements. -/
def cuesAll : List Stmt → List Cue
  | [] => []
  | s :: ss => cues s ++ cuesAll ss

end

theorem cuesAll_eq_flatMap (ss : List Stmt) : cuesAll ss = ss.flatMap cues := by
  induction ss with
  | nil => rfl
  | cons s ss ih => rw [cuesAll, ih, List.flatMap_cons]

variable {block : Parser (List Stmt)}

/-- A statement on one line tells its own cues. -/
theorem tells_simple : Tells simple cues := by
  intro c
  refine tells_here (tells_peek ?_)
  split
  · next hhead =>
    refine tells_advance_of_head hhead fun span d =>
      (Expr.tells_parseUnless _ Expr.tells_parse).bind fun value d => tells_spanFrom (tells_pure ?_)
    simp [Cue.ofToken?, cues]
  · next hhead =>
    exact tells_advance_of_head hhead fun span d => tells_spanFrom (tells_pure rfl)
  · next hhead =>
    refine tells_advance_of_head hhead fun span d => Expr.tells_parse.bind fun e d =>
      tells_spanFrom (tells_pure ?_)
    simp [Cue.ofToken?, cues]
  · refine Expr.tells_parse.bind fun e d => tells_accept (fun span d => ?_) ?_
    · refine Expr.tells_parse.bind fun value d => tells_spanFrom (tells_pure ?_)
      simp [Cue.ofToken?, cues]
    · exact tells_spanFrom (tells_pure (by simp [cues]))

theorem tells_simpleLine : Tells simpleLine cues :=
  fun c => tells_simple.bind fun s d => tells_expect fun span d =>
    tells_pure (by simp [Cue.ofToken?])

theorem tells_governed (h : Tells block cuesAll) :
    Tells (governed block) fun p => p.1.cues ++ cuesAll p.2 :=
  fun c => Expr.tells_parse.bind fun cond d => tells_expect fun span d =>
    h.bind fun body d => tells_pure (by simp [Cue.ofToken?])

/-- A conditional tells the cues of all its branches. -/
theorem tells_otherwise (h : Tells block cuesAll) (n : Nat) :
    Tells (otherwise block n) cuesAll := by
  induction n with
  | zero => exact fun c => tells_pure rfl
  | succ n ih =>
    intro c
    refine tells_here (tells_peek ?_)
    split
    · next hhead =>
      refine tells_advance_of_head hhead fun span d => (tells_governed h).bind fun p d =>
        ih.bind fun orelse d => tells_spanFrom (tells_pure ?_)
      simp [Cue.ofToken?, cues, cuesAll]
    · next hhead =>
      refine tells_advance_of_head hhead fun span d => tells_expect fun span d => ?_
      exact h.last fun ss => by simp [Cue.ofToken?]
    · exact tells_pure rfl

theorem tells_statement (h : Tells block cuesAll) : Tells (statement block) cues := by
  intro c
  refine tells_here (tells_peek ?_)
  split
  · next hhead =>
    refine tells_advance_of_head hhead fun span d => (tells_governed h).bind fun p d =>
      tells_remaining ((tells_otherwise h _).bind fun orelse d => tells_spanFrom (tells_pure ?_))
    simp [Cue.ofToken?, cues]
  · next hhead =>
    refine tells_advance_of_head hhead fun span d => (tells_governed h).bind fun p d =>
      tells_spanFrom (tells_pure ?_)
    simp [Cue.ofToken?, cues]
  · exact tells_simpleLine c

/-- Blocks tell the cues of their statements, at every depth. -/
theorem tells_blockWithin (depth : Nat) : Tells (blockWithin depth) cuesAll := by
  induction depth with
  | zero => exact fun c => tells_unexpected
  | succ depth ih =>
    have hnext : Tells (statement? (blockWithin depth)) fun r => r.elim [] cues := by
      refine fun c => tells_peek ?_
      split_ifs
      · exact tells_pure rfl
      · exact (tells_statement ih).map fun s => rfl
    refine fun c => tells_accept (fun span d => tells_expect fun span d => ?_) ?_
    · refine (tells_statement ih).bind fun first d => (tells_repeatWhile hnext).bind fun rest d =>
        tells_expect fun span d => tells_pure ?_
      simp [Cue.ofToken?, cuesAll, cuesAll_eq_flatMap]
    · exact tells_simpleLine.bind fun s d => tells_pure (by simp [cuesAll])

theorem tells_block : Tells Stmt.block cuesAll := fun c => tells_remaining (tells_blockWithin _ c)

end Stmt

/-! ## Functions and programs -/

/-- The cues of an argument of a mark. -/
def Decorator.argumentCues (argument : Spanned String × Expr) : List Cue :=
  .name argument.1.node :: .equals :: argument.2.cues

/-- The cues of a mark behind its sign. -/
def Decorator.cues (d : Decorator) : List Cue :=
  .name d.name.node :: d.arguments.flatMap argumentCues

/-- The cues of a parameter. -/
def Param.cues (p : Param) : List Cue :=
  .name p.name.node :: p.type.elim [] TypeExpr.cues

/-- The cues of a function without its marks, from its name on. -/
def Function.cues (f : Function) : List Cue :=
  .name f.name.node :: (f.params.flatMap Param.cues ++ f.result.elim [] TypeExpr.cues ++
    Stmt.cuesAll f.body)

/-- The cues of an item. -/
def Item.cues : Item → List Cue
  | .function f => f.decorators.flatMap (fun d => .mark :: d.cues) ++ .function :: f.cues
  | .stmt s => s.cues

/-- A mark tells its own cues, behind its sign. -/
theorem Decorator.tells_parse? :
    Tells Decorator.parse? fun r => r.elim [] fun d => .mark :: d.cues := by
  have hargument : Tells Decorator.argument argumentCues :=
    fun c => tells_name.bind fun key d => tells_expect fun span d =>
      Expr.tells_parse.bind fun value d => tells_pure (by simp [Cue.ofToken?, argumentCues])
  refine fun c => tells_here (tells_accept (fun span d => ?_) (tells_pure rfl))
  refine tells_name.bind fun key d => tells_accept (fun span d => ?_) ?_
  · refine (tells_commaList hargument fun _ => rfl).bind fun arguments d =>
      tells_spanFrom (tells_expect fun span d => tells_pure ?_)
    simp [Cue.ofToken?, Decorator.cues]
  · refine tells_pure_bind (tells_spanFrom (tells_expect fun span d => tells_pure ?_))
    simp [Cue.ofToken?, Decorator.cues]

theorem tells_typed : Tells (some <$> TypeExpr.parse) fun r => r.elim [] TypeExpr.cues :=
  fun _ => TypeExpr.tells_parse.map fun _ => rfl

theorem Param.tells_parse : Tells Param.parse Param.cues := by
  refine fun c => tells_name.bind fun x d => tells_accept (fun span d => ?_) ?_
  · exact tells_typed.bind fun type d => tells_pure (by simp [Cue.ofToken?, Param.cues])
  · exact tells_pure_bind (tells_pure rfl)

/-- A function tells the cues of its marks and of the rest. -/
theorem Function.tells_parse : Tells Function.parse fun f => (Item.function f).cues := by
  have hrest : ∀ start decorators f params result, ∀ c told,
      told = decorators.flatMap (fun d => .mark :: d.cues) ++ .function :: .name f.node ::
        (params.flatMap Param.cues ++ result.elim [] TypeExpr.cues) →
      TellsFrom c told (do
        expect .colon
        let body ← Stmt.block
        return Function.mk decorators f params result body (← spanFrom start))
        fun f => (Item.function f).cues := by
    rintro start decorators f params result c told rfl
    refine tells_expect fun span d => Stmt.tells_block.bind fun body d =>
      tells_spanFrom (tells_pure ?_)
    simp [Cue.ofToken?, Item.cues, Function.cues]
  refine fun c => tells_here ((tells_repeatWhile Decorator.tells_parse?).bind fun decorators d =>
    tells_expect fun span d => tells_name.bind fun f d => tells_expect fun span d =>
      (tells_commaList Param.tells_parse fun _ => rfl).bind fun params d =>
        tells_accept (fun span d => ?_) ?_)
  · exact tells_typed.bind fun result d => hrest _ _ _ _ result d _ (by simp [Cue.ofToken?])
  · exact tells_pure_bind (hrest _ _ _ _ none d _ (by simp [Cue.ofToken?]))

/-- An item tells its own cues, or there is none. -/
theorem Item.tells_parse? : Tells Item.parse? fun r => r.elim [] Item.cues := by
  refine fun c => tells_peek ?_
  split
  · exact tells_pure rfl
  · exact Function.tells_parse.bind fun f d => tells_pure rfl
  · exact Function.tells_parse.bind fun f d => tells_pure rfl
  · exact (Stmt.tells_statement Stmt.tells_block).bind fun s d => tells_pure rfl

/-- The cues of a program are those of its items. -/
theorem cues_of_itemsOfTokens {tokens : List (Spanned Token)} {items : List Item}
    (h : itemsOfTokens tokens = .ok items) : Grammar.cues tokens = items.flatMap Item.cues :=
  cues_of_run (tells_repeatWhile Item.tells_parse?) h

end Precond.Host
