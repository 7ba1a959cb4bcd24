import Mathlib.Tactic
import Precond.Proofs.AssertionCompleteness

/-!
# The shape of assertions

The parser reads what the grammar derives and nothing else, so that what can be seen from the
grammar holds of every text that is read. A text has one expression at most. A quantifier stands
where a formula begins, and its body goes on to the end of the text or to the end of the parentheses
that it stands in. Behind a comparison sign stands one sum, which no other comparison sign follows.
`==>` and `<==>` nest to the right, the other operators to the left.

Where quantifiers and comparison signs stand is seen by one induction on derivations
(`Mark.placed_of_derives`).
-/

namespace Precond.Grammar

open Precond.Grammar.Parser

/-! ## Marks and what stands around them -/

/-- Whether a token is the first one of a quantifier. -/
def Token.isQuantifier : Token → Bool
  | .kwForall | .kwExists => true
  | _ => false

/-- Whether a formula may begin behind a token. -/
def Token.opensFormula : Token → Bool
  | .kwNot | .kwAnd | .kwOr | .implies | .iff | .colonColon | .lParen | .comma => true
  | _ => false

/-- Whether a token ends a formula in parentheses. -/
def Token.closesFormula : Token → Bool
  | .rParen | .comma => true
  | _ => false

/-- A token that closes a formula binds nothing. -/
theorem Token.binding_of_closesFormula {t : Token} (h : t.closesFormula = true) :
    t.binding = 0 := by
  unfold closesFormula at h
  split at h
  · rfl
  · rfl
  · cases h

/-- Whether quantifiers stand only in parentheses in what is derived from a symbol. -/
def Symbol.isClosed : Symbol → Bool
  | assertion | iff | implies | disjQuant | conjQuant | negationQuant | quantified => false
  | _ => true

/-- Whether comparison signs stand only in parentheses in what is derived from a symbol. -/
def Symbol.isTerm : Symbol → Bool
  | sum | product | modulo | unary | subscripted | index | primary => true
  | _ => false

/-- A kind of token that is followed by a piece of its own. -/
inductive Mark where
  | quantifier
  | comparator
  deriving DecidableEq

namespace Mark

/-- The tokens of the kind. -/
def holds : Mark → Token → Bool
  | quantifier, t => t.isQuantifier
  | comparator, t => t.binding == 5

/-- What belongs to such a token. -/
def Body : Mark → Token → List Token → Prop
  | quantifier, t, ts => ∃ e, Derives .quantified (t :: ts) e
  | comparator, _, ts => ∃ e, Derives .sum ts e

/-- The tokens that it may stand behind. -/
def before : Mark → Token → Bool
  | quantifier, t => t.opensFormula
  | comparator, _ => true

/-- The tokens that may follow what belongs to it. -/
def after : Mark → Token → Bool
  | quantifier, t => t.closesFormula
  | comparator, t => t.binding < 5

/-- Whether what is derived from a symbol does not begin with such a token. -/
def innerLeft : Mark → Symbol → Bool
  | quantifier, s => s.isClosed
  | comparator, _ => true

/-- Whether what belongs to such a token does not go to the end of what is derived from a symbol. -/
def innerRight : Mark → Symbol → Bool
  | quantifier, s => s.isClosed
  | comparator, s => s.isTerm

/-- Only quantifiers and comparisons are marked. -/
theorem holds_eq_false {m : Mark} {t : Token} (ht : (t.isQuantifier || t.binding == 5) = false) :
    m.holds t = false := by
  rw [Bool.or_eq_false_iff] at ht
  cases m with
  | quantifier => exact ht.1
  | comparator => exact ht.2

/-- Behind a token that opens a formula any mark may stand. -/
theorem before_of_opensFormula {m : Mark} {t : Token} (ht : t.opensFormula = true) :
    m.before t = true := by
  cases m with
  | quantifier => exact ht
  | comparator => rfl

/-- A token that closes a formula may follow what belongs to any mark. -/
theorem after_of_closesFormula {m : Mark} {t : Token} (ht : t.closesFormula = true) :
    m.after t = true := by
  cases m with
  | quantifier => exact ht
  | comparator => simp [after, Token.binding_of_closesFormula ht]

/-- Where the marks in a piece of a text stand: behind a token that they may stand behind, and
before a piece that belongs to them and a token that may follow it. They stand inside, not at an
end, on the left if `l` and on the right if `r` says so. -/
def Placed (m : Mark) (l r : Bool) (ts : List Token) : Prop :=
  ∀ pre q post, ts = pre ++ q :: post → m.holds q = true →
    (∀ t, pre.getLast? = some t → m.before t = true) ∧ (l = true → pre ≠ []) ∧
      ∃ body rest, post = body ++ rest ∧ m.Body q body ∧
        (∀ t, rest.head? = some t → m.after t = true) ∧ (r = true → rest ≠ [])

variable {m : Mark} {l r l' r' : Bool} {ts us : List Token} {t : Token}

/-- Asking for less at the ends is easier. -/
theorem Placed.mono (h : m.Placed l r ts) (hl : l' = true → l = true) (hr : r' = true → r = true) :
    m.Placed l' r' ts := by
  intro pre q post hts hq
  obtain ⟨hbefore, hpre, body, rest, hpost, hbody, hafter, hrest⟩ := h pre q post hts hq
  exact ⟨hbefore, fun h => hpre (hl h), body, rest, hpost, hbody, hafter, fun h => hrest (hr h)⟩

/-- A text without marks is well placed in any surroundings. -/
theorem placed_of_forall (h : ∀ t ∈ ts, m.holds t = false) : m.Placed l r ts := by
  rintro pre q post rfl hq
  simp [h q (by simp)] at hq

/-- Two pieces with a token between them, which may be a mark itself. -/
theorem Placed.join (hts : m.Placed l r' ts) (hus : m.Placed l' r us)
    (hafter : r' = true ∨ m.after t = true) (hbefore : l' = true ∨ m.before t = true)
    (ht : m.holds t = true → (l = true → ts ≠ []) ∧
      (∀ u, ts.getLast? = some u → m.before u = true) ∧ m.Body t us ∧ r = false) :
    m.Placed l r (ts ++ t :: us) := by
  have hmark {q : Token} {post : List Token} (heq : q :: post = t :: us) (hq : m.holds q = true) :
      (∀ u, ts.getLast? = some u → m.before u = true) ∧ (l = true → ts ≠ []) ∧
        ∃ body rest, post = body ++ rest ∧ m.Body q body ∧
          (∀ u, rest.head? = some u → m.after u = true) ∧ (r = true → rest ≠ []) := by
    obtain ⟨rfl, rfl⟩ := List.cons.inj heq
    obtain ⟨hne, hlast, hbody, rfl⟩ := ht hq
    exact ⟨hlast, hne, post, [], by simp, hbody, by simp, by simp⟩
  intro pre q post heq hq
  rcases List.append_eq_append_iff.1 heq with ⟨front, rfl, hfront⟩ | ⟨back, rfl, hback⟩
  · cases front with
    | nil => simpa using hmark hfront.symm hq
    | cons u front =>
      obtain ⟨rfl, rfl⟩ := List.cons.inj hfront
      obtain ⟨hlast, hne, hbody⟩ := hus front q post rfl hq
      refine ⟨fun u hu => ?_, by simp, hbody⟩
      rcases List.eq_nil_or_concat front with rfl | ⟨front, v, rfl⟩
      · obtain rfl : t = u := by simpa using hu
        exact hbefore.resolve_left fun h => hne h rfl
      · exact hlast u (by simpa [List.getLast?_append, List.getLast?_cons] using hu)
  · cases back with
    | nil => simpa using hmark hback hq
    | cons u back =>
      obtain ⟨rfl, rfl⟩ := List.cons.inj hback
      obtain ⟨hlast, hne, body, rest, rfl, hbody, hnext, hrest⟩ := hts pre q back rfl hq
      refine ⟨hlast, hne, body, rest ++ t :: us, by simp, hbody, fun u hu => ?_, by simp⟩
      cases rest with
      | nil =>
        obtain rfl : t = u := by simpa using hu
        exact hafter.resolve_left fun h => hrest h rfl
      | cons v rest => exact hnext u (by simpa using hu)

theorem placed_nil : m.Placed l r [] := placed_of_forall (List.forall_mem_nil _)

/-- Two pieces with a token between them that is no mark. -/
theorem Placed.append_cons (hts : m.Placed l r' ts) (hus : m.Placed l' r us)
    (hafter : r' = true ∨ m.after t = true) (hbefore : l' = true ∨ m.before t = true)
    (ht : m.holds t = false) : m.Placed l r (ts ++ t :: us) :=
  hts.join hus hafter hbefore (by simp [ht])

/-- A token without a mark in front of a well placed text. -/
theorem Placed.cons (hus : m.Placed l' r us) (hbefore : l' = true ∨ m.before t = true)
    (ht : m.holds t = false) : m.Placed l r (t :: us) := by
  have hnil : m.Placed l true [] := placed_nil
  exact hnil.append_cons hus (.inl rfl) hbefore ht

/-- A token without a mark behind a well placed text. -/
theorem Placed.append_singleton (hts : m.Placed l r' ts) (hafter : r' = true ∨ m.after t = true)
    (ht : m.holds t = false) : m.Placed l r (ts ++ [t]) := by
  have hnil : m.Placed true r [] := placed_nil
  exact hts.append_cons hnil hafter (.inl rfl) ht

/-- In what is derived from the symbol of a term, marks stand inside only. -/
theorem Placed.inside {s : Symbol} (h : m.Placed (m.innerLeft s) (m.innerRight s) ts)
    (hs : s.isTerm = true) : m.Placed l r ts := by
  have hinner : m.innerLeft s = true ∧ m.innerRight s = true := by
    revert hs
    cases m <;> cases s <;> decide
  exact h.mono (fun _ => hinner.1) (fun _ => hinner.2)

/-- Formulas with commas between them, up to a closing parenthesis. -/
theorem placed_commas {items : List (Phrase Expr)} {last : Option (Phrase Expr)}
    (hitems : ∀ p ∈ items, m.Placed false false p.tokens)
    (hlast : ∀ p ∈ last, m.Placed false false p.tokens) :
    m.Placed false true (Phrase.commas items last ++ [.rParen]) := by
  induction items with
  | nil =>
    have hnil : m.Placed false false (Phrase.commas [] last) := by
      cases last with
      | none => exact placed_of_forall (by simp [Phrase.commas, Phrase.optional])
      | some p => exact hlast p rfl
    exact hnil.append_singleton (.inr (after_of_closesFormula rfl)) (holds_eq_false rfl)
  | cons p items ih =>
    rw [List.forall_mem_cons] at hitems
    have hcommas : Phrase.commas (p :: items) last ++ [.rParen] =
        p.tokens ++ .comma :: (Phrase.commas items last ++ [.rParen]) := by
      simp [Phrase.commas]
    rw [hcommas]
    exact hitems.1.append_cons (ih hitems.2) (.inr (after_of_closesFormula rfl))
      (.inr (before_of_opensFormula rfl)) (holds_eq_false rfl)

/-- There are no marks in a written type. -/
theorem holds_of_typeDerives {ty : Ty} (h : TypeDerives ts ty) : ∀ t ∈ ts, m.holds t = false := by
  induction h with
  | plain => exact List.forall_mem_singleton.2 (holds_eq_false rfl)
  | @applied x ty items last _ _ _ ihitems ihlast =>
    have hcommas : ∀ t ∈ Phrase.commas items last, m.holds t = false := by
      intro t ht
      rcases List.mem_append.1 ht with ht | ht
      · obtain ⟨p, hp, ht⟩ := List.mem_flatMap.1 ht
        rcases List.mem_append.1 ht with ht | ht
        · exact ihitems p hp t ht
        · rw [List.mem_singleton.1 ht]
          exact holds_eq_false rfl
      · cases last with
        | none => cases ht
        | some p => exact ihlast p rfl t ht
    exact List.forall_mem_cons.2 ⟨holds_eq_false rfl, List.forall_mem_cons.2 ⟨holds_eq_false rfl,
      List.forall_mem_append.2 ⟨hcommas, List.forall_mem_singleton.2 (holds_eq_false rfl)⟩⟩⟩

theorem holds_of_quantType {ty : Option Ty} (h : QuantType ts ty) :
    ∀ t ∈ ts, m.holds t = false := by
  cases h with
  | absent => exact List.forall_mem_nil _
  | written h => exact List.forall_mem_cons.2 ⟨holds_eq_false rfl, holds_of_typeDerives h⟩

/-- If marks stand only inside of what a symbol derives, they do so in a part that may stand alone
for it. -/
theorem inner_of_mem_units {s a : Symbol} (h : a ∈ s.units) :
    (m.innerLeft s = true → m.innerLeft a = true) ∧
      (m.innerRight s = true → m.innerRight a = true) := by
  cases s <;> simp only [Symbol.units, List.mem_cons, List.not_mem_nil, or_false] at h
  case implies => rcases h with rfl | rfl <;> cases m <;> decide
  all_goals subst h; cases m <;> decide

/-- What the tables of operators say of marks. -/
structure Joins (m : Mark) (s : Symbol) (o : Operation) : Prop where
  left : m.innerLeft s = true → m.innerLeft o.left = true
  right : m.innerRight s = true → m.innerRight o.right = true
  after : m.innerRight o.left = true ∨ m.after o.token = true
  before : m.innerLeft o.right = true ∨ m.before o.token = true
  holds : m.holds o.token = true → m = comparator ∧ s = .comparison ∧ o.right = .sum

/-- The tables say so of every operation. -/
theorem joins_of_mem_operations {s : Symbol} {o : Operation} (h : o ∈ s.operations) :
    m.Joins s o := by
  cases s <;> simp only [Symbol.operations, List.mem_cons, List.not_mem_nil, or_false] at h
  case comparison =>
    rcases h with rfl | rfl | rfl | rfl | rfl | rfl <;>
      cases m <;> exact ⟨by decide, by decide, by decide, by decide, by decide⟩
  case sum | product =>
    rcases h with rfl | rfl <;>
      cases m <;> exact ⟨by decide, by decide, by decide, by decide, by decide⟩
  all_goals
    subst h
    cases m <;> exact ⟨by decide, by decide, by decide, by decide, by decide⟩

theorem placed_optional {p : Option (Phrase Expr)} (h : ∀ q ∈ p, m.Placed l r q.tokens) :
    m.Placed l r (Phrase.optional p) := by
  cases p with
  | none => exact placed_nil
  | some q => exact h q rfl

/-- A quantifier, which is a mark itself, and its body. -/
theorem placed_quantified {x : String} {written : List Token} {ty : Option Ty} {e : Expr}
    (hty : QuantType written ty) (hts : m.Placed (m.innerLeft .iff) (m.innerRight .iff) ts)
    (ht : t.binding = 0)
    (h : Derives .quantified (t :: .ident x :: (written ++ .colonColon :: ts)) e) :
    m.Placed (m.innerLeft .quantified) (m.innerRight .quantified)
      (t :: .ident x :: (written ++ .colonColon :: ts)) := by
  have hwritten : m.Placed true true written := placed_of_forall (holds_of_quantType hty)
  have hbody : m.Placed (m.innerLeft .iff) (m.innerRight .quantified) ts :=
    hts.mono id (by cases m <;> exact id)
  have htail : m.Placed true (m.innerRight .quantified)
      (.ident x :: (written ++ .colonColon :: ts)) :=
    (hwritten.append_cons hbody (.inl rfl) (.inr (before_of_opensFormula rfl))
      (holds_eq_false rfl)).cons (.inl rfl) (holds_eq_false rfl)
  have hnil : m.Placed (m.innerLeft .quantified) true [] := placed_nil
  refine hnil.join htail (.inl rfl) (.inl rfl) fun hmark => ?_
  cases m with
  | quantifier => exact ⟨nofun, nofun, ⟨e, h⟩, rfl⟩
  | comparator => simp [holds, ht] at hmark

/-- Every mark in what is derived from a symbol is in its place. -/
theorem placed_of_derives {s : Symbol} {e : Expr} (h : Derives s ts e) :
    m.Placed (m.innerLeft s) (m.innerRight s) ts := by
  induction h with
  | unit ha _ ih => exact ih.mono (inner_of_mem_units ha).1 (inner_of_mem_units ha).2
  | binary ho hl hr ihl ihr =>
    have hjoins := joins_of_mem_operations (m := m) ho
    refine (ihl.mono hjoins.left id).join (ihr.mono id hjoins.right) hjoins.after hjoins.before ?_
    intro hmark
    obtain ⟨rfl, rfl, hright⟩ := hjoins.holds hmark
    obtain ⟨t, us, rfl, -⟩ := hl.exists_cons
    exact ⟨fun _ => List.cons_ne_nil _ _, fun _ _ => rfl, ⟨_, hright ▸ hr⟩, rfl⟩
  | not _ ih | notQuant _ ih =>
    exact ih.cons (.inr (before_of_opensFormula rfl)) (holds_eq_false rfl)
  | forAll hty hbody ih => exact placed_quantified hty ih rfl (.forAll hty hbody)
  | thereExists hty hbody ih => exact placed_quantified hty ih rfl (.thereExists hty hbody)
  | neg _ ih =>
    have hoperand : m.Placed true (m.innerRight .unary) _ := ih.mono (by cases m <;> exact id) id
    exact hoperand.cons (.inl rfl) (holds_eq_false rfl)
  | subscript _ _ ihbase ihi =>
    have hbase : m.Placed (m.innerLeft .subscripted) true _ := ihbase.inside rfl
    have hi : m.Placed true true _ := ihi.inside rfl
    exact hbase.append_cons (hi.append_singleton (.inl rfl) (holds_eq_false rfl)) (.inl rfl)
      (.inl rfl) (holds_eq_false rfl)
  | @slice lower upper step _ _ _ ihlower ihupper ihstep =>
    have hlower : m.Placed (m.innerLeft .index) true (Phrase.optional lower) :=
      placed_optional fun p hp => (ihlower p hp).inside rfl
    have hupper {r : Bool} : m.Placed true r (Phrase.optional upper) :=
      placed_optional fun p hp => (ihupper p hp).inside rfl
    refine hlower.append_cons ?_ (.inl rfl) (.inl rfl) (holds_eq_false rfl)
    cases step with
    | none =>
      rw [Option.elim_none, List.append_nil]
      exact hupper
    | some step =>
      have hstep : m.Placed true (m.innerRight .index) (Phrase.optional step) :=
        placed_optional fun p hp => (ihstep p hp).inside rfl
      exact hupper.append_cons hstep (.inl rfl) (.inl rfl) (holds_eq_false rfl)
  | @sliceStep lower step _ _ ihlower ihstep =>
    have hlower : m.Placed (m.innerLeft .index) true (Phrase.optional lower) :=
      placed_optional fun p hp => (ihlower p hp).inside rfl
    have hstep : m.Placed true (m.innerRight .index) (Phrase.optional step) :=
      placed_optional fun p hp => (ihstep p hp).inside rfl
    exact hlower.append_cons hstep (.inl rfl) (.inl rfl) (holds_eq_false rfl)
  | int | true | false | var =>
    exact placed_of_forall (List.forall_mem_singleton.2 (holds_eq_false rfl))
  | call _ _ ihitems ihlast =>
    have hcommas := placed_commas (fun p hp => (ihitems p hp).mono nofun nofun)
      (fun p hp => (ihlast p hp).mono nofun nofun)
    have hparens : m.Placed true true _ :=
      hcommas.cons (.inr (before_of_opensFormula rfl)) (holds_eq_false (t := .lParen) rfl)
    exact (hparens.mono id fun _ => rfl).cons (.inl rfl) (holds_eq_false rfl)
  | parens _ ih =>
    have hbody : m.Placed false false _ := ih.mono nofun nofun
    exact (hbody.append_singleton (.inr (after_of_closesFormula rfl)) (holds_eq_false rfl)).cons
      (.inr (before_of_opensFormula rfl)) (holds_eq_false rfl)

end Mark

/-! ## Pieces that begin at the same token -/

namespace Assertion

/-- Of two pieces that begin at the same token, and are followed by what may follow them, none is
longer. -/
theorem eq_of_append_eq {p : Nat → Parser Expr} {s : Symbol} {k : Nat}
    (hp : ∀ d, ReadsAll d (p d) s k) {ts us rest rest' : List Token} {e e' : Expr}
    (h : Derives s ts e) (h' : Derives s us e') (hrest : Past k rest) (hrest' : Past k rest')
    (heq : ts ++ rest = us ++ rest') : rest = rest' := by
  have hts := hp (ts.length + us.length + 1) h (by omega) hrest
  rw [heq] at hts
  exact hts.rest_unique (hp _ h' (by omega) hrest')

/-- In front of a token that closes a formula, every level ends. -/
theorem past_of_closesFormula {rest : List Token}
    (h : ∀ t, rest.head? = some t → t.closesFormula = true) : Past 1 rest := by
  intro t ht
  rw [Token.binding_of_closesFormula (h t ht)]
  decide

theorem iff_of_quantified {ts : List Token} {e : Expr} (h : Derives .quantified ts e) :
    Derives .iff ts e :=
  .unit List.mem_cons_self <| .unit (List.mem_cons_of_mem _ List.mem_cons_self) <|
    .unit List.mem_cons_self <| .unit List.mem_cons_self <| .unit List.mem_cons_self h

theorem disj_of_sum {ts : List Token} {e : Expr} (h : Derives .sum ts e) : Derives .disj ts e :=
  .unit List.mem_cons_self <| .unit List.mem_cons_self <| .unit List.mem_cons_self <|
    .unit List.mem_cons_self h

theorem assertion_of_disj {ts : List Token} {e : Expr} (h : Derives .disj ts e) :
    Derives .assertion ts e :=
  .unit List.mem_cons_self <| .unit List.mem_cons_self <| .unit List.mem_cons_self h

theorem assertion_iff_iff {ts : List Token} {e : Expr} :
    Derives .assertion ts e ↔ Derives .iff ts e := by
  refine ⟨fun h => ?_, .unit List.mem_cons_self⟩
  cases h with
  | binary ho => cases ho
  | unit ha h =>
    obtain rfl := List.mem_singleton.1 ha
    exact h

/-! ## Quantifiers and comparisons -/

/-- A quantifier stands where a formula begins. Its body goes on to the end of the text or of the
parentheses that it stands in, and there is no longer piece of the text that it could be. -/
structure Scoped (pre : List Token) (q : Token) (post : List Token) : Prop where
  begins : ∀ t, pre.getLast? = some t → t.opensFormula = true
  reaches : ∃ ts rest e, post = ts ++ rest ∧ Derives .quantified (q :: ts) e ∧
    (∀ t, rest.head? = some t → t.closesFormula = true) ∧
    ∀ us rest' e', post = us ++ rest' → Derives .quantified (q :: us) e' → us.length ≤ ts.length

/-- A quantifier in an assertion stands where a formula begins, and its body goes on as far as it
can. -/
theorem scoped_of_derives {pre post : List Token} {q : Token} {e : Expr}
    (h : Derives .assertion (pre ++ q :: post) e) (hq : q.isQuantifier = true) :
    Scoped pre q post := by
  obtain ⟨hbegins, -, ts, rest, rfl, ⟨e', hts⟩, hcloses, -⟩ :=
    Mark.placed_of_derives (m := .quantifier) h pre q post rfl hq
  refine ⟨hbegins, ts, rest, e', rfl, hts, hcloses, fun us rest' e'' heq hus => ?_⟩
  rcases List.append_eq_append_iff.1 heq with ⟨vs, rfl, rfl⟩ | ⟨vs, rfl, -⟩
  · have hvs : Past 1 vs := by
      intro t ht
      exact past_of_closesFormula hcloses t (by simp [ht])
    obtain rfl := eq_of_append_eq (fun d => (readsAll_within d).2) (iff_of_quantified hts)
      (iff_of_quantified hus) hvs (nofun : Past 1 []) (by simp)
    simp
  · simp

/-- The tokens between two comparison signs are no sum, so that a comparison is never compared
again. -/
theorem not_derives_between {pre us post : List Token} {t u : Token} {e : Expr}
    (h : Derives .assertion (pre ++ t :: (us ++ u :: post)) e) (ht : (comparison? t).isSome = true)
    (hu : (comparison? u).isSome = true) : ¬∃ b, Derives .sum us b := by
  have hbinding {t : Token} (ht : (comparison? t).isSome = true) : t.binding = 5 := by
    obtain ⟨op, hop⟩ := Option.isSome_iff_exists.1 ht
    exact opsBind_comparison t op hop
  rintro ⟨b, hus⟩
  obtain ⟨-, -, body, rest, heq, ⟨e', hbody⟩, hafter, -⟩ :=
    Mark.placed_of_derives (m := .comparator) h pre t _ rfl (by simp [Mark.holds, hbinding ht])
  have hrest : Past 5 rest := fun t ht => by simpa [Mark.after] using hafter t ht
  obtain rfl := eq_of_append_eq (fun d => (readsAll_within d).1) hus hbody
    (past_cons (by rw [hbinding hu]; decide)) (hrest.mono (by decide)) heq
  exact absurd (hrest u rfl) (by rw [hbinding hu]; decide)

/-! ## Nesting -/

/-- An operator and its right operand. -/
structure Link where
  /-- The token of the operator. -/
  token : Token
  /-- The operator. -/
  op : Op
  /-- The operand. -/
  operand : Phrase Expr

/-- The operators that nest to the right, with what stands on their sides. -/
def rightNested : List Operation :=
  [⟨.disj, .implies, .implies, .implies⟩, ⟨.impliesNoQuant, .iff, .iff, .iff⟩]

/-- Operators of a level with their operands, behind something that the level derives: the tree
nests to the left. -/
theorem derives_foldl {s a : Symbol} {op? : Token → Option Op} (hs : s.LeftLevel a op?)
    {ts : List Token} {e : Expr} (h : Derives s ts e) {links : List Link}
    (hlinks : ∀ x ∈ links, op? x.token = some x.op ∧ Derives a x.operand.tokens x.operand.value) :
    Derives s (ts ++ links.flatMap fun x => x.token :: x.operand.tokens)
      (links.foldl (fun l x => .binary x.op l x.operand.value) e) := by
  induction links generalizing ts e with
  | nil => simpa using h
  | cons x links ih =>
    rw [List.forall_mem_cons] at hlinks
    simpa using ih (derives_step hs h hlinks.1.1 hlinks.1.2) hlinks.2

/-- Operands in front of an operator, and a last one: the tree nests to the right. -/
theorem derives_foldr {o : Operation} (ho : o ∈ o.right.operations) {last : Phrase Expr}
    (hlast : Derives o.right last.tokens last.value) {items : List (Phrase Expr)}
    (hitems : ∀ p ∈ items, Derives o.left p.tokens p.value) :
    Derives o.right (items.flatMap (fun p => p.tokens ++ [o.token]) ++ last.tokens)
      (items.foldr (fun p e => .binary o.op p.value e) last.value) := by
  induction items with
  | nil => simpa using hlast
  | cons p items ih =>
    rw [List.forall_mem_cons] at hitems
    simpa using Derives.binary ho hitems.1 (ih hitems.2)

/-! ## The parser and its grammar -/

/-- What there is to say of a list of tokens as an assertion. -/
structure FollowsGrammar (tokens : List (Spanned Token)) (ts : List Token) : Prop where
  /-- The parser reads what can be derived, with the same expression, and nothing else. -/
  exact : ∀ e, ofTokens tokens = .ok e ↔ Derives .assertion ts e
  /-- There is not more than one expression. -/
  unique : ∀ e e', Derives .assertion ts e → Derives .assertion ts e' → e = e'
  /-- Quantifiers stand where formulas begin and reach as far as they can. -/
  quantifiers : ∀ e pre q post, Derives .assertion ts e → ts = pre ++ q :: post →
    q.isQuantifier = true → Scoped pre q post
  /-- There is no sum between two comparison signs. -/
  comparisons : ∀ e pre t us u post, Derives .assertion ts e → ts = pre ++ t :: (us ++ u :: post) →
    (comparison? t).isSome = true → (comparison? u).isSome = true → ¬∃ b, Derives .sum us b
  /-- `==>` and `<==>` nest to the right. -/
  nestsRight : ∀ o ∈ rightNested, ∀ (items : List (Phrase Expr)) (last : Phrase Expr),
    (∀ p ∈ items, Derives o.left p.tokens p.value) → Derives o.right last.tokens last.value →
      ts = items.flatMap (fun p => p.tokens ++ [o.token]) ++ last.tokens →
        ofTokens tokens = .ok (items.foldr (fun p e => .binary o.op p.value e) last.value)
  /-- The other operators, but for comparisons, nest to the left. -/
  nestsLeft : ∀ s a op?, (s, a, op?) ∈ Symbol.leftLevels →
    ∀ (first : Phrase Expr) (links : List Link), Derives a first.tokens first.value →
      (∀ x ∈ links, op? x.token = some x.op ∧ Derives a x.operand.tokens x.operand.value) →
        ts = first.tokens ++ links.flatMap (fun x => x.token :: x.operand.tokens) →
          ofTokens tokens =
            .ok (links.foldl (fun l x => .binary x.op l x.operand.value) first.value)

/-- The assertion parser accepts exactly its grammar. -/
theorem ofTokens_followsGrammar (tokens : List (Spanned Token)) :
    FollowsGrammar tokens (tokens.map (·.node)) := by
  have hexact (e : Expr) : ofTokens tokens = .ok e ↔ Derives .assertion (tokens.map (·.node)) e :=
    ⟨derives_of_ofTokens, fun h => ofTokens_of_derives (assertion_iff_iff.1 h)⟩
  refine ⟨hexact, fun e e' h h' => ?_, fun e pre q post h hts => ?_,
    fun e pre t us u post h hts => ?_, fun o ho items last hitems hlast hts => ?_,
    fun s a op? hs first links hfirst hlinks hts => ?_⟩
  · exact Except.ok.inj (((hexact e).2 h).symm.trans ((hexact e').2 h'))
  · exact scoped_of_derives (hts ▸ h)
  · exact not_derives_between (hts ▸ h)
  · rw [hexact, hts]
    simp only [rightNested, List.mem_cons, List.not_mem_nil, or_false] at ho
    rcases ho with rfl | rfl
    · exact .unit List.mem_cons_self (.unit List.mem_cons_self
        (derives_foldr List.mem_cons_self hlast hitems))
    · exact .unit List.mem_cons_self (derives_foldr List.mem_cons_self hlast hitems)
  · have hlevel := Symbol.leftLevel_of_mem hs
    have hchain := derives_foldl hlevel (.unit (by simp [hlevel.units]) hfirst) hlinks
    rw [hexact, hts]
    simp only [Symbol.leftLevels, List.mem_cons, Prod.mk.injEq, List.not_mem_nil, or_false] at hs
    rcases hs with ⟨rfl, -⟩ | ⟨rfl, -⟩ | ⟨rfl, -⟩ | ⟨rfl, -⟩ | ⟨rfl, -⟩
    · exact assertion_of_disj hchain
    · exact assertion_of_disj (.unit List.mem_cons_self hchain)
    · exact assertion_of_disj (disj_of_sum hchain)
    · exact assertion_of_disj (disj_of_sum (.unit List.mem_cons_self hchain))
    · exact assertion_of_disj (disj_of_sum (.unit List.mem_cons_self
        (.unit List.mem_cons_self hchain)))

end Assertion

end Precond.Grammar
