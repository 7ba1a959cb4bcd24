import Mathlib.Tactic
import Precond.Proofs.AssertionSoundness

/-!
# Every assertion is read

What can be derived from a symbol is read by the parser of its level, if the token that follows does
not bind more tightly than the level does (`Past`). The forms that end in a quantifier are read if
nothing follows that could go on with the body of the quantifier.

Depth does not come in the way: each pair of brackets and each quantifier has tokens of its own, so
a piece of less than `d` tokens needs a depth of less than `d` (`Parser.ReadsAll`).
-/

namespace Precond.Grammar

open Precond.Grammar.Parser

/-! ## Types -/

namespace Phrase

variable {α : Type} {items : List (Phrase α)} {last : Option (Phrase α)}

/-- A phrase between commas is no longer than all of them together. -/
theorem length_le_commas {p : Phrase α} (h : p ∈ items ∨ p ∈ last) :
    p.tokens.length ≤ (commas items last).length := by
  rcases h with h | rfl
  · obtain ⟨front, back, rfl⟩ := List.append_of_mem h
    simp [commas]
    omega
  · simp [commas, optional]

end Phrase

namespace TypeExpr

theorem resolveAll_of_forall₂ {ts : List TypeExpr} {tys : List Ty}
    (h : List.Forall₂ (fun t ty => t.resolve = .ok ty) ts tys) : resolveAll ts = .ok tys := by
  induction h with
  | nil => rfl
  | cons hty _ ih => rw [resolveAll, hty, ih]; rfl

/-- A written type is resolved if its arguments are and its name takes them. -/
theorem resolve_of_named? {x : String} {args : List TypeExpr} {tys : List Ty} {ty : Ty}
    (hargs : resolveAll args = .ok tys) (hty : Ty.named? x tys = some ty) (span : Span) :
    (mk x args span).resolve = .ok ty := by
  simp only [resolve, hargs]
  exact Exec.bind_eq_ok.2 ⟨tys, rfl, by rw [hty]; rfl⟩

end TypeExpr

/-- A written type begins with a name. -/
theorem TypeDerives.exists_cons {ts : List Token} {ty : Ty} (h : TypeDerives ts ty) :
    ∃ x us, ts = .ident x :: us := by
  cases h with
  | plain => exact ⟨_, _, rfl⟩
  | applied => exact ⟨_, _, rfl⟩

/-- A written type is read in full, if no bracket follows that would continue it. -/
theorem takes_parseWithin {depth : Nat} {ts rest : List Token} {ty : Ty} (h : TypeDerives ts ty)
    (hdepth : ts.length ≤ depth) (hrest : rest.head? ≠ some .lBracket) :
    Takes (TypeExpr.parseWithin depth) (ts ++ rest) (·.resolve = .ok ty) rest := by
  induction depth generalizing ts ty rest with
  | zero =>
    obtain ⟨x, us, rfl⟩ := h.exists_cons
    simp at hdepth
  | succ depth ih =>
    cases h with
    | @plain x _ hty =>
      refine takes_name.bind fun x hx => (takes_accept_of_ne hrest).bind ?_
      rintro _ rfl
      exact (takes_spanFrom _).bind fun span _ =>
        takes_pure (TypeExpr.resolve_of_named? rfl (by rwa [hx]) span)
    | @applied x _ items last hitems hlast hty =>
      rw [List.length_cons, List.length_cons, List.length_append] at hdepth
      have hitem : ∀ p, p ∈ items ∨ p ∈ last → TypeDerives p.tokens p.value := fun p hp =>
        hp.elim (hitems p) (hlast p)
      rw [List.cons_append, List.cons_append, List.append_assoc, List.singleton_append]
      refine takes_name.bind fun x hx => takes_accept.bind ?_
      rintro _ rfl
      refine (takes_commaList (by decide) (fun p hp t rest ht => ih (hitem p hp) ?_ ?_)
        (fun p hp => ?_)).bind fun args hargs => (takes_spanFrom _).bind fun span _ =>
          takes_pure (TypeExpr.resolve_of_named? (TypeExpr.resolveAll_of_forall₂ hargs)
            (by rwa [hx]) span)
      · have := Phrase.length_le_commas hp
        omega
      · rcases ht with rfl | rfl <;> simp
      · obtain ⟨x, us, hus⟩ := (hitem p hp).exists_cons
        exact ⟨_, us, hus, by simp⟩

/-! ## Up to sums -/

/-- The tokens do not begin with one that binds as tightly as `k`. -/
def Past (k : Nat) (rest : List Token) : Prop := ∀ t, rest.head? = some t → t.binding < k

/-- What ends a level ends all levels that bind more tightly. -/
theorem Past.mono {j k : Nat} {rest : List Token} (h : Past j rest) (hjk : j ≤ k) : Past k rest :=
  fun t ht => (h t ht).trans_le hjk

/-- A token that binds more loosely than a level ends it. -/
theorem past_cons {k : Nat} {t : Token} {rest : List Token} (h : t.binding < k) :
    Past k (t :: rest) := by
  rintro _ ⟨⟩
  exact h

theorem Past.head?_ne {k : Nat} {t : Token} {rest : List Token} (h : Past k rest)
    (ht : k ≤ t.binding) : rest.head? ≠ some t :=
  fun hrest => absurd (h t hrest) (by omega)

/-- The parser reads what can be derived from the symbol in less than `d` tokens, if nothing follows
that binds as tightly as `k`. -/
def Parser.ReadsAll (d : Nat) (p : Parser Expr) (s : Symbol) (k : Nat) : Prop :=
  ∀ ⦃ts e rest⦄, Derives s ts e → ts.length < d → Past k rest →
    Takes p (ts ++ rest) (· = e) rest

/-- A parser that reads all phrases below some length reads the shorter ones, and where more is
asked of what follows. -/
theorem Parser.ReadsAll.mono {c d j k : Nat} {p : Parser Expr} {s : Symbol} (h : ReadsAll d p s k)
    (hcd : c ≤ d) (hjk : j ≤ k) : ReadsAll c p s j :=
  fun _ _ _ he hc hrest => h he (hc.trans_le hcd) (hrest.mono hjk)

/-- A piece of a text does not begin with a token that its symbol does not begin with. -/
theorem Derives.head?_ne {s : Symbol} {ts : List Token} {e : Expr} (h : Derives s ts e) {t : Token}
    (ht : s.opening < t.opening) (rest : List Token) : (ts ++ rest).head? ≠ some t := by
  obtain ⟨u, us, rfl, hu⟩ := h.exists_cons
  rintro ⟨⟩
  omega

namespace Assertion

variable {sum formula operand : Parser Expr} {d : Nat}

/-- Constants, names, calls and formulas in parentheses are read in full. -/
theorem readsAll_primary (hformula : ReadsAll d formula .iff 1) :
    ReadsAll (d + 1) (primary formula) .primary 10 := by
  intro ts e rest h hd hrest
  refine takes_peek.bind ?_
  rintro _ rfl
  cases h with
  | unit ha => cases ha
  | binary ho => cases ho
  | int => exact takes_advance.bind fun _ _ => takes_pure rfl
  | true => exact takes_advance.bind fun _ _ => takes_pure rfl
  | false => exact takes_advance.bind fun _ _ => takes_pure rfl
  | var =>
    refine takes_advance.bind fun _ _ => (takes_accept_of_ne (hrest.head?_ne (by decide))).bind ?_
    rintro _ rfl
    exact takes_pure rfl
  | @call f items last hitems hlast =>
    have hitem : ∀ p, p ∈ items ∨ p ∈ last → Derives .iff p.tokens p.value := fun p hp =>
      hp.elim (hitems p) (hlast p)
    rw [List.length_cons, List.length_cons, List.length_append] at hd
    rw [List.cons_append, List.cons_append, List.append_assoc, List.singleton_append]
    refine takes_advance.bind fun _ _ => takes_accept.bind ?_
    rintro _ rfl
    refine (takes_commaList (by decide) (fun p hp t rest ht => hformula (hitem p hp) ?_ ?_)
      fun p hp => ?_).bind fun args hargs => takes_pure ?_
    · have := Phrase.length_le_commas hp
      omega
    · rcases ht with rfl | rfl <;> exact past_cons (by decide)
    · obtain ⟨t, us, hts, ht⟩ := (hitem p hp).exists_cons
      exact ⟨t, us, hts, by rintro rfl; exact absurd ht (by decide)⟩
    · rw [List.forall₂_eq_eq_eq] at hargs
      rw [hargs]
  | parens he =>
    rw [List.length_cons, List.length_append] at hd
    rw [List.cons_append, List.append_assoc, List.singleton_append]
    refine takes_advance.bind fun _ _ =>
      (hformula he (by omega) (past_cons (by decide))).bind ?_
    rintro _ rfl
    exact takes_expect.bind fun _ _ => takes_pure rfl

/-- The tokens that end a part of a slice, none of which a sum begins with. -/
theorem takes_sumUnless (hsum : ReadsAll d sum .sum 6) {stops : List Token}
    (hstops : ∀ t ∈ stops, t.opening = 4) {ts rest : List Token} {e : Expr} (h : Derives .sum ts e)
    (hd : ts.length < d) (hrest : Past 6 rest) :
    Takes (sumUnless stops sum) (ts ++ rest) (· = some e) rest := by
  refine takes_peek.bind ?_
  rintro _ rfl
  obtain ⟨t, us, rfl, ht⟩ := h.exists_cons
  have hnot : t ∉ stops := fun hmem => absurd (hstops t hmem ▸ ht) (by decide)
  simp only [List.cons_append, List.head?_cons, if_neg hnot]
  exact (hsum h hd hrest).map fun x hx => congrArg some hx

/-- An optional bound of a slice is read in full, where one of the stops follows. -/
theorem takes_sumUnless_optional (hsum : ReadsAll d sum .sum 6) {stops : List Token}
    (hstops : ∀ t ∈ stops, t.opening = 4) {p : Option (Phrase Expr)}
    (hp : ∀ q ∈ p, Derives .sum q.tokens q.value) (hd : (Phrase.optional p).length < d) {t : Token}
    (ht : t ∈ stops) (hbinding : t.binding < 6) (rest : List Token) :
    Takes (sumUnless stops sum) (Phrase.optional p ++ t :: rest) (· = p.map (·.value))
      (t :: rest) := by
  cases p with
  | none =>
    refine takes_peek.bind ?_
    rintro _ rfl
    simp only [Phrase.optional, Option.elim_none, List.nil_append, List.head?_cons, if_pos ht]
    exact takes_pure rfl
  | some q => exact takes_sumUnless hsum hstops (hp q rfl) hd (past_cons hbinding)

/-- What stands between brackets is read in full, be it an index or a slice. -/
theorem takes_index (hsum : ReadsAll d sum .sum 6) {ts rest : List Token} {e : Expr}
    (h : Derives .index ts e) (hd : ts.length < d) :
    Takes (index sum) (ts ++ .rBracket :: rest) (· = e) (.rBracket :: rest) := by
  have hbracket : Past 6 (.rBracket :: rest) := past_cons (by decide)
  cases h with
  | binary ho => cases ho
  | unit ha h =>
    obtain rfl := List.mem_singleton.1 ha
    refine (takes_sumUnless hsum (by decide) h hd hbracket).bind ?_
    rintro _ rfl
    refine (takes_accept_of_ne (by simp)).bind ?_
    rintro _ rfl
    refine (takes_accept_of_ne (by simp)).bind ?_
    rintro _ rfl
    exact takes_pure rfl
  | @slice lower upper step hlower hupper hstep =>
    simp only [List.length_append, List.length_cons] at hd
    rw [List.append_assoc, List.cons_append, List.append_assoc]
    refine (takes_sumUnless_optional hsum (by decide) hlower (by omega) (by simp) (by decide)
      _).bind ?_
    rintro _ rfl
    refine takes_accept.bind ?_
    rintro _ rfl
    cases step with
    | none =>
      refine (takes_sumUnless_optional hsum (by decide) hupper (by omega) (by simp) (by decide)
        rest).bind ?_
      rintro _ rfl
      refine (takes_accept_of_ne (by simp)).bind ?_
      rintro _ rfl
      exact takes_pure rfl
    | some step =>
      rw [Option.elim_some, List.length_cons] at hd
      refine (takes_sumUnless_optional hsum (by decide) hupper (by omega) (by simp) (by decide)
        _).bind ?_
      rintro _ rfl
      refine takes_accept.bind ?_
      rintro _ rfl
      refine (takes_sumUnless_optional (p := step) hsum (by decide) hstep (by omega) (by simp)
        (by decide) rest).bind ?_
      rintro _ rfl
      exact takes_pure rfl
  | @sliceStep lower step hlower hstep =>
    simp only [List.length_append, List.length_cons] at hd
    rw [List.append_assoc, List.cons_append]
    refine (takes_sumUnless_optional hsum (by decide) hlower (by omega) (by simp) (by decide)
      _).bind ?_
    rintro _ rfl
    refine (takes_accept_of_ne (by simp)).bind ?_
    rintro _ rfl
    refine takes_accept.bind ?_
    rintro _ rfl
    refine (takes_sumUnless_optional hsum (by decide) hstep (by omega) (by simp) (by decide)
      rest).bind ?_
    rintro _ rfl
    exact takes_pure rfl

/-- A piece of a text is read, and what follows goes on with the subscripts. -/
theorem takes_subscripted (hsum : ReadsAll d sum .sum 6) (hformula : ReadsAll d formula .iff 1)
    {ts mid rest : List Token} {e e' : Expr} (h : Derives .subscripted ts e)
    (hd : ts.length < d + 1) (hmid : Past 10 mid)
    (hloop : Loops (subscript? sum) .subscript e mid e' rest) :
    Takes (subscripted sum formula) (ts ++ mid) (· = e') rest := by
  generalize hs : Symbol.subscripted = s at h
  induction h generalizing mid with
  | unit ha h _ =>
    subst hs
    obtain rfl := List.mem_singleton.1 ha
    refine (readsAll_primary hformula h hd hmid).bind ?_
    rintro _ rfl
    exact hloop.takes.bind fun xs hxs => takes_pure hxs
  | @subscript ts us base i _ hi ih _ =>
    simp only [List.length_append, List.length_cons, List.length_nil] at hd
    rw [List.append_assoc]
    refine ih (by omega) (past_cons (by decide)) (hloop.step ?_ ?_) rfl
    · rw [List.cons_append, List.append_assoc, List.singleton_append]
      refine takes_accept.bind ?_
      rintro _ rfl
      refine (takes_index hsum hi (by omega)).bind ?_
      rintro _ rfl
      exact takes_expect.bind fun _ _ => takes_pure ⟨_, rfl, rfl⟩
    · simp
      omega
  | binary ho =>
    subst hs
    cases ho
  | _ => cases hs

theorem readsAll_subscripted (hsum : ReadsAll d sum .sum 6) (hformula : ReadsAll d formula .iff 1) :
    ReadsAll (d + 1) (subscripted sum formula) .subscripted 9 := by
  intro ts e rest h hd hrest
  refine takes_subscripted hsum hformula h hd (hrest.mono (by decide)) (loops_stop ?_)
  refine (takes_accept_of_ne (hrest.head?_ne (by decide))).bind ?_
  rintro _ rfl
  exact takes_pure rfl

/-- Any number of signs in front of an operand is read. -/
theorem takes_negative (hoperand : ReadsAll d operand .subscripted 9) {ts rest : List Token}
    {e : Expr} (h : Derives .unary ts e) (hd : ts.length < d) (hrest : Past 9 rest) {n : Nat}
    (hn : ts.length ≤ n) : Takes (negative operand n) (ts ++ rest) (· = e) rest := by
  generalize hs : Symbol.unary = s at h
  induction h generalizing n with
  | unit ha h _ =>
    subst hs
    obtain rfl := List.mem_singleton.1 ha
    cases n with
    | zero => exact hoperand h hd hrest
    | succ n =>
      refine (takes_accept_of_ne (h.head?_ne (by decide) rest)).bind ?_
      rintro _ rfl
      exact hoperand h hd hrest
  | neg h ih =>
    rw [List.length_cons] at hd hn
    obtain ⟨n, rfl⟩ := Nat.exists_eq_add_one.2 (by omega : 0 < n)
    refine takes_accept.bind ?_
    rintro _ rfl
    refine (ih (by omega) (by omega) rfl).bind ?_
    rintro _ rfl
    exact takes_pure rfl
  | binary ho =>
    subst hs
    cases ho
  | _ => cases hs

/-- The operators of a level bind as tightly as `k`. -/
abbrev OpsBind (op? : Token → Option Op) (k : Nat) : Prop :=
  ∀ t op, op? t = some op → t.binding = k

/-- Where a level ends, none of its operators follows. -/
theorem head?_bind_eq_none {op? : Token → Option Op} {k : Nat} (hop : OpsBind op? k)
    {rest : List Token} (hrest : Past k rest) : rest.head?.bind op? = none := by
  rw [Option.bind_eq_none_iff]
  intro t ht
  by_contra hne
  obtain ⟨op, hop'⟩ := Option.ne_none_iff_exists'.1 hne
  exact absurd (hrest t ht) (by rw [hop t op hop']; omega)

section LeftLevel

variable {s a : Symbol} {op? : Token → Option Op} {k : Nat}

/-- A chain of operands is read, and what follows goes on with the chain. -/
theorem takes_leftLevel (hs : s.LeftLevel a op?) (hop : OpsBind op? k)
    (hoperand : ReadsAll d operand a (k + 1)) {ts mid rest : List Token} {e e' : Expr}
    (h : Derives s ts e) (hd : ts.length < d) (hmid : Past (k + 1) mid)
    (hloop : Loops (operation? op? operand) (fun l (op, r, _) => .binary op l r) e mid e' rest) :
    Takes (leftLevel op? operand) (ts ++ mid) (· = e') rest := by
  have hchain := hs.leftChain h
  clear h
  induction hchain generalizing mid with
  | operand h =>
    refine (hoperand h hd hmid).bind ?_
    rintro _ rfl
    exact hloop.takes.bind fun xs hxs => takes_pure hxs
  | @step ts t op us l r _ ht hr ih =>
    rw [List.length_append, List.length_cons] at hd
    rw [List.append_assoc, List.cons_append]
    exact ih (by omega) (past_cons (by rw [hop t op ht]; omega))
      (hloop.step_operation ht (hoperand hr (by omega) hmid))

/-- A level of operators that nest to the left reads everything that its operand's parser does and
the chains over it. -/
theorem readsAll_leftLevel (hs : s.LeftLevel a op?) (hop : OpsBind op? k)
    (hoperand : ReadsAll d operand a (k + 1)) : ReadsAll d (leftLevel op? operand) s k :=
  fun _ _ _ h hd hrest => takes_leftLevel hs hop hoperand h hd (hrest.mono (by omega))
    (loops_stop (takes_operation?_none (head?_bind_eq_none hop hrest)))

/-- The forms of a level whose last operand ends in a quantifier. -/
theorem readsAll_leftLevel_quant {s' a' : Symbol} (hs : s.LeftLevel a op?) (hop : OpsBind op? k)
    (hoperand : ReadsAll d operand a (k + 1)) (hoperand' : ReadsAll d operand a' 1) (hk : 1 ≤ k)
    (hunits : s'.units = [a'])
    (hoperations : ∀ o ∈ s'.operations, o.left = s ∧ op? o.token = some o.op ∧ o.right = a')
    (hplain : s' = .disjQuant ∨ s' = .conjQuant) :
    ReadsAll d (leftLevel op? operand) s' 1 := by
  intro ts e rest h hd hrest
  have hstop {e : Expr} : Loops (operation? op? operand) (fun l (op, r, _) => .binary op l r) e
      rest e rest :=
    loops_stop (takes_operation?_none (head?_bind_eq_none hop (hrest.mono hk)))
  cases h with
  | unit ha h =>
    rw [hunits, List.mem_singleton] at ha
    subst ha
    refine (hoperand' h hd hrest).bind ?_
    rintro _ rfl
    exact hstop.takes.bind fun xs hxs => takes_pure hxs
  | @binary _ o ts us l r ho hl hr =>
    obtain ⟨rfl, hop', rfl⟩ := hoperations o ho
    rw [List.length_append, List.length_cons] at hd
    rw [List.append_assoc, List.cons_append]
    exact takes_leftLevel hs hop hoperand hl (by omega)
      (past_cons (by rw [hop _ _ hop']; omega))
      (hstop.step_operation hop' (hoperand' hr (by omega) hrest))
  | _ => simp at hplain

end LeftLevel

theorem readsAll_sum (hsum : ReadsAll d sum .sum 6) (hformula : ReadsAll d formula .iff 1) :
    ReadsAll (d + 1) (Assertion.sum sum formula) .sum 6 := by
  have hunary : ReadsAll (d + 1) (do negative (subscripted sum formula) (← remaining)) .unary
      9 := by
    intro ts e rest h hd hrest
    refine takes_remaining.bind ?_
    rintro _ rfl
    exact takes_negative (readsAll_subscripted hsum hformula) h hd hrest (by simp)
  refine readsAll_leftLevel Symbol.leftLevel_sum ?_ <|
    readsAll_leftLevel Symbol.leftLevel_product ?_ <|
    readsAll_leftLevel Symbol.leftLevel_modulo ?_ hunary
  all_goals
    intro t op h
    cases t <;> cases h <;> rfl

theorem opsBind_comparison : OpsBind comparison? 5 := by
  intro t op h
  cases t <;> cases h <;> rfl

/-- A comparison is read even if another comparison sign follows. -/
theorem takes_relation (hsum : ReadsAll d sum .sum 6) {ts us rest : List Token} {l r : Expr}
    {t : Token} {op : Op} (hl : Derives .sum ts l) (hr : Derives .sum us r)
    (ht : comparison? t = some op) (hts : ts.length < d) (hus : us.length < d)
    (hrest : Past 6 rest) :
    Takes (relation sum) (ts ++ t :: (us ++ rest)) (· = .binary op l r) rest := by
  refine (hsum hl hts (past_cons (by rw [opsBind_comparison t op ht]; decide))).bind ?_
  rintro _ rfl
  refine (takes_operation? ht (hsum hr hus hrest)).bind ?_
  rintro _ ⟨_, stop, rfl, rfl⟩
  exact takes_pure rfl

/-- A comparison stands between two sums. -/
theorem comparison?_of_mem {o : Operation} (h : o ∈ Symbol.comparison.operations) :
    o.left = .sum ∧ comparison? o.token = some o.op ∧ o.right = .sum := by
  simp only [Symbol.operations, List.mem_cons, List.not_mem_nil, or_false] at h
  rcases h with rfl | rfl | rfl | rfl | rfl | rfl <;> exact ⟨rfl, rfl, rfl⟩

/-- Comparisons are read in full, as are sums alone. -/
theorem readsAll_relation (hsum : ReadsAll d sum .sum 6) :
    ReadsAll d (relation sum) .comparison 5 := by
  intro ts e rest h hd hrest
  cases h with
  | unit ha h =>
    obtain rfl := List.mem_singleton.1 ha
    refine (hsum h hd (hrest.mono (by decide))).bind ?_
    rintro _ rfl
    refine (takes_operation?_none (head?_bind_eq_none opsBind_comparison hrest)).bind ?_
    rintro _ rfl
    exact takes_pure rfl
  | @binary _ o ts us l r ho hl hr =>
    obtain ⟨hleft, hop, hright⟩ := comparison?_of_mem ho
    rw [hleft] at hl
    rw [hright] at hr
    rw [List.length_append, List.length_cons] at hd
    rw [List.append_assoc, List.cons_append]
    exact takes_relation hsum hl hr hop (by omega) (by omega) (hrest.mono (by decide))

/-! ## Connectives and quantifiers -/

/-- A quantified formula is read up to where its body ends. -/
theorem takes_quantified (hformula : ReadsAll d formula .iff 1)
    {quantify : String → Option Ty → Expr → Expr} {x : String} {written ts rest : List Token}
    {ty : Option Ty} {body : Expr} (hty : QuantType written ty) (hbody : Derives .iff ts body)
    (hd : ts.length < d) (hrest : Past 1 rest) :
    Takes (quantified formula quantify) (.ident x :: (written ++ .colonColon :: (ts ++ rest)))
      (· = quantify x ty body) rest := by
  refine takes_name.bind ?_
  rintro ⟨_, span⟩ rfl
  cases hty with
  | absent =>
    refine (takes_accept_of_ne (by simp)).bind ?_
    rintro _ rfl
    have hnone {input : List Token} :
        Takes (pure (none : Option TypeExpr)) input (· = none) input := takes_pure rfl
    refine hnone.bind ?_
    rintro _ rfl
    refine takes_expect.bind fun _ _ => (takes_liftM (x := none) rfl).bind ?_
    rintro _ rfl
    refine (hformula hbody hd hrest).bind ?_
    rintro _ rfl
    exact takes_pure rfl
  | @written us ty h =>
    refine takes_accept.bind ?_
    rintro _ rfl
    have hparse : Takes TypeExpr.parse (us ++ .colonColon :: (ts ++ rest)) (·.resolve = .ok ty)
        (.colonColon :: (ts ++ rest)) := by
      refine takes_remaining.bind ?_
      rintro _ rfl
      exact takes_parseWithin h (by simp; omega) (by simp)
    have hmapped : Takes (some <$> TypeExpr.parse) (us ++ .colonColon :: (ts ++ rest))
        (fun t => t.mapM TypeExpr.resolve = .ok (some ty)) (.colonColon :: (ts ++ rest)) :=
      hparse.map fun t ht => by rw [Option.mapM_some, ht]; rfl
    refine hmapped.bind fun t ht => takes_expect.bind fun _ _ => (takes_liftM ht).bind ?_
    rintro _ rfl
    refine (hformula hbody hd hrest).bind ?_
    rintro _ rfl
    exact takes_pure rfl

/-- Any number of negations is read, in front of a comparison or of a quantified formula. -/
theorem takes_negation (hsum : ReadsAll (d + 1) sum .sum 6) (hformula : ReadsAll d formula .iff 1)
    {n : Nat} {ts rest : List Token} {e : Expr} (hd : ts.length < d + 1) (hn : ts.length ≤ n) :
    (Derives .negation ts e → Past 5 rest →
        Takes (negation sum formula n) (ts ++ rest) (· = e) rest) ∧
      (Derives .negationQuant ts e → Past 1 rest →
        Takes (negation sum formula n) (ts ++ rest) (· = e) rest) := by
  induction n generalizing ts e with
  | zero =>
    obtain rfl := List.length_eq_zero_iff.1 (Nat.le_zero.1 hn)
    constructor
    · intro h
      obtain ⟨_, _, ⟨⟩, -⟩ := h.exists_cons
    · intro h
      obtain ⟨_, _, ⟨⟩, -⟩ := h.exists_cons
  | succ n ih =>
    constructor
    · intro h hrest
      refine takes_peek.bind ?_
      rintro _ rfl
      cases h with
      | binary ho => cases ho
      | unit ha h =>
        obtain rfl := List.mem_singleton.1 ha
        have hnot := h.head?_ne (t := .kwNot) (by decide) rest
        have hforall := h.head?_ne (t := .kwForall) (by decide) rest
        have hexists := h.head?_ne (t := .kwExists) (by decide) rest
        split
        · next heq => exact absurd heq hnot
        · next heq => exact absurd heq hforall
        · next heq => exact absurd heq hexists
        · exact readsAll_relation hsum h hd hrest
      | not h =>
        rw [List.length_cons] at hd hn
        refine takes_advance.bind fun _ _ => ((ih (by omega) (by omega)).1 h hrest).bind ?_
        rintro _ rfl
        exact takes_pure rfl
    · intro h hrest
      refine takes_peek.bind ?_
      rintro _ rfl
      cases h with
      | binary ho => cases ho
      | notQuant h =>
        rw [List.length_cons] at hd hn
        refine takes_advance.bind fun _ _ => ((ih (by omega) (by omega)).2 h hrest).bind ?_
        rintro _ rfl
        exact takes_pure rfl
      | unit ha h =>
        obtain rfl := List.mem_singleton.1 ha
        cases h with
        | unit ha => cases ha
        | binary ho => cases ho
        | forAll hty hbody =>
          simp only [List.length_cons, List.length_append] at hd
          simp only [List.cons_append, List.append_assoc]
          exact takes_advance.bind fun _ _ =>
            takes_quantified hformula hty hbody (by omega) hrest
        | thereExists hty hbody =>
          simp only [List.length_cons, List.length_append] at hd
          simp only [List.cons_append, List.append_assoc]
          exact takes_advance.bind fun _ _ =>
            takes_quantified hformula hty hbody (by omega) hrest

theorem readsAll_disjunction (hsum : ReadsAll (d + 1) sum .sum 6)
    (hformula : ReadsAll d formula .iff 1) :
    ReadsAll (d + 1) (disjunction sum formula) .disj 3 ∧
      ReadsAll (d + 1) (disjunction sum formula) .disjQuant 1 := by
  have hnegation : ReadsAll (d + 1) (do negation sum formula (← remaining)) .negation 5 := by
    intro ts e rest h hd hrest
    refine takes_remaining.bind ?_
    rintro _ rfl
    exact (takes_negation hsum hformula hd (by simp)).1 h hrest
  have hnegation' : ReadsAll (d + 1) (do negation sum formula (← remaining)) .negationQuant 1 := by
    intro ts e rest h hd hrest
    refine takes_remaining.bind ?_
    rintro _ rfl
    exact (takes_negation hsum hformula hd (by simp)).2 h hrest
  have hand : OpsBind conjunctive? 4 := by
    intro t op h
    cases t <;> cases h
    rfl
  have hor : OpsBind disjunctive? 3 := by
    intro t op h
    cases t <;> cases h
    rfl
  have hconj := readsAll_leftLevel Symbol.leftLevel_conj hand hnegation
  have hconj' : ReadsAll (d + 1) (leftLevel conjunctive? do negation sum formula (← remaining))
      .conjQuant 1 :=
    readsAll_leftLevel_quant Symbol.leftLevel_conj hand hnegation hnegation' (by decide) rfl
      (by simp [Symbol.operations, conjunctive?]) (by simp)
  exact ⟨readsAll_leftLevel Symbol.leftLevel_disj hor hconj,
    readsAll_leftLevel_quant Symbol.leftLevel_disj hor hconj hconj' (by decide) rfl
      (by simp [Symbol.operations, disjunctive?]) (by simp)⟩

/-- A level of a connective that nests to the right. Whatever `b` may be replaced by is read as an
operand, and so is what stands on the left of the connective. -/
theorem takes_rightLevel {a b : Symbol} {token : Token} {op : Op} {k : Nat}
    (hk : k ≤ token.binding) (hleft : ReadsAll d operand a (token.binding + 1))
    (hunits : ∀ u ∈ b.units, ReadsAll d operand u k)
    (hoperations : b.operations = [⟨a, token, op, b⟩])
    (hplain : b ∈ [Symbol.iff, .implies, .impliesNoQuant]) {ts rest : List Token} {e : Expr}
    (h : Derives b ts e) (hd : ts.length < d) (hrest : Past k rest) {n : Nat}
    (hn : ts.length ≤ n) : Takes (rightLevel token op operand n) (ts ++ rest) (· = e) rest := by
  induction h generalizing n with
  | unit ha h _ =>
    cases n with
    | zero => exact hunits _ ha h hd hrest
    | succ n =>
      refine (hunits _ ha h hd hrest).bind ?_
      rintro _ rfl
      refine (takes_accept_of_ne (hrest.head?_ne hk)).bind ?_
      rintro _ rfl
      exact takes_pure rfl
  | @binary _ o ts us l r ho hl hr _ ih =>
    rw [hoperations, List.mem_singleton] at ho
    subst ho
    rw [List.length_append, List.length_cons] at hd hn
    obtain ⟨n, rfl⟩ := Nat.exists_eq_add_one.2 (by omega : 0 < n)
    rw [List.append_assoc, List.cons_append]
    refine (hleft hl (by omega) (past_cons (Nat.lt_succ_self _))).bind ?_
    rintro _ rfl
    refine takes_accept.bind ?_
    rintro _ rfl
    refine (ih hunits hoperations hplain (by omega) (by omega)).bind ?_
    rintro _ rfl
    exact takes_pure rfl
  | _ => simp at hplain

theorem readsAll_formula (hsum : ReadsAll (d + 1) sum .sum 6)
    (hformula : ReadsAll d formula .iff 1) :
    ReadsAll (d + 1) (Assertion.formula sum formula) .iff 1 := by
  obtain ⟨hdisj, hdisj'⟩ := readsAll_disjunction hsum hformula
  intro ts e rest h hd hrest
  refine takes_remaining.bind ?_
  rintro _ rfl
  -- The chains of implications are pieces of these tokens, and may take as many steps.
  have hnoQuant : ReadsAll (ts.length + 1) (rightLevel .implies .implies (disjunction sum formula)
      (ts ++ rest).length) .impliesNoQuant 2 := by
    intro us r rest' hr hus hrest'
    refine takes_rightLevel (by decide) hdisj ?_ rfl (by simp) hr (by omega) hrest' (by simp; omega)
    simpa [Symbol.units] using hdisj.mono le_rfl (by decide)
  have himplies : ReadsAll (ts.length + 1) (rightLevel .implies .implies (disjunction sum formula)
      (ts ++ rest).length) .implies 1 := by
    intro us r rest' hr hus hrest'
    refine takes_rightLevel (by decide) hdisj ?_ rfl (by simp) hr (by omega) hrest' (by simp; omega)
    simpa [Symbol.units] using ⟨hdisj.mono le_rfl (by decide), hdisj'⟩
  refine takes_rightLevel (by decide) hnoQuant ?_ rfl (by simp) h (by omega) hrest (by simp)
  simpa [Symbol.units] using himplies

/-- By induction on the depth: sums and formulas of fewer tokens than that are read in full. -/
theorem readsAll_within (depth : Nat) :
    ReadsAll depth (sumWithin depth) .sum 6 ∧ ReadsAll depth (formulaWithin depth) .iff 1 := by
  induction depth with
  | zero => exact ⟨fun _ _ _ _ h => absurd h (by omega), fun _ _ _ _ h => absurd h (by omega)⟩
  | succ depth ih =>
    have hsum := readsAll_sum ih.1 ih.2
    exact ⟨hsum, readsAll_formula hsum ih.2⟩

/-- Tokens that can be derived are read, with the expression that they were derived with. -/
theorem ofTokens_of_derives {tokens : List (Spanned Token)} {e : Expr}
    (h : Derives .iff (tokens.map (·.node)) e) : ofTokens tokens = .ok e := by
  have hread : Takes (formulaWithin (tokens.length + 1)) (tokens.map (·.node) ++ []) (· = e) [] :=
    (readsAll_within _).2 h (by simp) nofun
  rw [List.append_nil] at hread
  exact hread.run

end Assertion

end Precond.Grammar
