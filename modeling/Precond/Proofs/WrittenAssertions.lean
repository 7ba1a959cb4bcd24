import Mathlib.Tactic
import Precond.Grammar.Assertion
import Precond.Proofs.TokenNames
import Precond.Proofs.WellFormed

/-!
# What assertions are made of

Every level of the assertion grammar reads written expressions if the levels below it do. Hence the
expression that a text stands for is written (`Grammar.Assertion.written_ofText`), and so is the one
that it stands for after its quantifiers got names of their own, which are all drawn
(`Grammar.Assertion.parse_spec`).
-/

namespace Precond

/-! ## Types -/

/-- A name of a type with arguments of values is a type of values. -/
theorem Ty.ofValues_named? {name : String} {args : List Ty} {ty : Ty}
    (hargs : ∀ t ∈ args, t.ofValues = true) (h : Ty.named? name args = some ty) :
    ty.ofValues = true := by
  unfold Ty.named? at h
  split at h <;> cases h <;> simp_all [Ty.ofValues]

namespace Grammar

namespace TypeExpr

mutual

/-- A written type is one of values. -/
theorem ofValues_resolve {t : TypeExpr} {ty : Ty} (h : t.resolve = .ok ty) :
    ty.ofValues = true := by
  match t with
  | .mk name args span =>
    obtain ⟨types, htypes, h⟩ := Exec.bind_eq_ok.1 h
    cases hty : Ty.named? name types with
    | none =>
      rw [hty] at h
      cases h
    | some ty' =>
      rw [hty] at h
      cases h
      exact Ty.ofValues_named? (ofValues_resolveAll htypes) hty

theorem ofValues_resolveAll {ts : List TypeExpr} {tys : List Ty} (h : resolveAll ts = .ok tys) :
    ∀ ty ∈ tys, ty.ofValues = true := by
  match ts with
  | [] =>
    cases h
    exact List.forall_mem_nil _
  | t :: ts =>
    obtain ⟨ty, hty, h⟩ := Exec.bind_eq_ok.1 h
    obtain ⟨tys', htys, h⟩ := Exec.bind_eq_ok.1 h
    cases h
    exact List.forall_mem_cons.2 ⟨ofValues_resolve hty, ofValues_resolveAll htys⟩

end

/-- A type that may be left out is one of values if it is written. -/
theorem ofValues_mapM_resolve {t : Option TypeExpr} {ty : Option Ty}
    (h : t.mapM resolve = .ok ty) : ∀ t, ty = some t → t.ofValues = true := by
  cases t with
  | none =>
    cases h
    simp
  | some t =>
    obtain ⟨ty', hty, h⟩ := Exec.bind_eq_ok.1 h
    cases h
    rintro _ heq
    cases heq
    exact ofValues_resolve hty

open Precond.Grammar.Parser

/-- Reading a type leaves plain tokens. -/
theorem reads_parseWithin (depth : Nat) : Reads (parseWithin depth) fun _ => True := by
  induction depth with
  | zero => exact reads_unexpected
  | succ depth ih =>
    refine reads_name.bind fun _ _ => (reads_accept _).bind fun _ _ => ?_
    split
    · exact (reads_commaList ih _).bind fun _ _ => (reads_spanFrom _).bind fun _ _ =>
        reads_pure trivial
    · exact (reads_spanFrom _).bind fun _ _ => reads_pure trivial

theorem reads_parse : Reads parse fun _ => True :=
  reads_remaining.bind fun n _ => reads_parseWithin (n + 1)

end TypeExpr

/-! ## Operators -/

theorem isUnary_comparison? {token : Token} {op : Op} (h : comparison? token = some op) :
    op.isUnary = false := by
  cases token <;> cases h <;> rfl

theorem isUnary_additive? {token : Token} {op : Op} (h : additive? token = some op) :
    op.isUnary = false := by
  cases token <;> cases h <;> rfl

/-! ## Levels -/

namespace Assertion

open Precond.Grammar.Parser Precond.Expr

variable {operand sum formula : Parser Expr}

/-- A level of operators over written operands reads written expressions. -/
theorem reads_leftLevel {op? : Token → Option Op}
    (hop : ∀ token op, op? token = some op → op.isUnary = false)
    (h : Reads operand (Written false)) : Reads (leftLevel op? operand) (Written false) := by
  refine h.bind fun first hfirst =>
    (reads_repeatWhile (reads_operation? hop h)).bind fun rest hrest => reads_pure ?_
  induction rest generalizing first with
  | nil => exact hfirst
  | cons next rest ih =>
    rw [List.forall_mem_cons] at hrest
    exact ih _ (.binary hrest.1.1 hfirst hrest.1.2) hrest.2

/-- What is read as an atom is written, if formulas are. -/
theorem reads_primary (h : Reads formula (Written false)) :
    Reads (primary formula) (Written false) := by
  refine reads_peek.bind fun t ht => ?_
  split
  · exact reads_advance.bind fun _ _ => reads_pure .lit
  · exact reads_advance.bind fun _ _ => reads_pure .lit
  · exact reads_advance.bind fun _ _ => reads_pure .lit
  · refine reads_advance.bind fun _ _ => (reads_accept _).bind fun _ _ => ?_
    split
    · exact (reads_commaList h _).bind fun args hargs => reads_pure (.call hargs)
    · exact reads_pure (.var (ht _ rfl))
  · exact reads_advance.bind fun _ _ => h.bind fun e he => (reads_expect _).bind fun _ _ =>
      reads_pure he
  · exact reads_unexpected

theorem reads_sumUnless (stops : List Token) (h : Reads sum (Written false)) :
    Reads (sumUnless stops sum) fun r => ∀ e, r = some e → Written false e := by
  have hsome : Reads (some <$> sum) fun r => ∀ e, r = some e → Written false e :=
    h.map fun e he => by simpa using he
  refine reads_peek.bind fun t _ => ?_
  split
  · split_ifs
    · exact reads_pure (by simp)
    · exact hsome
  · exact hsome

/-- Between brackets an expression is read that may be a slice. -/
theorem reads_index (h : Reads sum (Written false)) : Reads (index sum) (Written true) := by
  refine (reads_sumUnless _ h).bind fun lower hlower => (reads_accept _).bind fun _ _ => ?_
  split
  · refine (reads_sumUnless _ h).bind fun upper hupper => (reads_accept _).bind fun _ _ => ?_
    split
    · exact (reads_sumUnless _ h).bind fun step hstep => reads_pure (.sliceOf hlower hupper hstep)
    · exact reads_pure (.sliceOf hlower hupper (by simp))
  refine (reads_accept _).bind fun _ _ => ?_
  split
  · exact (reads_sumUnless _ h).bind fun step hstep =>
      reads_pure (.sliceOf hlower (by simp) hstep)
  split
  · exact reads_pure (hlower _ rfl).of_false
  · exact reads_unexpected

theorem reads_subscripted (hsum : Reads sum (Written false))
    (hformula : Reads formula (Written false)) :
    Reads (subscripted sum formula) (Written false) := by
  have hindex : Reads (subscript? sum) fun r => ∀ e, r = some e → Written true e := by
    refine (reads_accept _).bind fun _ _ => ?_
    split
    · exact (reads_index hsum).bind fun i hi => (reads_expect _).bind fun _ _ =>
        reads_pure (by simpa using hi)
    · exact reads_pure (by simp)
  refine (reads_primary hformula).bind fun base hbase =>
    (reads_repeatWhile hindex).bind fun indices hindices => reads_pure ?_
  induction indices generalizing base with
  | nil => exact hbase
  | cons i indices ih =>
    rw [List.forall_mem_cons] at hindices
    exact ih _ (.subscript hbase hindices.1) hindices.2

theorem reads_negative (h : Reads operand (Written false)) (n : Nat) :
    Reads (negative operand n) (Written false) := by
  induction n with
  | zero => exact h
  | succ n ih =>
    refine (reads_accept _).bind fun _ _ => ?_
    split
    · exact ih.bind fun e he => reads_pure (.unary rfl he)
    · exact h

theorem reads_sum (hsum : Reads sum (Written false)) (hformula : Reads formula (Written false)) :
    Reads (Assertion.sum sum formula) (Written false) := by
  refine reads_leftLevel ?_ (reads_leftLevel ?_ (reads_leftLevel ?_ ?_))
  · exact fun _ _ => isUnary_additive?
  · intro token op h
    cases token <;> cases h <;> rfl
  · intro token op h
    cases token <;> cases h
    rfl
  · exact reads_remaining.bind fun n _ => reads_negative (reads_subscripted hsum hformula) n

theorem reads_relation (h : Reads sum (Written false)) : Reads (relation sum) (Written false) := by
  refine h.bind fun left hleft =>
    (reads_operation? (fun _ _ => isUnary_comparison?) h).bind fun r hr => ?_
  split
  · obtain ⟨hop, hright⟩ := hr _ rfl
    exact reads_pure (.binary hop hleft hright)
  · exact reads_pure hleft

/-- A quantified formula is written, with a type of values if one is given. -/
theorem reads_quantified {quantify : String → Option Ty → Expr → Expr}
    (hquantify : ∀ x ty e, (∀ t, ty = some t → t.ofValues = true) → Written false e →
      Written false (quantify x ty e))
    (h : Reads formula (Written false)) : Reads (quantified formula quantify) (Written false) := by
  have hrest : ∀ (x : Spanned String) (written : Option TypeExpr),
      Reads (do
        expect .colonColon
        let ty ← liftM (written.mapM TypeExpr.resolve)
        let body ← formula
        return quantify x.node ty body) (Written false) := fun x written =>
    (reads_expect _).bind fun _ _ =>
      (reads_liftM fun _ => TypeExpr.ofValues_mapM_resolve).bind fun ty hty =>
        h.bind fun body hbody => reads_pure (hquantify _ _ _ hty hbody)
  refine reads_name.bind fun x _ => (reads_accept _).bind fun _ _ => ?_
  split
  · have hsome : Reads (some <$> TypeExpr.parse) fun _ => True :=
      TypeExpr.reads_parse.map fun _ _ => trivial
    exact hsome.bind fun written _ => hrest x written
  · exact hrest x none

/-- Negations of what is written are written. -/
theorem reads_negation (hsum : Reads sum (Written false))
    (hformula : Reads formula (Written false)) (n : Nat) :
    Reads (negation sum formula n) (Written false) := by
  induction n with
  | zero => exact reads_relation hsum
  | succ n ih =>
    refine reads_peek.bind fun t _ => ?_
    split
    · exact reads_advance.bind fun _ _ => ih.bind fun e he => reads_pure (.unary rfl he)
    · exact reads_advance.bind fun _ _ =>
        reads_quantified (fun _ _ _ hty he => .forAll hty he) hformula
    · exact reads_advance.bind fun _ _ =>
        reads_quantified (fun _ _ _ hty he => .thereExists hty he) hformula
    · exact reads_relation hsum

theorem reads_rightLevel {token : Token} {op : Op} (hop : op.isUnary = false)
    (h : Reads operand (Written false)) (n : Nat) :
    Reads (rightLevel token op operand n) (Written false) := by
  induction n with
  | zero => exact h
  | succ n ih =>
    refine h.bind fun left hleft => (reads_accept _).bind fun _ _ => ?_
    split
    · exact ih.bind fun right hright => reads_pure (.binary hop hleft hright)
    · exact reads_pure hleft

/-- Formulas are written if sums and the formulas inside are. -/
theorem reads_formula (hsum : Reads sum (Written false))
    (hformula : Reads formula (Written false)) :
    Reads (Assertion.formula sum formula) (Written false) := by
  have hdisjunction : Reads (disjunction sum formula) (Written false) := by
    refine reads_leftLevel ?_ (reads_leftLevel ?_ ?_)
    · intro token op h
      cases token <;> cases h
      rfl
    · intro token op h
      cases token <;> cases h
      rfl
    · exact reads_remaining.bind fun n _ => reads_negation hsum hformula n
  exact reads_remaining.bind fun n _ => reads_rightLevel rfl (reads_rightLevel rfl hdisjunction n) n

/-- By induction on the depth: sums and formulas that are read are written. -/
theorem reads_within (depth : Nat) :
    Reads (sumWithin depth) (Written false) ∧ Reads (formulaWithin depth) (Written false) := by
  induction depth with
  | zero => exact ⟨reads_unexpected, reads_unexpected⟩
  | succ depth ih =>
    exact ⟨reads_sum ih.1 ih.2, reads_formula (reads_sum ih.1 ih.2) ih.2⟩

/-! ## Texts -/

/-- The expression that a text stands for is written. -/
theorem written_ofText {text : String} {e : Expr} (h : ofText text = .ok e) : Written false e := by
  obtain ⟨tokens, htokens, h⟩ := Exec.bind_eq_ok.1 h
  exact (reads_within _).2.of_run (plainTokens_tokenize htokens) h

/-- A text that is an assertion gives a written expression with new binders. -/
theorem parse_spec {text : String} {e : Expr} {supply supply' : Supply}
    (h : (parse text).run.run supply = (.ok e, supply')) :
    Written false e ∧ Renews [] supply.used supply'.used e.binders ∧
      supply.used ≤ supply'.used := by
  obtain ⟨e₀, mid, he₀, h⟩ := Naming.exists_of_run_bind h
  obtain ⟨hread, rfl⟩ := Prod.mk.inj he₀
  obtain ⟨he, rfl⟩ := Prod.mk.inj h
  obtain rfl := Except.ok.inj he
  exact ⟨(written_ofText hread).alphaRename _, renews_alphaRename e₀ _, used_le_alphaRename e₀ _⟩

end Assertion

end Grammar

end Precond
