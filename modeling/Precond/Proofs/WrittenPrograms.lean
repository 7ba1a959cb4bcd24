import Mathlib.Tactic
import Precond.Host.Module
import Precond.Proofs.ModuleScopes
import Precond.Proofs.StoreInterpretation
import Precond.Proofs.WrittenAssertions

/-!
# What programs are made of

The counterpart of `Precond.Expr.Written` for programs: the names of a program that was read from
a text are plain, its operators have as many operands as they take, and a slice stands only in
a subscript. The functions of a module that is loaded have this property
(`Module.written_of_load`).
-/

namespace Precond.Host

open Precond.Grammar Precond.Grammar.Parser

/-! ## Written programs -/

/-- The expression could stand in a text; `index` tells whether it may be a slice. -/
inductive Expr.Written : (index : Bool) → Expr → Prop
  | name {index span x} (h : Name.Plain x) : Written index (.name span x)
  | int {index span n} : Written index (.int span n)
  | bool {index span b} : Written index (.bool span b)
  | str {index span text} : Written index (.str span text)
  | binary {index span op l r} (hop : op.isUnary = false) (hl : Written false l)
      (hr : Written false r) : Written index (.binary span op l r)
  | unary {index span op e} (hop : op.isUnary = true) (he : Written false e) :
      Written index (.unary span op e)
  | chain {index span op first rest} (hop : op.isUnary = false) (hfirst : Written false first)
      (hrest : ∀ e ∈ rest, Written false e) : Written index (.chain span op first rest)
  | compare {index span first rest} (hfirst : Written false first)
      (hops : ∀ p ∈ rest, p.1.isUnary = false) (hrest : ∀ p ∈ rest, Written false p.2) :
      Written index (.compare span first rest)
  | call {index span f args} (hargs : ∀ e ∈ args, Written false e) :
      Written index (.call span f args)
  | subscript {index span b i} (hb : Written false b) (hi : Written true i) :
      Written index (.subscript span b i)
  | slice {span l u s} (hl : ∀ e, l = some e → Written false e)
      (hu : ∀ e, u = some e → Written false e) (hs : ∀ e, s = some e → Written false e) :
      Written true (.slice span l u s)
  | list {index span items} (hitems : ∀ e ∈ items, Written false e) :
      Written index (.list span items)

/-- The statement could stand in a text. -/
inductive Stmt.Written : Stmt → Prop
  | assign {span target value} (htarget : target.Written false) (hvalue : value.Written false) :
      Written (.assign span target value)
  | branch {span cond body orelse} (hcond : cond.Written false)
      (hbody : ∀ s ∈ body, Written s) (horelse : ∀ s ∈ orelse, Written s) :
      Written (.branch span cond body orelse)
  | loop {span cond body} (hcond : cond.Written false) (hbody : ∀ s ∈ body, Written s) :
      Written (.loop span cond body)
  | give {span value} : Written (.give span value)
  | pass {span} : Written (.pass span)
  | assert {span cond} (hcond : cond.Written false) : Written (.assert span cond)
  | expr {span e} : Written (.expr span e)

/-- The function could stand in a text, and the types of its parameters are types of values. -/
structure Subject.Written (f : Subject) : Prop where
  params : ∀ p ∈ f.params, Name.Plain p.1 ∧ ∀ t, p.2 = some t → t.ofValues = true
  body : ∀ s ∈ f.body, s.Written

/-! ## Expressions -/

namespace Expr

variable {operand expr sum : Parser Expr}

/-- Only as an index may an expression be a slice. -/
theorem Written.isSlice {e : Expr} (h : Written false e) : e.isSlice = false := by
  cases h <;> rfl

theorem Written.of_isSlice {index index' : Bool} {e : Expr} (h : Written index e)
    (he : e.isSlice = false) : Written index' e := by
  cases h with
  | name h => exact .name h
  | int => exact .int
  | bool => exact .bool
  | str => exact .str
  | binary hop hl hr => exact .binary hop hl hr
  | unary hop hoperand => exact .unary hop hoperand
  | chain hop hfirst hrest => exact .chain hop hfirst hrest
  | compare hfirst hops hrest => exact .compare hfirst hops hrest
  | call hargs => exact .call hargs
  | subscript hb hi => exact .subscript hb hi
  | slice => cases he
  | list hitems => exact .list hitems

theorem Written.of_false {index : Bool} {e : Expr} (h : Written false e) : Written index e :=
  h.of_isSlice h.isSlice

/-- A level of operators over written operands reads written expressions. -/
theorem reads_leftLevel {op? : Token → Option Op}
    (hop : ∀ token op, op? token = some op → op.isUnary = false)
    (h : Reads operand (Written false)) : Reads (leftLevel op? operand) (Written false) := by
  refine reads_here.bind fun start _ => h.bind fun first hfirst =>
    (reads_repeatWhile (reads_operation? hop h)).bind fun rest hrest => reads_pure ?_
  induction rest generalizing first with
  | nil => exact hfirst
  | cons next rest ih =>
    rw [List.forall_mem_cons] at hrest
    exact ih _ (.binary hrest.1.1 hfirst hrest.1.2) hrest.2

/-- What is read as an atom is written, if the expressions inside are. -/
theorem reads_atom (h : Reads expr (Written false)) : Reads (atom expr) (Written false) := by
  refine reads_here.bind fun start _ => reads_peek.bind fun t ht => ?_
  split
  · exact reads_advance.bind fun _ _ => (reads_spanFrom _).bind fun _ _ => reads_pure .int
  · exact reads_advance.bind fun _ _ => (reads_spanFrom _).bind fun _ _ => reads_pure .bool
  · exact reads_advance.bind fun _ _ => (reads_spanFrom _).bind fun _ _ => reads_pure .bool
  · exact reads_advance.bind fun _ _ => (reads_spanFrom _).bind fun _ _ => reads_pure .str
  · refine reads_advance.bind fun _ _ => (reads_spanFrom _).bind fun _ _ =>
      (reads_accept _).bind fun _ _ => ?_
    split
    · exact (reads_commaList h _).bind fun args hargs => (reads_spanFrom _).bind fun _ _ =>
        reads_pure (.call hargs)
    · exact reads_pure (.name (ht _ rfl))
  · exact reads_advance.bind fun _ _ => h.bind fun e he => (reads_expect _).bind fun _ _ =>
      reads_pure he
  · exact reads_advance.bind fun _ _ => (reads_commaList h _).bind fun items hitems =>
      (reads_spanFrom _).bind fun _ _ => reads_pure (.list hitems)
  · exact reads_unexpected

theorem reads_parseUnless (stops : List Token) (h : Reads expr (Written false)) :
    Reads (parseUnless stops expr) fun r => ∀ e, r = some e → Written false e := by
  have hsome : Reads (some <$> expr) fun r => ∀ e, r = some e → Written false e :=
    h.map fun e he => by simpa using he
  refine reads_peek.bind fun t _ => ?_
  split
  · split_ifs
    · exact reads_pure (by simp)
    · exact hsome
  · exact hsome

/-- Between brackets an expression is read that may be a slice. -/
theorem reads_index (h : Reads expr (Written false)) : Reads (index expr) (Written true) := by
  refine reads_here.bind fun start _ => (reads_parseUnless _ h).bind fun lower hlower =>
    (reads_accept _).bind fun _ _ => ?_
  split
  · refine (reads_parseUnless _ h).bind fun upper hupper => (reads_accept _).bind fun _ _ => ?_
    have hrest : ∀ step, (∀ e, step = some e → Written false e) →
        Reads (do return .slice (← spanFrom start) lower upper step) (Written true) :=
      fun step hstep => (reads_spanFrom _).bind fun _ _ =>
        reads_pure (.slice hlower hupper hstep)
    split
    · exact (reads_parseUnless _ h).bind hrest
    · exact hrest none (by simp)
  refine (reads_accept _).bind fun _ _ => ?_
  split
  · exact (reads_parseUnless _ h).bind fun step hstep => (reads_spanFrom _).bind fun _ _ =>
      reads_pure (.slice hlower (by simp) hstep)
  split
  · exact reads_pure (hlower _ rfl).of_false
  · exact reads_unexpected

/-- What is read with subscripts is written, if the expressions inside are. -/
theorem reads_subscripted (h : Reads expr (Written false)) :
    Reads (subscripted expr) (Written false) := by
  have hindex : Reads (subscript? expr) fun r => ∀ p, r = some p → Written true p.1 := by
    refine (reads_accept _).bind fun _ _ => ?_
    split
    · exact (reads_index h).bind fun i hi => (reads_expect _).bind fun _ _ =>
        reads_reached.bind fun _ _ => reads_pure (by simpa using hi)
    · exact reads_pure (by simp)
  refine reads_here.bind fun start _ => (reads_atom h).bind fun base hbase =>
    (reads_repeatWhile hindex).bind fun indices hindices => reads_pure ?_
  induction indices generalizing base with
  | nil => exact hbase
  | cons i indices ih =>
    rw [List.forall_mem_cons] at hindices
    exact ih _ (.subscript hbase hindices.1) hindices.2

theorem reads_prefixed {token : Token} {op : Op} (hop : op.isUnary = true)
    (h : Reads operand (Written false)) (n : Nat) :
    Reads (prefixed token op operand n) (Written false) := by
  induction n with
  | zero => exact h
  | succ n ih =>
    refine reads_here.bind fun start _ => (reads_accept _).bind fun _ _ => ?_
    split
    · exact ih.bind fun e he => (reads_spanFrom _).bind fun _ _ => reads_pure (.unary hop he)
    · exact h

theorem reads_sum (h : Reads expr (Written false)) : Reads (Expr.sum expr) (Written false) := by
  refine reads_leftLevel (fun _ _ => isUnary_additive?) (reads_leftLevel ?_ ?_)
  · intro token op h
    cases token <;> cases h <;> rfl
  · exact reads_remaining.bind fun n _ => reads_prefixed rfl (reads_subscripted h) n

/-- Comparisons of what is written are written. -/
theorem reads_comparison (h : Reads sum (Written false)) :
    Reads (comparison sum) (Written false) := by
  refine reads_here.bind fun start _ => h.bind fun first hfirst =>
    (reads_repeatWhile (reads_operation? (fun _ _ => isUnary_comparison?) h)).bind
      fun rest hrest => ?_
  split
  · exact reads_pure hfirst
  refine (reads_spanFrom _).bind fun _ _ => reads_pure (.compare hfirst ?_ ?_)
  · exact List.forall_mem_map.2 fun p hp => (hrest p hp).1
  · exact List.forall_mem_map.2 fun p hp => (hrest p hp).2

theorem reads_chainLevel {token : Token} {op : Op} (hop : op.isUnary = false)
    (h : Reads operand (Written false)) :
    Reads (chainLevel token op operand) (Written false) := by
  have hlinked : Reads (linked? token operand) fun r => ∀ e, r = some e → Written false e := by
    refine (reads_accept _).bind fun _ _ => ?_
    split
    · exact h.map fun e he => by simpa using he
    · exact reads_pure (by simp)
  refine reads_here.bind fun start _ => h.bind fun first hfirst =>
    (reads_repeatWhile hlinked).bind fun rest hrest => ?_
  split
  · exact reads_pure hfirst
  · exact (reads_spanFrom _).bind fun _ _ => reads_pure (.chain hop hfirst hrest)

/-- By induction on the depth: expressions that are read are written. -/
theorem reads_parseWithin (depth : Nat) : Reads (parseWithin depth) (Written false) := by
  induction depth with
  | zero => exact reads_unexpected
  | succ depth ih =>
    exact reads_chainLevel rfl (reads_chainLevel rfl (reads_remaining.bind fun n _ =>
      reads_prefixed rfl (reads_comparison (reads_sum ih)) n))

theorem reads_parse : Reads parse (Written false) :=
  reads_remaining.bind fun n _ => reads_parseWithin (n + 1)

end Expr

/-! ## Statements -/

namespace Stmt

variable {block : Parser (List Stmt)}

/-- A statement on one line could stand in a text. -/
theorem reads_simple : Reads simple Written := by
  refine reads_here.bind fun start _ => reads_peek.bind fun t _ => ?_
  split
  · exact reads_advance.bind fun _ _ => (Expr.reads_parseUnless _ Expr.reads_parse).bind
      fun _ _ => (reads_spanFrom _).bind fun _ _ => reads_pure .give
  · exact reads_advance.bind fun _ _ => (reads_spanFrom _).bind fun _ _ => reads_pure .pass
  · exact reads_advance.bind fun _ _ => Expr.reads_parse.bind fun e he =>
      (reads_spanFrom _).bind fun _ _ => reads_pure (.assert he)
  · refine Expr.reads_parse.bind fun e he => (reads_accept _).bind fun _ _ => ?_
    split
    · exact Expr.reads_parse.bind fun value hvalue => (reads_spanFrom _).bind fun _ _ =>
        reads_pure (.assign he hvalue)
    · exact (reads_spanFrom _).bind fun _ _ => reads_pure .expr

theorem reads_simpleLine : Reads simpleLine Written :=
  reads_simple.bind fun _ hs => (reads_expect _).bind fun _ _ => reads_pure hs

/-- A condition and its block could stand in a text. -/
theorem reads_governed (h : Reads block fun l => ∀ s ∈ l, Written s) :
    Reads (governed block) fun p => p.1.Written false ∧ ∀ s ∈ p.2, Written s :=
  Expr.reads_parse.bind fun _ hcond => (reads_expect _).bind fun _ _ =>
    h.bind fun _ hbody => reads_pure ⟨hcond, hbody⟩

/-- The statements of all further branches could stand in a text. -/
theorem reads_otherwise (h : Reads block fun l => ∀ s ∈ l, Written s) (n : Nat) :
    Reads (otherwise block n) fun l => ∀ s ∈ l, Written s := by
  induction n with
  | zero => exact reads_pure (by simp)
  | succ n ih =>
    refine reads_here.bind fun start _ => reads_peek.bind fun t _ => ?_
    split
    · refine reads_advance.bind fun _ _ => (reads_governed h).bind fun p hp =>
        ih.bind fun orelse horelse => (reads_spanFrom _).bind fun _ _ => reads_pure ?_
      simpa using Written.branch hp.1 hp.2 horelse
    · exact reads_advance.bind fun _ _ => (reads_expect _).bind fun _ _ => h
    · exact reads_pure (by simp)

/-- A statement that is read could stand in a text, if blocks could. -/
theorem reads_statement (h : Reads block fun l => ∀ s ∈ l, Written s) :
    Reads (statement block) Written := by
  refine reads_here.bind fun start _ => reads_peek.bind fun t _ => ?_
  split
  · exact reads_advance.bind fun _ _ => (reads_governed h).bind fun p hp =>
      reads_remaining.bind fun n _ => (reads_otherwise h n).bind fun orelse horelse =>
        (reads_spanFrom _).bind fun _ _ => reads_pure (.branch hp.1 hp.2 horelse)
  · exact reads_advance.bind fun _ _ => (reads_governed h).bind fun p hp =>
      (reads_spanFrom _).bind fun _ _ => reads_pure (.loop hp.1 hp.2)
  · exact reads_simpleLine

/-- The statements of a block could stand in a text, at every depth. -/
theorem reads_blockWithin (depth : Nat) :
    Reads (blockWithin depth) fun l => ∀ s ∈ l, Written s := by
  induction depth with
  | zero => exact reads_unexpected
  | succ depth ih =>
    have hnext : Reads (statement? (blockWithin depth)) fun r => ∀ s, r = some s → Written s := by
      refine reads_peek.bind fun _ _ => ?_
      split
      · exact reads_pure (by simp)
      · exact (reads_statement ih).map fun s hs => by simpa using hs
    refine (reads_accept _).bind fun _ _ => ?_
    split
    · exact (reads_expect _).bind fun _ _ => (reads_statement ih).bind fun first hfirst =>
        (reads_repeatWhile hnext).bind fun rest hrest => (reads_expect _).bind fun _ _ =>
          reads_pure (List.forall_mem_cons.2 ⟨hfirst, hrest⟩)
    · exact reads_simpleLine.bind fun s hs => reads_pure (by simpa using hs)

theorem reads_block : Reads Stmt.block fun l => ∀ s ∈ l, Written s :=
  reads_remaining.bind fun n _ => reads_blockWithin (n + 1)

end Stmt

/-! ## Functions and modules -/

theorem Decorator.reads_parse? : Reads Decorator.parse? fun _ => True := by
  have hargument : Reads Decorator.argument fun _ => True :=
    reads_name.bind fun _ _ => (reads_expect _).bind fun _ _ =>
      Expr.reads_parse.bind fun _ _ => reads_pure trivial
  have hrest : ∀ start key arguments, Reads (do
      let span ← spanFrom start
      expect .newline
      return some (Decorator.mk key arguments span)) fun _ => True := fun start _ _ =>
    (reads_spanFrom start).bind fun _ _ => (reads_expect _).bind fun _ _ => reads_pure trivial
  refine reads_here.bind fun start _ => (reads_accept _).bind fun _ _ => ?_
  split
  · refine reads_name.bind fun key _ => (reads_accept _).bind fun _ _ => ?_
    split
    · exact (reads_commaList hargument _).bind fun arguments _ => hrest start key arguments
    · exact hrest start key []
  · exact reads_pure trivial

/-- The name of a parameter is plain. -/
theorem Param.reads_parse : Reads Param.parse fun p => Name.Plain p.name.node := by
  refine reads_name.bind fun x hx => (reads_accept _).bind fun _ _ => ?_
  split
  · have hsome : Reads (some <$> TypeExpr.parse) fun _ => True :=
      TypeExpr.reads_parse.map fun _ _ => trivial
    exact hsome.bind fun _ _ => reads_pure hx
  · exact reads_pure hx

/-- The function could stand in a text. -/
structure Function.Written (f : Function) : Prop where
  params : ∀ p ∈ f.params, Name.Plain p.name.node
  body : ∀ s ∈ f.body, s.Written

/-- A function that is read could stand in a text. -/
theorem Function.reads_parse : Reads Function.parse Function.Written := by
  refine reads_here.bind fun start _ =>
    (reads_repeatWhile (P := fun _ => True)
      (Decorator.reads_parse?.mono fun _ _ => by simp)).bind fun decorators _ =>
    (reads_expect _).bind fun _ _ => reads_name.bind fun f _ => (reads_expect _).bind fun _ _ =>
    (reads_commaList Param.reads_parse _).bind fun params hparams =>
    (reads_accept _).bind fun _ _ => ?_
  have hrest : ∀ result, Reads (do
      expect .colon
      let body ← Stmt.block
      return Function.mk decorators f params result body (← spanFrom start)) Function.Written :=
    fun result => (reads_expect _).bind fun _ _ => Stmt.reads_block.bind fun body hbody =>
      (reads_spanFrom _).bind fun _ _ => reads_pure ⟨hparams, hbody⟩
  split
  · have hsome : Reads (some <$> TypeExpr.parse) fun _ => True :=
      TypeExpr.reads_parse.map fun _ _ => trivial
    exact hsome.bind fun result _ => hrest result
  · exact hrest none

/-- The functions among the items could stand in a text. -/
def Item.Written (item : Item) : Prop := ∀ f, item = .function f → f.Written

theorem Item.reads_parse? : Reads Item.parse? fun r => ∀ item, r = some item → item.Written := by
  have hfunction : Reads (do return some (Item.function (← Function.parse)))
      fun r => ∀ item, r = some item → item.Written := by
    refine Function.reads_parse.bind fun f hf => reads_pure ?_
    rintro _ hsome _ rfl
    cases hsome
    exact hf
  refine reads_peek.bind fun t _ => ?_
  split
  · exact reads_pure (by simp)
  · exact hfunction
  · exact hfunction
  · refine (Stmt.reads_statement Stmt.reads_block).bind fun s _ => reads_pure ?_
    rintro _ hsome _ rfl
    cases hsome

/-- The items of a program that is read could stand in a text. -/
theorem written_of_parseItems {source : String} {items : List Item}
    (h : parseItems source = .ok items) : ∀ item ∈ items, item.Written := by
  obtain ⟨tokens, htokens, h⟩ := Exec.bind_eq_ok.1 h
  exact (reads_repeatWhile Item.reads_parse?).of_run (plainTokens_tokenizeLayout htokens) h

/-- What is verified of a function could stand in a text if the function could, and its parameters
have types of values. -/
theorem Function.Written.of_describes {f : Function} {subject : Subject} (hf : f.Written)
    (h : f.Describes subject) : subject.Written := by
  refine ⟨fun p hp => ?_, h.body ▸ hf.body⟩
  obtain ⟨param, hparam, hresolve⟩ := Smt.exists_of_mem_mapM h.params hp
  obtain ⟨ty, hty, hresolve⟩ := Exec.bind_eq_ok.1 hresolve
  cases hresolve
  exact ⟨hf.params param hparam, TypeExpr.ofValues_mapM_resolve hty⟩

/-- All functions of the scopes could stand in a text. -/
def WrittenScopes (scopes : List Scope) : Prop := ∀ s ∈ scopes, ∀ f ∈ s.subjects, f.Written

/-- The functions of a module that was read could stand in a text. -/
theorem Module.written_of_load {source defaultScope : String} {m : Module}
    (h : Module.load source defaultScope = .ok m) : WrittenScopes m.scopes := by
  obtain ⟨items, hitems, hholds⟩ := Module.holds_of_load h
  intro s hs subject hsubject
  obtain ⟨f, hf, hdescribes⟩ := hholds.exists_describes hs hsubject
  exact (written_of_parseItems hitems _ hf f rfl).of_describes hdescribes

end Precond.Host
