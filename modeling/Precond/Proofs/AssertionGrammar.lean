import Mathlib.Tactic
import Precond.Grammar.Assertion

/-!
# The grammar of assertions

`Derives s ts e` says that the tokens `ts` can be derived from the symbol `s`, with the value `e`.
The productions that only pass a value on and those of binary operators are tables
(`Symbol.units`, `Symbol.operations`), the others are constructors of their own.

A quantifier reaches as far to the right as it can. In the grammar this is said by a second family
of symbols, those with `Quant` in their names: the forms that end in a quantifier, which stand only
where nothing can follow.
-/

namespace Precond.Grammar

/-! ## Pieces of texts -/

/-- A piece of a text and its value. -/
structure Phrase (α : Type) where
  /-- The tokens that it consists of. -/
  tokens : List Token
  /-- What it stands for. -/
  value : α

namespace Phrase

variable {α : Type}

/-- The tokens of a piece that may be left out. -/
def optional (p : Option (Phrase α)) : List Token := p.elim [] tokens

/-- Pieces with a comma behind each of them, and possibly one more. -/
def commas (items : List (Phrase α)) (last : Option (Phrase α)) : List Token :=
  items.flatMap (fun p => p.tokens ++ [.comma]) ++ optional last

/-- The values of such pieces. -/
def values (items : List (Phrase α)) (last : Option (Phrase α)) : List α :=
  (items ++ last.toList).map value

end Phrase

/-! ## Types -/

/-- A written type and the type that it names. -/
inductive TypeDerives : List Token → Ty → Prop
  | plain {x ty} (hty : Ty.named? x [] = some ty) : TypeDerives [.ident x] ty
  | applied {x ty} {items : List (Phrase Ty)} {last : Option (Phrase Ty)}
      (hitems : ∀ p ∈ items, TypeDerives p.tokens p.value)
      (hlast : ∀ p ∈ last, TypeDerives p.tokens p.value)
      (hty : Ty.named? x (Phrase.values items last) = some ty) :
      TypeDerives (.ident x :: .lBracket :: (Phrase.commas items last ++ [.rBracket])) ty

/-- The type that may be written behind the variable of a quantifier. -/
inductive QuantType : List Token → Option Ty → Prop
  | absent : QuantType [] none
  | written {ts ty} (h : TypeDerives ts ty) : QuantType (.colon :: ts) (some ty)

/-! ## Assertions -/

/-- The symbols of the grammar. -/
inductive Symbol where
  | assertion
  | iff | implies
  | disjQuant | conjQuant | negationQuant
  | impliesNoQuant
  | quantified
  | disj | conj | negation
  | comparison
  | sum | product | modulo | unary
  | subscripted | index
  | primary
  deriving DecidableEq

/-- A production of a binary operator. -/
structure Operation where
  /-- What stands on its left. -/
  left : Symbol
  /-- The token. -/
  token : Token
  /-- The operator that the token stands for. -/
  op : Op
  /-- What stands on its right. -/
  right : Symbol

namespace Symbol

/-- The symbols that a symbol may be replaced by, with the same value. -/
def units : Symbol → List Symbol
  | assertion => [iff]
  | iff => [implies]
  | implies => [disj, disjQuant]
  | disjQuant => [conjQuant]
  | conjQuant => [negationQuant]
  | negationQuant => [quantified]
  | impliesNoQuant => [disj]
  | disj => [conj]
  | conj => [negation]
  | negation => [comparison]
  | comparison => [sum]
  | sum => [product]
  | product => [modulo]
  | modulo => [unary]
  | unary => [subscripted]
  | subscripted => [primary]
  | index => [sum]
  | quantified | primary => []

/-- The binary operators of a symbol. -/
def operations : Symbol → List Operation
  | iff => [⟨impliesNoQuant, .iff, .iff, iff⟩]
  | implies => [⟨disj, .implies, .implies, implies⟩]
  | disjQuant => [⟨disj, .kwOr, .or, conjQuant⟩]
  | conjQuant => [⟨conj, .kwAnd, .and, negationQuant⟩]
  | impliesNoQuant => [⟨disj, .implies, .implies, impliesNoQuant⟩]
  | disj => [⟨disj, .kwOr, .or, conj⟩]
  | conj => [⟨conj, .kwAnd, .and, negation⟩]
  | comparison =>
    [⟨sum, .eqEq, .eq, sum⟩, ⟨sum, .notEq, .ne, sum⟩, ⟨sum, .lt, .lt, sum⟩,
      ⟨sum, .ltEq, .le, sum⟩, ⟨sum, .gt, .gt, sum⟩, ⟨sum, .gtEq, .ge, sum⟩]
  | sum => [⟨sum, .plus, .add, product⟩, ⟨sum, .minus, .sub, product⟩]
  | product => [⟨product, .star, .mul, modulo⟩, ⟨product, .slashSlash, .div, modulo⟩]
  | modulo => [⟨modulo, .percent, .mod, unary⟩]
  | _ => []

end Symbol

/-- The tokens can be derived from the symbol, with the value. -/
inductive Derives : Symbol → List Token → Expr → Prop
  | unit {s a ts e} (ha : a ∈ s.units) (h : Derives a ts e) : Derives s ts e
  | binary {s o ts us l r} (ho : o ∈ s.operations) (hl : Derives o.left ts l)
      (hr : Derives o.right us r) : Derives s (ts ++ o.token :: us) (.binary o.op l r)
  | not {ts e} (h : Derives .negation ts e) : Derives .negation (.kwNot :: ts) (.not e)
  | notQuant {ts e} (h : Derives .negationQuant ts e) :
      Derives .negationQuant (.kwNot :: ts) (.not e)
  | forAll {x written ty ts body} (hty : QuantType written ty) (hbody : Derives .iff ts body) :
      Derives .quantified (.kwForall :: .ident x :: (written ++ .colonColon :: ts))
        (.forAll x ty body)
  | thereExists {x written ty ts body} (hty : QuantType written ty)
      (hbody : Derives .iff ts body) :
      Derives .quantified (.kwExists :: .ident x :: (written ++ .colonColon :: ts))
        (.thereExists x ty body)
  | neg {ts e} (h : Derives .unary ts e) : Derives .unary (.minus :: ts) (.unary .neg e)
  | subscript {ts us base i} (hbase : Derives .subscripted ts base) (hi : Derives .index us i) :
      Derives .subscripted (ts ++ .lBracket :: (us ++ [.rBracket])) (.subscript base i)
  | slice {lower upper : Option (Phrase Expr)} {step : Option (Option (Phrase Expr))}
      (hlower : ∀ p ∈ lower, Derives .sum p.tokens p.value)
      (hupper : ∀ p ∈ upper, Derives .sum p.tokens p.value)
      (hstep : ∀ p ∈ step.join, Derives .sum p.tokens p.value) :
      Derives .index
        (Phrase.optional lower ++ .colon :: (Phrase.optional upper ++
          step.elim [] fun p => .colon :: Phrase.optional p))
        (.sliceOf (lower.map (·.value)) (upper.map (·.value)) (step.join.map (·.value)))
  | sliceStep {lower step : Option (Phrase Expr)}
      (hlower : ∀ p ∈ lower, Derives .sum p.tokens p.value)
      (hstep : ∀ p ∈ step, Derives .sum p.tokens p.value) :
      Derives .index (Phrase.optional lower ++ .colonColon :: Phrase.optional step)
        (.sliceOf (lower.map (·.value)) none (step.map (·.value)))
  | int {n : Nat} : Derives .primary [.int n] (.int n)
  | true : Derives .primary [.kwTrue] (.bool true)
  | false : Derives .primary [.kwFalse] (.bool false)
  | var {x} : Derives .primary [.ident x] (.var x)
  | call {f} {items : List (Phrase Expr)} {last : Option (Phrase Expr)}
      (hitems : ∀ p ∈ items, Derives .iff p.tokens p.value)
      (hlast : ∀ p ∈ last, Derives .iff p.tokens p.value) :
      Derives .primary (.ident f :: .lParen :: (Phrase.commas items last ++ [.rParen]))
        (.call f (Phrase.values items last))
  | parens {ts e} (h : Derives .iff ts e) : Derives .primary (.lParen :: (ts ++ [.rParen])) e

/-! ## How a piece of a text begins -/

/-- How much a token that a formula may begin with is kept from standing further inside one. -/
def Token.opening : Token → Nat
  | .int _ | .kwTrue | .kwFalse | .ident _ | .lParen => 0
  | .minus => 1
  | .kwNot => 2
  | .kwForall | .kwExists => 3
  | _ => 4

theorem Token.opening_le (t : Token) : t.opening ≤ 4 := by
  cases t <;> simp [opening]

/-- The largest `Token.opening` of a token that a symbol may begin with. -/
def Symbol.opening : Symbol → Nat
  | primary | subscripted => 0
  | unary | modulo | product | sum | comparison => 1
  | negation | conj | disj | impliesNoQuant => 2
  | quantified | negationQuant | conjQuant | disjQuant | implies | iff | assertion => 3
  | index => 4

/-- A part that may stand alone begins in no more ways than the whole. -/
theorem Symbol.opening_le_of_mem_units {s a : Symbol} (h : a ∈ s.units) :
    a.opening ≤ s.opening := by
  cases s <;> simp only [units, List.mem_cons, List.not_mem_nil, or_false] at h
  case implies => rcases h with rfl | rfl <;> decide
  all_goals subst h; decide

/-- The left operand begins in no more ways than the operation. -/
theorem Symbol.opening_left_le {s : Symbol} {o : Operation} (h : o ∈ s.operations) :
    o.left.opening ≤ s.opening := by
  cases s <;> simp only [operations, List.mem_cons, List.not_mem_nil, or_false] at h
  case comparison => rcases h with rfl | rfl | rfl | rfl | rfl | rfl <;> decide
  case sum | product => rcases h with rfl | rfl <;> decide
  all_goals subst h; decide

/-- A piece of a text is not empty, and begins with a token that its symbol may begin with. -/
theorem Derives.exists_cons {s : Symbol} {ts : List Token} {e : Expr} (h : Derives s ts e) :
    ∃ t us, ts = t :: us ∧ t.opening ≤ s.opening := by
  induction h with
  | unit ha _ ih =>
    obtain ⟨t, us, rfl, ht⟩ := ih
    exact ⟨t, us, rfl, ht.trans (Symbol.opening_le_of_mem_units ha)⟩
  | binary ho _ _ ihl _ =>
    obtain ⟨t, us, rfl, ht⟩ := ihl
    exact ⟨t, _, rfl, ht.trans (Symbol.opening_left_le ho)⟩
  | subscript _ _ ih _ =>
    obtain ⟨t, us, rfl, ht⟩ := ih
    exact ⟨t, _, rfl, ht⟩
  | @slice lower upper step =>
    obtain ⟨t, us, hts⟩ := List.exists_cons_of_ne_nil
      (List.append_ne_nil_of_right_ne_nil (Phrase.optional lower) (List.cons_ne_nil Token.colon _))
    exact ⟨t, us, hts, t.opening_le⟩
  | @sliceStep lower step =>
    obtain ⟨t, us, hts⟩ := List.exists_cons_of_ne_nil (List.append_ne_nil_of_right_ne_nil
      (Phrase.optional lower) (List.cons_ne_nil Token.colonColon _))
    exact ⟨t, us, hts, t.opening_le⟩
  | _ => exact ⟨_, _, rfl, by simp [Token.opening, Symbol.opening]⟩

/-! ## How tightly tokens bind -/

/-- How tightly a token binds what stands before it. -/
def Token.binding : Token → Nat
  | .iff => 1
  | .implies => 2
  | .kwOr => 3
  | .kwAnd => 4
  | .eqEq | .notEq | .lt | .ltEq | .gt | .gtEq => 5
  | .plus | .minus => 6
  | .star | .slashSlash => 7
  | .percent => 8
  | .lBracket => 9
  | .lParen => 10
  | _ => 0

/-! ## Operators that nest to the left -/

/-- The productions of `s` put operators of `op?` between operands of `a`, from the left. -/
structure Symbol.LeftLevel (s a : Symbol) (op? : Token → Option Op) : Prop where
  units : s.units = [a]
  operations : ∀ o, o ∈ s.operations ↔ o.left = s ∧ op? o.token = some o.op ∧ o.right = a
  plain : s ∈ [disj, conj, sum, product, modulo]

open Assertion

/-- The symbols whose operators nest to the left, with their operands and operators. -/
def Symbol.leftLevels : List (Symbol × Symbol × (Token → Option Op)) :=
  [(disj, conj, disjunctive?), (conj, negation, conjunctive?), (sum, product, additive?),
    (product, modulo, multiplicative?), (modulo, unary, remainder?)]

/-- The levels of the table are those whose operators nest to the left. -/
theorem Symbol.leftLevel_of_mem {s a : Symbol} {op? : Token → Option Op}
    (h : (s, a, op?) ∈ leftLevels) : LeftLevel s a op? := by
  simp only [leftLevels, List.mem_cons, Prod.mk.injEq, List.not_mem_nil, or_false] at h
  rcases h with ⟨rfl, rfl, rfl⟩ | ⟨rfl, rfl, rfl⟩ | ⟨rfl, rfl, rfl⟩ | ⟨rfl, rfl, rfl⟩ |
    ⟨rfl, rfl, rfl⟩
  all_goals
    refine ⟨rfl, ?_, by decide⟩
    rintro ⟨l, t, op, r⟩
    cases t <;> simp [operations, disjunctive?, conjunctive?, additive?, multiplicative?,
      remainder?] <;> tauto

namespace Symbol

theorem leftLevel_disj : LeftLevel disj conj disjunctive? := leftLevel_of_mem (by simp [leftLevels])

theorem leftLevel_conj : LeftLevel conj negation conjunctive? :=
  leftLevel_of_mem (by simp [leftLevels])

theorem leftLevel_sum : LeftLevel sum product additive? := leftLevel_of_mem (by simp [leftLevels])

theorem leftLevel_product : LeftLevel product modulo multiplicative? :=
  leftLevel_of_mem (by simp [leftLevels])

theorem leftLevel_modulo : LeftLevel modulo unary remainder? :=
  leftLevel_of_mem (by simp [leftLevels])

end Symbol

/-- Operands of `A` with operators between them, which nest to the left. -/
inductive LeftChain (op? : Token → Option Op) (A : List Token → Expr → Prop) :
    List Token → Expr → Prop
  | operand {ts e} (h : A ts e) : LeftChain op? A ts e
  | step {ts t op us l r} (hl : LeftChain op? A ts l) (ht : op? t = some op) (hr : A us r) :
      LeftChain op? A (ts ++ t :: us) (.binary op l r)

/-- What such a level derives is a chain of its operators over operands of the next level. -/
theorem Symbol.LeftLevel.leftChain {s a : Symbol} {op? : Token → Option Op}
    (hs : s.LeftLevel a op?) {ts : List Token} {e : Expr} (h : Derives s ts e) :
    LeftChain op? (Derives a) ts e := by
  induction h with
  | unit ha h _ =>
    rw [hs.units, List.mem_singleton] at ha
    exact .operand (ha ▸ h)
  | binary ho _ hr ihl _ =>
    obtain ⟨hleft, hop, hright⟩ := (hs.operations _).1 ho
    exact .step (ihl (hleft ▸ hs)) hop (hright ▸ hr)
  | _ => exact absurd hs.plain (by decide)

end Precond.Grammar
