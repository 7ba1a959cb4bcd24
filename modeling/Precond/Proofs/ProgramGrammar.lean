import Mathlib.Tactic
import Precond.Host.Grammar
import Precond.Proofs.TokenPlaces

/-!
# The grammar of programs as productions

`Program.Derives tokens items` says that a list of tokens can be derived from the grammar with a
list of items as its value. Values have ranges in them, so tokens come with theirs: the range of a
part is `spanOf` the tokens of its production, from the first one to the last one. Parentheses keep
the range of what they hold, and a mark ends before its line break.

Expressions are derived level by level (`Expr.Derives`). The chains of `and` and `or` and of
comparisons are flat, sums and products nest to the left. Statements, blocks and what follows a
condition are derived together (`Stmt.Derives`); each of them stands for a list of statements, a
statement for a list of one.
-/

namespace Precond.Grammar

/-- The tokens of a piece that may be left out. -/
def optionTokens {α : Type} (p : Option (Piece α)) : List (Spanned Token) := p.elim [] (·.tokens)

/-- A first piece and further ones, each with a token in front. -/
def chainTokens {α β : Type} (first : Piece α) (rest : List (Linked β)) : List (Spanned Token) :=
  first.tokens ++ rest.flatMap fun p => p.mark :: p.tokens

/-- A written type. -/
inductive TypeExpr.Derives : List (Spanned Token) → TypeExpr → Prop
  | plain {name : Spanned Token} {x : String} (hname : name.node = .ident x) :
      Derives [name] (.mk x [] (spanOf [name]))
  | applied {name opening closing : Spanned Token} {x : String} {args : CommaList TypeExpr}
      (hname : name.node = .ident x) (hopening : opening.node = .lBracket)
      (hclosing : closing.node = .rBracket) (hargs : ∀ p ∈ args.pieces, Derives p.tokens p.value) :
      Derives (name :: opening :: (args.tokens ++ [closing]))
        (.mk x args.values (spanOf (name :: opening :: (args.tokens ++ [closing]))))

end Precond.Grammar

namespace Precond.Host

open Grammar

/-! ## Expressions -/

/-- The levels of expressions, and what stands in the brackets of a subscript. -/
inductive Level where
  | or
  | and
  | not
  | compare
  | arith
  | term
  | factor
  | primary
  | atom
  | subscript

/-- An expression of a level. -/
inductive Expr.Derives : Level → List (Spanned Token) → Expr → Prop
  | orChain {first : Piece Expr} {rest : List (Linked Expr)} (hne : rest ≠ [])
      (hmarks : ∀ p ∈ rest, p.mark.node = .kwOr) (hfirst : Derives .and first.tokens first.value)
      (hrest : ∀ p ∈ rest, Derives .and p.tokens p.value) :
      Derives .or (chainTokens first rest)
        (.chain (spanOf (chainTokens first rest)) .or first.value (rest.map (·.value)))
  | and {ts e} (h : Derives .and ts e) : Derives .or ts e
  | andChain {first : Piece Expr} {rest : List (Linked Expr)} (hne : rest ≠ [])
      (hmarks : ∀ p ∈ rest, p.mark.node = .kwAnd) (hfirst : Derives .not first.tokens first.value)
      (hrest : ∀ p ∈ rest, Derives .not p.tokens p.value) :
      Derives .and (chainTokens first rest)
        (.chain (spanOf (chainTokens first rest)) .and first.value (rest.map (·.value)))
  | not {ts e} (h : Derives .not ts e) : Derives .and ts e
  | negation {t ts e} (ht : t.node = .kwNot) (h : Derives .not ts e) :
      Derives .not (t :: ts) (.unary (spanOf (t :: ts)) .not e)
  | compare {ts e} (h : Derives .compare ts e) : Derives .not ts e
  | comparison {first : Piece Expr} {rest : List (Linked (Op × Expr))} (hne : rest ≠ [])
      (hmarks : ∀ p ∈ rest, comparison? p.mark.node = some p.value.1)
      (hfirst : Derives .arith first.tokens first.value)
      (hrest : ∀ p ∈ rest, Derives .arith p.tokens p.value.2) :
      Derives .compare (chainTokens first rest)
        (.compare (spanOf (chainTokens first rest)) first.value (rest.map (·.value)))
  | arith {ts e} (h : Derives .arith ts e) : Derives .compare ts e
  | addition {ts us t op l r} (ht : additive? t.node = some op) (hl : Derives .arith ts l)
      (hr : Derives .term us r) :
      Derives .arith (ts ++ t :: us) (.binary (spanOf (ts ++ t :: us)) op l r)
  | term {ts e} (h : Derives .term ts e) : Derives .arith ts e
  | multiplication {ts us t op l r} (ht : multiplicative? t.node = some op)
      (hl : Derives .term ts l) (hr : Derives .factor us r) :
      Derives .term (ts ++ t :: us) (.binary (spanOf (ts ++ t :: us)) op l r)
  | factor {ts e} (h : Derives .factor ts e) : Derives .term ts e
  | negative {t ts e} (ht : t.node = .minus) (h : Derives .factor ts e) :
      Derives .factor (t :: ts) (.unary (spanOf (t :: ts)) .neg e)
  | primary {ts e} (h : Derives .primary ts e) : Derives .factor ts e
  | subscript {ts us b i opening closing} (hopening : opening.node = .lBracket)
      (hclosing : closing.node = .rBracket) (hbase : Derives .primary ts b)
      (hindex : Derives .subscript us i) :
      Derives .primary (ts ++ opening :: (us ++ [closing]))
        (.subscript (spanOf (ts ++ opening :: (us ++ [closing]))) b i)
  | call {name opening closing f} {args : CommaList Expr} (hname : name.node = .ident f)
      (hopening : opening.node = .lParen) (hclosing : closing.node = .rParen)
      (hargs : ∀ p ∈ args.pieces, Derives .or p.tokens p.value) :
      Derives .primary (name :: opening :: (args.tokens ++ [closing]))
        (.call (spanOf (name :: opening :: (args.tokens ++ [closing]))) ⟨f, name.span⟩ args.values)
  | atom {ts e} (h : Derives .atom ts e) : Derives .primary ts e
  | index {ts e} (h : Derives .or ts e) : Derives .subscript ts e
  | slice {lower upper : Option (Piece Expr)} {colon} (hcolon : colon.node = .colon)
      (hlower : ∀ p ∈ lower, Derives .or p.tokens p.value)
      (hupper : ∀ p ∈ upper, Derives .or p.tokens p.value) :
      Derives .subscript (optionTokens lower ++ colon :: optionTokens upper)
        (.slice (spanOf (optionTokens lower ++ colon :: optionTokens upper))
          (lower.map (·.value)) (upper.map (·.value)) none)
  | sliceBy {lower upper step : Option (Piece Expr)} {colon colon'} (hcolon : colon.node = .colon)
      (hcolon' : colon'.node = .colon) (hlower : ∀ p ∈ lower, Derives .or p.tokens p.value)
      (hupper : ∀ p ∈ upper, Derives .or p.tokens p.value)
      (hstep : ∀ p ∈ step, Derives .or p.tokens p.value) :
      Derives .subscript
        (optionTokens lower ++ colon :: (optionTokens upper ++ colon' :: optionTokens step))
        (.slice (spanOf
            (optionTokens lower ++ colon :: (optionTokens upper ++ colon' :: optionTokens step)))
          (lower.map (·.value)) (upper.map (·.value)) (step.map (·.value)))
  | sliceAll {lower step : Option (Piece Expr)} {colons} (hcolons : colons.node = .colonColon)
      (hlower : ∀ p ∈ lower, Derives .or p.tokens p.value)
      (hstep : ∀ p ∈ step, Derives .or p.tokens p.value) :
      Derives .subscript (optionTokens lower ++ colons :: optionTokens step)
        (.slice (spanOf (optionTokens lower ++ colons :: optionTokens step))
          (lower.map (·.value)) none (step.map (·.value)))
  | int {t n} (ht : t.node = .int n) : Derives .atom [t] (.int (spanOf [t]) n)
  | kwTrue {t} (ht : t.node = .kwTrue) : Derives .atom [t] (.bool (spanOf [t]) true)
  | kwFalse {t} (ht : t.node = .kwFalse) : Derives .atom [t] (.bool (spanOf [t]) false)
  | name {t x} (ht : t.node = .ident x) : Derives .atom [t] (.name (spanOf [t]) x)
  | str {t s} (ht : t.node = .str s) : Derives .atom [t] (.str (spanOf [t]) s)
  | parens {opening closing ts e} (hopening : opening.node = .lParen)
      (hclosing : closing.node = .rParen) (h : Derives .or ts e) :
      Derives .atom (opening :: (ts ++ [closing])) e
  | list {opening closing} {items : CommaList Expr} (hopening : opening.node = .lBracket)
      (hclosing : closing.node = .rBracket)
      (hitems : ∀ p ∈ items.pieces, Derives .or p.tokens p.value) :
      Derives .atom (opening :: (items.tokens ++ [closing]))
        (.list (spanOf (opening :: (items.tokens ++ [closing]))) items.values)

/-! ## Statements -/

/-- A statement that fits on a line, without the line break. -/
inductive Stmt.Simple : List (Spanned Token) → Stmt → Prop
  | assign {ts us t target value} (ht : t.node = .equals) (htarget : Expr.Derives .or ts target)
      (hvalue : Expr.Derives .or us value) :
      Simple (ts ++ t :: us) (.assign (spanOf (ts ++ t :: us)) target value)
  | expr {ts e} (h : Expr.Derives .or ts e) : Simple ts (.expr (spanOf ts) e)
  | give {t} {value : Option (Piece Expr)} (ht : t.node = .kwReturn)
      (hvalue : ∀ p ∈ value, Expr.Derives .or p.tokens p.value) :
      Simple (t :: optionTokens value)
        (.give (spanOf (t :: optionTokens value)) (value.map (·.value)))
  | pass {t} (ht : t.node = .kwPass) : Simple [t] (.pass (spanOf [t]))
  | assert {t ts e} (ht : t.node = .kwAssert) (h : Expr.Derives .or ts e) :
      Simple (t :: ts) (.assert (spanOf (t :: ts)) e)

/-- The parts that statements consist of. -/
inductive Stmt.Part where
  | statement
  | statements
  | block
  /-- What may follow the block of a condition. -/
  | otherwise

/-- A part of a program and the statements that it stands for. -/
inductive Stmt.Derives : Stmt.Part → List (Spanned Token) → List Stmt → Prop
  | line {ts newline s} (hnewline : newline.node = .newline) (h : Simple ts s) :
      Derives .statement (ts ++ [newline]) [s]
  | branch {t cond colon bodyTokens otherTokens e body orelse} (ht : t.node = .kwIf)
      (hcolon : colon.node = .colon) (hcond : Expr.Derives .or cond e)
      (hbody : Derives .block bodyTokens body) (horelse : Derives .otherwise otherTokens orelse) :
      Derives .statement (t :: (cond ++ colon :: (bodyTokens ++ otherTokens)))
        [.branch (spanOf (t :: (cond ++ colon :: (bodyTokens ++ otherTokens)))) e body orelse]
  | loop {t cond colon bodyTokens e body} (ht : t.node = .kwWhile)
      (hcolon : colon.node = .colon) (hcond : Expr.Derives .or cond e)
      (hbody : Derives .block bodyTokens body) :
      Derives .statement (t :: (cond ++ colon :: bodyTokens))
        [.loop (spanOf (t :: (cond ++ colon :: bodyTokens))) e body]
  | one {ts ss} (h : Derives .statement ts ss) : Derives .statements ts ss
  | more {ts us ss rest} (h : Derives .statement ts ss) (hrest : Derives .statements us rest) :
      Derives .statements (ts ++ us) (ss ++ rest)
  | indented {newline indent dedent ts ss} (hnewline : newline.node = .newline)
      (hindent : indent.node = .indent) (hdedent : dedent.node = .dedent)
      (h : Derives .statements ts ss) :
      Derives .block (newline :: indent :: (ts ++ [dedent])) ss
  | sameLine {ts newline s} (hnewline : newline.node = .newline) (h : Simple ts s) :
      Derives .block (ts ++ [newline]) [s]
  | nothing : Derives .otherwise [] []
  | elif {t cond colon bodyTokens otherTokens e body orelse} (ht : t.node = .kwElif)
      (hcolon : colon.node = .colon) (hcond : Expr.Derives .or cond e)
      (hbody : Derives .block bodyTokens body) (horelse : Derives .otherwise otherTokens orelse) :
      Derives .otherwise (t :: (cond ++ colon :: (bodyTokens ++ otherTokens)))
        [.branch (spanOf (t :: (cond ++ colon :: (bodyTokens ++ otherTokens)))) e body orelse]
  | orElse {t colon ts ss} (ht : t.node = .kwElse) (hcolon : colon.node = .colon)
      (h : Derives .block ts ss) : Derives .otherwise (t :: colon :: ts) ss

/-! ## Functions and programs -/

/-- A named argument of a mark. -/
inductive Decorator.Argument : List (Spanned Token) → Spanned String × Expr → Prop
  | mk {key equals ts x e} (hkey : key.node = .ident x) (hequals : equals.node = .equals)
      (h : Expr.Derives .or ts e) : Argument (key :: equals :: ts) (⟨x, key.span⟩, e)

/-- A mark in front of a function, with its line break. -/
inductive Decorator.Derives : List (Spanned Token) → Decorator → Prop
  | plain {t name newline x} (ht : t.node = .at) (hname : name.node = .ident x)
      (hnewline : newline.node = .newline) :
      Derives [t, name, newline] ⟨⟨x, name.span⟩, [], spanOf [t, name]⟩
  | applied {t name opening closing newline x} {args : CommaList (Spanned String × Expr)}
      (ht : t.node = .at) (hname : name.node = .ident x) (hopening : opening.node = .lParen)
      (hclosing : closing.node = .rParen) (hnewline : newline.node = .newline)
      (hargs : ∀ p ∈ args.pieces, Argument p.tokens p.value) :
      Derives (t :: name :: opening :: (args.tokens ++ [closing]) ++ [newline])
        ⟨⟨x, name.span⟩, args.values, spanOf (t :: name :: opening :: (args.tokens ++ [closing]))⟩

/-- A parameter. -/
inductive Param.Derives : List (Spanned Token) → Param → Prop
  | plain {name x} (hname : name.node = .ident x) : Derives [name] ⟨⟨x, name.span⟩, none⟩
  | typed {name colon ts x ty} (hname : name.node = .ident x) (hcolon : colon.node = .colon)
      (h : TypeExpr.Derives ts ty) : Derives (name :: colon :: ts) ⟨⟨x, name.span⟩, some ty⟩

/-- The type of a result, if one is written. -/
inductive Function.Result : List (Spanned Token) → Option TypeExpr → Prop
  | none : Result [] none
  | some {arrow ts ty} (harrow : arrow.node = .arrow) (h : TypeExpr.Derives ts ty) :
      Result (arrow :: ts) (some ty)

/-- All tokens of a function. -/
def Function.tokens (decorators : List (Piece Decorator)) (word name opening : Spanned Token)
    (params : CommaList Param) (closing : Spanned Token) (result : List (Spanned Token))
    (colon : Spanned Token) (body : List (Spanned Token)) : List (Spanned Token) :=
  decorators.flatMap (·.tokens) ++ word :: name :: opening ::
    (params.tokens ++ closing :: (result ++ colon :: body))

/-- A function with its marks. -/
inductive Function.Derives : List (Spanned Token) → Function → Prop
  | mk {decorators : List (Piece Decorator)} {params : CommaList Param}
      {word name opening closing colon result bodyTokens f ty body} (hword : word.node = .kwDef)
      (hname : name.node = .ident f) (hopening : opening.node = .lParen)
      (hclosing : closing.node = .rParen) (hcolon : colon.node = .colon)
      (hdecorators : ∀ p ∈ decorators, Decorator.Derives p.tokens p.value)
      (hparams : ∀ p ∈ params.pieces, Param.Derives p.tokens p.value)
      (hresult : Result result ty) (hbody : Stmt.Derives .block bodyTokens body) :
      Derives (tokens decorators word name opening params closing result colon bodyTokens)
        ⟨decorators.map (·.value), ⟨f, name.span⟩, params.values, ty, body,
          spanOf (tokens decorators word name opening params closing result colon bodyTokens)⟩

/-- An item of a program. -/
inductive Item.Derives : List (Spanned Token) → Item → Prop
  | function {ts f} (h : Function.Derives ts f) : Derives ts (.function f)
  | stmt {ts s} (h : Stmt.Derives .statement ts [s]) : Derives ts (.stmt s)

/-- A program: items one after the other. -/
inductive Program.Derives : List (Spanned Token) → List Item → Prop
  | mk {items : List (Piece Item)} (h : ∀ p ∈ items, Item.Derives p.tokens p.value) :
      Derives (items.flatMap (·.tokens)) (items.map (·.value))

end Precond.Host
