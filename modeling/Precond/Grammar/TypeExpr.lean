import Precond.Grammar.Cursor

/-!
# Written types

A type as it stands in a text: a name, possibly with arguments in brackets. `TypeExpr.resolve` finds
the type that it names, the arguments first.
-/

namespace Precond.Grammar

/-- A type as it is written. -/
inductive TypeExpr where
  /-- A name with its arguments. -/
  | mk (name : String) (args : List TypeExpr) (span : Span)
  deriving Repr

namespace TypeExpr

/-- Where the type is written. -/
def span : TypeExpr → Span
  | mk _ _ span => span

mutual

/-- The type as it is written, with a comma and a space between arguments. -/
def render : TypeExpr → String
  | mk name args _ =>
    if args.isEmpty then name else name ++ "[" ++ ", ".intercalate (renderAll args) ++ "]"

/-- The types of a list as they are written. -/
def renderAll : List TypeExpr → List String
  | [] => []
  | t :: ts => render t :: renderAll ts

end

mutual

/-- The type that is meant. -/
def resolve : TypeExpr → Except Error Ty
  | mk name args span => do
    let types ← resolveAll args
    match Ty.named? name types with
    | some ty => return ty
    | none => .error (.type (.unknownType (mk name args span).render) (some span))

/-- The types that are meant by the members of a list. -/
def resolveAll : List TypeExpr → Except Error (List Ty)
  | [] => .ok []
  | t :: ts => do
    let ty ← resolve t
    let tys ← resolveAll ts
    return ty :: tys

end

/-- Reads a type in which brackets are nested less than `depth` deep. -/
def parseWithin : (depth : Nat) → Parser TypeExpr
  | 0 => Parser.unexpected
  | depth + 1 => do
    let name ← Parser.name
    let args ← if ← Parser.accept .lBracket then
        Parser.commaList (parseWithin depth) .rBracket
      else pure []
    return mk name.node args (← Parser.spanFrom name.span.start)

/-- Reads a type. -/
def parse : Parser TypeExpr := do parseWithin ((← Parser.remaining) + 1)

end TypeExpr

end Precond.Grammar
