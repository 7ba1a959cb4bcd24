import Precond.Host.Grammar

/-!
# Modules

A module groups the functions of a program that are to be verified into scopes. A function is
verified if it is marked `@verify`; the mark carries its contract as texts. A statement
`scope("name")` opens a scope, and the functions before the first one belong to a default scope,
which is left out if it is empty and there is another one.

The contract counts only as the last mark gives it.
-/

namespace Precond.Host

/-- A function to be verified. -/
structure Subject where
  /-- Its name. -/
  name : String
  /-- Its parameters with the types that are written. -/
  params : List (String × Option Ty)
  /-- The type of its result, if one is written. -/
  result : Option Grammar.TypeExpr
  /-- The texts of what it may assume. -/
  requires : List (Spanned String)
  /-- The texts of what it has to establish. -/
  ensures : List (Spanned String)
  /-- Its statements. -/
  body : List Stmt
  /-- Where it stands. -/
  span : Span
  deriving Repr

/-- Functions that are verified together. -/
structure Scope where
  /-- Its name. -/
  name : String
  /-- Its functions in the order of the text. -/
  subjects : List Subject := []
  deriving Repr

/-- The scopes of a program in the order of the text. -/
structure Module where
  /-- The scopes. -/
  scopes : List Scope
  /-- No two scopes have the same name. -/
  distinct : (scopes.map (·.name)).Nodup
  deriving Repr

/-- The scope of a name. -/
def Module.scope? (m : Module) (name : String) : Option Scope :=
  m.scopes.find? (·.name = name)

/-- The number of functions of a module. -/
def Module.size (m : Module) : Nat := m.scopes.foldr (fun s n => s.subjects.length + n) 0

/-- The name that a statement opens a scope with. -/
def Stmt.scopeName : Stmt → Except Error String
  | .expr span (.call place function args) =>
    if function.node = "scope" then
      match args with
      | [.str _ name] => .ok name
      | _ => .error (.parse .scopeArgument (some place))
    else .error (.unsupported .topLevelStatement (some span))
  | s => .error (.unsupported .topLevelStatement (some s.span))

/-- One text of a contract, with the range between its quotes. -/
def Expr.contractText : Expr → Except Error (Spanned String)
  | .str span text => .ok ⟨text, ⟨span.start + 1, span.stop - 1⟩⟩
  | e => .error (.parse .contractEntry (some e.span))

/-- The texts of a contract. -/
def Expr.contractTexts : Expr → Except Error (List (Spanned String))
  | .list _ items => items.mapM contractText
  | e => .error (.parse .contractNotList (some e.span))

/-- A contract as texts: what may be assumed and what has to be established. -/
structure ContractText where
  /-- What may be assumed. -/
  requires : List (Spanned String) := []
  /-- What has to be established. -/
  ensures : List (Spanned String) := []
  deriving Repr

/-- The contract with the texts of one more argument of a mark. -/
def ContractText.add (contract : ContractText) (argument : Spanned String × Expr) :
    Except Error ContractText := do
  match argument.1.node with
  | "requires" =>
    return { contract with requires := contract.requires ++ (← argument.2.contractTexts) }
  | "ensures" =>
    return { contract with ensures := contract.ensures ++ (← argument.2.contractTexts) }
  | other => .error (.unsupported (.verifyArgument other) (some argument.1.span))

/-- The contract that a mark carries. -/
def Decorator.contract (d : Decorator) : Except Error ContractText :=
  d.arguments.foldlM ContractText.add {}

/-- The last mark for verification, if there is one. No other mark is known. -/
def verifyMark? (found : Option Decorator) : List Decorator → Except Error (Option Decorator)
  | [] => .ok found
  | d :: ds =>
    if d.name.node = "verify" then verifyMark? (some d) ds
    else .error (.unsupported (.decorator d.name.node) (some d.span))

/-- A parameter with its type. -/
def Param.resolve (p : Param) : Except Error (String × Option Ty) := do
  return (p.name.node, ← p.type.mapM Grammar.TypeExpr.resolve)

/-- What is verified of a function, if it is marked. -/
def Function.subject? (f : Function) : Except Error (Option Subject) := do
  match ← verifyMark? none f.decorators with
  | none => return none
  | some mark =>
    let contract ← mark.contract
    let params ← f.params.mapM Param.resolve
    return some ⟨f.name.node, params, f.result, contract.requires, contract.ensures, f.body, f.span⟩

/-- Puts the items of a program into scopes. `earlier` are the scopes already closed, the last one
first, and `current` is the open one. -/
def groupItems (earlier : List Scope) (current : Scope) : List Item → Except Error (List Scope)
  | [] => .ok (earlier.reverse ++ [current])
  | .function f :: items => do
    match ← f.subject? with
    | none => groupItems earlier current items
    | some subject =>
      groupItems earlier { current with subjects := current.subjects ++ [subject] } items
  | .stmt s :: items => do
    let name ← s.scopeName
    if (current :: earlier).any (·.name = name) then
      .error (.parse (.duplicateScope name) (some s.span))
    else groupItems (current :: earlier) { name } items

/-- A scope is opened only under a new name. -/
theorem nodup_groupItems {earlier : List Scope} {current : Scope} {items : List Item}
    {scopes : List Scope} (h : groupItems earlier current items = .ok scopes)
    (hdistinct : ((current :: earlier).map (·.name)).Nodup) : (scopes.map (·.name)).Nodup := by
  induction items generalizing earlier current with
  | nil =>
    cases h
    rw [← List.reverse_cons, List.map_reverse]
    exact List.pairwise_reverse.2 (hdistinct.imp Ne.symm)
  | cons item items ih =>
    cases item with
    | function f =>
      simp only [groupItems, bind, Except.bind] at h
      split at h
      · cases h
      · split at h
        · exact ih h hdistinct
        · exact ih h hdistinct
    | stmt s =>
      simp only [groupItems, bind, Except.bind] at h
      split at h
      · cases h
      · split at h
        · cases h
        · next name _ hnew =>
          refine ih h (List.nodup_cons.2 ⟨fun hmem => hnew ?_, hdistinct⟩)
          obtain ⟨known, hknown, heq⟩ := List.mem_map.1 hmem
          exact List.any_eq_true.2 ⟨known, hknown, by simpa using heq⟩

/-- The scopes without the first one, if it is empty and there is another one. -/
def dropIdleScope : List Scope → List Scope
  | first :: second :: rest =>
    if first.subjects.isEmpty then second :: rest else first :: second :: rest
  | scopes => scopes

theorem dropIdleScope_sublist (scopes : List Scope) : (dropIdleScope scopes).Sublist scopes := by
  unfold dropIdleScope
  split
  · split
    · exact List.sublist_cons_self _ _
    · exact List.Sublist.refl _
  · exact List.Sublist.refl _

/-- Groups the functions of a program that are to be verified. -/
def Module.ofItems (defaultScope : String) (items : List Item) : Except Error Module :=
  match h : groupItems [] { name := defaultScope } items with
  | .ok scopes =>
    .ok ⟨dropIdleScope scopes, ((dropIdleScope_sublist scopes).map _).nodup
      (nodup_groupItems h (List.nodup_cons.2 ⟨List.not_mem_nil, List.nodup_nil⟩))⟩
  | .error e => .error e

/-- Reads a program text and groups the functions to be verified. -/
def Module.load (source defaultScope : String) : Except Error Module := do
  Module.ofItems defaultScope (← parseItems source)

end Precond.Host
