/-!
# Types

The types of expressions and variables. `Ty.unknown` stands for a part that inference has not
settled yet. Two types are `compatible` when they agree wherever both are settled, and `refine`
takes from each the parts that the other leaves open.
-/

namespace Precond

/-- A type of the assertion language. -/
inductive Ty where
  /-- Mathematical integers. -/
  | int
  /-- Truth values. -/
  | bool
  /-- Lists of elements of one type. -/
  | array (elem : Ty)
  /-- Slices, as they stand in a subscript. -/
  | slice
  /-- Functions; only built-in ones have such a type. -/
  | arrow (domain codomain : Ty)
  /-- Lists of arguments. -/
  | prod (parts : List Ty)
  /-- Not settled yet. -/
  | unknown
  deriving Repr, Inhabited

namespace Ty

mutual

/-- Whether two types are the same. -/
def same : Ty → Ty → Bool
  | .int, .int => true
  | .bool, .bool => true
  | .array a, .array b => same a b
  | .slice, .slice => true
  | .arrow a b, .arrow c d => same a c && same b d
  | .prod as, .prod bs => sameAll as bs
  | .unknown, .unknown => true
  | _, _ => false

/-- Whether two lists of types are the same. -/
def sameAll : List Ty → List Ty → Bool
  | [], [] => true
  | a :: as, b :: bs => same a b && sameAll as bs
  | _, _ => false

end

mutual

theorem eq_of_same {a b : Ty} (h : same a b = true) : a = b := by
  match a, b with
  | .int, .int | .bool, .bool | .slice, .slice | .unknown, .unknown => rfl
  | .array a, .array b =>
    have h' : same a b = true := by simpa [same] using h
    rw [eq_of_same h']
  | .arrow a b, .arrow c d =>
    have h' : same a c = true ∧ same b d = true := by simpa [same] using h
    rw [eq_of_same h'.1, eq_of_same h'.2]
  | .prod as, .prod bs =>
    have h' : sameAll as bs = true := by simpa [same] using h
    rw [eq_of_sameAll h']

theorem eq_of_sameAll {as bs : List Ty} (h : sameAll as bs = true) : as = bs := by
  match as, bs with
  | [], [] => rfl
  | a :: as, b :: bs =>
    have h' : same a b = true ∧ sameAll as bs = true := by simpa [sameAll] using h
    rw [eq_of_same h'.1, eq_of_sameAll h'.2]

end

mutual

theorem same_refl (a : Ty) : same a a = true := by
  match a with
  | .int | .bool | .slice | .unknown => simp [same]
  | .array a => simpa [same] using same_refl a
  | .arrow a b => simp [same, same_refl a, same_refl b]
  | .prod as => simpa [same] using sameAll_refl as

theorem sameAll_refl (as : List Ty) : sameAll as as = true := by
  match as with
  | [] => simp [sameAll]
  | a :: as => simp [sameAll, same_refl a, sameAll_refl as]

end

theorem same_iff {a b : Ty} : same a b = true ↔ a = b :=
  ⟨eq_of_same, fun h => h ▸ same_refl a⟩

instance : DecidableEq Ty := fun _ _ => decidable_of_iff _ same_iff

mutual

/-- Whether every part of a type is settled. -/
def isConcrete : Ty → Bool
  | .int | .bool | .slice => true
  | .unknown => false
  | .array elem => isConcrete elem
  | .arrow a b => isConcrete a && isConcrete b
  | .prod parts => allConcrete parts

/-- Whether every part of every type of a list is settled. -/
def allConcrete : List Ty → Bool
  | [] => true
  | a :: as => isConcrete a && allConcrete as

end

mutual

/-- Whether two types agree wherever both are settled. -/
def compatible : Ty → Ty → Bool
  | .unknown, _ => true
  | .int, b =>
    match b with
    | .unknown | .int => true
    | _ => false
  | .bool, b =>
    match b with
    | .unknown | .bool => true
    | _ => false
  | .slice, b =>
    match b with
    | .unknown | .slice => true
    | _ => false
  | .array a, b =>
    match b with
    | .unknown => true
    | .array b => compatible a b
    | _ => false
  | .arrow a b, c =>
    match c with
    | .unknown => true
    | .arrow c d => compatible a c && compatible b d
    | _ => false
  | .prod as, b =>
    match b with
    | .unknown => true
    | .prod bs => compatibleAll as bs
    | _ => false

/-- Whether two lists of types agree in length and, place by place, wherever both are settled. -/
def compatibleAll : List Ty → List Ty → Bool
  | [], bs => bs.isEmpty
  | a :: as, bs =>
    match bs with
    | [] => false
    | b :: bs => compatible a b && compatibleAll as bs

end

mutual

/-- The first type, with its open parts taken from the second one. -/
def refine : Ty → Ty → Ty
  | .unknown, b => b
  | .int, _ => .int
  | .bool, _ => .bool
  | .slice, _ => .slice
  | .array a, b =>
    match b with
    | .array b => .array (refine a b)
    | _ => .array a
  | .arrow a b, c =>
    match c with
    | .arrow c d => .arrow (refine a c) (refine b d)
    | _ => .arrow a b
  | .prod as, b =>
    match b with
    | .prod bs => if as.length = bs.length then .prod (refineAll as bs) else .prod as
    | _ => .prod as

/-- The types of the first list, each with its open parts taken from the second list. -/
def refineAll : List Ty → List Ty → List Ty
  | [], _ => []
  | a :: as, bs =>
    match bs with
    | [] => a :: as
    | b :: bs => refine a b :: refineAll as bs

end

mutual

/-- The way a type is written. -/
def render : Ty → String
  | .int => "int"
  | .bool => "bool"
  | .array elem => s!"List[{render elem}]"
  | .slice => "slice"
  | .arrow a b => s!"{render a} -> {render b}"
  | .prod parts => "(" ++ ", ".intercalate (renderAll parts) ++ ")"
  | .unknown => "?"

/-- The way the types of a list are written. -/
def renderAll : List Ty → List String
  | [] => []
  | a :: as => render a :: renderAll as

end

/-- The type that an annotation names. -/
def named? (name : String) (args : List Ty) : Option Ty :=
  match name, args with
  | "int", [] => some .int
  | "bool", [] => some .bool
  | "List", [elem] | "list", [elem] => some (.array elem)
  | "List", [] | "list", [] => some (.array .unknown)
  | _, _ => none

end Ty

end Precond
