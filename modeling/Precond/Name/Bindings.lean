/-!
# Bindings

A finite map from names to values, kept as a list of pairs in increasing order of the names. The
same map serves as a type environment and as a program store, so what a reader sees of either is
always listed by name. `insert` and `erase` are described by what `get?` gives afterwards; these
laws need no assumption on the order of the list.
-/

namespace Precond

/-- A finite map from names to values, listed by name. -/
structure Bindings (α : Type) where
  /-- The pairs, in increasing order of the names. -/
  entries : List (String × α)
  deriving DecidableEq, Repr

namespace Bindings

variable {α : Type}

/-- The map that binds nothing. -/
def empty : Bindings α := ⟨[]⟩

instance : Inhabited (Bindings α) := ⟨empty⟩

/-- The value of the first pair with the given name. -/
def find (x : String) : List (String × α) → Option α
  | [] => none
  | (y, v) :: rest => if x = y then some v else find x rest

/-- The pairs with `x` bound to `v`, at the place of `x` in the order of names. -/
def put (x : String) (v : α) : List (String × α) → List (String × α)
  | [] => [(x, v)]
  | (y, w) :: rest =>
    if x = y then (x, v) :: rest
    else if x < y then (x, v) :: (y, w) :: rest
    else (y, w) :: put x v rest

/-- The value bound to a name. -/
def get? (m : Bindings α) (x : String) : Option α := find x m.entries

/-- The map with `x` bound to `v`. -/
def insert (m : Bindings α) (x : String) (v : α) : Bindings α := ⟨put x v m.entries⟩

/-- The map without a binding of `x`. -/
def erase (m : Bindings α) (x : String) : Bindings α := ⟨m.entries.filter (·.1 ≠ x)⟩

/-- Whether a name is bound. -/
def contains (m : Bindings α) (x : String) : Bool := (m.get? x).isSome

/-- The bound names in order. -/
def names (m : Bindings α) : List String := m.entries.map (·.1)

/-- The map made of the given pairs, later ones replacing earlier ones of the same name. -/
def ofList (pairs : List (String × α)) : Bindings α :=
  pairs.foldl (fun m p => m.insert p.1 p.2) empty

@[simp] theorem get?_empty (x : String) : (empty : Bindings α).get? x = none := rfl

theorem find_put (x y : String) (v : α) (entries : List (String × α)) :
    find y (put x v entries) = if y = x then some v else find y entries := by
  induction entries with
  | nil => simp [put, find]
  | cons p rest ih =>
    obtain ⟨z, w⟩ := p
    unfold put
    split
    · next h => subst h; by_cases hy : y = x <;> simp [find, hy]
    · split
      · by_cases hy : y = x <;> simp [find, hy]
      · next hxz _ =>
        by_cases hyz : y = z
        · subst hyz; simp [find, Ne.symm hxz]
        · simp [find, hyz, ih]

@[simp] theorem get?_insert (m : Bindings α) (x y : String) (v : α) :
    (m.insert x v).get? y = if y = x then some v else m.get? y :=
  find_put x y v m.entries

@[simp] theorem get?_erase (m : Bindings α) (x y : String) :
    (m.erase x).get? y = if y = x then none else m.get? y := by
  obtain ⟨entries⟩ := m
  simp only [erase, get?]
  induction entries with
  | nil => simp [find]
  | cons p rest ih =>
    obtain ⟨z, w⟩ := p
    by_cases hz : z = x
    · subst hz
      by_cases hy : y = z
      · simpa [hy] using ih
      · simpa [find, hy] using ih
    · by_cases hy : y = z
      · subst hy; simp [find, hz]
      · simpa [find, hz, hy] using ih

end Bindings

end Precond
