import Mathlib.Tactic
import Precond.Proofs.FunctionElaboration

/-!
# Typed programs do not go wrong

A run looks at the kinds of values as it goes and stops at a value of the wrong kind. Where the type
checker has accepted an expression, this cannot happen: the run finds a value of the type that was
found, or it stops for a reason that types say nothing about (`Exec.Sound`). Those are a variable
without a value, a division by zero, a number that does not fit, a place outside a list, and
something that cannot be run.

`Expr.WellTyped.sound` shows it by induction on the typing, where `Exec.Sound.bind` puts an
evaluation together from those of its parts. For statements the conditions have to be typed as well
as the values (`Stmt.WellTyped`), which is what the checker has found out if it comes back with the
types it started from (`Stmt.wellTyped_of_check`). One turn of a loop keeps the store typed, so all
turns do (`Exec.iterate_safe`).
-/

namespace Precond

open Exec (Value Store Failure)
open Checking

/-! ## Operators with their operands -/

mutual

/-- Whether every operator in an expression has as many operands as it takes. -/
def Expr.properOps : Expr → Bool
  | .var _ | .lit _ => true
  | .binary op l r => !op.isUnary && properOps l && properOps r
  | .unary op e => op.isUnary && properOps e
  | .subscript l r | .sliceFrom l r => properOps l && properOps r
  | .slice l u s => properOps l && properOps u && properOps s
  | .call _ args => properOpsAll args
  | .forAll _ _ body => properOps body

/-- Whether every operator in a list of expressions has as many operands as it takes. -/
def Expr.properOpsAll : List Expr → Bool
  | [] => true
  | e :: es => properOps e && properOpsAll es

end

/-- Whether every operator in a statement has as many operands as it takes. -/
def Stmt.properOps : Stmt → Bool
  | .skip | .havoc _ => true
  | .assign _ e | .assume e | .assert e => e.properOps
  | .seq s t => properOps s && properOps t
  | .branch c s t => c.properOps && properOps s && properOps t
  | .loop invariants c s => Expr.properOpsAll invariants && c.properOps && properOps s

/-! ## Evaluations that stop only where they may -/

namespace Exec

/-- Failures that types do not exclude. The variables that an expression may lack are those of the
list that have no value in the store. -/
inductive Failure.Excused (σ : Store) (names : List String) : Failure → Prop
  | undefined {x} (hx : x ∈ names) (hσ : σ.get? x = none) : Excused σ names (.undefinedVariable x)
  | divisionByZero : Excused σ names .divisionByZero
  | overflow {op} : Excused σ names (.overflow op)
  | outOfBounds {i n} : Excused σ names (.indexOutOfBounds i n)
  | notExecutable {what} : Excused σ names (.notExecutable what)

/-- The result is a good value or a failure that types do not exclude. -/
inductive Sound {α : Type} (σ : Store) (names : List String) (good : α → Prop) :
    Except Failure α → Prop
  | value {a} (h : good a) : Sound σ names good (.ok a)
  | failure {f} (h : Failure.Excused σ names f) : Sound σ names good (.error f)

variable {α β : Type} {σ : Store} {names names' : List String}

theorem Failure.Excused.mono {f : Failure} (h : f.Excused σ names)
    (hnames : ∀ x ∈ names, x ∈ names') : f.Excused σ names' := by
  cases h with
  | undefined hx hσ => exact .undefined (hnames _ hx) hσ
  | divisionByZero => exact .divisionByZero
  | overflow => exact .overflow
  | outOfBounds => exact .outOfBounds
  | notExecutable => exact .notExecutable

namespace Sound

variable {good : α → Prop} {good' : β → Prop} {r : Except Failure α} {f : α → Except Failure β}

/-- Two evaluations in a row stop only where they may if both do. -/
theorem bind (h : Sound σ names good r) (hf : ∀ a, good a → Sound σ names good' (f a)) :
    Sound σ names good' (r >>= f) := by
  cases h with
  | value h => exact hf _ h
  | failure h => exact .failure h

theorem mono (h : Sound σ names good r) (hnames : ∀ x ∈ names, x ∈ names') :
    Sound σ names' good r := by
  cases h with
  | value h => exact .value h
  | failure h => exact .failure (h.mono hnames)

/-- What is known of the values that a computation comes to may be added. -/
theorem of_ok {better : α → Prop} (h : Sound σ names good r) (hok : ∀ a, r = .ok a → better a) :
    Sound σ names better r := by
  cases h with
  | value => exact .value (hok _ rfl)
  | failure h => exact .failure h

end Sound

/-! ### Values of the right kind -/

/-- Values of the type of numbers are numbers. -/
theorem admits_int {v : Value} : Ty.int.admits v = true ↔ ∃ n, v = .int n := by
  cases v <;> simp [Ty.admits]

theorem admits_bool {v : Value} : Ty.bool.admits v = true ↔ ∃ b, v = .bool b := by
  cases v <;> simp [Ty.admits]

/-- Values of a type of lists are lists. -/
theorem admits_array {elem : Ty} {v : Value} (h : (Ty.array elem).admits v = true) :
    ∃ items, v = .list items := by
  cases v <;> simp [Ty.admits] at h ⊢

/-! ### Operations -/

theorem sound_checked (op : String) (n : Int) :
    Sound σ names (fun _ => True) (checked op n) := by
  unfold checked
  split_ifs
  · exact .value trivial
  · exact .failure .overflow

theorem sound_floorDiv (a b : Int) : Sound σ names (fun _ => True) (floorDiv a b) := by
  by_cases hb : b = 0
  · rw [hb]
    exact .failure .divisionByZero
  · rw [floorDiv, if_neg hb]
    exact (sound_checked _ _).bind fun _ _ => .value trivial

theorem sound_floorMod (a b : Int) : Sound σ names (fun _ => True) (floorMod a b) := by
  by_cases hb : b = 0
  · rw [hb]
    exact .failure .divisionByZero
  · rw [floorMod, if_neg hb]
    exact (sound_checked _ _).bind fun _ _ => .value trivial

/-- A position is in range, or there is a failure that types do not exclude. -/
theorem sound_position (i : Int) (n : Nat) : Sound σ names (· < n) (position i n) := by
  unfold position
  split_ifs with h
  · exact .value (by omega)
  · exact .failure .outOfBounds

theorem sound_slice (items : List Value) (lower : Int) (upper : Option Int) (step : Int) :
    Sound σ names (fun _ => True) (slice items lower upper step) := by
  unfold slice
  split_ifs
  · exact .failure .notExecutable
  · exact .value trivial

/-- A binary operator on operands of its type. -/
theorem sound_applyBinary {op : Op} {a b : Value} (hop : op.isUnary = false)
    (hstrict : op.isStrict = true) (ha : op.types.1.admits a = true)
    (hb : op.types.1.admits b = true) :
    Sound σ names (fun _ => True) (applyBinary op a b) := by
  cases op with
  | neg | not => cases hop
  | and | or | implies => cases hstrict
  | iff =>
    obtain ⟨p, rfl⟩ := admits_bool.1 ha
    obtain ⟨q, rfl⟩ := admits_bool.1 hb
    exact .value trivial
  | add | sub | mul =>
    obtain ⟨m, rfl⟩ := admits_int.1 ha
    obtain ⟨n, rfl⟩ := admits_int.1 hb
    exact (sound_checked _ _).bind fun _ _ => .value trivial
  | div =>
    obtain ⟨m, rfl⟩ := admits_int.1 ha
    obtain ⟨n, rfl⟩ := admits_int.1 hb
    exact (sound_floorDiv m n).bind fun _ _ => .value trivial
  | mod =>
    obtain ⟨m, rfl⟩ := admits_int.1 ha
    obtain ⟨n, rfl⟩ := admits_int.1 hb
    exact (sound_floorMod m n).bind fun _ _ => .value trivial
  | eq | ne | lt | le | gt | ge =>
    obtain ⟨m, rfl⟩ := admits_int.1 ha
    obtain ⟨n, rfl⟩ := admits_int.1 hb
    exact .value trivial

/-- A unary operator on an operand of its type. -/
theorem sound_applyUnary {op : Op} {a : Value} (hop : op.isUnary = true)
    (ha : op.types.1.admits a = true) : Sound σ names (fun _ => True) (applyUnary op a) := by
  cases op with
  | not =>
    obtain ⟨p, rfl⟩ := admits_bool.1 ha
    exact .value trivial
  | neg =>
    obtain ⟨n, rfl⟩ := admits_int.1 ha
    exact (sound_checked _ _).bind fun _ _ => .value trivial
  | _ => cases hop

/-! ### Parts of expressions -/

/-- The number that an expression comes to. -/
theorem Sound.asInt {e : Expr} (h : Sound σ names (Ty.int.admits · = true) (eval σ e)) :
    Sound σ names (fun _ => True) (eval σ e >>= Value.asInt) :=
  h.bind fun v hv => by
    obtain ⟨n, rfl⟩ := admits_int.1 hv
    exact .value trivial

/-- The truth value that an expression comes to. -/
theorem Sound.asBool {e : Expr} (h : Sound σ names (Ty.bool.admits · = true) (eval σ e)) :
    Sound σ names (fun _ => True) (eval σ e >>= Value.asBool) :=
  h.bind fun v hv => by
    obtain ⟨b, rfl⟩ := admits_bool.1 hv
    exact .value trivial

/-- The list that an expression comes to. -/
theorem Sound.asList {e : Expr} {elem : Ty}
    (h : Sound σ names ((Ty.array elem).admits · = true) (eval σ e)) :
    Sound σ names (fun _ => True) (eval σ e >>= Value.asList) :=
  h.bind fun v hv => by
    obtain ⟨items, rfl⟩ := admits_array hv
    exact .value trivial

/-- A connective needs its right operand only if the left one does not settle the answer. -/
theorem sound_connective {op : Op} {l r : Expr} (hstrict : op.isStrict = false)
    (hl : Sound σ names (op.types.1.admits · = true) (eval σ l))
    (hr : Sound σ names (op.types.1.admits · = true) (eval σ r)) :
    Sound σ names (fun _ => True) (eval σ (.binary op l r)) := by
  have hright (hr : Sound σ names (Ty.bool.admits · = true) (eval σ r)) :
      Sound σ names (fun _ => True) (do return Value.bool (← (← eval σ r).asBool)) := by
    rw [← bind_assoc]
    exact hr.asBool.bind fun _ _ => .value trivial
  cases op with
  | and | implies =>
    rw [eval, ← bind_assoc]
    refine (Sound.asBool hl).bind fun p _ => ?_
    split_ifs
    · exact hright hr
    · exact .value trivial
  | or =>
    rw [eval, ← bind_assoc]
    refine (Sound.asBool hl).bind fun p _ => ?_
    split_ifs
    · exact .value trivial
    · exact hright hr
  | _ => cases hstrict

/-- An element of a list, at a number. -/
theorem sound_element {base index : Expr} {elem : Ty} (hindex : index.isSlice = false)
    (hb : Sound σ names ((Ty.array elem).admits · = true) (eval σ base))
    (hi : Sound σ names (Ty.int.admits · = true) (eval σ index)) :
    Sound σ names (fun _ => True) (eval σ (.subscript base index)) := by
  rw [eval_subscript hindex, ← bind_assoc]
  refine hb.asList.bind fun items _ => ?_
  rw [← bind_assoc]
  refine hi.asInt.bind fun i _ => (sound_position i _).bind fun place hplace => ?_
  rw [List.getElem?_eq_getElem hplace]
  exact .value trivial

/-- A store into a list, at a number. -/
theorem sound_store {list index item : Expr} {elem : Ty} {good : Value → Prop}
    (hl : Sound σ names ((Ty.array elem).admits · = true) (eval σ list))
    (hi : Sound σ names (Ty.int.admits · = true) (eval σ index))
    (hv : Sound σ names good (eval σ item)) :
    Sound σ names (fun _ => True) (eval σ (.call "store" [list, index, item])) := by
  simp only [eval, evalAll, bind_assoc, pure_bind]
  refine hl.bind fun l hl => hi.bind fun i hi => hv.bind fun v _ => ?_
  obtain ⟨items, rfl⟩ := admits_array hl
  obtain ⟨n, rfl⟩ := admits_int.1 hi
  exact (sound_position n _).bind fun _ _ => .value trivial

theorem sound_len {list : Expr} {elem : Ty}
    (hl : Sound σ names ((Ty.array elem).admits · = true) (eval σ list)) :
    Sound σ names (fun _ => True) (eval σ (.call "len" [list])) := by
  simp only [eval, evalAll, bind_assoc, pure_bind]
  refine hl.bind fun l hl => ?_
  obtain ⟨items, rfl⟩ := admits_array hl
  exact .value trivial

/-- A part of a list, between numbers. -/
theorem sound_part {base l u s : Expr} {elem : Ty}
    (hb : Sound σ names ((Ty.array elem).admits · = true) (eval σ base))
    (hl : Sound σ names (Ty.int.admits · = true) (eval σ l))
    (hu : Sound σ names (Ty.int.admits · = true) (eval σ u))
    (hs : Sound σ names (Ty.int.admits · = true) (eval σ s)) :
    Sound σ names (fun _ => True) (eval σ (.subscript base (.slice l u s))) := by
  simp only [eval_slice, ← bind_assoc (eval σ _)]
  exact hb.asList.bind fun items _ => hl.asInt.bind fun lower _ => hu.asInt.bind fun upper _ =>
    hs.asInt.bind fun step _ => sound_slice items lower (some upper) step

theorem sound_partFrom {base l s : Expr} {elem : Ty}
    (hb : Sound σ names ((Ty.array elem).admits · = true) (eval σ base))
    (hl : Sound σ names (Ty.int.admits · = true) (eval σ l))
    (hs : Sound σ names (Ty.int.admits · = true) (eval σ s)) :
    Sound σ names (fun _ => True) (eval σ (.subscript base (.sliceFrom l s))) := by
  simp only [eval_sliceFrom, ← bind_assoc (eval σ _)]
  exact hb.asList.bind fun items _ => hl.asInt.bind fun lower _ =>
    hs.asInt.bind fun step _ => sound_slice items lower none step

end Exec

/-! ## Expressions -/

namespace Expr

/-- The bounds of a slice. -/
def bounds : Expr → List Expr
  | .slice l u s => [l, u, s]
  | .sliceFrom l s => [l, s]
  | _ => []

section Sound

open Exec

variable {G : TypeEnv} {σ : Store} {e : Expr} {ty : Ty}

/-- The value of an evaluation that stops only where it may is of the type of the expression. -/
theorem HasType.sound_value (hσ : σ.Respects G) (h : e.HasType G ty) {names : List String}
    (hs : Sound σ e.freeVars (fun _ => True) (eval σ e)) (hnames : ∀ x ∈ e.freeVars, x ∈ names) :
    Sound σ names (ty.admits · = true) (eval σ e) :=
  (hs.of_ok fun _ => h.admits hσ).mono hnames

/-- The evaluation of a typed expression stops only where it may, and so do those of its bounds,
which a run needs where the expression is an index. -/
theorem HasType.sound_with_bounds (hσ : σ.Respects G) (h : e.HasType G ty)
    (he : e.properOps = true) :
    Sound σ e.freeVars (fun _ => True) (eval σ e) ∧
      ∀ b ∈ e.bounds, Sound σ e.freeVars (Ty.int.admits · = true) (eval σ b) := by
  induction h with
  | @var x _ _ _ =>
    refine ⟨?_, by simp [bounds]⟩
    rw [eval]
    split
    · exact .value trivial
    · next hx => exact .failure (.undefined (by simp [freeVars]) hx)
  | int | bool => exact ⟨.value trivial, by simp [bounds]⟩
  | @binary op l r hl hr ihl ihr =>
    simp only [properOps, Bool.and_eq_true, Bool.not_eq_true'] at he
    obtain ⟨⟨hop, hpl⟩, hpr⟩ := he
    have hl := hl.sound_value hσ (ihl hpl).1 fun x hx => List.mem_append_left r.freeVars hx
    have hr := hr.sound_value hσ (ihr hpr).1 fun x hx => List.mem_append_right l.freeVars hx
    refine ⟨?_, by simp [bounds]⟩
    cases hstrict : op.isStrict with
    | false => exact sound_connective hstrict hl hr
    | true =>
      rw [eval_binary hstrict]
      exact hl.bind fun a ha => hr.bind fun b hb => sound_applyBinary hop hstrict ha hb
  | @unary op e he' ih =>
    simp only [properOps, Bool.and_eq_true] at he
    have he' := he'.sound_value hσ (ih he.2).1 fun x hx => hx
    refine ⟨?_, by simp [bounds]⟩
    rw [eval, if_pos he.1]
    exact he'.bind fun v hv => sound_applyUnary he.1 hv
  | @element base index _ hindex hb hi ihb ihi =>
    simp only [properOps, Bool.and_eq_true] at he
    have hb := hb.sound_value hσ (ihb he.1).1 fun x hx => List.mem_append_left index.freeVars hx
    have hi := hi.sound_value hσ (ihi he.2).1 fun x hx => List.mem_append_right base.freeVars hx
    exact ⟨sound_element hindex hb hi, by simp [bounds]⟩
  | @part base index _ hindex hb _ ihb ihi =>
    simp only [properOps, Bool.and_eq_true] at he
    have hb := hb.sound_value hσ (ihb he.1).1 fun x hx => List.mem_append_left index.freeVars hx
    have hbound := fun b hb => ((ihi he.2).2 b hb).mono fun x hx =>
      List.mem_append_right base.freeVars hx
    refine ⟨?_, by simp [bounds]⟩
    cases index with
    | slice l u s =>
      exact sound_part hb (hbound l (by simp [bounds])) (hbound u (by simp [bounds]))
        (hbound s (by simp [bounds]))
    | sliceFrom l s =>
      exact sound_partFrom hb (hbound l (by simp [bounds])) (hbound s (by simp [bounds]))
    | _ => cases hindex
  | @slice l u s hl hu hs ihl ihu ihs =>
    simp only [properOps, Bool.and_eq_true] at he
    refine ⟨.failure .notExecutable, ?_⟩
    simp only [bounds, List.forall_mem_cons, List.not_mem_nil, false_implies, implies_true,
      and_true]
    exact ⟨hl.sound_value hσ (ihl he.1.1).1 fun x hx => by simp [freeVars, hx],
      hu.sound_value hσ (ihu he.1.2).1 fun x hx => by simp [freeVars, hx],
      hs.sound_value hσ (ihs he.2).1 fun x hx => by simp [freeVars, hx]⟩
  | @sliceFrom l s hl hs ihl ihs =>
    simp only [properOps, Bool.and_eq_true] at he
    refine ⟨.failure .notExecutable, ?_⟩
    simp only [bounds, List.forall_mem_cons, List.not_mem_nil, false_implies, implies_true,
      and_true]
    exact ⟨hl.sound_value hσ (ihl he.1).1 fun x hx => by simp [freeVars, hx],
      hs.sound_value hσ (ihs he.2).1 fun x hx => by simp [freeVars, hx]⟩
  | @len f list _ hf hl ih =>
    subst hf
    simp only [properOps, properOpsAll, Bool.and_true] at he
    have hl := hl.sound_value hσ (ih he).1 fun x hx => List.mem_append_left [] hx
    exact ⟨sound_len hl, by simp [bounds]⟩
  | @store f list i v _ hf hl hi hv ihl ihi ihv =>
    subst hf
    simp only [properOps, properOpsAll, Bool.and_true, Bool.and_eq_true] at he
    have hl := hl.sound_value hσ (ihl he.1).1 fun x hx =>
      show x ∈ (Expr.call "store" [list, i, v]).freeVars by simp [freeVars, freeVarsAll, hx]
    have hi := hi.sound_value hσ (ihi he.2.1).1 fun x hx =>
      show x ∈ (Expr.call "store" [list, i, v]).freeVars by simp [freeVars, freeVarsAll, hx]
    have hv := hv.sound_value hσ (ihv he.2.2).1 fun x hx =>
      show x ∈ (Expr.call "store" [list, i, v]).freeVars by simp [freeVars, freeVarsAll, hx]
    exact ⟨sound_store hl hi hv, by simp [bounds]⟩
  | forAll => exact ⟨.failure .notExecutable, by simp [bounds]⟩

end Sound

mutual

/-- The types of quantifiers do not count for operators. -/
@[simp] theorem properOps_untyped (e : Expr) : e.untyped.properOps = e.properOps := by
  match e with
  | .var _ | .lit _ => simp [untyped, properOps]
  | .binary _ l r => simp [untyped, properOps, properOps_untyped l, properOps_untyped r]
  | .unary _ e => simp [untyped, properOps, properOps_untyped e]
  | .subscript l r | .sliceFrom l r =>
    simp [untyped, properOps, properOps_untyped l, properOps_untyped r]
  | .slice l u s =>
    simp [untyped, properOps, properOps_untyped l, properOps_untyped u, properOps_untyped s]
  | .call _ args => simp [untyped, properOps, properOpsAll_untypedAll args]
  | .forAll _ _ body => simp [untyped, properOps, properOps_untyped body]

@[simp] theorem properOpsAll_untypedAll (es : List Expr) :
    properOpsAll (untypedAll es) = properOpsAll es := by
  match es with
  | [] => simp [untypedAll, properOpsAll]
  | e :: es => simp [untypedAll, properOpsAll, properOps_untyped e, properOpsAll_untypedAll es]

end

/-- The expression has the type, and its operators have their operands. -/
structure WellTyped (G : TypeEnv) (e : Expr) (ty : Ty) : Prop where
  hasType : e.HasType G ty
  properOps : e.properOps = true

namespace WellTyped

variable {G : TypeEnv} {e e' : Expr} {ty : Ty}

/-- An expression with other types of its quantifiers is well typed too. -/
theorem of_untyped (h : e.WellTyped G ty) (he : e'.untyped = e.untyped) : e'.WellTyped G ty :=
  ⟨h.hasType.of_untyped he, by rw [← properOps_untyped, he, properOps_untyped, h.properOps]⟩

/-- A well-typed expression comes to a value of its type, unless it fails in a way that types do not
exclude. -/
theorem sound {σ : Store} (hσ : σ.Respects G) (h : e.WellTyped G ty) :
    Exec.Sound σ e.freeVars (ty.admits · = true) (Exec.eval σ e) :=
  h.hasType.sound_value hσ (h.hasType.sound_with_bounds hσ h.properOps).1 fun _ hx => hx

end WellTyped

end Expr

/-! ## Statements -/

/-- All types of the environment are settled. -/
def TypeEnv.Concrete (G : TypeEnv) : Prop := ∀ x ty, G.get? x = some ty → ty.isConcrete = true

/-- The environment gives a type to every variable that the other one knows. -/
def TypeEnv.Covers (G env : TypeEnv) : Prop := ∀ x, env.contains x = true → G.contains x = true

theorem TypeEnv.Covers.of_grows {G mid env : TypeEnv} (h : G.Covers env) (hmid : Grows mid env) :
    G.Covers mid :=
  fun x hx => h x (hmid.contains x hx)

theorem TypeEnv.Concrete.settles {G : TypeEnv} (hG : G.Concrete) {xs : List String}
    (h : ∀ x ∈ xs, G.contains x = true) : G.Settles xs := by
  intro x hx
  obtain ⟨ty, hty⟩ := Option.isSome_iff_exists.1 (h x hx)
  exact ⟨ty, hty, hG x ty hty⟩

/-- The conditions of a statement are truth values, and the values that it assigns are of the types
of their variables. -/
def Stmt.WellTyped (G : TypeEnv) : Stmt → Prop
  | .skip | .havoc _ => True
  | .assign x e => ∃ ty, G.get? x = some ty ∧ e.WellTyped G ty
  | .assume e | .assert e => e.WellTyped G .bool
  | .seq s t => s.WellTyped G ∧ t.WellTyped G
  | .branch c s t => c.WellTyped G .bool ∧ s.WellTyped G ∧ t.WellTyped G
  | .loop es c s => (∀ e ∈ es, e.WellTyped G .bool) ∧ c.WellTyped G .bool ∧ s.WellTyped G

/-- A variable that a checked statement assigns is known. -/
theorem Stmt.Elaborates.contains_assigned {x : String} {e : Expr} {s' : Stmt} {env env' : TypeEnv}
    (h : Elaborates (.assign x e) env s' env') : env'.contains x = true := by
  cases h <;> simp [Bindings.contains]

section Checked

variable {G env env' : TypeEnv}

/-- A condition that was checked among the types of `G` is a truth value, as it was and as it has
come back. -/
theorem Expr.Elaborates.wellTyped {e e' : Expr} (h : e.Elaborates (.against .bool) env e' env')
    (hG : G.Concrete) (he : e.properOps = true) (hkeeps : Keeps G env)
    (hcovers : G.Covers env') : e.WellTyped G .bool ∧ e'.WellTyped G .bool := by
  have hsettles : G.Settles e.freeVars :=
    hG.settles fun x hx => hcovers x (h.contains x hx)
  have htyped : e.WellTyped G .bool :=
    ⟨h.accepts.hasType_of_isConcrete rfl (hsettles.agrees hkeeps), he⟩
  exact ⟨htyped, htyped.of_untyped h.untyped⟩

/-- Conditions that were checked are truth values, before and after. -/
theorem Expr.ElaboratesAll.wellTyped {es es' : List Expr} (h : ElaboratesAll es env es' env')
    (hG : G.Concrete) (hes : properOpsAll es = true) (hkeeps : Keeps G env)
    (hcovers : G.Covers env') :
    (∀ e ∈ es, e.WellTyped G .bool) ∧ ∀ e ∈ es', e.WellTyped G .bool := by
  induction h with
  | nil => exact ⟨List.forall_mem_nil _, List.forall_mem_nil _⟩
  | cons he hrest ih =>
    simp only [properOpsAll, Bool.and_eq_true] at hes
    obtain ⟨hfirst, hfirst'⟩ := he.wellTyped hG hes.1 hkeeps (hcovers.of_grows hrest.grows)
    obtain ⟨htyped, htyped'⟩ := ih hes.2 (hkeeps.trans he.grows.keeps) hcovers
    exact ⟨List.forall_mem_cons.2 ⟨hfirst, htyped⟩, List.forall_mem_cons.2 ⟨hfirst', htyped'⟩⟩

/-- An assignment that was checked gives a variable a value of its type, before and after. -/
theorem Stmt.Elaborates.wellTyped_assign {x : String} {e e' : Expr}
    (h : Elaborates (.assign x e) env (.assign x e') env') (hG : G.Concrete)
    (he : e.properOps = true) (hkeeps : Keeps G env) (hcovers : G.Covers env') :
    (assign x e).WellTyped G ∧ (assign x e').WellTyped G := by
  have huntyped : e'.untyped = e.untyped := by simpa [Stmt.untyped] using h.untyped
  have hread := h.contains_freeVars
  rw [freeVars, Expr.freeVars_eq_of_untyped huntyped] at hread
  obtain ⟨ty, hx, hty⟩ : ∃ ty, G.get? x = some ty ∧ e.HasType G ty := by
    refine h.assignsFit hkeeps (hG.settles fun y hy => hcovers y (hread y hy))
      (hG.settles fun y hy => hcovers y ?_)
    obtain rfl : y = x := by simpa [writtenVars, addWritten, addName] using hy
    exact h.contains_assigned
  exact ⟨⟨ty, hx, hty, he⟩, ⟨ty, hx, Expr.WellTyped.of_untyped ⟨hty, he⟩ huntyped⟩⟩

/-- A statement that was checked without a new variable is well typed, as it was and as it has come
back. -/
theorem Stmt.Elaborates.wellTyped {s s' : Stmt} (h : Elaborates s env s' env') (hG : G.Concrete)
    (hs : s.properOps = true) (hkeeps : Keeps G env) (hcovers : G.Covers env') :
    s.WellTyped G ∧ s'.WellTyped G := by
  induction h with
  | skip | havocNew | havocKnown => exact ⟨trivial, trivial⟩
  | assignNew he hx => exact (assignNew he hx).wellTyped_assign hG hs hkeeps hcovers
  | assignKnown he hx hfits hvalue =>
    exact (assignKnown he hx hfits hvalue).wellTyped_assign hG hs hkeeps hcovers
  | assume he | assert he => exact he.wellTyped hG hs hkeeps hcovers
  | seq hs' ht' ihs iht =>
    simp only [properOps, Bool.and_eq_true] at hs
    obtain ⟨hfirst, hfirst'⟩ := ihs hs.1 hkeeps (hcovers.of_grows ht'.grows)
    obtain ⟨hsecond, hsecond'⟩ := iht hs.2 (hkeeps.trans hs'.grows.keeps) hcovers
    exact ⟨⟨hfirst, hsecond⟩, ⟨hfirst', hsecond'⟩⟩
  | branch hc hs' ht' ihs iht =>
    simp only [properOps, Bool.and_eq_true] at hs
    have hmid := hcovers.of_grows ht'.grows
    obtain ⟨hcond, hcond'⟩ := hc.wellTyped hG hs.1.1 hkeeps (hmid.of_grows hs'.grows)
    have hkeeps := hkeeps.trans hc.grows.keeps
    obtain ⟨hthen, hthen'⟩ := ihs hs.1.2 hkeeps hmid
    obtain ⟨helse, helse'⟩ := iht hs.2 (hkeeps.trans hs'.grows.keeps) hcovers
    exact ⟨⟨hcond, hthen, helse⟩, ⟨hcond', hthen', helse'⟩⟩
  | loop hes hc hs' ih =>
    simp only [properOps, Bool.and_eq_true] at hs
    have hmid := hcovers.of_grows hs'.grows
    obtain ⟨htests, htests'⟩ := hes.wellTyped hG hs.1.1 hkeeps (hmid.of_grows hc.grows)
    have hkeeps := hkeeps.trans hes.grows.keeps
    obtain ⟨hcond, hcond'⟩ := hc.wellTyped hG hs.1.2 hkeeps hmid
    obtain ⟨hbody, hbody'⟩ := ih hs.2 (hkeeps.trans hc.grows.keeps) hcovers
    exact ⟨⟨htests, hcond, hbody⟩, ⟨htests', hcond', hbody'⟩⟩

theorem Stmt.wellTyped_of_check (hG : G.Concrete) {s s' : Stmt} (h : Gives s.check env s' env')
    (hs : s.properOps = true) (hkeeps : Keeps G env) (hcovers : G.Covers env') :
    s.WellTyped G ∧ s'.WellTyped G :=
  (check_elaborates h).wellTyped hG hs hkeeps hcovers

end Checked

/-! ## Runs -/

namespace Exec

/-- Whether a failure is one that types exclude. -/
def Failure.isMistyped : Failure → Bool
  | .wrongKind .. | .undefinedFunction _ => true
  | _ => false

/-- Failures that types do not exclude are none of those that they exclude. -/
theorem Failure.Excused.isMistyped_eq {σ : Store} {names : List String} {f : Failure}
    (h : f.Excused σ names) : f.isMistyped = false := by
  cases h <;> rfl

/-- No failure that types exclude. -/
def WellBehaved {α : Type} (r : Except Failure α) : Prop :=
  ∀ f, r = .error f → f.isMistyped = false

theorem Sound.wellBehaved {α : Type} {σ : Store} {names : List String} {good : α → Prop}
    {r : Except Failure α} (h : Sound σ names good r) : WellBehaved r := by
  rintro f rfl
  cases h with
  | failure h => exact h.isMistyped_eq

theorem wellBehaved_ok {α : Type} (a : α) : WellBehaved (.ok a) := nofun

theorem wellBehaved_error {α : Type} {f : Failure} (h : f.isMistyped = false) :
    WellBehaved (.error f : Except Failure α) := by
  rintro _ ⟨⟩
  exact h

/-- A run that has kept the store typed and has not gone wrong. -/
structure Result.TypeSafe (G : TypeEnv) (r : Result) : Prop where
  respects : r.2.Respects G
  wellBehaved : WellBehaved r.1

variable {G : TypeEnv} {σ : Store}

theorem Store.Respects.insert {x : String} {ty : Ty} {v : Value} (hσ : σ.Respects G)
    (hx : G.get? x = some ty) (hv : ty.admits v = true) : Store.Respects (σ.insert x v) G := by
  intro y t w hy hw
  rw [Bindings.get?_insert] at hw
  split_ifs at hw with hyx
  · obtain rfl := Option.some.inj (hx.symm.trans (hyx ▸ hy))
    exact Option.some.inj hw ▸ hv
  · exact hσ y t w hy hw

/-- Testing a condition that is well typed does not go wrong. -/
theorem wellBehaved_holds (hσ : σ.Respects G) {e : Expr} (he : e.WellTyped G .bool) :
    WellBehaved (holds σ e) :=
  (Sound.asBool (he.sound hσ)).wellBehaved

theorem wellBehaved_assertAll (hσ : σ.Respects G) {es : List Expr}
    (hes : ∀ e ∈ es, e.WellTyped G .bool) : WellBehaved (assertAll σ es) := by
  induction es with
  | nil => exact wellBehaved_ok ()
  | cons e es ih =>
    rw [List.forall_mem_cons] at hes
    have he := wellBehaved_holds hσ hes.1
    rw [assertAll]
    generalize holds σ e = test at he
    cases test with
    | error f => exact wellBehaved_error (he f rfl)
    | ok b =>
      cases b with
      | true => exact ih hes.2
      | false => exact wellBehaved_error rfl

/-- If a turn of a loop is safe, all turns are. -/
theorem iterate_safe {limit : Nat} {es : List Expr} {c : Expr} {body : Store → Result}
    (hes : ∀ e ∈ es, e.WellTyped G .bool) (hc : c.WellTyped G .bool)
    (hbody : ∀ σ : Store, σ.Respects G → (body σ).TypeSafe G) (turns : Nat) (hσ : σ.Respects G) :
    (iterate limit es c body turns σ).TypeSafe G := by
  induction turns generalizing σ with
  | zero => exact ⟨hσ, wellBehaved_error rfl⟩
  | succ turns ih =>
    have htests := wellBehaved_assertAll hσ hes
    have hcond := wellBehaved_holds hσ hc
    have hturn := hbody σ hσ
    rw [iterate]
    generalize assertAll σ es = tests at htests
    cases tests with
    | error f => exact ⟨hσ, wellBehaved_error (htests f rfl)⟩
    | ok _ =>
      generalize holds σ c = test at hcond
      cases test with
      | error f => exact ⟨hσ, wellBehaved_error (hcond f rfl)⟩
      | ok b =>
        cases b with
        | false => exact ⟨hσ, wellBehaved_ok _⟩
        | true =>
          generalize body σ = result at hturn
          obtain ⟨ending, σ'⟩ := result
          cases ending with
          | error f => exact hturn
          | ok ending =>
            cases ending with
            | normal => exact ih hturn.respects
            | blocked => exact hturn

/-- The run of a well-typed statement is safe. -/
theorem exec_safe {s : Stmt} (hs : s.WellTyped G) (limit : Nat) (hσ : σ.Respects G) :
    (exec limit s σ).TypeSafe G := by
  induction s generalizing σ with
  | skip => exact ⟨hσ, wellBehaved_ok _⟩
  | havoc x => exact ⟨hσ, wellBehaved_error rfl⟩
  | assign x e =>
    obtain ⟨ty, hx, he⟩ := hs
    have hvalue := he.sound hσ
    rw [exec]
    generalize eval σ e = value at hvalue
    cases hvalue with
    | value hv => exact ⟨hσ.insert hx hv, wellBehaved_ok _⟩
    | failure hf => exact ⟨hσ, wellBehaved_error hf.isMistyped_eq⟩
  | assume e =>
    have he := wellBehaved_holds hσ hs
    rw [exec]
    generalize holds σ e = test at he
    cases test with
    | error f => exact ⟨hσ, wellBehaved_error (he f rfl)⟩
    | ok b => cases b <;> exact ⟨hσ, wellBehaved_ok _⟩
  | assert e =>
    have he := wellBehaved_holds hσ hs
    rw [exec]
    generalize holds σ e = test at he
    cases test with
    | error f => exact ⟨hσ, wellBehaved_error (he f rfl)⟩
    | ok b =>
      cases b with
      | true => exact ⟨hσ, wellBehaved_ok _⟩
      | false => exact ⟨hσ, wellBehaved_error rfl⟩
  | seq s t ihs iht =>
    have hfirst := ihs hs.1 hσ
    rw [exec]
    generalize exec limit s σ = result at hfirst
    obtain ⟨ending, σ'⟩ := result
    cases ending with
    | error f => exact hfirst
    | ok ending =>
      cases ending with
      | normal => exact iht hs.2 hfirst.respects
      | blocked => exact hfirst
  | branch c s t ihs iht =>
    have hc := wellBehaved_holds hσ hs.1
    rw [exec]
    generalize holds σ c = test at hc
    cases test with
    | error f => exact ⟨hσ, wellBehaved_error (hc f rfl)⟩
    | ok b =>
      cases b with
      | true => exact ihs hs.2.1 hσ
      | false => exact iht hs.2.2 hσ
  | loop es c s ih => exact iterate_safe hs.1 hs.2.1 (fun _ => ih hs.2.2) _ hσ

end Exec

/-! ## What the checker accepts -/

theorem TypeEnv.Concrete.agrees {G : TypeEnv} (hG : G.Concrete) (names : List String) :
    Agrees G G names :=
  fun x _ ty hx => ⟨hx, hG x ty hx⟩

/-- In settled types, an accepted expression comes to a value of the type that was found or fails in
a way that types do not exclude, and so does the expression that has come back. An accepted
statement that settles no further types keeps every typed store typed, however it ends, and does not
fail at the kind of a value or the name of a function. -/
theorem TypeEnv.Concrete.accepted_safe {G : TypeEnv} (hG : G.Concrete) :
    (∀ (e e' : Expr) (ty : Ty) (G' : TypeEnv), e.properOps = true → Gives e.infer G (ty, e') G' →
      ∀ σ : Store, σ.Respects G →
        Exec.Sound σ e.freeVars (ty.admits · = true) (Exec.eval σ e) ∧
          Exec.eval σ e' = Exec.eval σ e) ∧
      ∀ (s s' : Stmt) (G' : TypeEnv), s.properOps = true → Gives s.check G s' G' →
        (∀ x, G'.get? x = G.get? x) → ∀ (limit : Nat) (σ : Store), σ.Respects G →
          (Exec.exec limit s σ).TypeSafe G ∧ (Exec.exec limit s' σ).TypeSafe G := by
  constructor
  · intro e e' ty G' he h σ hσ
    have haccepts := Expr.infer_accepts h
    have htyped : e.WellTyped G ty := ⟨haccepts.hasType (hG.agrees _), he⟩
    exact ⟨htyped.sound hσ, Exec.eval_congr_outline (Expr.outline_eq_of_untyped haccepts.untyped) σ⟩
  · intro s s' G' hs h hsame limit σ hσ
    have hcovers : G.Covers G' := fun x hx => by rwa [Bindings.contains, ← hsame]
    obtain ⟨htyped, htyped'⟩ := Stmt.wellTyped_of_check hG h hs (.refl G) hcovers
    exact ⟨Exec.exec_safe htyped limit hσ, Exec.exec_safe htyped' limit hσ⟩

/-- Writes the first row of a table over the other ones. -/
def fillRows : Stmt :=
  .loop [.binary .ge (.var "i") (.int 0)] (.binary .lt (.var "i") (.call "len" [.var "rows"]))
    (.seq
      (.assign "rows" (.call "store" [.var "rows", .var "i", .subscript (.var "rows") (.int 0)]))
      (.assign "i" (.binary .add (.var "i") (.int 1))))

/-- The types of its variables. -/
def fillRowsTypes : TypeEnv := (Bindings.empty.insert "i" .int).insert "rows" (.array (.array .int))

/-- The loop and an element of its table are safe in all stores of these types. -/
theorem accepted_safe_fillRows :
    (∀ σ : Store, σ.Respects fillRowsTypes →
      Exec.Sound σ ["rows", "i"] (Ty.int.admits · = true)
        (Exec.eval σ (.subscript (.subscript (.var "rows") (.var "i")) (.int 0)))) ∧
      ∀ (limit : Nat) (σ : Store), σ.Respects fillRowsTypes →
        (Exec.exec limit fillRows σ).TypeSafe fillRowsTypes := by
  have hconcrete : fillRowsTypes.Concrete := by
    intro x ty hx
    simp only [fillRowsTypes, Bindings.get?_insert, Bindings.get?_empty] at hx
    split_ifs at hx <;> cases hx <;> rfl
  have hfound : Gives (Expr.infer (.subscript (.subscript (.var "rows") (.var "i")) (.int 0)))
      fillRowsTypes (.int, .subscript (.subscript (.var "rows") (.var "i")) (.int 0))
      fillRowsTypes := by
    unfold Gives
    rfl
  have hchecked : Gives fillRows.check fillRowsTypes fillRows fillRowsTypes := by
    unfold Gives
    rfl
  exact ⟨fun σ hσ => (hconcrete.accepted_safe.1 _ _ _ _ rfl hfound σ hσ).1, fun limit σ hσ =>
    (hconcrete.accepted_safe.2 _ _ _ rfl hchecked (fun _ => rfl) limit σ hσ).1⟩

end Precond
