import Mathlib.Tactic
import Precond.Proofs.PreparedFunctions

/-!
# Binders are unique across a session

One supply serves a function from its contract to its obligations. So no two quantifiers of the
contract and of the body have the same variable, copies of invariants included, and none of these
variables is one of the program. The names that are drawn for havocked variables are new again
(`Host.Subject.bindersApart_of_read`).
-/

namespace Precond

/-- The variables of the quantifiers of a function that was read from a supply are kept apart. -/
structure BindersApart (f : Host.Subject) (c : Contracted) (supply : Supply) : Prop where
  /-- No two quantifiers have the same variable. -/
  nodup : c.binders.Nodup
  /-- The variables are stems with the numbers that were handed out. -/
  drawn : ∀ y ∈ c.binders, Name.Drawn 0 supply.used y
  /-- None of them is free, assigned or havocked. -/
  notMem : ∀ y ∈ c.binders, y ∉ c.programVars
  /-- Whatever is drawn later is none of them, and no variable of the program. -/
  fresh : ∀ (later : Supply) (x : String), supply.used ≤ later.used →
    ((Supply.fresh x).run later).1 ∉ c.binders ++ c.programVars ++ f.params.map (·.1)
  /-- The other quantifiers of the obligations have variables that were drawn later. -/
  obliged : ∀ (c' : Contracted) (env : TypeEnv) (os : List Obligation) (supply' : Supply),
    f.typed c = .ok (c', env) →
    (obligations env c'.requires c'.ensures c'.body).run.run supply = (.ok os, supply') →
    ∀ o ∈ os, ∀ y ∈ o.formula.binders, y ∈ c.binders ∨
      Name.Drawn supply.used supply'.used y ∧
        y ∉ c.binders ++ c.programVars ++ f.params.map (·.1)

namespace Host.Subject

variable {f : Subject} {c : Contracted} {supply : Supply}

/-- A name that is drawn after a function was read is neither a variable of a quantifier nor one of
the program. -/
theorem Written.notMem_of_drawn (hf : f.Written) (hc : c.Made {} supply) {a b : Nat} {y : String}
    (hle : supply.used ≤ a) (hy : Name.Drawn a b y) :
    y ∉ c.binders ++ c.programVars ++ f.params.map (·.1) := by
  intro hmem
  rcases List.mem_append.1 hmem with hmem | hmem
  · rcases List.mem_append.1 hmem with hmem | hmem
    · exact (hc.renews.drawn y hmem).ne hy hle rfl
    · exact hy.not_plain (hc.written.plain_programVars y hmem)
  · obtain ⟨p, hp, rfl⟩ := List.mem_map.1 hmem
    exact hy.not_plain (hf.params p hp).1

/-- In a function of a module that was read, the variables of all quantifiers are different,
numbered from one on, and apart from the variables of the program and from all that is drawn
later. -/
theorem bindersApart_of_read {source defaultScope : String} {m : Module} {s : Scope}
    {accepted : List String} (hload : Module.load source defaultScope = .ok m)
    (hs : s ∈ m.scopes) (hf : f ∈ s.subjects)
    (hread : (f.read accepted).run.run {} = (.ok c, supply)) : BindersApart f c supply := by
  have hf := Module.written_of_load hload s hs f hf
  have hmade := hf.made_read hread
  refine ⟨hmade.renews.nodup, hmade.renews.drawn, fun y hy hmem => ?_, fun later x hle => ?_,
    fun c' env os supply' htyped hos => ?_⟩
  · exact (hmade.renews.drawn y hy).not_plain (hmade.written.plain_programVars y hmem)
  · exact hf.notMem_of_drawn hmade hle (Name.drawn_fresh x later)
  · obtain ⟨hchecked, hbinders⟩ := hf.checked_typed hmade.written htyped
    obtain ⟨pre, hpre, rfl⟩ := exists_of_run_obligations hos
    have hnamed : c'.Named supply := hchecked.written.named (hbinders ▸ hmade.renews.drawn)
    rw [List.forall_mem_singleton]
    intro y hy
    rcases hnamed.binders_of_hasPre hpre y hy with hy | hy
    · exact Or.inl (hbinders ▸ hy)
    · exact Or.inr ⟨hy, hf.notMem_of_drawn hmade le_rfl hy⟩

/-- Whether the function is read with the given variables of quantifiers, drawing a number of
names. -/
def readsWith (f : Subject) (accepted binders : List String) (used : Nat) : Bool :=
  match (f.read accepted).run.run {} with
  | (.ok c, supply) => c.binders = binders && supply.used = used
  | _ => false

theorem exists_of_readsWith {accepted binders : List String} {used : Nat}
    (h : f.readsWith accepted binders used = true) :
    ∃ c supply, (f.read accepted).run.run {} = (.ok c, supply) ∧ c.binders = binders ∧
      supply.used = used := by
  unfold readsWith at h
  split at h
  · next c supply hread =>
    simp only [Bool.and_eq_true, decide_eq_true_eq] at h
    exact ⟨c, supply, hread, h⟩
  · cases h

/-- The invariant of either loop is read once and copied three times, with new names. -/
theorem bindersApart_clearing :
    ∃ m s f c supply, Module.load Module.clearing "main" = .ok m ∧ s ∈ m.scopes ∧ f ∈ s.subjects ∧
      (f.read ["invariant"]).run.run {} = (.ok c, supply) ∧
      c.binders = ["k$1", "k$7", "k$8", "k$4", "k$5", "k$6", "k$9"] ∧ supply.used = 9 ∧
      BindersApart f c supply := by
  have hclear : Module.hasSubject (Module.load Module.clearing "main") (readsWith · ["invariant"]
      ["k$1", "k$7", "k$8", "k$4", "k$5", "k$6", "k$9"] 9) = true := by
    rw [Module.clearing, Module.load_ofList]
    decide +kernel
  obtain ⟨m, hload, s, hs, f, hf, hreads⟩ := Module.exists_of_hasSubject hclear
  obtain ⟨c, supply, hread, hbinders, hused⟩ := exists_of_readsWith hreads
  exact ⟨m, s, f, c, supply, hload, hs, hf, hread, hbinders, hused,
    bindersApart_of_read hload hs hf hread⟩

end Host.Subject

end Precond
