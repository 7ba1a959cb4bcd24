import Mathlib.Tactic
import Precond.Proofs.PreparedFunctions
import Precond.Proofs.ScriptSymbols

/-!
# What the solver is given

If checking has come to an end (`Host.Subject.settles`) and all types are settled, every obligation
without slices is encoded, by a term that is a truth value over what is declared
(`Host.Subject.wellSorted_of_prepare`). Checking may stop earlier, for two reasons. It looks only at
the types of the variables outside quantifiers to see whether anything has changed, so the type of a
quantified variable may become settled without its uses being checked again. And it stops after a
fixed number of passes. `Host.Subject.stuck_deepLength` and `Host.Subject.undeclared_longChain` are functions
where this happens.

Whatever checking has come to, the obligations have known variables only, nothing is declared twice,
and the symbols of their terms are declared; only the length of something that is not a list may be
left out (`Host.Subject.closed_of_prepare`).
-/

namespace Precond

open Smt

/-! ## Prepared functions -/

namespace Prepared

/-- The formulas of all obligations. -/
def formulas (p : Prepared) : List Expr := p.obligations.map (·.formula)

/-- Whether the types of all variables are settled. -/
def isSettled (p : Prepared) : Bool := p.env.entries.all (·.2.isConcrete)

theorem allSettled_of_isSettled {p : Prepared} (h : p.isSettled = true) : p.env.AllSettled := by
  have hfind : ∀ (entries : List (String × Ty)) (x : String) (ty : Ty),
      entries.all (·.2.isConcrete) = true → Bindings.find x entries = some ty →
        ty.isConcrete = true := by
    intro entries x ty hall hx
    induction entries with
    | nil => cases hx
    | cons entry entries ih =>
      rw [List.all_cons, Bool.and_eq_true] at hall
      rw [Bindings.find] at hx
      split_ifs at hx
      · cases hx
        exact hall.1
      · exact ih hall.2 hx
  exact fun x ty hx => hfind p.env.entries x ty h hx

/-- Whether all types are settled, some formula has no slices, and all formulas are encoded. -/
def isReady (p : Prepared) : Bool :=
  match encodeAll p.env [] p.formulas with
  | .ok terms => p.isSettled && p.obligations.any (!·.formula.hasSlice) && !terms.isEmpty
  | .error _ => false

/-- If the prepared function is ready, all its formulas are encoded. -/
theorem exists_of_isReady {p : Prepared} (h : p.isReady = true) :
    ∃ terms, encodeAll p.env [] p.formulas = .ok terms ∧ p.env.AllSettled ∧
      (∃ o ∈ p.obligations, o.formula.hasSlice = false) ∧ terms ≠ [] := by
  unfold isReady at h
  split at h
  · next terms hterms =>
    simp only [Bool.and_eq_true, List.any_eq_true, Bool.not_eq_true', List.isEmpty_eq_false_iff] at h
    obtain ⟨⟨hsettled, ho⟩, hne⟩ := h
    exact ⟨terms, hterms, allSettled_of_isSettled hsettled, ho, hne⟩
  · cases h

/-- Whether all types are settled and a formula without slices cannot be encoded. -/
def isStuck (p : Prepared) : Bool :=
  p.isSettled && p.obligations.any fun o =>
    !o.formula.hasSlice && (encode p.env [] o.formula).toOption.isNone

/-- If it is stuck, a formula without slices is not encoded. -/
theorem exists_of_isStuck {p : Prepared} (h : p.isStuck = true) :
    p.env.AllSettled ∧ ∃ o ∈ p.obligations, o.formula.hasSlice = false ∧
      ∃ err, encode p.env [] o.formula = .error err := by
  simp only [isStuck, Bool.and_eq_true, List.any_eq_true, Bool.not_eq_true'] at h
  obtain ⟨hsettled, o, ho, hslice, hnone⟩ := h
  refine ⟨allSettled_of_isSettled hsettled, o, ho, hslice, ?_⟩
  cases henc : encode p.env [] o.formula with
  | error err => exact ⟨err, rfl⟩
  | ok t => simp [henc, Except.toOption] at hnone

/-- Whether all types are settled and an encoded formula applies a function that is not declared. -/
def isOpen (p : Prepared) : Bool :=
  match encodeAll p.env [] p.formulas, declarations p.env p.formulas with
  | .ok terms, .ok ds => p.isSettled && terms.any (·.functions.any (!·.isDeclared ds))
  | _, _ => false

/-- If it is open, a term applies a function that is not declared. -/
theorem exists_of_isOpen {p : Prepared} (h : p.isOpen = true) :
    p.env.AllSettled ∧ ∃ terms ds, encodeAll p.env [] p.formulas = .ok terms ∧
      declarations p.env p.formulas = .ok ds ∧
      ∃ t ∈ terms, ∃ g ∈ t.functions, g.isDeclared ds = false := by
  unfold isOpen at h
  split at h
  · next terms ds hterms hds =>
    simp only [Bool.and_eq_true, List.any_eq_true, Bool.not_eq_true'] at h
    exact ⟨allSettled_of_isSettled h.1, terms, ds, hterms, hds, h.2⟩
  · cases h

end Prepared

namespace Host.Subject

variable {f : Subject} {accepted : List String} {p : Prepared}

/-- Whether the function is prepared as `test` says. -/
def preparesAs (f : Subject) (accepted : List String) (test : Prepared → Bool) : Bool :=
  match f.prepare accepted with
  | .ok p => test p
  | .error _ => false

theorem exists_of_preparesAs {test : Prepared → Bool} (h : f.preparesAs accepted test = true) :
    ∃ p, f.prepare accepted = .ok p ∧ test p = true := by
  unfold preparesAs at h
  split at h
  · next p hp => exact ⟨p, hp, h⟩
  · cases h

/-- Where all types are settled, everything can be declared. -/
theorem Written.exists_declares (hf : f.Written) (hp : f.prepare accepted = .ok p)
    (henv : p.env.AllSettled) :
    ∃ ds, declarations p.env p.formulas = .ok ds ∧
      Declares p.env p.formulas ds := by
  obtain ⟨hvalues, hobliges⟩ := hf.obliges_of_prepare hp
  refine Smt.exists_declares hvalues (List.forall_mem_map.2 fun o ho => ?_)
    (List.forall_mem_map.2 fun o ho => ?_)
  · exact quantifierSorts_eq_ok (hobliges o ho).1.wellFormed ((hobliges o ho).1.annotated henv)
  · exact henv.settles (hobliges o ho).1.contains

/-- The clearing of a list is prepared: checking comes to an end with settled types, and what is
to be proven has no slices and is encoded. -/
theorem exists_prepared_clearing :
    ∃ m s f p terms, Module.load Module.clearing "main" = .ok m ∧ s ∈ m.scopes ∧
      f ∈ s.subjects ∧ f.prepare ["invariant"] = .ok p ∧ p.env.AllSettled ∧
      f.settles ["invariant"] = true ∧ (∃ o ∈ p.obligations, o.formula.hasSlice = false) ∧
      encodeAll p.env [] p.formulas = .ok terms ∧ terms ≠ [] := by
  have hclearing : Module.hasSubject (Module.load Module.clearing "main") (fun f =>
      f.settles ["invariant"] && f.preparesAs ["invariant"] Prepared.isReady) = true := by
    rw [Module.clearing, Module.load_ofList]
    decide +kernel
  obtain ⟨m, hload, s, hs, f, hf, h⟩ := Module.exists_of_hasSubject hclearing
  obtain ⟨hsettles, h⟩ := Bool.and_eq_true_iff.1 h
  obtain ⟨p, hp, hready⟩ := exists_of_preparesAs h
  obtain ⟨terms, hterms, hsettled, ho, hne⟩ := Prepared.exists_of_isReady hready
  exact ⟨m, s, f, p, terms, hload, hs, hf, hp, hsettled, hsettles, ho, hterms, hne⟩

/-- If checking has come to an end and all types are settled, the obligations without slices are
encoded by terms that are truth values over what is declared. -/
theorem wellSorted_of_prepare {source defaultScope : String} {m : Module} {s : Scope}
    (hload : Module.load source defaultScope = .ok m) (hs : s ∈ m.scopes) (hf : f ∈ s.subjects)
    (hp : f.prepare accepted = .ok p) (henv : p.env.AllSettled)
    (hsettles : f.settles accepted = true) :
    ∃ ds, declarations p.env p.formulas = .ok ds ∧
      ∀ o ∈ p.obligations, o.formula.hasSlice = false →
        ∃ t, encode p.env [] o.formula = .ok t ∧ t.sort? ds [] = some .bool := by
  have hf := Module.written_of_load hload s hs f hf
  obtain ⟨hvalues, hobliges⟩ := hf.obliges_of_prepare hp
  obtain ⟨ds, hds, hdeclares⟩ := hf.exists_declares hp henv
  refine ⟨ds, hds, fun o ho hslice => ?_⟩
  obtain ⟨hobliged, hcondition⟩ := hobliges o ho
  have hready : Expr.Ready p.env o.formula :=
    ⟨hslice, hobliged.annotated henv, henv.settles hobliged.contains⟩
  exact hdeclares.exists_encode hvalues (List.mem_map_of_mem ho) hobliged.wellFormed
    (hcondition hsettles hready)

/-- The obligation of the clearing of a list is a truth value over what is declared. -/
theorem wellSorted_clearing :
    ∃ m s f p ds, Module.load Module.clearing "main" = .ok m ∧ s ∈ m.scopes ∧
      f ∈ s.subjects ∧ f.prepare ["invariant"] = .ok p ∧ p.env.AllSettled ∧
      f.settles ["invariant"] = true ∧ declarations p.env p.formulas = .ok ds ∧
      ∃ o ∈ p.obligations, o.formula.hasSlice = false ∧
        ∃ t, encode p.env [] o.formula = .ok t ∧ t.sort? ds [] = some .bool := by
  obtain ⟨m, s, f, p, terms, hload, hs, hf, hp, henv, hsettles, ⟨o, ho, hslice⟩, -⟩ :=
    exists_prepared_clearing
  obtain ⟨ds, hds, hencode⟩ := wellSorted_of_prepare hload hs hf hp henv hsettles
  exact ⟨m, s, f, p, ds, hload, hs, hf, hp, henv, hsettles, hds, o, ho, hslice,
    hencode o ho hslice⟩

/-- A postcondition that takes the length of an element of an element of `k`, before `k` turns out
to be a list of numbers. -/
def deepLength : String :=
  "@verify(ensures=[\"forall k :: len(store(k, 0, k[0])[0][0]) >= 0 and k[0] == 1\"])\ndef f(x: int) -> int:\n    return x\n"

/-- The types of a function may be settled without its obligation being encoded: here the length
is taken of an element of a number. -/
theorem stuck_deepLength :
    ∃ m s f p, Module.load deepLength "main" = .ok m ∧ s ∈ m.scopes ∧ f ∈ s.subjects ∧
      f.prepare [] = .ok p ∧ p.env.AllSettled ∧
      ∃ o ∈ p.obligations, o.formula.hasSlice = false ∧
        ∃ err, encode p.env [] o.formula = .error err := by
  have hdeep : Module.hasSubject (Module.load deepLength "main")
      (·.preparesAs [] Prepared.isStuck) = true := by
    rw [deepLength, Module.load_ofList]
    decide +kernel
  obtain ⟨m, hload, s, hs, f, hf, h⟩ := Module.exists_of_hasSubject hdeep
  obtain ⟨p, hp, hstuck⟩ := exists_of_preparesAs h
  exact ⟨m, s, f, p, hload, hs, hf, hp, Prepared.exists_of_isStuck hstuck⟩

/-- The obligations have known variables only. If these have settled types and the obligations are
encoded, everything is declared, nothing twice, and the terms use only what is declared, where the
length of a number or of a truth value is the exception, which does not occur if checking has come
to an end. Different variables have different symbols, and different sorts of arrays have different
names for the length. -/
theorem closed_of_prepare {source defaultScope : String} {m : Module} {s : Scope}
    (hload : Module.load source defaultScope = .ok m) (hs : s ∈ m.scopes) (hf : f ∈ s.subjects)
    (hp : f.prepare accepted = .ok p) :
    (∀ o ∈ p.obligations, ∀ x ∈ o.formula.freeVars,
      p.env.contains x = true ∧ Name.Plain x) ∧
    (∀ terms, (∀ o ∈ p.obligations, p.env.Settles o.formula.freeVars) →
      encodeAll p.env [] p.formulas = .ok terms →
      ∃ ds, declarations p.env p.formulas = .ok ds ∧
        ((signatures ds).map (·.1)).Nodup ∧
        ∀ t ∈ terms, t.Closed p.env ds [.len .int, .len .bool] ∧
          (f.settles accepted = true → t.Closed p.env ds [])) ∧
    Function.Injective symbol ∧
    ∀ a b : SmtSort, SmtSort.lenName (.array a) = SmtSort.lenName (.array b) → a = b := by
  have hf := Module.written_of_load hload s hs f hf
  obtain ⟨hvalues, hobliges⟩ := hf.obliges_of_prepare hp
  refine ⟨fun o ho x hx => ⟨(hobliges o ho).1.contains x hx, (hobliges o ho).1.plain x hx⟩,
    fun terms hsettled hencode => ?_, symbol_injective, fun a b => SmtSort.lenName_injective⟩
  obtain ⟨ds, hds, hdeclares⟩ := Smt.exists_declares hvalues
    (fun e he => (exists_encoded hencode he).elim fun t ht =>
      (encodedAs_of_encode ht).exists_quantifierSorts)
    (List.forall_mem_map.2 hsettled)
  refine ⟨ds, hds, hdeclares.nodup, fun t ht => ?_⟩
  obtain ⟨e, he, henc⟩ := exists_of_mem_encodeAll hencode ht
  refine ⟨hdeclares.closed he henc, fun hsettles => ?_⟩
  obtain ⟨o, ho, rfl⟩ := List.mem_map.1 he
  have hready : Expr.Ready p.env o.formula :=
    ⟨(encodedAs_of_encode henc).hasSlice, (encodedAs_of_encode henc).annotated, hsettled o ho⟩
  exact hdeclares.closed_of_typed hvalues he henc (hobliges o ho).1.wellFormed
    ((hobliges o ho).2 hsettles hready)

/-- The terms for the clearing of a list use only what is declared. -/
theorem closed_clearing :
    ∃ m s f p terms ds, Module.load Module.clearing "main" = .ok m ∧ s ∈ m.scopes ∧
      f ∈ s.subjects ∧ f.prepare ["invariant"] = .ok p ∧
      encodeAll p.env [] p.formulas = .ok terms ∧ terms ≠ [] ∧
      declarations p.env p.formulas = .ok ds ∧ ((signatures ds).map (·.1)).Nodup ∧
      (∀ t ∈ terms, t.Closed p.env ds []) ∧
      ∀ o ∈ p.obligations, ∀ x ∈ o.formula.freeVars,
        p.env.contains x = true ∧ Name.Plain x := by
  obtain ⟨m, s, f, p, terms, hload, hs, hf, hp, henv, hsettles, -, hterms, hne⟩ :=
    exists_prepared_clearing
  obtain ⟨hvars, hclosed, -⟩ := closed_of_prepare hload hs hf hp
  obtain ⟨ds, hds, hnodup, hall⟩ := hclosed terms
    (fun o ho => henv.settles fun x hx => (hvars o ho x hx).1) hterms
  exact ⟨m, s, f, p, terms, ds, hload, hs, hf, hp, hterms, hne, hds, hnodup,
    fun t ht => (hall t ht).2 hsettles, hvars⟩

/-- A chain of assignments, so long that checking gives up before the type of its end reaches its
beginning. -/
def longChain : String :=
  "@verify(ensures=[\"w[0] == 1\", \"len(w) >= 0\"])\ndef f(y, a) -> int:\n    x = y\n    y = a\n    u = x\n    v = u\n    w = v\n    b = a\n    c = b\n    assert c > 0\n    return c\n"

/-- The types of a function may be settled without all functions of its terms being declared: here
the length is taken of a number. -/
theorem undeclared_longChain :
    ∃ m s f p, Module.load longChain "main" = .ok m ∧ s ∈ m.scopes ∧ f ∈ s.subjects ∧
      f.prepare [] = .ok p ∧ p.env.AllSettled ∧
      ∃ terms ds, encodeAll p.env [] p.formulas = .ok terms ∧
        declarations p.env p.formulas = .ok ds ∧
        ∃ t ∈ terms, ∃ g ∈ t.functions, g.isDeclared ds = false := by
  have hchain : Module.hasSubject (Module.load longChain "main")
      (·.preparesAs [] Prepared.isOpen) = true := by
    rw [longChain, Module.load_ofList]
    decide +kernel
  obtain ⟨m, hload, s, hs, f, hf, h⟩ := Module.exists_of_hasSubject hchain
  obtain ⟨p, hp, hopen⟩ := exists_of_preparesAs h
  exact ⟨m, s, f, p, hload, hs, hf, hp, Prepared.exists_of_isOpen hopen⟩

end Host.Subject

end Precond
