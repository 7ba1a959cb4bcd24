import Mathlib.Data.List.Forall2
import Mathlib.Tactic
import Precond.Proofs.RunModes

/-!
# The functions of a module

The functions to be verified can be read off the items of a program: those with a mark, each in the
scope that was opened last before it (`Host.marked`). `Host.Grouped` says that scopes hold the
functions of some items in this way. Each item keeps it
(`Host.Grouped.function`, `Host.Grouped.skip`, `Host.Grouped.scope`), hence so does a whole program
(`Host.grouped_groupItems`), and the default scope is left out only if it holds nothing.
-/

namespace Precond.Host

/-! ## Marked functions -/

/-- The name of the scope that an item opens. -/
def Item.opens? : Item → Option String
  | .stmt (.expr _ (.call _ callee [.str _ name])) =>
    if callee.node = "scope" then some name else none
  | _ => none

/-- The scope that is open behind some items. -/
def scopeAfter (defaultScope : String) (before : List Item) : String :=
  (before.filterMap Item.opens?).getLast?.getD defaultScope

/-- Whether a function has a mark for verification. -/
def Function.isMarked (f : Function) : Bool := f.decorators.any (·.name.node = "verify")

/-- The function of an item, if it has a mark for verification. -/
def Item.marked? : Item → Option Function
  | .function f => if f.isMarked then some f else none
  | .stmt _ => none

/-- The marked functions of items that stand behind the items `before`, each with the scope that is
open there. -/
def marked (defaultScope : String) (before : List Item) : List Item → List (String × Function)
  | [] => []
  | item :: items =>
    (item.marked?.map fun f => (scopeAfter defaultScope before, f)).toList ++
      marked defaultScope (before ++ [item]) items

theorem marked_append (defaultScope : String) (before items items' : List Item) :
    marked defaultScope before (items ++ items') =
      marked defaultScope before items ++ marked defaultScope (before ++ items) items' := by
  induction items generalizing before with
  | nil => simp [marked]
  | cons item items ih => simp [marked, ih]

/-- Marked functions are among the items. -/
theorem mem_of_mem_marked {defaultScope : String} {before items : List Item}
    {p : String × Function} (h : p ∈ marked defaultScope before items) :
    Item.function p.2 ∈ items := by
  induction items generalizing before with
  | nil => cases h
  | cons item items ih =>
    rcases List.mem_append.1 h with hfirst | hrest
    · obtain ⟨f, hf, rfl⟩ : ∃ f, item.marked? = some f ∧
          (scopeAfter defaultScope before, f) = p := by
        simpa using hfirst
      cases item with
      | stmt s => cases hf
      | function g =>
        obtain rfl : g = f := by simpa [Item.marked?] using (Option.ite_none_right_eq_some.1 hf).2
        exact List.mem_cons_self
    · exact List.mem_cons_of_mem _ (ih hrest)

/-- What is verified of a function: the function with the contract of its last mark. -/
structure Function.Describes (f : Function) (subject : Subject) : Prop where
  name : subject.name = f.name.node
  params : f.params.mapM Param.resolve = .ok subject.params
  result : subject.result = f.result
  contract : ∃ mark, f.decorators.getLast? = some mark ∧
    mark.contract = .ok ⟨subject.requires, subject.ensures⟩
  body : subject.body = f.body
  span : subject.span = f.span

/-- The mark that counts is the last one, and there is one if a function is marked. -/
theorem verifyMark?_eq_ok {found : Option Decorator} {ds : List Decorator}
    {mark : Option Decorator} (h : verifyMark? found ds = .ok mark) :
    mark = ds.getLast?.or found ∧ ∀ d ∈ ds, d.name.node = "verify" := by
  induction ds generalizing found with
  | nil =>
    cases h
    simp
  | cons d ds ih =>
    rw [verifyMark?] at h
    split_ifs at h with hd
    obtain ⟨rfl, hds⟩ := ih h
    refine ⟨?_, List.forall_mem_cons.2 ⟨hd, hds⟩⟩
    rw [List.getLast?_cons]
    cases ds.getLast? <;> rfl

/-- A function is verified if it has a mark, and what is verified describes it. -/
theorem Function.subject?_eq_ok {f : Function} {subject? : Option Subject}
    (h : f.subject? = .ok subject?) :
    f.isMarked = subject?.isSome ∧ ∀ subject ∈ subject?, f.Describes subject := by
  obtain ⟨mark, hmark, h⟩ := Exec.bind_eq_ok.1 h
  obtain ⟨rfl, hverify⟩ := verifyMark?_eq_ok hmark
  rw [Option.or_none] at h
  cases hlast : f.decorators.getLast? with
  | none =>
    rw [hlast] at h
    cases h
    simp [isMarked, List.getLast?_eq_none_iff.1 hlast]
  | some mark =>
    rw [hlast] at h
    obtain ⟨contract, hcontract, h⟩ := Exec.bind_eq_ok.1 h
    obtain ⟨params, hparams, h⟩ := Exec.bind_eq_ok.1 h
    cases h
    have hmem := List.mem_of_getLast? hlast
    refine ⟨List.any_eq_true.2 ⟨mark, hmem, by simpa using hverify mark hmem⟩, ?_⟩
    rintro _ ⟨⟩
    exact ⟨rfl, hparams, rfl, ⟨mark, hlast, hcontract⟩, rfl, rfl⟩

/-- A statement that names a scope opens it. -/
theorem Stmt.scopeName_eq_ok {s : Stmt} {name : String} (h : s.scopeName = .ok name) :
    (Item.stmt s).opens? = some name := by
  unfold scopeName at h
  split at h
  · split_ifs at h with hcallee
    split at h
    · cases h
      simp [Item.opens?, hcallee]
    · cases h
  · cases h

/-! ## Scopes of some items -/

/-- The scopes hold the marked functions of the items, each in the scope that was opened last before
it. -/
structure Grouped (defaultScope : String) (items : List Item) (scopes : List Scope) : Prop where
  names : scopes.map (·.name) = defaultScope :: items.filterMap Item.opens?
  functions : List.Forall₂ (fun (p : String × Subject) (q : String × Function) =>
    p.1 = q.1 ∧ q.2.Describes p.2) (functionsOf scopes) (marked defaultScope [] items)

namespace Grouped

variable {defaultScope : String} {items : List Item} {closed : List Scope} {current : Scope}

/-- The last scope is the one that was opened last. -/
theorem name_current (h : Grouped defaultScope items (closed ++ [current])) :
    current.name = scopeAfter defaultScope items := by
  have hlast := congrArg List.getLast? h.names
  rw [List.map_append, List.map_singleton, List.getLast?_concat, List.getLast?_cons] at hlast
  exact Option.some.inj hlast

theorem opens?_concat (items : List Item) (item : Item) :
    (items ++ [item]).filterMap Item.opens? =
      items.filterMap Item.opens? ++ item.opens?.toList := by
  rw [List.filterMap_append, List.filterMap_cons, List.filterMap_nil]
  cases item.opens? <;> rfl

theorem opens?_concat_function (items : List Item) (f : Function) :
    (items ++ [Item.function f]).filterMap Item.opens? = items.filterMap Item.opens? :=
  (opens?_concat items _).trans (List.append_nil _)

/-- One more item is at the end of the marked functions, if it is one, in the scope that is open
there. -/
theorem marked_concat (defaultScope : String) (items : List Item) (item : Item) :
    marked defaultScope [] (items ++ [item]) = marked defaultScope [] items ++
      (item.marked?.map fun f => (scopeAfter defaultScope items, f)).toList := by
  simp [marked_append, marked]

/-- A function without a mark belongs to no scope. -/
theorem skip {f : Function} (h : Grouped defaultScope items (closed ++ [current]))
    (hf : f.subject? = .ok none) :
    Grouped defaultScope (items ++ [.function f]) (closed ++ [current]) where
  names := by rw [opens?_concat_function, h.names]
  functions := by
    have hmarked := (Function.subject?_eq_ok hf).1
    simpa [marked_concat, Item.marked?, hmarked] using h.functions

/-- A function with a mark belongs to the scope that is open. -/
theorem function {f : Function} {subject : Subject}
    (h : Grouped defaultScope items (closed ++ [current]))
    (hf : f.subject? = .ok (some subject)) :
    Grouped defaultScope (items ++ [.function f])
      (closed ++ [{ current with subjects := current.subjects ++ [subject] }]) where
  names := by
    rw [opens?_concat_function, ← h.names, List.map_append, List.map_append]
    rfl
  functions := by
    obtain ⟨hmarked, hdescribes⟩ := Function.subject?_eq_ok hf
    have hlast : functionsOf
        (closed ++ [{ current with subjects := current.subjects ++ [subject] }]) =
          functionsOf (closed ++ [current]) ++ [(current.name, subject)] := by
      simp [functionsOf]
    rw [hlast, marked_concat]
    simp only [Item.marked?, hmarked, Option.isSome_some, if_true, Option.map_some,
      Option.toList_some]
    exact List.rel_append h.functions (.cons ⟨h.name_current, hdescribes subject rfl⟩ .nil)

/-- The scope that a statement opens is empty at first. -/
theorem scope {s : Stmt} {name : String} (h : Grouped defaultScope items (closed ++ [current]))
    (hs : s.scopeName = .ok name) :
    Grouped defaultScope (items ++ [.stmt s]) (closed ++ [current] ++ [⟨name, []⟩]) where
  names := by
    rw [List.map_append, h.names, opens?_concat, Stmt.scopeName_eq_ok hs]
    rfl
  functions := by
    have hempty : functionsOf (closed ++ [current] ++ [⟨name, []⟩]) =
        functionsOf (closed ++ [current]) := by
      simp [functionsOf]
    rw [hempty, marked_concat]
    simpa [Item.marked?] using h.functions

end Grouped

/-- The items of a program keep the functions in their scopes. -/
theorem grouped_groupItems {defaultScope : String} {before items : List Item}
    {earlier scopes : List Scope} {current : Scope}
    (hbefore : Grouped defaultScope before (earlier.reverse ++ [current]))
    (h : groupItems earlier current items = .ok scopes) :
    Grouped defaultScope (before ++ items) scopes := by
  induction items generalizing before earlier current with
  | nil =>
    cases h
    rwa [List.append_nil]
  | cons item items ih =>
    rw [← List.singleton_append, ← List.append_assoc]
    cases item with
    | function f =>
      obtain ⟨subject?, hsubject, h⟩ := Exec.bind_eq_ok.1 h
      cases subject? with
      | none => exact ih (hbefore.skip hsubject) h
      | some subject => exact ih (hbefore.function hsubject) h
    | stmt s =>
      obtain ⟨name, hname, h⟩ := Exec.bind_eq_ok.1 h
      split_ifs at h
      refine ih ?_ h
      rw [List.reverse_cons]
      exact hbefore.scope hname

/-! ## Modules -/

/-- Only a first scope without functions is dropped. -/
theorem dropIdleScope_eq (scopes : List Scope) : dropIdleScope scopes = scopes ∨
    ∃ idle rest, scopes = idle :: rest ∧ idle.subjects = [] ∧ dropIdleScope scopes = rest := by
  unfold dropIdleScope
  split
  · split_ifs with hidle
    · exact Or.inr ⟨_, _, rfl, List.isEmpty_iff.1 hidle, rfl⟩
    · exact Or.inl rfl
  · exact Or.inl rfl

/-- The module holds the marked functions of the items, each in the scope that was opened last
before it. The names of its scopes are different, and each scope is found by its name. -/
structure Module.Holds (m : Module) (defaultScope : String) (items : List Item) : Prop where
  distinct : (m.scopes.map (·.name)).Nodup
  /-- Only the default scope may be left out. -/
  names : m.scopes.map (·.name) = defaultScope :: items.filterMap Item.opens? ∨
    m.scopes.map (·.name) = items.filterMap Item.opens?
  functions : List.Forall₂ (fun (p : String × Subject) (q : String × Function) =>
    p.1 = q.1 ∧ q.2.Describes p.2) m.functions (marked defaultScope [] items)
  found : ∀ s ∈ m.scopes, m.scope? s.name = some s

theorem Module.ofItems_eq_ok {defaultScope : String} {items : List Item} {m : Module}
    (h : Module.ofItems defaultScope items = .ok m) :
    ∃ scopes, groupItems [] { name := defaultScope } items = .ok scopes ∧
      m.scopes = dropIdleScope scopes := by
  unfold Module.ofItems at h
  split at h
  · next scopes hscopes =>
    cases h
    exact ⟨scopes, hscopes, rfl⟩
  · cases h

/-- A module that is loaded holds the items of its text. -/
theorem Module.holds_of_load {source defaultScope : String} {m : Module}
    (h : Module.load source defaultScope = .ok m) :
    ∃ items, parseItems source = .ok items ∧ m.Holds defaultScope items := by
  obtain ⟨items, hitems, h⟩ := Exec.bind_eq_ok.1 h
  obtain ⟨scopes, hscopes, hm⟩ := Module.ofItems_eq_ok h
  have hstart : Grouped defaultScope [] ([].reverse ++ [{ name := defaultScope }]) := ⟨rfl, .nil⟩
  have hgrouped := grouped_groupItems hstart hscopes
  rw [List.nil_append] at hgrouped
  have hheld : (m.scopes.map (·.name) = defaultScope :: items.filterMap Item.opens? ∨
      m.scopes.map (·.name) = items.filterMap Item.opens?) ∧
        functionsOf m.scopes = functionsOf scopes := by
    rw [hm]
    rcases dropIdleScope_eq scopes with hall | ⟨idle, rest, rfl, hidle, hrest⟩
    · rw [hall]
      exact ⟨Or.inl hgrouped.names, rfl⟩
    · rw [hrest]
      exact ⟨Or.inr (List.cons.inj hgrouped.names).2, by simp [functionsOf_cons, hidle]⟩
  refine ⟨items, hitems, m.distinct, hheld.1, ?_, fun s hs => Module.scope?_name hs⟩
  rw [Module.functions, hheld.2]
  exact hgrouped.functions

/-- A function of the module is one of the items, with its contract. -/
theorem Module.Holds.exists_describes {m : Module} {defaultScope : String} {items : List Item}
    (h : m.Holds defaultScope items) {s : Scope} (hs : s ∈ m.scopes) {subject : Subject}
    (hsubject : subject ∈ s.subjects) : ∃ f, Item.function f ∈ items ∧ f.Describes subject := by
  have hmem : (s.name, subject) ∈ m.functions :=
    List.mem_flatMap.2 ⟨s, hs, List.mem_map_of_mem hsubject⟩
  obtain ⟨hlength, hfunctions⟩ := List.forall₂_iff_zip.1 h.functions
  rw [← List.map_fst_zip hlength.le] at hmem
  obtain ⟨⟨⟨_, _⟩, ⟨scope, f⟩⟩, hpair, hfst⟩ := List.mem_map.1 hmem
  cases hfst
  exact ⟨f, mem_of_mem_marked (List.of_mem_zip hpair).2, (hfunctions hpair).2⟩

end Precond.Host
