import Mathlib.Data.List.Forall2
import Mathlib.Tactic
import Precond.Proofs.ModuleScopes
import Precond.Proofs.ProgramCues

/-!
# The clauses of contracts

The contracts of a program can be read off its tokens without its grammar. A mark reaches from its
`@` to the next `@` or `def`, and the marks in front of a `def` are those of one function
(`Host.headers`). The clauses of a mark are the texts that stand behind `requires =` or `ensures =`
(`Host.clauses`).

A function that is loaded has all clauses of its last mark, in the order of the text, and no others
(`Host.Module.contracts_of_load`). These are all clauses that are written if the function has one
mark. What other marks carry is dropped (`Host.Module.dropped_clause`).
-/

namespace Precond.Host

open Grammar

/-! ## Headers of functions -/

/-- What stands in front of a function. -/
structure Header where
  /-- The cues of each of its marks, without the sign. -/
  marks : List (List Cue)
  /-- The cue behind the word `def`. -/
  name? : Option Cue
  deriving DecidableEq, Repr

/-- The headers among some cues that stand behind marks, of which the last one comes first. -/
def headersFrom (marks : List (List Cue)) : List Cue → List Header
  | [] => []
  | .mark :: cs => headersFrom ([] :: marks) cs
  | .function :: cs => ⟨marks.reverse, cs.head?⟩ :: headersFrom [] cs
  | c :: cs => headersFrom (marks.modifyHead (· ++ [c])) cs

/-- The headers of functions that have marks. -/
def headers (tokens : List (Spanned Token)) : List Header :=
  (headersFrom [] (Grammar.cues tokens)).filter (!·.marks.isEmpty)

/-- The texts behind `key =` up to the next `=`. `name` is the last name so far, and `reading` tells
whether the last `=` was behind the key. -/
def clausesFrom (key name : String) (reading : Bool) : List Cue → List (Spanned String)
  | [] => []
  | .name x :: cs => clausesFrom key x reading cs
  | .equals :: cs => clausesFrom key name (name = key) cs
  | .text s :: cs =>
    let rest := clausesFrom key name reading cs
    if reading then ⟨s.node, ⟨s.span.start + 1, s.span.stop - 1⟩⟩ :: rest else rest
  | _ :: cs => clausesFrom key name reading cs

/-- The clauses of a mark that are written behind a key, each with the range between its quotes. -/
def clauses (key : String) (mark : List Cue) : List (Spanned String) :=
  clausesFrom key "" false mark

/-- All clauses of a function that are written behind a key. -/
def Header.clauses (key : String) (header : Header) : List (Spanned String) :=
  header.marks.flatMap (Host.clauses key)

/-- The function has the contract of its header: the clauses of the last mark, which are all that
are written if there is one mark. -/
structure Header.Contracts (header : Header) (f : Subject) : Prop where
  name : header.name? = some (.name f.name)
  verify : ∀ mark ∈ header.marks, mark.head? = some (.name "verify")
  last : ∃ mark, header.marks.getLast? = some mark ∧
    f.requires = Host.clauses "requires" mark ∧ f.ensures = Host.clauses "ensures" mark
  whole : header.marks.length = 1 →
    f.requires = header.clauses "requires" ∧ f.ensures = header.clauses "ensures"

/-! ## Cues inside functions -/

/-- Whether a cue may stand inside a mark or a function. -/
def isInner : Cue → Bool
  | .mark | .function => false
  | _ => true

mutual

theorem isInner_typeCues (t : TypeExpr) : ∀ c ∈ t.cues, isInner c = true := by
  match t with
  | .mk name args _ => exact List.forall_mem_cons.2 ⟨rfl, isInner_typeCuesAll args⟩

theorem isInner_typeCuesAll (ts : List TypeExpr) :
    ∀ c ∈ TypeExpr.cuesAll ts, isInner c = true := by
  match ts with
  | [] => simp [TypeExpr.cuesAll]
  | t :: ts => exact List.forall_mem_append.2 ⟨isInner_typeCues t, isInner_typeCuesAll ts⟩

end

namespace Expr

mutual

/-- Neither a mark nor a function begins inside an expression. -/
theorem isInner_cues (e : Expr) : ∀ c ∈ e.cues, isInner c = true := by
  match e with
  | .name _ x | .str _ x => simp [cues, isInner]
  | .int .. | .bool .. => simp [cues]
  | .binary _ _ l r | .subscript _ l r =>
    exact List.forall_mem_append.2 ⟨isInner_cues l, isInner_cues r⟩
  | .unary _ _ e => exact isInner_cues e
  | .chain _ _ first rest =>
    exact List.forall_mem_append.2 ⟨isInner_cues first, isInner_cuesAll rest⟩
  | .compare _ first rest =>
    exact List.forall_mem_append.2 ⟨isInner_cues first, isInner_cuesCompared rest⟩
  | .call _ f args => exact List.forall_mem_cons.2 ⟨rfl, isInner_cuesAll args⟩
  | .slice _ l u s =>
    exact List.forall_mem_append.2 ⟨List.forall_mem_append.2
      ⟨isInner_cuesOption l, isInner_cuesOption u⟩, isInner_cuesOption s⟩
  | .list _ items => exact isInner_cuesAll items

theorem isInner_cuesAll (es : List Expr) : ∀ c ∈ cuesAll es, isInner c = true := by
  match es with
  | [] => simp [cuesAll]
  | e :: es => exact List.forall_mem_append.2 ⟨isInner_cues e, isInner_cuesAll es⟩

theorem isInner_cuesCompared (rest : List (Op × Expr)) :
    ∀ c ∈ cuesCompared rest, isInner c = true := by
  match rest with
  | [] => simp [cuesCompared]
  | (_, e) :: rest => exact List.forall_mem_append.2 ⟨isInner_cues e, isInner_cuesCompared rest⟩

theorem isInner_cuesOption (e? : Option Expr) : ∀ c ∈ cuesOption e?, isInner c = true := by
  match e? with
  | none => simp [cuesOption]
  | some e => exact isInner_cues e

end

end Expr

namespace Stmt

mutual

/-- Neither a mark nor a function begins inside a statement. -/
theorem isInner_cues (s : Stmt) : ∀ c ∈ s.cues, isInner c = true := by
  match s with
  | .assign _ target value =>
    exact List.forall_mem_append.2 ⟨target.isInner_cues,
      List.forall_mem_cons.2 ⟨rfl, value.isInner_cues⟩⟩
  | .branch _ cond body orelse =>
    exact List.forall_mem_append.2 ⟨List.forall_mem_append.2
      ⟨cond.isInner_cues, isInner_cuesAll body⟩, isInner_cuesAll orelse⟩
  | .loop _ cond body =>
    exact List.forall_mem_append.2 ⟨cond.isInner_cues, isInner_cuesAll body⟩
  | .give _ value => exact Expr.isInner_cuesOption value
  | .pass _ => simp [cues]
  | .assert _ e | .expr _ e => exact e.isInner_cues

theorem isInner_cuesAll (ss : List Stmt) : ∀ c ∈ cuesAll ss, isInner c = true := by
  match ss with
  | [] => simp [cuesAll]
  | s :: ss => exact List.forall_mem_append.2 ⟨isInner_cues s, isInner_cuesAll ss⟩

end

end Stmt

theorem Decorator.isInner_cues (d : Decorator) : ∀ c ∈ d.cues, isInner c = true := by
  refine List.forall_mem_cons.2 ⟨rfl, List.forall_mem_flatMap.2 fun argument _ => ?_⟩
  exact List.forall_mem_cons.2 ⟨rfl, List.forall_mem_cons.2 ⟨rfl, argument.2.isInner_cues⟩⟩

theorem isInner_optionTypeCues (t? : Option TypeExpr) :
    ∀ c ∈ t?.elim [] TypeExpr.cues, isInner c = true := by
  cases t? with
  | none => exact List.forall_mem_nil _
  | some t => exact isInner_typeCues t

/-- Neither a mark nor a function begins inside a function. -/
theorem Function.isInner_cues (f : Function) : ∀ c ∈ f.cues, isInner c = true := by
  refine List.forall_mem_cons.2 ⟨rfl, List.forall_mem_append.2 ⟨List.forall_mem_append.2
    ⟨List.forall_mem_flatMap.2 fun p _ => ?_, isInner_optionTypeCues f.result⟩,
    Stmt.isInner_cuesAll f.body⟩⟩
  exact List.forall_mem_cons.2 ⟨rfl, isInner_optionTypeCues p.type⟩

/-! ## Headers of items -/

/-- Inner cues belong to the last mark, and to no header if there is no mark. -/
theorem headersFrom_append {cs : List Cue} (h : ∀ c ∈ cs, isInner c = true)
    (marks : List (List Cue)) (rest : List Cue) :
    headersFrom marks (cs ++ rest) = headersFrom (marks.modifyHead (· ++ cs)) rest := by
  induction cs generalizing marks with
  | nil => cases marks <;> simp
  | cons c cs ih =>
    rw [List.forall_mem_cons] at h
    cases c with
    | mark | function => exact absurd h.1 (by simp [isInner])
    | equals | name | text =>
      rw [List.cons_append, headersFrom, ih h.2]
      · cases marks <;> simp
      all_goals simp

/-- Marks are put on top of those before them, each with the cues inside it. -/
theorem headersFrom_marks (ds : List Decorator) (marks : List (List Cue)) (rest : List Cue) :
    headersFrom marks (ds.flatMap (fun d => .mark :: d.cues) ++ rest) =
      headersFrom ((ds.map Decorator.cues).reverse ++ marks) rest := by
  induction ds generalizing marks with
  | nil => rfl
  | cons d ds ih =>
    rw [List.flatMap_cons, List.append_assoc, List.cons_append, headersFrom,
      headersFrom_append d.isInner_cues, ih]
    simp

/-- The header of a function. -/
def Function.header (f : Function) : Header :=
  ⟨f.decorators.map Decorator.cues, some (.name f.name.node)⟩

/-- The header of an item. -/
def Item.header? : Item → Option Header
  | .function f => some f.header
  | .stmt _ => none

/-- The headers that are found among the cues of items are those of the functions. -/
theorem headersFrom_items (items : List Item) :
    headersFrom [] (items.flatMap Item.cues) = items.filterMap Item.header? := by
  induction items with
  | nil => rfl
  | cons item items ih =>
    rw [List.flatMap_cons]
    cases item with
    | function f =>
      rw [Item.cues, List.append_assoc, headersFrom_marks, List.cons_append, headersFrom,
        headersFrom_append f.isInner_cues, List.modifyHead_nil, ih]
      simp [Item.header?, Function.header, Function.cues]
    | stmt s => rw [Item.cues, headersFrom_append s.isInner_cues, List.modifyHead_nil, ih]; rfl

/-! ## Clauses of marks -/

/-- Texts in a list are clauses of the key that is being read, and of no other. -/
theorem clausesFrom_texts {items : List Expr} {texts : List (Spanned String)}
    (h : items.mapM Expr.contractText = .ok texts) (key name : String) (reading : Bool)
    (rest : List Cue) :
    clausesFrom key name reading (Expr.cuesAll items ++ rest) =
      (if reading then texts else []) ++ clausesFrom key name reading rest := by
  induction items generalizing texts with
  | nil =>
    cases h
    simp [Expr.cuesAll]
  | cons e items ih =>
    rw [List.mapM_cons] at h
    obtain ⟨text, htext, h⟩ := Exec.bind_eq_ok.1 h
    obtain ⟨texts, htexts, h⟩ := Exec.bind_eq_ok.1 h
    cases h
    cases e with
    | str span text =>
      cases htext
      cases reading <;> simp [Expr.cuesAll, Expr.cues, clausesFrom, ih htexts]
    | _ => cases htext

/-- The clauses that a value carries are the texts that stand in it, if they are behind the key. -/
theorem clausesFrom_argument {argument : Spanned String × Expr} {texts : List (Spanned String)}
    (h : argument.2.contractTexts = .ok texts) (key name : String) (reading : Bool)
    (rest : List Cue) :
    clausesFrom key name reading (Decorator.argumentCues argument ++ rest) =
      (if argument.1.node = key then texts else []) ++
        clausesFrom key argument.1.node (argument.1.node = key) rest := by
  obtain ⟨argumentKey, value⟩ := argument
  cases value with
  | list span items =>
    simp only [Decorator.argumentCues, Expr.cues, List.cons_append, clausesFrom]
    rw [clausesFrom_texts h]
    simp
  | _ => cases h

/-- An argument of a mark adds its texts to the clauses of its key. -/
theorem ContractText.add_eq_ok {before after : ContractText} {argument : Spanned String × Expr}
    (h : before.add argument = .ok after) : ∃ texts, argument.2.contractTexts = .ok texts ∧
      after.requires = before.requires ++ (if argument.1.node = "requires" then texts else []) ∧
      after.ensures = before.ensures ++ (if argument.1.node = "ensures" then texts else []) := by
  unfold ContractText.add at h
  split at h
  · next hkey =>
    obtain ⟨texts, htexts, h⟩ := Exec.bind_eq_ok.1 h
    cases h
    exact ⟨texts, htexts, by simp [hkey], by simp [hkey]⟩
  · next hkey =>
    obtain ⟨texts, htexts, h⟩ := Exec.bind_eq_ok.1 h
    cases h
    exact ⟨texts, htexts, by simp [hkey], by simp [hkey]⟩
  · cases h

/-- By induction on the arguments: what is added to a contract are the clauses of the two keys. -/
theorem clausesFrom_arguments {arguments : List (Spanned String × Expr)}
    {before after : ContractText} (h : arguments.foldlM ContractText.add before = .ok after)
    (name name' : String) (reading reading' : Bool) :
    after.requires = before.requires ++
        clausesFrom "requires" name reading (arguments.flatMap Decorator.argumentCues) ∧
      after.ensures = before.ensures ++
        clausesFrom "ensures" name' reading' (arguments.flatMap Decorator.argumentCues) := by
  induction arguments generalizing before name name' reading reading' with
  | nil =>
    cases h
    simp [clausesFrom]
  | cons argument arguments ih =>
    rw [List.foldlM_cons] at h
    obtain ⟨mid, hadd, h⟩ := Exec.bind_eq_ok.1 h
    obtain ⟨texts, htexts, hrequires, hensures⟩ := ContractText.add_eq_ok hadd
    rw [List.flatMap_cons, clausesFrom_argument htexts, clausesFrom_argument htexts,
      ← List.append_assoc, ← List.append_assoc, ← hrequires, ← hensures]
    exact ih h _ _ _ _

/-- The contract that a mark carries consists of the clauses that are written in it. -/
theorem clauses_of_contract {d : Decorator} {contract : ContractText}
    (h : d.contract = .ok contract) :
    contract.requires = clauses "requires" d.cues ∧
      contract.ensures = clauses "ensures" d.cues := by
  obtain ⟨hrequires, hensures⟩ := clausesFrom_arguments h d.name.node d.name.node false false
  exact ⟨hrequires, hensures⟩

/-! ## Modules -/

/-- A program that is loaded has no marks but those for verification. -/
theorem verify_of_groupItems {earlier scopes : List Scope} {current : Scope} {items : List Item}
    (h : groupItems earlier current items = .ok scopes) :
    ∀ f, Item.function f ∈ items → ∀ d ∈ f.decorators, d.name.node = "verify" := by
  induction items generalizing earlier current with
  | nil => simp
  | cons item items ih =>
    cases item with
    | function f =>
      obtain ⟨subject?, hsubject, h⟩ := Exec.bind_eq_ok.1 h
      obtain ⟨mark, hmark, -⟩ := Exec.bind_eq_ok.1 hsubject
      have hrest : ∀ g, Item.function g ∈ items → ∀ d ∈ g.decorators, d.name.node = "verify" := by
        cases subject? with
        | none => exact ih h
        | some subject => exact ih h
      rintro g hg
      rcases List.mem_cons.1 hg with hfirst | hg
      · cases hfirst
        exact (verifyMark?_eq_ok hmark).2
      · exact hrest g hg
    | stmt s =>
      obtain ⟨name, -, h⟩ := Exec.bind_eq_ok.1 h
      split_ifs at h
      intro g hg
      exact ih h g (by simpa using hg)

/-- If all decorators are marks, a function that has one is marked. -/
theorem Function.isMarked_eq {f : Function} (h : ∀ d ∈ f.decorators, d.name.node = "verify") :
    f.isMarked = !f.header.marks.isEmpty := by
  unfold isMarked header
  cases hmarks : f.decorators with
  | nil => rfl
  | cons d ds => simp [h d (hmarks ▸ List.mem_cons_self)]

/-- The headers with marks are those of the marked functions. -/
theorem headers_of_items {items : List Item} (defaultScope : String) (before : List Item)
    (h : ∀ f, Item.function f ∈ items → ∀ d ∈ f.decorators, d.name.node = "verify") :
    (items.filterMap Item.header?).filter (!·.marks.isEmpty) =
      (marked defaultScope before items).map fun p => p.2.header := by
  induction items generalizing before with
  | nil => rfl
  | cons item items ih =>
    have hrest := ih (before ++ [item]) fun f hf => h f (List.mem_cons_of_mem _ hf)
    cases item with
    | stmt s => simpa [List.filterMap_cons, Item.header?, marked, Item.marked?] using hrest
    | function f =>
      have hheader : Item.header? (.function f) = some f.header := rfl
      rw [List.filterMap_cons_some hheader, List.filter_cons, hrest, marked, Item.marked?,
        ← Function.isMarked_eq (h f List.mem_cons_self)]
      cases f.isMarked <;> rfl

/-- A function has the contract that its header tells. -/
theorem Function.Describes.contracts {f : Function} {subject : Subject} (h : f.Describes subject)
    (hverify : ∀ d ∈ f.decorators, d.name.node = "verify") : f.header.Contracts subject := by
  obtain ⟨mark, hlast, hcontract⟩ := h.contract
  obtain ⟨hrequires, hensures⟩ := clauses_of_contract hcontract
  have hmark : f.header.marks.getLast? = some mark.cues := by
    simp [Function.header, hlast]
  refine ⟨by rw [h.name]; rfl, ?_, ⟨mark.cues, hmark, hrequires, hensures⟩, fun hone => ?_⟩
  · refine List.forall_mem_map.2 fun d hd => ?_
    simp [Decorator.cues, hverify d hd]
  · obtain ⟨only, honly⟩ := List.length_eq_one_iff.1 hone
    obtain rfl : only = mark.cues := by simpa [honly] using hmark
    simpa [Header.clauses, honly] using And.intro hrequires hensures

/-- The clauses that the functions of a module have behind `requires`, and those that are written
there in the tokens. -/
def requirements (m : Module) (tokens : List (Spanned Token)) :
    List (List String) × List (List String) :=
  (m.functions.map fun p => p.2.requires.map (·.node),
    (headers tokens).map fun header => (header.clauses "requires").map (·.node))

/-- Whether a text can be loaded and has the given requirements. -/
def requiresAs (source : String) (expected : List (List String) × List (List String)) : Bool :=
  match Module.load source "main", tokenizeLayout source.toList with
  | .ok m, .ok tokens => requirements m tokens = expected
  | _, _ => false

theorem exists_of_requiresAs {source : String} {expected : List (List String) × List (List String)}
    (h : requiresAs source expected = true) :
    ∃ m tokens, Module.load source "main" = .ok m ∧ tokenizeLayout source.toList = .ok tokens ∧
      requirements m tokens = expected := by
  unfold requiresAs at h
  split at h
  · next m tokens hm htokens => exact ⟨m, tokens, hm, htokens, by simpa using h⟩
  · cases h

/-- A module that is loaded has the marked functions of the text in their order, each with the
clauses of its last mark. -/
theorem Module.contracts_of_load {source defaultScope : String} {m : Module}
    (h : Module.load source defaultScope = .ok m) :
    ∃ tokens, tokenizeLayout source.toList = .ok tokens ∧
      List.Forall₂ (fun p (header : Header) => header.Contracts p.2) m.functions
        (headers tokens) := by
  obtain ⟨items, hitems, hholds⟩ := Module.holds_of_load h
  obtain ⟨items', hitems', h⟩ := Exec.bind_eq_ok.1 h
  cases hitems.symm.trans hitems'
  obtain ⟨scopes, hscopes, -⟩ := Module.ofItems_eq_ok h
  have hverify := verify_of_groupItems hscopes
  obtain ⟨tokens, htokens, hitems⟩ := Exec.bind_eq_ok.1 hitems
  refine ⟨tokens, htokens, ?_⟩
  rw [headers, cues_of_itemsOfTokens hitems, headersFrom_items,
    headers_of_items defaultScope [] hverify, List.forall₂_map_right_iff]
  obtain ⟨hlength, hfunctions⟩ := List.forall₂_iff_zip.1 hholds.functions
  refine List.forall₂_iff_zip.2 ⟨hlength, fun {p q} hpq => ?_⟩
  have hmem := mem_of_mem_marked (List.of_mem_zip hpq).2
  exact (hfunctions hpq).2.contracts (hverify q.2 hmem)

/-- A function with one mark, in which a key is repeated and a text is put into parentheses. -/
def repeatedKey : String :=
  "@verify(requires=['a > 0'], ensures=[], requires=[('b > 0'),])\ndef f(): pass\n"

theorem Module.contracts_repeatedKey : ∃ m tokens, Module.load repeatedKey "main" = .ok m ∧
    tokenizeLayout repeatedKey.toList = .ok tokens ∧
    requirements m tokens = ([["a > 0", "b > 0"]], [["a > 0", "b > 0"]]) ∧
    List.Forall₂ (fun p (header : Header) => header.Contracts p.2) m.functions
      (headers tokens) := by
  have h : requiresAs repeatedKey ([["a > 0", "b > 0"]], [["a > 0", "b > 0"]]) = true := by
    decide +kernel
  obtain ⟨m, tokens, hload, htokens, hrequired⟩ := exists_of_requiresAs h
  obtain ⟨tokens', htokens', hcontracts⟩ := Module.contracts_of_load hload
  cases htokens.symm.trans htokens'
  exact ⟨m, tokens, hload, htokens, hrequired, hcontracts⟩

/-- A function with two marks. -/
def repeatedMark : String :=
  "@verify(requires=['a > 0'])\n@verify(requires=['b > 0'])\ndef f(): pass\n"

/-- Of two marks the first one counts for nothing. -/
theorem Module.dropped_clause : ∃ m tokens, Module.load repeatedMark "main" = .ok m ∧
    tokenizeLayout repeatedMark.toList = .ok tokens ∧
    requirements m tokens = ([["b > 0"]], [["a > 0", "b > 0"]]) :=
  exists_of_requiresAs (by decide +kernel)

end Precond.Host
