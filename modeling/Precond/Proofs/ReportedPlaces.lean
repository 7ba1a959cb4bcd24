import Mathlib.Tactic
import Precond.Proofs.ContractClauses
import Precond.Proofs.ErrorPlaces
import Precond.Proofs.PreparedFunctions
import Precond.Proofs.ReadingSteps

/-!
# Where errors in assertions are reported

The assertions of a program are texts between quotes in its source: clauses of contracts and
annotations. Every step that reads one (`Step.read`) is about a text of the program
(`Function.Describes.readsFrom`, `Stmt.readsFrom_stepsAll`), and the offset in the step is where
that text begins in the source, behind the opening quote (`quotes_of_mem_cues`).

An error in such a text has a place in the text, and what is reported is that place, moved by the
offset. `Points` compares it with where the piece at which the error lies is written in the source.
The two agree if no backslash stands in the text up to there; otherwise each end is reported one
byte too far to the left for every backslash in front of it. `reports_of_parseItems` says this of
preparing a function and of carrying over statements, and `misplaced_escapedMisprint` is a program
where an error is reported at the wrong character.
-/

namespace Precond.Host

open Grammar

/-! ## Texts in the source -/

/-- A text among the cues is a token. -/
theorem exists_of_text_mem_cues {tokens : List (Spanned Token)} {text : Spanned String}
    (h : Cue.text text ∈ Grammar.cues tokens) :
    ∃ t ∈ tokens, t.node = .str text.node ∧ t.span = text.span := by
  obtain ⟨t, ht, hcue⟩ := List.mem_filterMap.1 h
  unfold Cue.ofToken? at hcue
  split at hcue <;> cases hcue
  next s hs => exact ⟨t, ht, hs, rfl⟩

/-- A text of a program stands between quotes in its source. -/
theorem quotes_of_mem_cues {source : String} {items : List Item} {text : Spanned String}
    (hitems : parseItems source = .ok items) {item : Item} (hitem : item ∈ items)
    (htext : Cue.text text ∈ item.cues) :
    Quotes source.toList (text.span.start + 1) text.node.toList := by
  obtain ⟨tokens, htokens, hitems⟩ := Exec.bind_eq_ok.1 hitems
  have hcue : Cue.text text ∈ Grammar.cues tokens := by
    rw [cues_of_itemsOfTokens hitems]
    exact List.mem_flatMap_of_mem hitem htext
  obtain ⟨t, ht, hnode, hspan⟩ := exists_of_text_mem_cues hcue
  have hcontent := (laidOut_of_tokenizeLayout htokens).content
  have hmem : t ∈ withoutLayout tokens := by
    simp [withoutLayout, ht, hnode, Token.isLayout]
  rw [← hspan]
  exact (scans_of_scan hcontent).quotes hmem hnode

/-- Every text that is read in some step is among the cues. -/
def ReadsFrom (cs : List Cue) (steps : List Step) : Prop :=
  ∀ ⦃text start⦄, .read text start ∈ steps →
    ∃ s, Cue.text s ∈ cs ∧ s.node = text ∧ s.span.start + 1 = start

/-- Steps that read from some cues, and then steps that read from others. -/
theorem ReadsFrom.append {cs cs' : List Cue} {steps steps' : List Step} (h : ReadsFrom cs steps)
    (h' : ReadsFrom cs' steps') : ReadsFrom (cs ++ cs') (steps ++ steps') := by
  intro text start hmem
  rcases List.mem_append.1 hmem with hmem | hmem
  · obtain ⟨s, hs, htext, hstart⟩ := h hmem
    exact ⟨s, List.mem_append_left _ hs, htext, hstart⟩
  · obtain ⟨s, hs, htext, hstart⟩ := h' hmem
    exact ⟨s, List.mem_append_right _ hs, htext, hstart⟩

theorem readsFrom_carry (cs : List Cue) (r : Except Error Unit) : ReadsFrom cs [.carry r] := by
  intro text start hmem
  simp at hmem

namespace Stmt

variable {accepted : List String}

/-- The text of an annotation is a text of the statement. -/
theorem readsFrom_noteFor? {purpose : String} {s : Stmt} {a : Note}
    (h : s.noteFor? accepted purpose = some a) : ReadsFrom s.cues [.read a.text a.start] := by
  unfold noteFor? at h
  split at h
  · next b hnote =>
    obtain ⟨-, hb⟩ := Option.ite_none_right_eq_some.1 h
    cases hb
    unfold asNote at hnote
    split at hnote
    · split_ifs at hnote
      · split at hnote
        · cases hnote
          intro text start hmem
          cases List.mem_singleton.1 hmem
          next place text =>
            exact ⟨⟨text, place⟩, by simp [cues, Expr.cues, Expr.cuesAll], rfl, rfl⟩
        · cases hnote
      · cases hnote
    · cases hnote
  · cases h

theorem readsFrom_lineSteps (s : Stmt) : ReadsFrom s.cues (lineSteps accepted s) := by
  unfold lineSteps
  split
  · next a ha => exact readsFrom_noteFor? ha
  · exact readsFrom_carry _ _

mutual

/-- By induction on the statement: what its steps read is written in it. -/
theorem readsFrom_steps : (s : Stmt) → ReadsFrom s.cues (steps accepted s)
  | .branch _ cond body orelse => by
    have h := (readsFrom_carry cond.cues (cond.lower.map fun _ => ())).append
      ((readsFrom_stepsAll body).append (readsFrom_stepsAll orelse))
    rw [← List.append_assoc] at h
    exact h
  | .loop _ cond body =>
    (readsFrom_carry cond.cues (cond.lower.map fun _ => ())).append (readsFrom_stepsLoop body)
  | .pass _ | .give _ _ | .assert _ _ | .assign _ _ _ | .expr _ _ => readsFrom_lineSteps _

theorem readsFrom_stepsAll : (ss : List Stmt) → ReadsFrom (cuesAll ss) (stepsAll accepted ss)
  | [] => by intro text start hmem; cases hmem
  | s :: ss => (readsFrom_steps s).append (readsFrom_stepsAll ss)

theorem readsFrom_stepsLoop : (ss : List Stmt) → ReadsFrom (cuesAll ss) (stepsLoop accepted ss)
  | [] => by intro text start hmem; cases hmem
  | s :: ss => by
    have hfirst : ReadsFrom s.cues (match s.noteFor? accepted "invariant" with
        | some a => [.read a.text a.start]
        | none => steps accepted s) := by
      split
      · next a ha => exact readsFrom_noteFor? ha
      · exact readsFrom_steps s
    exact hfirst.append (readsFrom_stepsLoop ss)

end

end Stmt

/-- A clause of a mark is a text of the mark. -/
theorem exists_of_mem_clausesFrom {key name : String} {reading : Bool} {cs : List Cue}
    {clause : Spanned String} (h : clause ∈ clausesFrom key name reading cs) :
    ∃ s, Cue.text s ∈ cs ∧ s.node = clause.node ∧ s.span.start + 1 = clause.span.start := by
  induction cs generalizing name reading with
  | nil => cases h
  | cons c cs ih =>
    have hrest {name : String} {reading : Bool} (h : clause ∈ clausesFrom key name reading cs) :
        ∃ s, Cue.text s ∈ c :: cs ∧ s.node = clause.node ∧
          s.span.start + 1 = clause.span.start := by
      obtain ⟨s, hs, hnode, hstart⟩ := ih h
      exact ⟨s, List.mem_cons_of_mem _ hs, hnode, hstart⟩
    cases c with
    | text s =>
      simp only [clausesFrom] at h
      split_ifs at h
      · rcases List.mem_cons.1 h with rfl | h
        · exact ⟨s, List.mem_cons_self, rfl, rfl⟩
        · exact hrest h
      · exact hrest h
    | name x => exact hrest h
    | equals => exact hrest h
    | mark => exact hrest h
    | function => exact hrest h

/-- The clauses of a key are texts of the mark. -/
theorem readsFrom_clauses {key : String} {mark : List Cue} {texts : List (Spanned String)}
    (h : texts = clauses key mark) :
    ReadsFrom mark (texts.map fun clause => .read clause.node clause.span.start) := by
  intro text start hmem
  obtain ⟨clause, hclause, heq⟩ := List.mem_map.1 hmem
  cases heq
  rw [h] at hclause
  exact exists_of_mem_clausesFrom hclause

/-- What is read of a function that is marked stands in the function. -/
theorem Function.Describes.readsFrom {f : Function} {subject : Subject} (h : f.Describes subject)
    (accepted : List String) :
    ReadsFrom (Item.function f).cues (subject.steps accepted) := by
  obtain ⟨mark, hlast, hcontract⟩ := h.contract
  obtain ⟨hrequires, hensures⟩ := clauses_of_contract hcontract
  have hmark {s : Spanned String} (hs : Cue.text s ∈ mark.cues) :
      Cue.text s ∈ (Item.function f).cues := by
    rw [Item.cues]
    refine List.mem_append_left _ (List.mem_flatMap_of_mem (List.mem_of_getLast? hlast) ?_)
    exact List.mem_cons_of_mem _ hs
  have hbody {s : Spanned String} (hs : Cue.text s ∈ Stmt.cuesAll subject.body) :
      Cue.text s ∈ (Item.function f).cues := by
    rw [h.body] at hs
    simp [Item.cues, Function.cues, hs]
  have hall : ReadsFrom (mark.cues ++ (mark.cues ++ Stmt.cuesAll subject.body))
      (subject.steps accepted) :=
    (readsFrom_clauses hrequires).append
      ((readsFrom_clauses hensures).append (Stmt.readsFrom_stepsAll subject.body))
  intro text start hmem
  obtain ⟨s, hs, htext, hstart⟩ := hall hmem
  refine ⟨s, ?_, htext, hstart⟩
  rcases List.mem_append.1 hs with hs | hs
  · exact hmark hs
  · rcases List.mem_append.1 hs with hs | hs
    · exact hmark hs
    · exact hbody hs

/-- A function of a module is a marked function of the program. -/
theorem Module.Holds.exists_of_mem {m : Module} {defaultScope : String} {items : List Item}
    (h : m.Holds defaultScope items) {s : Scope} (hs : s ∈ m.scopes) {subject : Subject}
    (hsubject : subject ∈ s.subjects) : ∃ f, Item.function f ∈ items ∧ f.Describes subject := by
  have hmem : (s.name, subject) ∈ m.functions :=
    List.mem_flatMap_of_mem hs (List.mem_map_of_mem hsubject)
  obtain ⟨i, hi⟩ := List.mem_iff_get.1 hmem
  have hlength := h.functions.length_eq
  obtain ⟨-, hdescribes⟩ := h.functions.get i.2 (hlength ▸ i.2)
  rw [Fin.eta, hi] at hdescribes
  exact ⟨_, mem_of_mem_marked (List.get_mem _ _), hdescribes⟩

/-! ## Reports -/

/-- An error in a text between quotes that begins at an offset of the source, the piece at which the
error lies, and the range of the source at which it is reported. -/
structure Points (source text : List Char) (start : Nat) (e : Error) (x : Excerpt) (span : Span) :
    Prop where
  source_eq : x.source = source
  text_eq : x.text = text
  start_eq : x.start = start
  /-- In the text the error lies at the piece. -/
  lies : e.LiesAt x.place ∧ Selects text x.place x.piece.text
  /-- The piece as it is written in the source. -/
  origin : Selects source x.origin x.piece.raw
  /-- The range that is reported in the source. -/
  reported : (e.shift start).LiesAt span
  /-- Each end of it lies too far to the left by the number of backslashes between the opening quote
  and the end. -/
  start_add : span.start + x.before.escapes = x.origin.start
  stop_add : span.stop + (x.before.escapes + x.piece.escapes) = x.origin.stop
  /-- So it is where the piece is written only if there is no backslash up to its end. -/
  eq_origin_iff : span = x.origin ↔ x.before.escapes = 0 ∧ x.piece.escapes = 0
  /-- In that case it covers the very characters at which the error lies. -/
  exact : x.before.escapes = 0 → x.piece.escapes = 0 → Selects source span x.piece.text

/-- An error in a text that is written between quotes points into the source. -/
theorem exists_points {source : List Char} {text : String} {start : Nat}
    (hquotes : Quotes source start text.toList) {e : Error}
    (he : Assertion.ofText text = .error e) :
    ∃ x span, Points source text.toList start e x span := by
  obtain ⟨span, piece, hlies, hselects⟩ := Assertion.exists_selects_of_ofText he
  obtain ⟨x, hsource, hstart, htext, rfl⟩ := hquotes.exists_excerpt hselects
  subst hsource hstart
  exact ⟨x, x.place.shift x.start, rfl, htext, rfl, ⟨hlies, htext ▸ x.selects_place⟩,
    x.selects_origin, hlies.shift x.start, x.start_add, x.stop_add, x.shift_eq_origin_iff,
    x.selects_shift⟩

/-- The result of going through some steps of reading a source is the error of the first step that
fails, and the errors of texts point into the source. -/
structure Reports {α : Type} (source : List Char) (steps : List Step) (result : Except Error α) :
    Prop where
  first : ∀ ⦃e⦄, firstError steps = some e → result = .error e
  points : ∀ ⦃text start⦄, .read text start ∈ steps → ∀ ⦃e⦄, Assertion.ofText text = .error e →
    ∃ x span, Points source text.toList start e x span

/-- What is read from a part of a program that can be parsed is reported in its source. -/
theorem reports_of_readsFrom {α : Type} {source : String} {items : List Item}
    (hitems : parseItems source = .ok items) {steps : List Step} {result : Except Error α}
    (hfirst : ∀ ⦃e⦄, firstError steps = some e → result = .error e)
    (hreads : ReadsFrom (items.flatMap Item.cues) steps) :
    Reports source.toList steps result := by
  refine ⟨hfirst, fun text start hread e he => ?_⟩
  obtain ⟨s, hs, rfl, rfl⟩ := hreads hread
  obtain ⟨item, hitem, hs⟩ := List.mem_flatMap.1 hs
  exact exists_points (quotes_of_mem_cues hitems hitem hs) he

/-- The statements of an item. -/
def Item.stmts : Item → List Stmt
  | .function f => f.body
  | .stmt s => [s]

theorem Item.mem_cues_of_stmts {item : Item} {s : Stmt} (hs : s ∈ item.stmts) {c : Cue}
    (hc : c ∈ s.cues) : c ∈ item.cues := by
  cases item with
  | function f =>
    have hbody : c ∈ Stmt.cuesAll f.body := by
      rw [Stmt.cuesAll_eq_flatMap]
      exact List.mem_flatMap_of_mem hs hc
    simp [Item.cues, Function.cues, hbody]
  | stmt t =>
    cases List.mem_singleton.1 hs
    exact hc

/-- Both preparing a function and carrying over statements report errors in assertions where the
assertions stand in the source, up to the backslashes in them. -/
theorem reports_of_parseItems {source : String} {items : List Item}
    (hitems : parseItems source = .ok items) (accepted : List String) :
    (∀ defaultScope m, Module.load source defaultScope = .ok m → ∀ s ∈ m.scopes,
      ∀ f ∈ s.subjects, f.result.isSome →
        Reports source.toList (f.steps accepted) (f.prepare accepted)) ∧
    ∀ ss ⊆ items.flatMap Item.stmts, ∀ supply,
      Reports source.toList (Stmt.stepsAll accepted ss)
        ((Stmt.lowerBlock accepted ss).run.run supply).1 := by
  constructor
  · intro defaultScope m hload s hs subject hsubject hresult
    obtain ⟨items', hitems', hholds⟩ := Module.holds_of_load hload
    cases hitems.symm.trans hitems'
    obtain ⟨f, hf, hdescribes⟩ := hholds.exists_of_mem hs hsubject
    refine reports_of_readsFrom hitems (fun e he => Subject.prepare_eq_error hresult he) ?_
    intro text start hread
    obtain ⟨s, hs, htext, hstart⟩ := hdescribes.readsFrom accepted hread
    exact ⟨s, List.mem_flatMap_of_mem hf hs, htext, hstart⟩
  · intro ss hss supply
    obtain ⟨r, supply', hr, he⟩ := Stmt.does_lowerBlock accepted ss supply
    rw [hr]
    refine reports_of_readsFrom hitems (fun e hfirst => ?_) ?_
    · rw [hfirst] at he
      cases r with
      | ok x => cases he
      | error e' => exact congrArg Except.error (Option.some.inj he)
    · intro text start hread
      obtain ⟨t, ht, htext, hstart⟩ := Stmt.readsFrom_stepsAll ss hread
      rw [Stmt.cuesAll_eq_flatMap] at ht
      obtain ⟨s, hs, ht⟩ := List.mem_flatMap.1 ht
      obtain ⟨item, hitem, hs⟩ := List.mem_flatMap.1 (hss hs)
      exact ⟨t, List.mem_flatMap_of_mem hitem (Item.mem_cues_of_stmts hs ht), htext, hstart⟩

/-- Whether the result of a function is typed and the steps of reading it are the given ones. -/
def Subject.readsIn (f : Subject) (accepted : List String) (steps : List Step) : Bool :=
  f.result.isSome && f.steps accepted = steps

/-- An annotation with a character that starts no token, in front of a backslash. -/
def misprint : String :=
  "@verify(requires=[\"x > 0\"])\ndef f(x: int) -> int:\n    assume(\"x >= $ \\t\")\n    return x\n"

/-- The character is reported where it stands, since no backslash comes before it. -/
theorem reports_misprint : ∃ items m s f, parseItems misprint = .ok items ∧
    Module.load misprint "main" = .ok m ∧ s ∈ m.scopes ∧ f ∈ s.subjects ∧ f.result.isSome ∧
    f.steps ["assume"] = [.read "x > 0" 19, .read "x >= $ \t" 62, .carry (.ok ())] ∧
    Selects misprint.toList ⟨67, 68⟩ ['$'] ∧
    f.prepare ["assume"] = .error (.lex (.unexpectedText "$") ⟨67, 68⟩) ∧
    Reports misprint.toList (f.steps ["assume"]) (f.prepare ["assume"]) ∧
    f.body ⊆ items.flatMap Item.stmts ∧
    Reports misprint.toList (Stmt.stepsAll ["assume"] f.body)
      ((Stmt.lowerBlock ["assume"] f.body).run.run {}).1 := by
  have hreads : Module.hasSubject (Module.load misprint "main") (·.readsIn ["assume"]
      [.read "x > 0" 19, .read "x >= $ \t" 62, .carry (.ok ())]) = true := by
    rw [misprint, Module.load_ofList]
    decide +kernel
  obtain ⟨m, hload, s, hs, f, hf, h⟩ := Module.exists_of_hasSubject hreads
  obtain ⟨hresult, hsteps⟩ : f.result.isSome ∧
      f.steps ["assume"] = [.read "x > 0" 19, .read "x >= $ \t" 62, .carry (.ok ())] := by
    simpa [Subject.readsIn] using h
  have hsign : Selects misprint.toList ⟨67, 68⟩ ['$'] :=
    ⟨"@verify(requires=[\"x > 0\"])\ndef f(x: int) -> int:\n    assume(\"x >= ".toList,
      " \\t\")\n    return x\n".toList, by decide +kernel, by decide +kernel⟩
  have hfirst : firstError (f.steps ["assume"]) = some (.lex (.unexpectedText "$") ⟨67, 68⟩) := by
    rw [hsteps]
    decide +kernel
  obtain ⟨items, hitems, hholds⟩ := Module.holds_of_load hload
  obtain ⟨g, hg, hdescribes⟩ := hholds.exists_of_mem hs hf
  have hbody : f.body ⊆ items.flatMap Item.stmts := by
    rw [hdescribes.body]
    exact fun t ht => List.mem_flatMap_of_mem hg ht
  obtain ⟨hfunctions, hblocks⟩ := reports_of_parseItems hitems ["assume"]
  have hreports := hfunctions "main" m hload s hs f hf hresult
  exact ⟨items, m, s, f, hitems, hload, hs, hf, hresult, hsteps, hsign, hreports.first hfirst,
    hreports, hbody, hblocks f.body hbody {}⟩

/-- A clause in which such a character stands behind a backslash. -/
def escapedMisprint : String :=
  "@verify(ensures=[\"\\t$\"])\ndef f(x: int) -> int:\n    return x\n"

/-- The error is reported at the letter behind the backslash. -/
theorem misplaced_escapedMisprint : ∃ m s f e, Module.load escapedMisprint "main" = .ok m ∧
    s ∈ m.scopes ∧ f ∈ s.subjects ∧ .read "\t$" 18 ∈ f.steps [] ∧
    Assertion.ofText "\t$" = .error e ∧ e.LiesAt ⟨1, 2⟩ ∧ Selects "\t$".toList ⟨1, 2⟩ ['$'] ∧
    f.prepare [] = .error (e.shift 18) ∧ (e.shift 18).LiesAt ⟨19, 20⟩ ∧
    Selects escapedMisprint.toList ⟨19, 20⟩ ['t'] ∧
    ¬ Selects escapedMisprint.toList ⟨19, 20⟩ ['$'] := by
  have hreads : Module.hasSubject (Module.load escapedMisprint "main")
      (·.readsIn [] [.read "\t$" 18, .carry (.ok ())]) = true := by
    rw [escapedMisprint, Module.load_ofList]
    decide +kernel
  obtain ⟨m, hload, s, hs, f, hf, h⟩ := Module.exists_of_hasSubject hreads
  obtain ⟨hresult, hsteps⟩ : f.result.isSome ∧ f.steps [] = [.read "\t$" 18, .carry (.ok ())] := by
    simpa [Subject.readsIn] using h
  have he : Assertion.ofText "\t$" = .error (.lex (.unexpectedText "$") ⟨1, 2⟩) := by
    decide +kernel
  have hletter : Selects escapedMisprint.toList ⟨19, 20⟩ ['t'] :=
    ⟨"@verify(ensures=[\"\\".toList, "$\"])\ndef f(x: int) -> int:\n    return x\n".toList,
      by decide +kernel, by decide +kernel⟩
  refine ⟨m, s, f, _, hload, hs, hf, by simp [hsteps], he, .lex, ⟨['\t'], [], by decide, by decide⟩,
    ?_, .lex, hletter, fun hsign => ?_⟩
  · exact Subject.prepare_eq_error hresult (by simp [hsteps, firstError, Step.error?, errorOf?, he])
  · exact absurd (hletter.unique hsign) (by decide)

end Precond.Host
