import Mathlib.Tactic
import Precond.Proofs.WrittenPrograms
import Precond.Verify.Session

/-!
# What lowering makes of a program

Lowering a written program gives a written statement, whose quantifiers come from its annotations.
So the variables of all its quantifiers are drawn (`Host.Stmt.Written.lower`), also after its loops
are cut (`Host.Stmt.made_lowerBody`). The same is true of the clauses of a contract
(`Host.Subject.allMade_parseClauses`).
-/

namespace Precond

/-- The expression could come from a program: it is written and has no quantifier. -/
structure Expr.Lowered (index : Bool) (e : Expr) : Prop where
  written : e.Written index
  binders : e.binders = []

/-- The statement could come from a text, and the variables of its quantifiers were drawn from the
supply meanwhile. -/
structure Stmt.Made (supply supply' : Supply) (s : Stmt) : Prop where
  written : s.Written
  renews : Renews [] supply.used supply'.used s.binders
  used_le : supply.used ≤ supply'.used

/-- The same for the statements of a list. -/
structure Stmt.AllMade (supply supply' : Supply) (l : List Stmt) : Prop where
  written : ∀ s ∈ l, s.Written
  renews : Renews [] supply.used supply'.used (l.flatMap Stmt.binders)
  used_le : supply.used ≤ supply'.used

/-- The same for the expressions of a list. -/
structure Expr.AllMade (supply supply' : Supply) (es : List Expr) : Prop where
  written : ∀ e ∈ es, e.Written false
  renews : Renews [] supply.used supply'.used (Expr.bindersAll es)
  used_le : supply.used ≤ supply'.used

theorem Expr.bindersAll_eq_nil {es : List Expr} (h : ∀ e ∈ es, e.binders = []) :
    bindersAll es = [] := by
  rw [bindersAll_eq_flatMap]
  exact List.flatMap_eq_nil_iff.2 h

/-- A chain of statements is made if its members are. -/
theorem Stmt.AllMade.sequence {supply supply' : Supply} {l : List Stmt}
    (h : AllMade supply supply' l) : Made supply supply' (sequence l) :=
  ⟨(sequence_iff trivial (fun _ _ => Iff.rfl) l).2 h.written,
    by simpa only [binders_sequence] using h.renews, h.used_le⟩

namespace Host

/-! ## Expressions -/

namespace Expr

/-- An operator that nests to the left, over lowered operands. -/
theorem lowered_foldl {op : Op} {first : Precond.Expr} {rest : List Precond.Expr}
    (hop : op.isUnary = false) (hfirst : first.Lowered false)
    (hrest : ∀ e ∈ rest, e.Lowered false) : (rest.foldl (.binary op) first).Lowered false := by
  induction rest generalizing first with
  | nil => exact hfirst
  | cons e rest ih =>
    rw [List.forall_mem_cons] at hrest
    refine ih ⟨.binary hop hfirst.written hrest.1.written, ?_⟩ hrest.2
    rw [Precond.Expr.binders, hfirst.binders, hrest.1.binders, List.append_nil]

theorem lowered_lowerAll {es : List Expr} {es' : List Precond.Expr}
    (h : ∀ e ∈ es, ∀ e', e.lower = .ok e' → e'.Lowered false) (hes : lowerAll es = .ok es') :
    ∀ e' ∈ es', e'.Lowered false := by
  induction es generalizing es' with
  | nil =>
    cases hes
    exact List.forall_mem_nil _
  | cons e es ih =>
    rw [List.forall_mem_cons] at h
    obtain ⟨e', he, hes⟩ := Exec.bind_eq_ok.1 hes
    obtain ⟨es', hes', hes⟩ := Exec.bind_eq_ok.1 hes
    cases hes
    exact List.forall_mem_cons.2 ⟨h.1 e' he, ih h.2 hes'⟩

theorem lowered_lowerOption {o : Option Expr} {o' : Option Precond.Expr}
    (h : ∀ e, o = some e → ∀ e', e.lower = .ok e' → e'.Lowered false)
    (ho : lowerOption o = .ok o') : ∀ e', o' = some e' → e'.Lowered false := by
  cases o with
  | none =>
    cases ho
    simp
  | some e =>
    obtain ⟨e', he, ho⟩ := Exec.bind_eq_ok.1 ho
    cases ho
    rintro _ heq
    cases heq
    exact h e rfl e' he

/-- A slice of lowered bounds is lowered, with those that are left out filled in. -/
theorem lowered_sliceOf {lower upper step : Option Precond.Expr}
    (hl : ∀ e, lower = some e → e.Lowered false) (hu : ∀ e, upper = some e → e.Lowered false)
    (hs : ∀ e, step = some e → e.Lowered false) :
    (Precond.Expr.sliceOf lower upper step).Lowered true := by
  refine ⟨.sliceOf (fun e he => (hl e he).written) (fun e he => (hu e he).written)
    fun e he => (hs e he).written, ?_⟩
  have hgetD : ∀ (o : Option Precond.Expr) (n : Int), (∀ e, o = some e → e.Lowered false) →
      (o.getD (.int n)).binders = [] := by
    rintro (_ | e) n h
    · rfl
    · exact (h e rfl).binders
  cases upper with
  | none => simp [Precond.Expr.sliceOf, Precond.Expr.binders, hgetD _ _ hl, hgetD _ _ hs]
  | some u =>
    simp [Precond.Expr.sliceOf, Precond.Expr.binders, hgetD _ _ hl, hgetD _ _ hs,
      (hu u rfl).binders]

/-- A written expression becomes a written one, without quantifiers. -/
theorem Written.lower {index : Bool} {e : Expr} (h : e.Written index) {e' : Precond.Expr}
    (he : e.lower = .ok e') : e'.Lowered index := by
  induction h generalizing e' with
  | name h =>
    cases he
    exact ⟨.var h, rfl⟩
  | int | bool =>
    cases he
    exact ⟨.lit, rfl⟩
  | str | list =>
    simp only [Expr.lower] at he
    cases he
  | binary hop _ _ ihl ihr =>
    obtain ⟨l', hl, he⟩ := Exec.bind_eq_ok.1 he
    obtain ⟨r', hr, he⟩ := Exec.bind_eq_ok.1 he
    cases he
    refine ⟨.binary hop (ihl hl).written (ihr hr).written, ?_⟩
    rw [Precond.Expr.binders, (ihl hl).binders, (ihr hr).binders, List.append_nil]
  | unary hop _ ih =>
    obtain ⟨e', he', he⟩ := Exec.bind_eq_ok.1 he
    cases he
    exact ⟨.unary hop (ih he').written, (ih he').binders⟩
  | chain hop _ _ ihfirst ihrest =>
    obtain ⟨first', hfirst, he⟩ := Exec.bind_eq_ok.1 he
    obtain ⟨rest', hrest, he⟩ := Exec.bind_eq_ok.1 he
    cases he
    have := lowered_foldl hop (ihfirst hfirst)
      (lowered_lowerAll (fun e he e' => ihrest e he) hrest)
    exact ⟨this.written.of_false, this.binders⟩
  | @compare index span first rest _ hops _ ihfirst ihrest =>
    match rest with
    | [] | _ :: _ :: _ =>
      simp only [Expr.lower] at he
      cases he
    | [(op, right)] =>
      obtain ⟨l', hl, he⟩ := Exec.bind_eq_ok.1 he
      obtain ⟨r', hr, he⟩ := Exec.bind_eq_ok.1 he
      cases he
      have hright := ihrest (op, right) List.mem_cons_self hr
      refine ⟨.binary (hops (op, right) List.mem_cons_self) (ihfirst hl).written hright.written, ?_⟩
      rw [Precond.Expr.binders, (ihfirst hl).binders, hright.binders, List.append_nil]
  | @call index span f args _ ih =>
    simp only [Expr.lower] at he
    split_ifs at he
    · cases he
    obtain ⟨args', hargs, he⟩ := Exec.bind_eq_ok.1 he
    cases he
    have hargs' := lowered_lowerAll (fun e he e' => ih e he) hargs
    exact ⟨.call fun a ha => (hargs' a ha).written,
      Precond.Expr.bindersAll_eq_nil fun a ha => (hargs' a ha).binders⟩
  | subscript _ _ ihb ihi =>
    obtain ⟨b', hb, he⟩ := Exec.bind_eq_ok.1 he
    obtain ⟨i', hi, he⟩ := Exec.bind_eq_ok.1 he
    cases he
    refine ⟨.subscript (ihb hb).written (ihi hi).written, ?_⟩
    rw [Precond.Expr.binders, (ihb hb).binders, (ihi hi).binders, List.append_nil]
  | slice _ _ _ ihl ihu ihs =>
    obtain ⟨l', hl, he⟩ := Exec.bind_eq_ok.1 he
    obtain ⟨u', hu, he⟩ := Exec.bind_eq_ok.1 he
    obtain ⟨s', hs, he⟩ := Exec.bind_eq_ok.1 he
    cases he
    exact lowered_sliceOf (lowered_lowerOption (fun e he e' => ihl e he) hl)
      (lowered_lowerOption (fun e he e' => ihu e he) hu)
      (lowered_lowerOption (fun e he e' => ihs e he) hs)

/-- An assignment writes a plain name, whatever its target is. -/
theorem Written.assignment {index : Bool} {target : Expr} (h : target.Written index)
    {value e : Precond.Expr} {x : String} (hvalue : value.Lowered false)
    (he : target.assignment value = .ok (x, e)) : Name.Plain x ∧ e.Lowered false := by
  induction h generalizing value with
  | name h =>
    cases he
    exact ⟨h, hvalue⟩
  | @subscript _ span b i hb hi ihb _ =>
    simp only [Expr.assignment] at he
    split_ifs at he with hslice
    · cases he
    obtain ⟨b', hb', he⟩ := Exec.bind_eq_ok.1 he
    obtain ⟨i', hi', he⟩ := Exec.bind_eq_ok.1 he
    have hbase := hb.lower hb'
    have hindex : i'.Lowered false := (hi.of_isSlice (by simpa using hslice)).lower hi'
    have hargs : ∀ a ∈ [b', i', value], a.Lowered false := by
      simpa using ⟨hbase, hindex, hvalue⟩
    exact ihb ⟨.call fun a ha => (hargs a ha).written,
      Precond.Expr.bindersAll_eq_nil fun a ha => (hargs a ha).binders⟩ he
  | _ =>
    simp only [Expr.assignment] at he
    cases he

end Expr

/-! ## Statements -/

/-- A note gives a condition with new variables for its quantifiers. -/
theorem Note.parse_spec {a : Note} {e : Precond.Expr} {supply supply' : Supply}
    (h : a.parse.run.run supply = (.ok e, supply')) :
    e.Written false ∧ Renews [] supply.used supply'.used e.binders ∧
      supply.used ≤ supply'.used :=
  Grammar.Assertion.parse_spec (Naming.run_adapt_eq_ok.1 h)

namespace Stmt

variable {accepted : List String} {supply supply' : Supply}

theorem made_lowerNote {span : Span} {e : Expr} {note : Option Note} {s' : Precond.Stmt}
    (h : (lowerNote span e note).run.run supply = (.ok s', supply')) :
    s'.Made supply supply' := by
  cases note with
  | none => cases e <;> cases h
  | some a =>
    simp only [lowerNote] at h
    split_ifs at h
    · obtain ⟨e', mid, he, h⟩ := Naming.exists_of_run_bind h
      cases h
      obtain ⟨hwritten, hrenews, hle⟩ := a.parse_spec he
      exact ⟨hwritten, hrenews, hle⟩
    · cases h
    · cases h

/-- The statements of a list are made one after another, each with the supply that the one before it
left. -/
theorem allMade_lowerAll {ss : List Stmt} {l : List Precond.Stmt}
    (hss : ∀ s ∈ ss, ∀ {supply supply' s'},
      (s.lower accepted).run.run supply = (.ok s', supply') → s'.Made supply supply')
    (h : (lowerAll accepted ss).run.run supply = (.ok l, supply')) :
    Precond.Stmt.AllMade supply supply' l := by
  induction ss generalizing supply l with
  | nil =>
    cases h
    exact ⟨List.forall_mem_nil _, .nil, le_rfl⟩
  | cons s ss ih =>
    rw [List.forall_mem_cons] at hss
    obtain ⟨s', mid, hs, h⟩ := Naming.exists_of_run_bind h
    obtain ⟨l', mid', hl, h⟩ := Naming.exists_of_run_bind h
    cases h
    have hs' := hss.1 hs
    have hl' := ih hss.2 hl
    exact ⟨List.forall_mem_cons.2 ⟨hs'.written, hl'.written⟩,
      hs'.renews.append_drawn hl'.renews hs'.used_le hl'.used_le, hs'.used_le.trans hl'.used_le⟩

/-- The invariants of a loop and the statements of its body. -/
structure LoopMade (supply supply' : Supply) (invariants : List Precond.Expr)
    (body : List Precond.Stmt) : Prop where
  written : (∀ e ∈ invariants, e.Written false) ∧ ∀ s ∈ body, s.Written
  renews : Renews [] supply.used supply'.used
    (Precond.Expr.bindersAll invariants ++ body.flatMap Precond.Stmt.binders)
  used_le : supply.used ≤ supply'.used

/-- The invariants of a loop and its body are made together, as the ones stand among the others. -/
theorem loopMade_lowerLoop {ss : List Stmt} {invariants : List Precond.Expr}
    {body : List Precond.Stmt}
    (hss : ∀ s ∈ ss, ∀ {supply supply' s'},
      (s.lower accepted).run.run supply = (.ok s', supply') → s'.Made supply supply')
    (h : (lowerLoop accepted ss).run.run supply = (.ok (invariants, body), supply')) :
    LoopMade supply supply' invariants body := by
  induction ss generalizing supply invariants body with
  | nil =>
    cases h
    exact ⟨⟨List.forall_mem_nil _, List.forall_mem_nil _⟩, .nil, le_rfl⟩
  | cons s ss ih =>
    rw [List.forall_mem_cons] at hss
    obtain ⟨note, mid, hnote, h⟩ := Naming.exists_of_run_bind h
    obtain ⟨-, rfl⟩ := Naming.run_ofExcept_eq_ok.1 hnote
    split at h
    · next a _ =>
      obtain ⟨e, mid, he, h⟩ := Naming.exists_of_run_bind h
      obtain ⟨⟨invariants', body'⟩, mid', hl, h⟩ := Naming.exists_of_run_bind h
      cases h
      obtain ⟨hwritten, hrenews, hle⟩ := a.parse_spec he
      have hl' := ih hss.2 hl
      refine ⟨⟨List.forall_mem_cons.2 ⟨hwritten, hl'.written.1⟩, hl'.written.2⟩, ?_,
        hle.trans hl'.used_le⟩
      rw [Precond.Expr.bindersAll, List.append_assoc]
      exact hrenews.append_drawn hl'.renews hle hl'.used_le
    · obtain ⟨s', mid, hs, h⟩ := Naming.exists_of_run_bind h
      obtain ⟨⟨invariants', body'⟩, mid', hl, h⟩ := Naming.exists_of_run_bind h
      cases h
      have hs' := hss.1 hs
      have hl' := ih hss.2 hl
      refine ⟨⟨hl'.written.1, List.forall_mem_cons.2 ⟨hs'.written, hl'.written.2⟩⟩, ?_,
        hs'.used_le.trans hl'.used_le⟩
      refine (hs'.renews.append_drawn hl'.renews hs'.used_le hl'.used_le).perm ?_
      rw [List.flatMap_cons]
      exact List.perm_append_comm_assoc _ _ _

/-- Lowering makes statements whose quantifiers have new variables. -/
theorem Written.lower {s : Stmt} (hs : s.Written) {s' : Precond.Stmt}
    (h : (s.lower accepted).run.run supply = (.ok s', supply')) : s'.Made supply supply' := by
  induction hs generalizing supply supply' s' with
  | pass | give =>
    cases h
    exact ⟨trivial, .nil, le_rfl⟩
  | assign htarget hvalue =>
    obtain ⟨value, mid, hv, h⟩ := Naming.exists_of_run_bind h
    obtain ⟨hlower, rfl⟩ := Naming.run_ofExcept_eq_ok.1 hv
    obtain ⟨⟨x, e⟩, mid, ha, h⟩ := Naming.exists_of_run_bind h
    obtain ⟨hassign, rfl⟩ := Naming.run_ofExcept_eq_ok.1 ha
    cases h
    obtain ⟨hx, he⟩ := htarget.assignment (hvalue.lower hlower) hassign
    refine ⟨⟨hx, he.written, he.binders⟩, ?_, le_rfl⟩
    rw [Precond.Stmt.binders, he.binders]
    exact .nil
  | branch hcond _ _ ihbody ihorelse =>
    obtain ⟨c, mid, hc, h⟩ := Naming.exists_of_run_bind h
    obtain ⟨hlower, rfl⟩ := Naming.run_ofExcept_eq_ok.1 hc
    obtain ⟨body, mid, hb, h⟩ := Naming.exists_of_run_bind h
    obtain ⟨orelse, mid', ho, h⟩ := Naming.exists_of_run_bind h
    cases h
    have hc' := hcond.lower hlower
    have hb' := (allMade_lowerAll (fun s hs => ihbody s hs) hb).sequence
    have ho' := (allMade_lowerAll (fun s hs => ihorelse s hs) ho).sequence
    refine ⟨⟨hc'.written, hb'.written, ho'.written⟩, ?_, hb'.used_le.trans ho'.used_le⟩
    rw [Precond.Stmt.binders, hc'.binders, List.nil_append]
    exact hb'.renews.append_drawn ho'.renews hb'.used_le ho'.used_le
  | loop hcond _ ihbody =>
    obtain ⟨c, mid, hc, h⟩ := Naming.exists_of_run_bind h
    obtain ⟨hlower, rfl⟩ := Naming.run_ofExcept_eq_ok.1 hc
    obtain ⟨⟨invariants, body⟩, mid, hl, h⟩ := Naming.exists_of_run_bind h
    cases h
    have hc' := hcond.lower hlower
    have hl' := loopMade_lowerLoop (fun s hs => ihbody s hs) hl
    refine ⟨⟨hl'.written.1, hc'.written,
      (Precond.Stmt.sequence_iff trivial (fun _ _ => Iff.rfl) body).2 hl'.written.2⟩, ?_,
      hl'.used_le⟩
    rw [Precond.Stmt.binders, hc'.binders, List.append_nil, Precond.Stmt.binders_sequence]
    exact hl'.renews
  | assert hcond =>
    obtain ⟨c, mid, hc, h⟩ := Naming.exists_of_run_bind h
    obtain ⟨hlower, rfl⟩ := Naming.run_ofExcept_eq_ok.1 hc
    cases h
    have hc' := hcond.lower hlower
    refine ⟨hc'.written, ?_, le_rfl⟩
    rw [Precond.Stmt.binders, hc'.binders]
    exact .nil
  | expr =>
    obtain ⟨note, mid, hnote, h⟩ := Naming.exists_of_run_bind h
    obtain ⟨-, rfl⟩ := Naming.run_ofExcept_eq_ok.1 hnote
    exact made_lowerNote h

/-- The body of a function is made with its loops cut. -/
theorem made_lowerBody {body : List Stmt} {s : Precond.Stmt} (hbody : ∀ s ∈ body, s.Written)
    (h : (lowerBody accepted body).run.run supply = (.ok s, supply')) :
    s.Made supply supply' := by
  obtain ⟨s₀, mid, hs₀, h⟩ := Naming.exists_of_run_bind h
  obtain ⟨l, mid', hl, hblock⟩ := Naming.exists_of_run_bind hs₀
  cases hblock
  cases h
  have hblock := (allMade_lowerAll (fun s hs => (hbody s hs).lower) hl).sequence
  have hcut := Precond.Stmt.renews_cutLoops _ mid hblock.renews.nodup fun x hx =>
    (hblock.renews.drawn x hx).mono (Nat.zero_le _) le_rfl
  have hle := Precond.Stmt.used_le_cutLoops (.sequence l) mid
  exact ⟨hblock.written.cutLoops mid, hblock.renews.trans hcut hblock.used_le hle,
    hblock.used_le.trans hle⟩

end Stmt

/-! ## Functions -/

/-- The clauses of a contract are made one after the other. -/
theorem Subject.allMade_parseClauses {clauses : List (Spanned String)} {es : List Precond.Expr}
    {supply supply' : Supply}
    (h : (parseClauses clauses).run.run supply = (.ok es, supply')) :
    Precond.Expr.AllMade supply supply' es := by
  induction clauses generalizing supply es with
  | nil =>
    cases h
    exact ⟨List.forall_mem_nil _, .nil, le_rfl⟩
  | cons clause clauses ih =>
    obtain ⟨e, mid, he, h⟩ := Naming.exists_of_run_bind h
    obtain ⟨es', mid', hes, h⟩ := Naming.exists_of_run_bind h
    cases h
    obtain ⟨hwritten, hrenews, hle⟩ := Grammar.Assertion.parse_spec (Naming.run_adapt_eq_ok.1 he)
    have hes' := ih hes
    exact ⟨List.forall_mem_cons.2 ⟨hwritten, hes'.written⟩,
      hrenews.append_drawn hes'.renews hle hes'.used_le, hle.trans hes'.used_le⟩

end Host

end Precond
