import Mathlib.Tactic
import Precond.Program.Stmt
import Precond.Proofs.Meaning
import Precond.Typing.Env

/-!
# Runs of statements without loops

`Stmt.Runs` is the big-step semantics of statements over assignments. A `havoc` may choose any value
of the variable's type, a false assertion fails, and a false assumption stops a run without an
outcome. There is no rule for loops: they are cut before anything is said about them.

`Stmt.Establishes s Q ρ` says that no run of `s` from `ρ` fails and that every run that ends does so
where `Q` is true. It is described statement by statement, which is all that later proofs use of the
rules. The rest lists the variables that a statement reads, writes and havocs.
-/

namespace Precond

open Exec (Value)

/-- How a run ends, unless an assumption stops it. -/
inductive Outcome where
  /-- It ran to its end. -/
  | ended (ρ : Assignment)
  /-- An assertion was false. -/
  | failed

/-- The run did not fail and ended where `Q` is true. -/
def Outcome.Satisfies (Q : Assignment → Prop) : Outcome → Prop
  | .ended ρ => Q ρ
  | .failed => False

namespace Stmt

/-! ## Variables -/

/-- The variables that the expressions of a statement read. -/
def freeVars : Stmt → List String
  | .skip | .havoc _ => []
  | .assign _ e => e.freeVars
  | .assume e | .assert e => e.freeVars
  | .seq s t => freeVars s ++ freeVars t
  | .branch c s t => c.freeVars ++ freeVars s ++ freeVars t
  | .loop invariants c s => Expr.freeVarsAll invariants ++ c.freeVars ++ freeVars s

/-- The variables that a statement gives any value. -/
def havocked : Stmt → List String
  | .havoc x => [x]
  | .seq s t => havocked s ++ havocked t
  | .branch _ s t => havocked s ++ havocked t
  | .loop _ _ s => havocked s
  | .skip | .assign .. | .assume _ | .assert _ => []

theorem mem_addName {x y : String} {names : List String} :
    x ∈ addName y names ↔ x ∈ names ∨ x = y := by
  unfold addName
  split_ifs with h
  · exact ⟨Or.inl, fun hx => hx.elim id fun hxy => hxy ▸ h⟩
  · simp

/-- The names that are added for a statement are those that it writes. -/
theorem mem_addWritten {x : String} {names : List String} {s : Stmt} :
    x ∈ addWritten names s ↔ x ∈ names ∨ x ∈ s.writtenVars := by
  induction s generalizing names with
  | skip | assume | assert => simp [writtenVars, addWritten]
  | assign | havoc => simp [writtenVars, addWritten, mem_addName]
  | seq s t ihs iht | branch c s t ihs iht =>
    simp only [writtenVars, addWritten] at ihs iht ⊢
    rw [iht, ihs, @iht (addWritten [] s), or_assoc]
  | loop invariants c s ih => exact ih

theorem mem_writtenVars_seq {x : String} {s t : Stmt} :
    x ∈ (Stmt.seq s t).writtenVars ↔ x ∈ s.writtenVars ∨ x ∈ t.writtenVars := by
  simpa only [writtenVars, addWritten] using @mem_addWritten x (addWritten [] s) t

theorem mem_writtenVars_branch {x : String} {c : Expr} {s t : Stmt} :
    x ∈ (Stmt.branch c s t).writtenVars ↔ x ∈ s.writtenVars ∨ x ∈ t.writtenVars := by
  simpa only [writtenVars, addWritten] using @mem_addWritten x (addWritten [] s) t

/-! ## Runs -/

/-- A run of a statement from an assignment, where the variables have the given types. -/
inductive Runs (I : Convention) (env : TypeEnv) : Stmt → Assignment → Outcome → Prop
  | skip {ρ} : Runs I env .skip ρ (.ended ρ)
  | assign {x e ρ} : Runs I env (.assign x e) ρ (.ended (Function.update ρ x (e.meaning I ρ)))
  | assert {c ρ} : Expr.Holds I ρ c → Runs I env (.assert c) ρ (.ended ρ)
  | assertFalse {c ρ} : ¬Expr.Holds I ρ c → Runs I env (.assert c) ρ .failed
  | assume {c ρ} : Expr.Holds I ρ c → Runs I env (.assume c) ρ (.ended ρ)
  | seq {s t ρ mid o} : Runs I env s ρ (.ended mid) → Runs I env t mid o → Runs I env (.seq s t) ρ o
  | seqFailed {s t ρ} : Runs I env s ρ .failed → Runs I env (.seq s t) ρ .failed
  | branchTrue {c s t ρ o} :
      Expr.Holds I ρ c → Runs I env s ρ o → Runs I env (.branch c s t) ρ o
  | branchFalse {c s t ρ o} :
      ¬Expr.Holds I ρ c → Runs I env t ρ o → Runs I env (.branch c s t) ρ o
  | havoc {x ty v ρ} : env.get? x = some ty → ty.admits v = true →
      Runs I env (.havoc x) ρ (.ended (Function.update ρ x v))

/-- No run fails, and every run that ends does so where `Q` is true. -/
def Establishes (I : Convention) (env : TypeEnv) (s : Stmt) (Q : Assignment → Prop)
    (ρ : Assignment) : Prop :=
  ∀ o, Runs I env s ρ o → o.Satisfies Q

variable {I : Convention} {env : TypeEnv} {Q : Assignment → Prop} {ρ : Assignment}

/-- A statement establishes `Q` if no run fails and all that end do so where it is true. -/
theorem establishes_iff {s : Stmt} :
    Establishes I env s Q ρ ↔
      ¬Runs I env s ρ .failed ∧ ∀ ρ', Runs I env s ρ (.ended ρ') → Q ρ' := by
  constructor
  · intro h
    exact ⟨fun hf => h _ hf, fun ρ' hr => h _ hr⟩
  · rintro ⟨hf, hr⟩ (ρ' | _) ho
    · exact hr ρ' ho
    · exact hf ho

theorem establishes_skip : Establishes I env .skip Q ρ ↔ Q ρ := by
  constructor
  · exact fun h => h _ .skip
  · rintro h _ ⟨⟩
    exact h

/-- An assignment establishes what is true with the new value. -/
theorem establishes_assign {x : String} {e : Expr} :
    Establishes I env (.assign x e) Q ρ ↔ Q (Function.update ρ x (e.meaning I ρ)) := by
  constructor
  · exact fun h => h _ .assign
  · rintro h _ ⟨⟩
    exact h

/-- An assertion has to be true, and so has `Q`. -/
theorem establishes_assert {c : Expr} :
    Establishes I env (.assert c) Q ρ ↔ Q ρ ∧ Expr.Holds I ρ c := by
  constructor
  · intro h
    have hc : Expr.Holds I ρ c := by
      by_contra hc
      exact h _ (.assertFalse hc)
    exact ⟨h _ (.assert hc), hc⟩
  · rintro ⟨hq, hc⟩ _ (_ | _ | ⟨_⟩ | ⟨hn⟩)
    · exact hq
    · exact hn hc

/-- Behind an assumption only the runs count that pass it. -/
theorem establishes_assume {c : Expr} :
    Establishes I env (.assume c) Q ρ ↔ (Expr.Holds I ρ c → Q ρ) := by
  constructor
  · exact fun h hc => h _ (.assume hc)
  · rintro h _ (_ | _ | _ | _ | ⟨hc⟩)
    exact h hc

/-- Statements in a row: the first one establishes that the second one establishes `Q`. -/
theorem establishes_seq {s t : Stmt} :
    Establishes I env (.seq s t) Q ρ ↔ Establishes I env s (Establishes I env t Q) ρ := by
  constructor
  · rintro h (mid | _) hs
    · exact fun o ht => h o (.seq hs ht)
    · exact h _ (.seqFailed hs)
  · intro h o ho
    cases ho with
    | seq hs ht => exact h _ hs _ ht
    | seqFailed hs => exact h _ hs

/-- Each branch has to establish `Q` in the runs that take it. -/
theorem establishes_branch {c : Expr} {s t : Stmt} :
    Establishes I env (.branch c s t) Q ρ ↔
      (Expr.Holds I ρ c → Establishes I env s Q ρ) ∧
        (¬Expr.Holds I ρ c → Establishes I env t Q ρ) := by
  constructor
  · intro h
    exact ⟨fun hc o ho => h o (.branchTrue hc ho), fun hc o ho => h o (.branchFalse hc ho)⟩
  · intro h o ho
    cases ho with
    | branchTrue hc ho => exact h.1 hc o ho
    | branchFalse hc ho => exact h.2 hc o ho

/-- A variable that is havocked may have any value of its type. -/
theorem establishes_havoc {x : String} {ty : Ty} (hx : env.get? x = some ty) :
    Establishes I env (.havoc x) Q ρ ↔ ∀ v, ty.admits v = true → Q (Function.update ρ x v) := by
  constructor
  · exact fun h v hv => h _ (.havoc hx hv)
  · intro h o ho
    cases ho with
    | havoc hx' hv =>
      obtain rfl := Option.some.inj (hx.symm.trans hx')
      exact h _ hv

/-- What is established may be weakened. -/
theorem Establishes.mono {s : Stmt} {Q' : Assignment → Prop} (h : Establishes I env s Q ρ)
    (hQ : ∀ ρ, Q ρ → Q' ρ) : Establishes I env s Q' ρ := by
  rintro (ρ' | _) ho
  · exact hQ ρ' (h _ ho)
  · exact h _ ho

end Stmt

end Precond
