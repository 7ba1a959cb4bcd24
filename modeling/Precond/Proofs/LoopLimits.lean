import Mathlib.Tactic
import Precond.Exec.Run

/-!
# Limits of loops

Every loop of a run, each time it is entered, may take only so many turns. The limit decides whether
a run is in time (`Exec.Result.InTime`), and nothing else: a run that is in time ends in the same way
and in the same store under every greater limit (`Exec.exec_eq_of_inTime`). The induction is on the
statement; for a loop whose body has the property it goes on over the turns that are left
(`Exec.iterate_eq_of_inTime`).

`Exec.Turns` relates the stores at the head of a loop before and after some complete turns. Turns use
up what is left of the limit one by one (`Exec.Turns.iterate_add`), so a loop that is left after `k`
turns ends normally if and only if `k` is at most the limit (`Exec.limit_decides_time`).
-/

namespace Precond.Exec

variable {n m k : Nat} {σ τ : Store}

/-! ## Parts of a run -/

/-- What follows a run, if that ends normally. -/
def Result.andThen (r : Result) (next : Store → Result) : Result :=
  match r with
  | (.ok .normal, σ) => next σ
  | (ending, σ) => (ending, σ)

section Loop

variable {invariants : List Expr} {cond : Expr} {body body' : Store → Result}

/-- The tests at the head of a loop: the invariants, and then whether there is another turn. -/
def headTest (invariants : List Expr) (cond : Expr) (σ : Store) : Except Failure Bool := do
  assertAll σ invariants
  holds σ cond

theorem assertAll_eq_ok {es : List Expr} :
    assertAll σ es = .ok () ↔ ∀ e ∈ es, holds σ e = .ok true := by
  induction es with
  | nil => simp [assertAll]
  | cons e es ih =>
    rw [assertAll, List.forall_mem_cons, ← ih]
    rcases holds σ e with _ | _ | _ <;> simp [bind, Except.bind]

/-- The head of a loop is passed if all invariants are true and the condition has a value. -/
theorem headTest_eq_ok {b : Bool} : headTest invariants cond σ = .ok b ↔
    (∀ e ∈ invariants, holds σ e = .ok true) ∧ holds σ cond = .ok b := by
  rw [← assertAll_eq_ok, headTest]
  cases assertAll σ invariants <;> simp [bind, Except.bind]

/-- One more turn of a loop begins with the tests at its head. -/
theorem iterate_succ (turns : Nat) (σ : Store) :
    iterate n invariants cond body (turns + 1) σ =
      match headTest invariants cond σ with
      | .error failure => (.error failure, σ)
      | .ok false => (.ok .normal, σ)
      | .ok true => (body σ).andThen (iterate n invariants cond body turns) := by
  rw [iterate, headTest]
  rcases assertAll σ invariants with _ | _
  · rfl
  · rcases holds σ cond with _ | _ | _ <;> rfl

/-! ## Greater limits -/

/-- No loop of the run took more turns than it may. -/
def Result.InTime (r : Result) : Prop := ∀ limit, r.1 ≠ .error (.loopLimit limit)

/-- If the two parts of a run are the same where they are in time, so is the whole. -/
theorem Result.andThen_eq_of_inTime {r r' : Result} {next next' : Store → Result}
    (hr : r.InTime → r' = r) (hnext : ∀ σ, (next σ).InTime → next' σ = next σ)
    (h : (r.andThen next).InTime) : r'.andThen next' = r.andThen next := by
  obtain ⟨_ | _ | _, σ⟩ := r
  · rw [hr h]
    rfl
  · rw [hr nofun]
    exact hnext σ h
  · rw [hr nofun]
    rfl

/-- A loop that is in time does the same with more turns left, and with a body that does the same
where it is in time. -/
theorem iterate_eq_of_inTime (hbody : ∀ σ, (body σ).InTime → body' σ = body σ) {turns turns' : Nat}
    (hturns : turns ≤ turns') (h : (iterate n invariants cond body turns σ).InTime) :
    iterate m invariants cond body' turns' σ = iterate n invariants cond body turns σ := by
  induction turns generalizing turns' σ with
  | zero => exact absurd rfl (h n)
  | succ turns ih =>
    obtain ⟨turns', rfl⟩ : ∃ t, turns' = t + 1 := Nat.exists_eq_succ_of_ne_zero (by omega)
    rw [iterate_succ] at h ⊢
    rw [iterate_succ]
    generalize headTest invariants cond σ = test at h ⊢
    rcases test with _ | _ | _
    · rfl
    · rfl
    · exact Result.andThen_eq_of_inTime (hbody σ) (fun _ => ih (by omega)) h

end Loop

/-- A run that is in time is the same under every greater limit. -/
theorem exec_eq_of_inTime (hlimit : n ≤ m) {s : Stmt} (h : (exec n s σ).InTime) :
    exec m s σ = exec n s σ := by
  induction s generalizing σ with
  | skip | assign | assume | assert | havoc => rfl
  | seq s t ihs iht => exact Result.andThen_eq_of_inTime ihs (fun _ => iht) h
  | branch c s t ihs iht =>
    rw [exec] at h ⊢
    rw [exec]
    generalize holds σ c = test at h ⊢
    rcases test with _ | _ | _
    · rfl
    · exact iht h
    · exact ihs h
  | loop invariants cond body ih => exact iterate_eq_of_inTime (fun _ => ih) (by omega) h

/-! ## Complete turns -/

/-- From the head of a loop in one store, `k` complete turns lead to its head in another store. The
invariants are true at each of these heads, and the body runs to its end in each turn. -/
inductive Turns (invariants : List Expr) (cond : Expr) (body : Store → Result) :
    Nat → Store → Store → Prop
  | none {σ : Store} (hinv : ∀ e ∈ invariants, holds σ e = .ok true) :
    Turns invariants cond body 0 σ σ
  | next {k : Nat} {σ mid τ : Store} (hinv : ∀ e ∈ invariants, holds σ e = .ok true)
    (hcond : holds σ cond = .ok true) (hbody : body σ = (.ok .normal, mid))
    (hrest : Turns invariants cond body k mid τ) : Turns invariants cond body (k + 1) σ τ

namespace Turns

variable {invariants : List Expr} {cond : Expr} {body : Store → Result}

theorem invariants_end (h : Turns invariants cond body k σ τ) :
    ∀ e ∈ invariants, holds τ e = .ok true := by
  induction h with
  | none hinv => exact hinv
  | next _ _ _ _ ih => exact ih

/-- The first of some turns are turns. -/
theorem first (h : Turns invariants cond body k σ τ) {j : Nat} (hj : j ≤ k) :
    ∃ mid, Turns invariants cond body j σ mid := by
  induction h generalizing j with
  | none hinv =>
    obtain rfl := Nat.le_zero.1 hj
    exact ⟨_, .none hinv⟩
  | next hinv hcond hbody _ ih =>
    cases j with
    | zero => exact ⟨_, .none hinv⟩
    | succ j =>
      obtain ⟨mid, hmid⟩ := ih (Nat.le_of_succ_le_succ hj)
      exact ⟨mid, .next hinv hcond hbody hmid⟩

/-- Turns are taken from what is left of the limit. -/
theorem iterate_add (h : Turns invariants cond body k σ τ) (left : Nat) :
    iterate n invariants cond body (k + left) σ = iterate n invariants cond body left τ := by
  induction h with
  | none => rw [Nat.zero_add]
  | next hinv hcond hbody _ ih =>
    rw [Nat.add_right_comm, iterate_succ, headTest_eq_ok.2 ⟨hinv, hcond⟩, hbody]
    exact ih

/-- A loop that is left after `k` turns, if it may take as many. -/
theorem iterate_eq_normal (h : Turns invariants cond body k σ τ) (hend : holds τ cond = .ok false)
    {turns : Nat} (hk : k < turns) :
    iterate n invariants cond body turns σ = (.ok .normal, τ) := by
  obtain ⟨left, rfl⟩ := Nat.exists_eq_add_of_lt hk
  rw [Nat.add_assoc, h.iterate_add, iterate_succ, headTest_eq_ok.2 ⟨h.invariants_end, hend⟩]

/-- A loop that takes more turns than it may. -/
theorem iterate_eq_loopLimit (h : Turns invariants cond body k σ τ) {turns : Nat} (hk : turns ≤ k) :
    (iterate n invariants cond body turns σ).1 = .error (.loopLimit n) := by
  obtain ⟨mid, hmid⟩ := h.first hk
  rw [← Nat.add_zero turns, hmid.iterate_add, iterate]

end Turns

/-- The limit decides whether a run is in time, and nothing else. A run that is in time is the same
under a greater limit, and a loop that is left after `k` turns ends normally, in the store that these
lead to, if and only if `k` is at most the limit. -/
theorem limit_decides_time (n : Nat) :
    (∀ s σ m, n ≤ m → (exec n s σ).InTime → exec m s σ = exec n s σ) ∧
      ∀ invariants cond body k σ τ, Turns invariants cond (exec n body) k σ τ →
        holds τ cond = .ok false →
        ((exec n (.loop invariants cond body) σ).1 = .ok .normal ↔ k ≤ n) ∧
          (k ≤ n → exec n (.loop invariants cond body) σ = (.ok .normal, τ)) ∧
          (n < k → (exec n (.loop invariants cond body) σ).1 = .error (.loopLimit n)) := by
  refine ⟨fun s σ m hlimit h => exec_eq_of_inTime hlimit h, ?_⟩
  intro invariants cond body k σ τ hturns hend
  have hnormal : k ≤ n → exec n (.loop invariants cond body) σ = (.ok .normal, τ) :=
    fun hk => hturns.iterate_eq_normal hend (Nat.lt_succ_of_le hk)
  have hlimit : n < k → (exec n (.loop invariants cond body) σ).1 = .error (.loopLimit n) :=
    fun hk => hturns.iterate_eq_loopLimit hk
  refine ⟨⟨fun h => ?_, fun hk => by rw [hnormal hk]⟩, hnormal, hlimit⟩
  by_contra hk
  rw [hlimit (Nat.lt_of_not_le hk)] at h
  cases h

/-- A loop that counts a variable up to a number, with a statement before each step. -/
def countTo (x : String) (bound : Int) (s : Stmt) : Stmt :=
  .loop [.binary .le (.var x) (.int bound)] (.binary .lt (.var x) (.int bound))
    (.seq s (.assign x (.binary .add (.var x) (.int 1))))

/-- Goes through two rows of three cells. -/
def countCells : Stmt := countTo "i" 2 (.seq (.assign "j" (.int 0)) (countTo "j" 3 .skip))

/-- The store in front of a cell. -/
def atCell (i j : Int) : Store := .ofList [("i", .int i), ("j", .int j)]

/-- Three turns are enough for both loops, and the inner one takes no less. -/
theorem limit_decides_time_countCells :
    (exec 3 countCells (atCell 0 0)).InTime ∧
      exec defaultLoopLimit countCells (atCell 0 0) = exec 3 countCells (atCell 0 0) ∧
      ∀ n, (exec n (countTo "j" 3 .skip) (atCell 0 0)).1 = .ok .normal ↔ 3 ≤ n := by
  have htime : (exec 3 countCells (atCell 0 0)).InTime := nofun
  refine ⟨htime, (limit_decides_time 3).1 _ _ _ (by decide) htime, fun n => ?_⟩
  refine ((limit_decides_time n).2 _ _ _ 3 _ (atCell 0 3) ?_ rfl).1
  have hinv {σ : Store} {e : Expr} (he : holds σ e = .ok true) : ∀ e' ∈ [e], holds σ e' = .ok true :=
    List.forall_mem_singleton.2 he
  exact .next (hinv rfl) rfl rfl (.next (hinv rfl) rfl rfl (.next (hinv rfl) rfl rfl
    (.none (hinv rfl))))

end Precond.Exec
