import Mathlib.Tactic
import Precond.Proofs.Meaning
import Precond.Proofs.SubstitutionTermination

/-!
# What substitution does

`Expr.subst` renames a binder that would capture a variable of the replacement, by a substitution in
the body, and then substitutes in the renamed body. The proofs go by what substitution does
(`Expr.Substitutes`), so at such a binder there is a hypothesis for each of the two substitutions.

No variable is captured (`Expr.freeVars_subst`), and in every reading the result is what the
expression is where `x` has the value of the replacement (`Expr.Substitutes.read_eq`).

The last statement needs that `x` is not a primed variable of the replacement: a renamed binder
could then be `x` itself. A name that does not end in a prime is none
(`Name.not_primes_of_not_primed`), and the renaming of a binder `y` to a primed `z` is itself safe,
since `y` is shorter than `z`.
-/

namespace Precond.Expr

/-! ## Free variables -/

/-- A variable is free in a list if it is free in a member. -/
theorem mem_freeVarsAll {x : String} {es : List Expr} :
    x ∈ freeVarsAll es ↔ ∃ e ∈ es, x ∈ e.freeVars := by
  induction es with
  | nil => simp [freeVarsAll]
  | cons e es ih => simp [freeVarsAll, ih]

/-- A free variable of the result is one of the expression other than `x`, or one of the
replacement. -/
theorem Substitutes.mem_freeVars {x w : String} {r e e' : Expr} (h : Substitutes x r e e')
    (hw : w ∈ e'.freeVars) : (w ∈ e.freeVars ∧ w ≠ x) ∨ w ∈ r.freeVars := by
  induction h with
  | here => exact Or.inr hw
  | other hyx =>
    left
    obtain rfl : w = _ := by simpa [freeVars] using hw
    exact ⟨hw, hyx⟩
  | lit => simp [freeVars] at hw
  | binary _ _ iha ihb | subscript _ _ iha ihb | sliceFrom _ _ iha ihb =>
    simp only [freeVars, List.mem_append] at hw ⊢
    rcases hw with hw | hw
    · exact (iha hw).imp_left (And.imp_left Or.inl)
    · exact (ihb hw).imp_left (And.imp_left Or.inr)
  | unary _ ih => exact ih hw
  | slice _ _ _ ihl ihu ihs =>
    simp only [freeVars, List.mem_append] at hw ⊢
    rcases hw with (hw | hw) | hw
    · exact (ihl hw).imp_left (And.imp_left fun hwl => Or.inl (Or.inl hwl))
    · exact (ihu hw).imp_left (And.imp_left fun hwu => Or.inl (Or.inr hwu))
    · exact (ihs hw).imp_left (And.imp_left Or.inr)
  | call hlength _ ih =>
    simp only [freeVars, mem_freeVarsAll] at hw ⊢
    obtain ⟨a', ha', hw⟩ := hw
    obtain ⟨a, ha, hp⟩ := exists_mem_zip_right hlength ha'
    exact (ih _ hp hw).imp_left fun hwa => ⟨⟨a, ha, hwa.1⟩, hwa.2⟩
  | bound =>
    left
    simp only [freeVars, List.mem_filter, decide_eq_true_eq] at hw ⊢
    exact ⟨hw, hw.2⟩
  | kept _ _ _ ih =>
    simp only [freeVars, List.mem_filter, decide_eq_true_eq] at hw ⊢
    exact (ih hw.1).imp_left fun hwb => ⟨⟨hwb.1, hw.2⟩, hwb.2⟩
  | renamed _ _ _ _ _ ihrename ih =>
    -- the binder is renamed to `z`, so what is free in the body is so in the renamed one
    simp only [freeVars, List.mem_filter, decide_eq_true_eq] at hw ⊢
    obtain ⟨hw, hwz⟩ := hw
    rcases ih hw with ⟨hw, hwx⟩ | hw
    · rcases ihrename hw with ⟨hw, hwy⟩ | hw
      · exact Or.inl ⟨⟨hw, hwy⟩, hwx⟩
      · exact absurd (by simpa [freeVars] using hw) hwz
    · exact Or.inr hw

/-- Substitution captures nothing. -/
theorem freeVars_subst {e r : Expr} {x w : String} (hw : w ∈ (e.subst x r).freeVars) :
    (w ∈ e.freeVars ∧ w ≠ x) ∨ w ∈ r.freeVars :=
  (substitutes_subst e x r).mem_freeVars hw

/-! ## Readings -/

variable {α : Type*} {R : Reading α}

/-- Renaming the binder of a body and then substituting gives, under the new binder, what the body
is under the old one. -/
theorem read_congr_renamed {ρ : String → α} {body : Expr} {x y z : String} {v w : α}
    (hz : z ∉ body.freeVars) :
    body.read R (Function.update (Function.update (Function.update ρ z v) x w) y v) =
      body.read R (Function.update (Function.update ρ x w) y v) := by
  refine read_congr body fun t ht => ?_
  have htz : t ≠ z := by
    rintro rfl
    exact hz ht
  simp only [Function.update_apply]
  split_ifs <;> simp_all

/-- The body of a quantifier whose binder is renamed to `z`, after the substitution proper. The two
premises are what substitution does to a body of smaller height. -/
theorem read_renamed {ρ : String → α} {r body body' renamed : Expr} {x y z : String} {v : α}
    (hrename : ∀ ρ : String → α, renamed.read R ρ = body.read R (Function.update ρ y (ρ z)))
    (hsubst : ∀ ρ : String → α,
      body'.read R ρ = renamed.read R (Function.update ρ x (r.read R ρ)))
    (hzx : z ≠ x) (hzr : z ∉ r.freeVars) (hzb : z ∉ body.freeVars) :
    body'.read R (Function.update ρ z v) =
      body.read R (Function.update (Function.update ρ x (r.read R ρ)) y v) := by
  rw [hsubst, hrename, read_update_of_notMem hzr, Function.update_of_ne hzx,
    Function.update_self]
  exact read_congr_renamed hzb

/-- In every reading, the substituted expression is what the expression is where `x` has the value
of the replacement. -/
theorem Substitutes.read_eq {x : String} {r e e' : Expr} (h : Substitutes x r e e')
    (hx : ∀ w ∈ r.freeVars, ¬Name.Primes w x) (ρ : String → α) :
    e'.read R ρ = e.read R (Function.update ρ x (r.read R ρ)) := by
  induction h generalizing ρ with
  | here => simp [read]
  | other hyx => simp [read, hyx]
  | lit => rfl
  | binary _ _ iha ihb | subscript _ _ iha ihb | sliceFrom _ _ iha ihb =>
    simp only [read, iha hx, ihb hx]
  | unary _ ih => simp only [read, ih hx]
  | slice _ _ _ ihl ihu ihs => simp only [read, ihl hx, ihu hx, ihs hx]
  | call hlength _ ih =>
    simp only [read, readAll_eq_map]
    exact congrArg _ (map_eq_map_of_zip hlength fun p hp => (ih p hp hx ρ).symm).symm
  | bound => simp [read]
  | kept hyx hyr _ ih => simp only [read, ih hx, read_update_of_notMem hyr, Function.update_comm hyx]
  | @renamed x r y ty body k z renamed body' hyx hyr hz _ _ ihrename ih =>
    -- the new binder is fresh for the replacement and the body, and it is not `x`
    obtain ⟨hzr, hzb⟩ := not_or.1 hz.not_taken
    have hzx : z ≠ x := fun hzx => hx y hyr (hzx ▸ hz.primes)
    have hrename : ∀ ρ : String → α, renamed.read R ρ =
        body.read R (Function.update ρ y (ρ z)) := by
      intro ρ
      refine (ihrename (fun w hw => ?_) ρ).trans (by simp only [read])
      obtain rfl : w = z := by simpa [freeVars] using hw
      exact hz.primes.asymm
    simp only [read, read_renamed hrename (ih hx) hzx hzr hzb]

theorem read_substWithin {n : Nat} {x : String} {r e : Expr} (h : e.height ≤ n)
    (hx : ∀ w ∈ r.freeVars, ¬Name.Primes w x) (ρ : String → α) :
    (substWithin n x r e).read R ρ = e.read R (Function.update ρ x (r.read R ρ)) :=
  (substitutes_substWithin h).read_eq hx ρ

/-- Substitution is assignment: the substituted expression means what the expression means where `x`
has the value of the replacement. -/
theorem meaning_subst {I : Convention} {e r : Expr} {x : String}
    (hx : ∀ w ∈ r.freeVars, ¬Name.Primes w x) (ρ : Assignment) :
    (e.subst x r).meaning I ρ = e.meaning I (Function.update ρ x (r.meaning I ρ)) := by
  simp only [meaning_eq_read]
  exact (substitutes_subst e x r).read_eq hx ρ

/-- Substitution is assignment in every reading of expressions, whatever the binders of the
expression and the names in the replacement, if the name that is replaced does not end in a
prime. -/
theorem read_subst (R : Reading α) (e r : Expr) {x : String} (hx : ¬Name.Primed x)
    (ρ : String → α) :
    (e.subst x r).read R ρ = e.read R (Function.update ρ x (r.read R ρ)) :=
  read_substWithin le_rfl (fun _ _ => Name.not_primes_of_not_primed hx) ρ

/-- The number `x` is less than any sum, where `first` and `second` are the variables that are
bound. -/
def belowSums (first second : String) (x : Expr) : Expr :=
  .forAll first none (.forAll second none
    (.binary .lt x (.binary .add (.var first) (.var second))))

/-- The case of two nested binders, one of them primed, that would both capture: the outer one is
renamed past the inner one, and the inner one past the new name of the outer one. -/
theorem read_subst_nested_binders :
    let product : Expr := .binary .mul (.var "y") (.var "y'")
    ¬Name.Primed "x" ∧
      (belowSums "y" "y'" (.var "x")).subst "x" product = belowSums "y''" "y'''" product ∧
      ∀ (R : Reading Int) ρ,
        ((belowSums "y" "y'" (.var "x")).subst "x" product).read R ρ =
          (belowSums "y" "y'" (.var "x")).read R
            (Function.update ρ "x" (R.binary .mul (ρ "y") (ρ "y'"))) :=
  ⟨by decide, by decide, fun R ρ => read_subst R _ _ (by decide) ρ⟩

end Precond.Expr
