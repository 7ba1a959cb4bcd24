import Mathlib.Data.Finset.Dedup
import Mathlib.Tactic
import Precond.Proofs.BinderNames

/-!
# The free variables of a substituted expression

Putting `r` for `x` in `e` takes `x` away and brings the variables of `r`, if `x` is free in `e`;
otherwise the free variables stay as they are (`Expr.freeVars_subst_exact`). The other variables of
`e` are never captured (`Expr.Substitutes.mem_of_ne`), and those of `r` are not where they are put
for a free occurrence of `x` (`Expr.Substitutes.mem_of_mem`), since a renamed binder gets a name
that is free neither in `r` nor in the body.

That name is not kept apart from `x`. If `x` is not free in the body, the binder may be renamed to
`x` itself, and then the substitution proper takes the occurrences of the binder for occurrences of
`x` (`Expr.freeVars_subst_captured`). It cannot happen if no variable of `r`, or no binder of `e`,
becomes `x` when primes are added to it.
-/

namespace Precond.Expr

variable {n : Nat} {x w z : String} {r e e' : Expr}

/-- A free variable other than `x` stays free. -/
theorem Substitutes.mem_of_ne (h : Substitutes x r e e') (hw : w ∈ e.freeVars) (hwx : w ≠ x) :
    w ∈ e'.freeVars := by
  induction h with
  | here => exact absurd (by simpa [freeVars] using hw) hwx
  | other | lit | bound => exact hw
  | binary _ _ iha ihb | subscript _ _ iha ihb | sliceFrom _ _ iha ihb =>
    simp only [freeVars, List.mem_append] at hw ⊢
    exact hw.imp (iha · hwx) (ihb · hwx)
  | unary _ ih => exact ih hw hwx
  | slice _ _ _ ihl ihu ihs =>
    simp only [freeVars, List.mem_append] at hw ⊢
    exact hw.imp (Or.imp (ihl · hwx) (ihu · hwx)) (ihs · hwx)
  | call hlength _ ih =>
    simp only [freeVars, mem_freeVarsAll] at hw ⊢
    obtain ⟨a, ha, hw⟩ := hw
    obtain ⟨a', ha', hp⟩ := exists_mem_zip_left hlength ha
    exact ⟨a', ha', ih _ hp hw hwx⟩
  | kept _ _ _ ih =>
    simp only [freeVars, List.mem_filter, decide_eq_true_eq] at hw ⊢
    exact ⟨ih hw.1 hwx, hw.2⟩
  | renamed _ _ hz _ _ ihrename ih =>
    -- the new binder is not free in the body, so it is not `w`
    simp only [freeVars, List.mem_filter, decide_eq_true_eq] at hw ⊢
    refine ⟨ih (ihrename hw.1 hw.2) hwx, ?_⟩
    rintro rfl
    exact hz.not_taken (Or.inr hw.1)

/-- The variables of the replacement are free where it is put for a free occurrence. -/
theorem Substitutes.mem_of_mem (h : Substitutes x r e e') (hx : x ∈ e.freeVars)
    (hw : w ∈ r.freeVars) : w ∈ e'.freeVars := by
  induction h with
  | here => exact hw
  | other hyx => exact absurd (by simpa [freeVars] using hx) hyx.symm
  | lit => simp [freeVars] at hx
  | binary _ _ iha ihb | subscript _ _ iha ihb | sliceFrom _ _ iha ihb =>
    simp only [freeVars, List.mem_append] at hx ⊢
    exact hx.imp (iha · hw) (ihb · hw)
  | unary _ ih => exact ih hx hw
  | slice _ _ _ ihl ihu ihs =>
    simp only [freeVars, List.mem_append] at hx ⊢
    exact hx.imp (Or.imp (ihl · hw) (ihu · hw)) (ihs · hw)
  | call hlength _ ih =>
    simp only [freeVars, mem_freeVarsAll] at hx ⊢
    obtain ⟨a, ha, hx⟩ := hx
    obtain ⟨a', ha', hp⟩ := exists_mem_zip_left hlength ha
    exact ⟨a', ha', ih _ hp hx hw⟩
  | bound => simp [freeVars] at hx
  | kept _ hyr _ ih =>
    simp only [freeVars, List.mem_filter, decide_eq_true_eq] at hx ⊢
    refine ⟨ih hx.1 hw, ?_⟩
    rintro rfl
    exact hyr hw
  | renamed _ _ hz hrename _ _ ih =>
    simp only [freeVars, List.mem_filter, decide_eq_true_eq] at hx ⊢
    refine ⟨ih (hrename.mem_of_ne hx.1 hx.2) hw, ?_⟩
    rintro rfl
    exact hz.not_taken (Or.inl hw)

/-- Putting one variable for another only adds primes to binders. -/
theorem Substitutes.exists_binder (h : Substitutes x (.var z) e e') (hw : w ∈ e'.binders) :
    ∃ y ∈ e.binders, y = w ∨ Name.Primes y w := by
  generalize hr : Expr.var z = r at h
  induction h generalizing w z with
  | here =>
    subst hr
    simp [binders] at hw
  | other | lit | bound => exact ⟨w, hw, Or.inl rfl⟩
  | binary _ _ iha ihb | subscript _ _ iha ihb | sliceFrom _ _ iha ihb =>
    simp only [binders, List.mem_append, or_and_right, exists_or] at hw ⊢
    exact hw.imp (iha · hr) (ihb · hr)
  | unary _ ih => exact ih hw hr
  | slice _ _ _ ihl ihu ihs =>
    simp only [binders, List.mem_append, or_and_right, exists_or] at hw ⊢
    exact hw.imp (Or.imp (ihl · hr) (ihu · hr)) (ihs · hr)
  | call hlength _ ih =>
    simp only [binders, bindersAll_eq_flatMap, List.mem_flatMap] at hw ⊢
    obtain ⟨a', ha', hw⟩ := hw
    obtain ⟨a, ha, hp⟩ := exists_mem_zip_right hlength ha'
    obtain ⟨y, hy, hyw⟩ := ih _ hp hw hr
    exact ⟨y, ⟨a, ha, hy⟩, hyw⟩
  | kept _ _ _ ih =>
    rw [binders, List.exists_mem_cons_iff]
    rcases List.mem_cons.1 hw with rfl | hw
    · exact Or.inl (Or.inl rfl)
    · exact Or.inr (ih hw hr)
  | renamed _ _ hz _ _ ihrename ih =>
    rw [binders, List.exists_mem_cons_iff]
    rcases List.mem_cons.1 hw with rfl | hw
    · exact Or.inl (Or.inr hz.primes)
    · -- the binders inside are renamed twice
      obtain ⟨b, hb, hbw⟩ := ih hw hr
      obtain ⟨a, ha, hab⟩ := ihrename hb rfl
      refine Or.inr ⟨a, ha, ?_⟩
      rcases hab with rfl | hab
      · exact hbw
      · rcases hbw with rfl | hbw
        · exact Or.inr hab
        · exact Or.inr (hab.trans hbw)

/-- Renaming a binder to avoid the variables of `r` cannot give it the name `x`. -/
def Apart (e : Expr) (x : String) (r : Expr) : Prop :=
  (∀ w ∈ r.freeVars, ¬Name.Primes w x) ∨ ∀ y ∈ e.binders, ¬Name.Primes y x

theorem Apart.mono (h : Apart e x r)
    (hbinders : ∀ w ∈ e'.binders, ∃ y ∈ e.binders, y = w ∨ Name.Primes y w) : Apart e' x r := by
  refine h.imp_right fun h w hw hprimes => ?_
  obtain ⟨y, hy, rfl | hyw⟩ := hbinders w hw
  · exact h y hy hprimes
  · exact h y hy (hyw.trans hprimes)

theorem Apart.of_subset (h : Apart e x r) (hbinders : e'.binders ⊆ e.binders) :
    Apart e' x r :=
  h.mono fun w hw => ⟨w, hbinders hw, Or.inl rfl⟩

/-- Where `x` is not free, nothing is put for it. -/
theorem Substitutes.mem_of_notMem (h : Substitutes x r e e') (hx : x ∉ e.freeVars)
    (hapart : Apart e x r) (hw : w ∈ e'.freeVars) : w ∈ e.freeVars := by
  induction h with
  | here => exact absurd (by simp [freeVars]) hx
  | other | lit | bound => exact hw
  | binary _ _ iha ihb | subscript _ _ iha ihb | sliceFrom _ _ iha ihb =>
    simp only [freeVars, List.mem_append, not_or] at hx hw ⊢
    exact hw.imp (iha hx.1 (hapart.of_subset (by simp [binders])))
      (ihb hx.2 (hapart.of_subset (by simp [binders])))
  | unary _ ih => exact ih hx hapart hw
  | slice _ _ _ ihl ihu ihs =>
    simp only [freeVars, List.mem_append, not_or] at hx hw ⊢
    exact hw.imp (Or.imp (ihl hx.1.1 (hapart.of_subset (by simp [binders])))
      (ihu hx.1.2 (hapart.of_subset (by simp [binders]))))
      (ihs hx.2 (hapart.of_subset (by simp [binders])))
  | @call _ _ f args _ hlength _ ih =>
    simp only [freeVars, mem_freeVarsAll, not_exists, not_and] at hx hw ⊢
    obtain ⟨a', ha', hw⟩ := hw
    obtain ⟨a, ha, hp⟩ := exists_mem_zip_right hlength ha'
    have hbinders : a.binders ⊆ (Expr.call f args).binders := by
      rw [binders, bindersAll_eq_flatMap]
      exact fun y hy => List.mem_flatMap.2 ⟨a, ha, hy⟩
    exact ⟨a, ha, ih _ hp (hx a ha) (hapart.of_subset hbinders) hw⟩
  | @kept _ _ y _ body _ hyx _ _ ih =>
    simp only [freeVars, List.mem_filter, decide_eq_true_eq, not_and, not_not] at hx hw ⊢
    have hbody := hapart.of_subset (List.subset_cons_self y body.binders)
    exact ⟨ih (fun hxb => hyx (hx hxb).symm) hbody hw.1, hw.2⟩
  | @renamed x r y _ body _ z renamed _ hyx hyr hz hrename _ _ ih =>
    -- the binder is not renamed to `x`, so `x` is not free in the renamed body either
    simp only [freeVars, List.mem_filter, decide_eq_true_eq, not_and, not_not] at hx hw ⊢
    have hbody : Apart body x r := hapart.of_subset (List.subset_cons_self y body.binders)
    have hzx : z ≠ x := by
      rintro rfl
      exact hapart.elim (· y hyr hz.primes) (· y List.mem_cons_self hz.primes)
    have hrenamed : ∀ {v}, v ∈ renamed.freeVars → (v ∈ body.freeVars ∧ v ≠ y) ∨ v = z :=
      fun hv => by simpa [freeVars] using hrename.mem_freeVars hv
    have hx' : x ∉ renamed.freeVars := fun hmem =>
      (hrenamed hmem).elim (fun hbody => hyx (hx hbody.1).symm) fun hxz => hzx hxz.symm
    have hkept := ih hx' (hbody.mono fun _ => hrename.exists_binder) hw.1
    exact (hrenamed hkept).resolve_right hw.2

theorem mem_substWithin_of_ne (h : e.height ≤ n) (hw : w ∈ e.freeVars) (hwx : w ≠ x) :
    w ∈ (substWithin n x r e).freeVars :=
  (substitutes_substWithin h).mem_of_ne hw hwx

theorem mem_substWithin_of_mem (h : e.height ≤ n) (hx : x ∈ e.freeVars) (hw : w ∈ r.freeVars) :
    w ∈ (substWithin n x r e).freeVars :=
  (substitutes_substWithin h).mem_of_mem hx hw

theorem mem_of_mem_substWithin (h : e.height ≤ n) (hx : x ∉ e.freeVars) (hapart : Apart e x r)
    (hw : w ∈ (substWithin n x r e).freeVars) : w ∈ e.freeVars :=
  (substitutes_substWithin h).mem_of_notMem hx hapart hw

/-- The free variables of a substituted expression, whatever the names, if `x` is free in the
expression or no binder can get the name `x` when it is renamed. -/
theorem freeVars_subst_exact (e r : Expr) (x : String) (h : x ∈ e.freeVars ∨ Apart e x r) :
    (e.subst x r).freeVars.toFinset =
      if x ∈ e.freeVars then e.freeVars.toFinset.erase x ∪ r.freeVars.toFinset
      else e.freeVars.toFinset := by
  ext w
  split_ifs with hx
  · simp only [Finset.mem_union, Finset.mem_erase, List.mem_toFinset]
    constructor
    · intro hw
      exact (freeVars_subst hw).imp_left And.symm
    · rintro (⟨hwx, hw⟩ | hw)
      · exact mem_substWithin_of_ne le_rfl hw hwx
      · exact mem_substWithin_of_mem le_rfl hx hw
  · simp only [List.mem_toFinset]
    constructor
    · exact mem_of_mem_substWithin le_rfl hx (h.resolve_left hx)
    · intro hw
      refine mem_substWithin_of_ne le_rfl hw ?_
      rintro rfl
      exact hx hw

/-- A primed name that is free beside a binder which has to be renamed past it, and a name that is
not free where a binder has to be renamed. -/
theorem freeVars_subst_exact_primed :
    "y'" ∈ (forAll "y" none (.binary .lt (.var "y") (.var "y'"))).freeVars ∧
      ((forAll "y" none (.binary .lt (.var "y") (.var "y'"))).subst "y'"
        (.binary .add (.var "y") (.var "z"))).freeVars.toFinset = {"y", "z"} ∧
      "x" ∉ (forAll "y" none (.binary .lt (.var "y") (.var "y'"))).freeVars ∧
      ((forAll "y" none (.binary .lt (.var "y") (.var "y'"))).subst "x"
        (.binary .add (.var "y") (.var "z"))).freeVars.toFinset = {"y'"} := by
  refine ⟨by decide, ?_, by decide, ?_⟩
  · rw [freeVars_subst_exact _ _ _ (Or.inl (by decide))]
    decide
  · have hx : ∀ w, ¬Name.Primes w "x" := fun w => Name.not_primes_of_not_primed (by decide)
    rw [freeVars_subst_exact _ _ _ (Or.inr (Or.inl fun w _ => hx w))]
    decide

/-- A closed expression in which `y'` is not free, and yet substitution for `y'` makes `y` free: the
binder is renamed to `y'`, and its occurrence is then replaced. -/
theorem freeVars_subst_captured :
    (forAll "y" none (.binary .gt (.var "y") (int 0))).freeVars = [] ∧
      (forAll "y" none (.binary .gt (.var "y") (int 0))).subst "y'" (.var "y") =
        .forAll "y'" none (.binary .gt (.var "y") (int 0)) ∧
      ((forAll "y" none (.binary .gt (.var "y") (int 0))).subst "y'" (.var "y")).freeVars =
        ["y"] := by
  decide

end Precond.Expr
