import Mathlib.Data.List.Forall2
import Mathlib.Tactic
import Precond.Proofs.BinderNames

/-!
# Renaming binders

Two expressions are `Expr.Alike` if they differ in the names of their binders only. Which names
correspond is said by a list of pairs, the innermost binders first, so that an inner binder hides an
outer one of the same name (`Expr.Paired`). Expressions that are alike have the same free variables
(`Expr.Alike.freeVars_eq`) and the same value in every reading (`Expr.Alike.read_eq`).

`Expr.alphaRename` renames the body of a quantifier first and then puts the new variable for the old
one. By then no binder of the body has the old name any more, so the substitution goes everywhere,
and none has the new name yet, so it renames nothing itself (`Expr.Alike.substWithin`). Hence the
result is alike, its binders are the stems of the old ones with numbers of their own, and one name
is drawn for each quantifier (`Expr.renamedApart_alphaRename`).
-/

namespace Precond.Expr

/-! ## Expressions that differ in their binders -/

/-- The variables stand for the same, where the pairs are the binders around them, the innermost
first. -/
def Paired : List (String × String) → String → String → Prop
  | [], x, y => x = y
  | p :: ps, x, y => (x = p.1 ∧ y = p.2) ∨ (x ≠ p.1 ∧ y ≠ p.2 ∧ Paired ps x y)

/-- The expressions are the same but for the names of binders, where those around them correspond as
the pairs say. -/
inductive Alike : List (String × String) → Expr → Expr → Prop
  | var {ps x y} (h : Paired ps x y) : Alike ps (.var x) (.var y)
  | lit {ps v} : Alike ps (.lit v) (.lit v)
  | binary {ps op l l' r r'} (hl : Alike ps l l') (hr : Alike ps r r') :
      Alike ps (.binary op l r) (.binary op l' r')
  | unary {ps op e e'} (h : Alike ps e e') : Alike ps (.unary op e) (.unary op e')
  | subscript {ps b b' i i'} (hb : Alike ps b b') (hi : Alike ps i i') :
      Alike ps (.subscript b i) (.subscript b' i')
  | slice {ps l l' u u' s s'} (hl : Alike ps l l') (hu : Alike ps u u') (hs : Alike ps s s') :
      Alike ps (.slice l u s) (.slice l' u' s')
  | sliceFrom {ps l l' s s'} (hl : Alike ps l l') (hs : Alike ps s s') :
      Alike ps (.sliceFrom l s) (.sliceFrom l' s')
  | call {ps f args args'} (hlength : args.length = args'.length)
      (h : ∀ p ∈ args.zip args', Alike ps p.1 p.2) : Alike ps (.call f args) (.call f args')
  | forAll {ps x y ty body body'} (h : Alike ((x, y) :: ps) body body') :
      Alike ps (.forAll x ty body) (.forAll y ty body')

/-- The innermost pair binds the two names together or neither of them. -/
theorem Paired.eq_iff {ps : List (String × String)} {x y : String} {p : String × String}
    (h : Paired (p :: ps) x y) : x = p.1 ↔ y = p.2 := by
  rcases h with ⟨hx, hy⟩ | ⟨hx, hy, -⟩
  · exact iff_of_true hx hy
  · exact iff_of_false hx hy

theorem Paired.of_ne {ps : List (String × String)} {x y : String} {p : String × String}
    (h : Paired (p :: ps) x y) (hx : x ≠ p.1) : Paired ps x y :=
  h.elim (fun h => absurd h.1 hx) fun h => h.2.2

/-- Where every binder keeps its name, so does every variable. -/
theorem paired_self (scope : List String) (x : String) :
    Paired (scope.map fun a => (a, a)) x x := by
  induction scope with
  | nil => rfl
  | cons a scope ih =>
    by_cases hx : x = a
    · exact Or.inl ⟨hx, hx⟩
    · exact Or.inr ⟨hx, hx, ih⟩

/-- A pair of variables is hidden by the binders around it together or not at all. -/
theorem forall₂_filter_of_paired {ps : List (String × String)} {x y : String}
    {xs ys : List String} (h : List.Forall₂ (Paired ((x, y) :: ps)) xs ys) :
    List.Forall₂ (Paired ps) (xs.filter (· ≠ x)) (ys.filter (· ≠ y)) := by
  induction h with
  | nil => exact .nil
  | @cons a b _ _ hab _ ih =>
    by_cases ha : a = x
    · simpa [ha, hab.eq_iff.1 ha] using ih
    · have hb : b ≠ y := fun hb => ha (hab.eq_iff.2 hb)
      simpa [ha, hb] using And.intro (hab.of_ne ha) ih

/-- Lists of expressions have related free variables if the expressions have. -/
theorem forall₂_freeVarsAll {r : String → String → Prop} {es es' : List Expr}
    (h : List.Forall₂ (fun e e' => List.Forall₂ r e.freeVars e'.freeVars) es es') :
    List.Forall₂ r (freeVarsAll es) (freeVarsAll es') := by
  induction h with
  | nil => exact .nil
  | cons he _ ih => exact List.rel_append he ih

namespace Alike

variable {ps : List (String × String)} {e e' : Expr}

/-- Expressions that are alike have the same value where corresponding variables have. -/
theorem read_eq {α : Type*} {R : Reading α} {ρ ρ' : String → α} (h : Alike ps e e')
    (hρ : ∀ x y, Paired ps x y → ρ x = ρ' y) : e.read R ρ = e'.read R ρ' := by
  induction h generalizing ρ ρ' with
  | var hxy => simpa [read] using hρ _ _ hxy
  | lit => rfl
  | binary _ _ ihl ihr | subscript _ _ ihl ihr | sliceFrom _ _ ihl ihr =>
    simp only [read, ihl hρ, ihr hρ]
  | unary _ ih => simp only [read, ih hρ]
  | slice _ _ _ ihl ihu ihs => simp only [read, ihl hρ, ihu hρ, ihs hρ]
  | call hlength _ ih =>
    simp only [read, readAll_eq_map]
    exact congrArg _ (map_eq_map_of_zip hlength fun p hp => ih p hp hρ)
  | @forAll _ x y ty body body' _ ih =>
    have hbody : ∀ v, body.read R (Function.update ρ x v) =
        body'.read R (Function.update ρ' y v) := by
      refine fun v => ih fun a b hab => ?_
      rcases hab with ⟨rfl, rfl⟩ | ⟨ha, hb, hab⟩
      · simp
      · simpa [ha, hb] using hρ a b hab
    simp only [read, hbody]

/-- The free variables of expressions that are alike correspond one by one. -/
theorem forall₂_freeVars (h : Alike ps e e') :
    List.Forall₂ (Paired ps) e.freeVars e'.freeVars := by
  induction h with
  | var hxy => exact .cons hxy .nil
  | lit => exact .nil
  | binary _ _ ihl ihr | subscript _ _ ihl ihr | sliceFrom _ _ ihl ihr =>
    exact List.rel_append ihl ihr
  | unary _ ih => exact ih
  | slice _ _ _ ihl ihu ihs => exact List.rel_append (List.rel_append ihl ihu) ihs
  | call hlength _ ih =>
    exact forall₂_freeVarsAll (List.forall₂_iff_zip.2 ⟨hlength, fun hp => ih _ hp⟩)
  | forAll _ ih => exact forall₂_filter_of_paired ih

/-- Expressions that differ only in the names of their binders have the same free variables. -/
theorem freeVars_eq (h : Alike [] e e') : e'.freeVars = e.freeVars := by
  have hsame : List.Forall₂ (· = ·) e.freeVars e'.freeVars := h.forall₂_freeVars
  rw [List.forall₂_eq_eq_eq] at hsame
  exact hsame.symm

end Alike

/-! ## Putting a new variable for a binder -/

/-- A new name for a binder of the second expression is put for the old one. -/
theorem Paired.renamed {inner ps : List (String × String)} {x y a b : String}
    (h : Paired (inner ++ (x, x) :: ps) a b) (hinner : ∀ p ∈ inner, p.2 ≠ x ∧ p.2 ≠ y)
    (hb : b ≠ y) : Paired (inner ++ (x, y) :: ps) a (if b = x then y else b) := by
  induction inner with
  | nil =>
    rcases h with ⟨rfl, rfl⟩ | ⟨ha, hbx, h⟩
    · exact Or.inl ⟨rfl, if_pos rfl⟩
    · rw [if_neg hbx]
      exact Or.inr ⟨ha, hb, h⟩
  | cons p inner ih =>
    rw [List.forall_mem_cons] at hinner
    rcases h with ⟨ha, rfl⟩ | ⟨ha, hbp, h⟩
    · rw [if_neg hinner.1.1]
      exact Or.inl ⟨ha, rfl⟩
    · refine Or.inr ⟨ha, ?_, ih h hinner.2⟩
      split_ifs
      · exact hinner.1.2.symm
      · exact hbp

/-- A binder `x` around the second expression may be renamed to `y`, if neither is a binder inside
it and `y` is not free in it. -/
theorem Alike.substWithin {inner ps : List (String × String)} {x y : String} {n : Nat}
    {e e' : Expr} (h : Alike (inner ++ (x, x) :: ps) e e') (hn : e'.height ≤ n)
    (hinner : ∀ p ∈ inner, p.2 ≠ x ∧ p.2 ≠ y) (hbinders : ∀ b ∈ e'.binders, b ≠ x ∧ b ≠ y)
    (hy : y ∉ e'.freeVars) :
    Alike (inner ++ (x, y) :: ps) e (substWithin n x (.var y) e') := by
  induction n generalizing inner e e' with
  | zero => cases e' <;> simp [height] at hn
  | succ n ih =>
    cases h with
    | @var _ a b hab =>
      have hb : b ≠ y := fun hb => hy (by simp [freeVars, hb])
      have hrenamed := Alike.var (hab.renamed hinner hb)
      by_cases hbx : b = x
      · simpa [Expr.substWithin, hbx] using hrenamed
      · simpa [Expr.substWithin, hbx] using hrenamed
    | lit => exact .lit
    | binary hl hr | subscript hl hr | sliceFrom hl hr =>
      simp only [height, Nat.add_le_add_iff_right, Nat.max_le] at hn
      simp only [binders, List.forall_mem_append] at hbinders
      simp only [freeVars, List.mem_append, not_or] at hy
      constructor
      · exact ih hl hn.1 hinner hbinders.1 hy.1
      · exact ih hr hn.2 hinner hbinders.2 hy.2
    | unary h =>
      simp only [height, Nat.add_le_add_iff_right] at hn
      exact .unary (ih h hn hinner hbinders hy)
    | slice hl hu hs =>
      simp only [height, Nat.add_le_add_iff_right, Nat.max_le] at hn
      simp only [binders, List.forall_mem_append] at hbinders
      simp only [freeVars, List.mem_append, not_or] at hy
      exact .slice (ih hl hn.1 hinner hbinders.1.1 hy.1.1)
        (ih hu hn.2.1 hinner hbinders.1.2 hy.1.2) (ih hs hn.2.2 hinner hbinders.2 hy.2)
    | @call _ f args args' hlength h =>
      simp only [height, Nat.add_le_add_iff_right] at hn
      simp only [binders, bindersAll_eq_flatMap, List.forall_mem_flatMap] at hbinders
      simp only [freeVars, mem_freeVarsAll, not_exists, not_and] at hy
      refine .call (by simpa using hlength) fun p hp => ?_
      rw [List.zip_map_right, List.mem_map] at hp
      obtain ⟨⟨a, a'⟩, hp, rfl⟩ := hp
      have ha' := (List.of_mem_zip hp).2
      exact ih (h _ hp) ((height_le_heightAll ha').trans hn) hinner (hbinders a' ha') (hy a' ha')
    | @forAll _ a b ty body body' h =>
      simp only [height, Nat.add_le_add_iff_right] at hn
      simp only [binders, List.forall_mem_cons] at hbinders
      have hfresh : y ∉ body'.freeVars := fun hmem =>
        hy (by simp [freeVars, hmem, hbinders.1.2.symm])
      have hbound : b ∉ (Expr.var y).freeVars := by simpa [freeVars] using hbinders.1.2
      have hbody : Alike (((a, b) :: inner) ++ (x, x) :: ps) body body' := h
      simp only [Expr.substWithin, hbinders.1.1, hbound, if_false]
      exact .forAll (ih hbody hn (List.forall_mem_cons.2 ⟨hbinders.1, hinner⟩) hbinders.2 hfresh)

/-! ## Renaming all binders -/

open Supply (run_bind run_pure run_fresh)

mutual

/-- A name is drawn for each quantifier. -/
theorem used_alphaRename (e : Expr) (supply : Supply) :
    (e.alphaRename.run supply).2.used = supply.used + e.binders.length := by
  match e with
  | .var _ | .lit _ => rfl
  | .binary _ l r | .subscript l r | .sliceFrom l r =>
    simp only [alphaRename, run_bind, run_pure, binders, List.length_append, used_alphaRename]
    omega
  | .unary _ e => exact used_alphaRename e supply
  | .slice l u s =>
    simp only [alphaRename, run_bind, run_pure, binders, List.length_append, used_alphaRename]
    omega
  | .call _ args => exact used_alphaRenameAll args supply
  | .forAll _ _ body =>
    simp only [alphaRename, run_bind, run_pure, run_fresh, binders, List.length_cons,
      used_alphaRename body]
    omega

theorem used_alphaRenameAll (es : List Expr) (supply : Supply) :
    ((alphaRenameAll es).run supply).2.used = supply.used + (bindersAll es).length := by
  match es with
  | [] => rfl
  | e :: es =>
    simp only [alphaRenameAll, run_bind, run_pure, bindersAll, List.length_append,
      used_alphaRename e, used_alphaRenameAll es]
    omega

end

/-- The name has the stem of another one, and a number above `a` and at most `b`. -/
def Renumbered (a b : Nat) (old new : String) : Prop :=
  ∃ k, a < k ∧ k ≤ b ∧ new = Name.numbered (Name.stem old) k

/-- Names that are numbered between two bounds are so between wider ones. -/
theorem Renumbered.mono {a a' b b' : Nat} {old new : String} (h : Renumbered a b old new)
    (ha : a' ≤ a) (hb : b ≤ b') : Renumbered a' b' old new := by
  obtain ⟨k, hk, hk', rfl⟩ := h
  exact ⟨k, by omega, by omega, rfl⟩

/-- Two runs of renamings in a row, the second with the numbers behind the first. -/
theorem renumbered_append {olds olds' news news' : List String} {a b c : Nat}
    (h : List.Forall₂ (Renumbered a b) olds news) (h' : List.Forall₂ (Renumbered b c) olds' news')
    (hab : a ≤ b) (hbc : b ≤ c) :
    List.Forall₂ (Renumbered a c) (olds ++ olds') (news ++ news') :=
  List.rel_append (h.imp fun _ _ h => h.mono le_rfl hbc) (h'.imp fun _ _ h => h.mono hab le_rfl)

mutual

/-- Each binder keeps its stem and gets a number that was not used before. -/
theorem renumbered_alphaRename (e : Expr) (supply : Supply) :
    List.Forall₂ (Renumbered supply.used (e.alphaRename.run supply).2.used) e.binders
      (e.alphaRename.run supply).1.binders := by
  match e with
  | .var _ | .lit _ => exact .nil
  | .binary _ l r | .subscript l r | .sliceFrom l r =>
    exact renumbered_append (renumbered_alphaRename l supply) (renumbered_alphaRename r _)
      (used_le_alphaRename l _) (used_le_alphaRename r _)
  | .unary _ e => exact renumbered_alphaRename e supply
  | .slice l u s =>
    exact renumbered_append (renumbered_append (renumbered_alphaRename l supply)
      (renumbered_alphaRename u _) (used_le_alphaRename l _) (used_le_alphaRename u _))
      (renumbered_alphaRename s _)
      ((used_le_alphaRename l _).trans (used_le_alphaRename u _)) (used_le_alphaRename s _)
  | .call _ args => exact renumbered_alphaRenameAll args supply
  | .forAll x ty body =>
    have hbody := renumbered_alphaRename body supply
    have hle := used_le_alphaRename body supply
    have hdrawn := (renews_alphaRename body supply).drawn
    simp only [alphaRename, run_bind, run_pure, binders]
    rw [binders_subst rfl fun y hy => ?_]
    · exact .cons ⟨_, Nat.lt_succ_of_le hle, le_rfl, rfl⟩
        (hbody.imp fun _ _ h => h.mono le_rfl (Nat.le_succ _))
    · simpa [freeVars] using (hdrawn y hy).ne (Name.drawn_fresh x _) le_rfl

theorem renumbered_alphaRenameAll (es : List Expr) (supply : Supply) :
    List.Forall₂ (Renumbered supply.used ((alphaRenameAll es).run supply).2.used) (bindersAll es)
      (bindersAll ((alphaRenameAll es).run supply).1) := by
  match es with
  | [] => exact .nil
  | e :: es =>
    exact renumbered_append (renumbered_alphaRename e supply) (renumbered_alphaRenameAll es _)
      (used_le_alphaRename e _) (used_le_alphaRenameAll es _)

end

/-- A name that was drawn later is none that the supply covers. -/
theorem ne_of_drawn_of_covers {supply : Supply} {b : Nat} {x y : String}
    (h : Name.Drawn supply.used b x) (hy : supply.Covers y) : x ≠ y := by
  rintro rfl
  obtain ⟨stem, k, -, hx, hk, -⟩ := h
  have := hy stem k hx
  omega

mutual

/-- Renaming changes the names of binders only. -/
theorem alike_alphaRename (e : Expr) (supply : Supply) (scope : List String)
    (hfree : ∀ x ∈ e.freeVars, supply.Covers x) (hbound : ∀ x ∈ e.binders, supply.Covers x) :
    Alike (scope.map fun a => (a, a)) e (e.alphaRename.run supply).1 := by
  match e with
  | .var x => exact .var (paired_self scope x)
  | .lit _ => exact .lit
  | .binary _ l r | .subscript l r | .sliceFrom l r =>
    simp only [freeVars, binders, List.forall_mem_append] at hfree hbound
    have hle := used_le_alphaRename l supply
    have hl := alike_alphaRename l supply scope hfree.1 hbound.1
    have hr := alike_alphaRename r (l.alphaRename.run supply).2 scope
      (fun x hx => (hfree.2 x hx).mono hle) (fun x hx => (hbound.2 x hx).mono hle)
    constructor
    · exact hl
    · exact hr
  | .unary _ e => exact .unary (alike_alphaRename e supply scope hfree hbound)
  | .slice l u s =>
    simp only [freeVars, binders, List.forall_mem_append] at hfree hbound
    have hle := used_le_alphaRename l supply
    have hle' := hle.trans (used_le_alphaRename u (l.alphaRename.run supply).2)
    exact .slice (alike_alphaRename l supply scope hfree.1.1 hbound.1.1)
      (alike_alphaRename u _ scope (fun x hx => (hfree.1.2 x hx).mono hle)
        (fun x hx => (hbound.1.2 x hx).mono hle))
      (alike_alphaRename s _ scope (fun x hx => (hfree.2 x hx).mono hle')
        (fun x hx => (hbound.2 x hx).mono hle'))
  | .call _ args =>
    have hargs := alike_alphaRenameAll args supply scope hfree hbound
    rw [List.forall₂_iff_zip] at hargs
    exact .call hargs.1 fun p hp => hargs.2 hp
  | .forAll x ty body =>
    simp only [binders, List.forall_mem_cons] at hbound
    have hle := used_le_alphaRename body supply
    have hcovers : ∀ y ∈ body.freeVars, supply.Covers y := by
      intro y hy
      by_cases hyx : y = x
      · exact hyx ▸ hbound.1
      · exact hfree y (by simp [freeVars, hy, hyx])
    -- the old binder is out of the way, the new one is not yet there
    have hbody : Alike ([] ++ (x, x) :: scope.map fun a => (a, a)) body
        (body.alphaRename.run supply).1 :=
      alike_alphaRename body supply (x :: scope) hcovers hbound.2
    have hbinders : ∀ b ∈ (body.alphaRename.run supply).1.binders,
        b ≠ x ∧ b ≠ ((Supply.fresh x).run (body.alphaRename.run supply).2).1 := by
      intro b hb
      have hdrawn := (renews_alphaRename body supply).drawn b hb
      exact ⟨ne_of_drawn_of_covers hdrawn hbound.1, hdrawn.ne (Name.drawn_fresh x _) le_rfl⟩
    have hfresh : ((Supply.fresh x).run (body.alphaRename.run supply).2).1 ∉
        (body.alphaRename.run supply).1.freeVars := by
      rw [(alike_alphaRename body supply [] hcovers hbound.2).freeVars_eq]
      exact fun hmem => ((hcovers _ hmem).mono hle).ne_fresh _ rfl
    exact .forAll (hbody.substWithin le_rfl (by simp) hbinders hfresh)

theorem alike_alphaRenameAll (es : List Expr) (supply : Supply) (scope : List String)
    (hfree : ∀ x ∈ freeVarsAll es, supply.Covers x)
    (hbound : ∀ x ∈ bindersAll es, supply.Covers x) :
    List.Forall₂ (Alike (scope.map fun a => (a, a))) es ((alphaRenameAll es).run supply).1 := by
  match es with
  | [] => exact .nil
  | e :: es =>
    simp only [freeVarsAll, bindersAll, List.forall_mem_append] at hfree hbound
    have hle := used_le_alphaRename e supply
    exact .cons (alike_alphaRename e supply scope hfree.1 hbound.1)
      (alike_alphaRenameAll es _ scope (fun x hx => (hfree.2 x hx).mono hle)
        (fun x hx => (hbound.2 x hx).mono hle))

end

/-- The second expression is the first one with new names for its binders, drawn when more than
`used` and at most `used'` names had been handed out. -/
structure RenamedApart (e : Expr) (used : Nat) (e' : Expr) (used' : Nat) : Prop where
  /-- Each variable is bound where it was bound, or free as it was. -/
  alike : Alike [] e e'
  freeVars : e'.freeVars = e.freeVars
  distinct : e'.binders.Nodup
  binders : List.Forall₂ (Renumbered used used') e.binders e'.binders
  fresh : ∀ y ∈ e'.binders, y ∉ e.freeVars ∧ y ∉ e.binders
  count : used' = used + e.binders.length

/-- Renaming its binders keeps the meaning of an expression, in every reading, if the supply has
used the numbers that occur in the expression. -/
theorem renamedApart_alphaRename {α : Type*} (e : Expr) (supply : Supply)
    (hcovers : ∀ x ∈ e.freeVars ++ e.binders, supply.Covers x) :
    RenamedApart e supply.used (e.alphaRename.run supply).1 (e.alphaRename.run supply).2.used ∧
      ∀ (R : Reading α) ρ, (e.alphaRename.run supply).1.read R ρ = e.read R ρ := by
  rw [List.forall_mem_append] at hcovers
  have halike := alike_alphaRename e supply [] hcovers.1 hcovers.2
  have hrenews := renews_alphaRename e supply
  refine ⟨⟨halike, halike.freeVars_eq, hrenews.nodup, renumbered_alphaRename e supply, ?_,
    used_alphaRename e supply⟩, fun R ρ => ?_⟩
  · intro y hy
    have hdrawn := hrenews.drawn y hy
    exact ⟨fun hmem => ne_of_drawn_of_covers hdrawn (hcovers.1 y hmem) rfl,
      fun hmem => ne_of_drawn_of_covers hdrawn (hcovers.2 y hmem) rfl⟩
  · refine (halike.read_eq fun x y hxy => ?_).symm
    obtain rfl : x = y := hxy
    rfl

/-- Quantifiers of one name inside each other, one of them with a name from an earlier renaming that
is also free outside. -/
theorem renamedApart_shadowed :
    let inner := forAll "x$1" none (.binary .lt (.var "x$1") (.var "n"))
    let e := Expr.and (.binary .ge (.var "x$1") (int 0))
      (forAll "x" none (.and (.binary .gt (.var "x") (int 0)) (forAll "x" none
        (.and (.binary .eq (.var "x") (.var "x$1")) inner))))
    (∀ x ∈ e.freeVars ++ e.binders, Supply.Covers ⟨1⟩ x) ∧
      (e.alphaRename.run ⟨1⟩).1 = Expr.and (.binary .ge (.var "x$1") (int 0))
        (forAll "x$4" none (.and (.binary .gt (.var "x$4") (int 0)) (forAll "x$3" none
          (.and (.binary .eq (.var "x$3") (.var "x$1"))
            (forAll "x$2" none (.binary .lt (.var "x$2") (.var "n"))))))) ∧
      RenamedApart e 1 (e.alphaRename.run ⟨1⟩).1 4 ∧
      ∀ (R : Reading Int) ρ, (e.alphaRename.run ⟨1⟩).1.read R ρ = e.read R ρ := by
  intro inner e
  have hcovers : ∀ x ∈ e.freeVars ++ e.binders, Supply.Covers ⟨1⟩ x := by
    have hnames : ∀ x ∈ e.freeVars ++ e.binders, x = Name.numbered "x" 1 ∨ Name.Plain x := by decide
    intro x hx
    rcases hnames x hx with rfl | hplain
    · intro stem k hk
      exact (Name.numbered_inj (by decide) hk).2.ge
    · exact Supply.covers_of_notMem hplain _
  have h := renamedApart_alphaRename (α := Int) e ⟨1⟩ hcovers
  exact ⟨hcovers, by decide, h.1, h.2⟩

end Precond.Expr
