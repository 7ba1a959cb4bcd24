import Mathlib.Tactic
import Precond.Proofs.LoopCutting
import Precond.Proofs.WeakestPrecondition

/-!
# The names of binders

The quantifiers of an expression get their variables from a supply, which writes a number behind a
dollar sign. `Name.Drawn a b x` says that `x` was drawn when more than `a` and at most `b` names had
been handed out. A name can be read in one way only (`Name.numbered_inj`), so names drawn at
different times are different, whatever their stems.

`Renews old a b new` is how the names of binders change when names are drawn: the new ones are all
different, and each is an old one or was drawn. `Expr.alphaRename` keeps no old name
(`Expr.renews_alphaRename`), substitution keeps all of them where nothing has to be renamed
(`Expr.binders_subst`), and cutting loops keeps those outside the invariants
(`Stmt.renews_cutLoops`).
-/

namespace Precond

/-! ## Drawn names -/

namespace Name

/-- The name is none that a supply hands out. -/
def Plain (x : String) : Prop := '$' ∉ x.toList

instance (x : String) : Decidable (Plain x) := inferInstanceAs (Decidable (¬_))

/-- The name was drawn when more than `a` and at most `b` names had been handed out. -/
def Drawn (a b : Nat) (x : String) : Prop :=
  ∃ stem k, Plain stem ∧ x = numbered stem k ∧ a < k ∧ k ≤ b

/-- There is no dollar sign in the stem of a name. -/
theorem plain_stem (x : String) : Plain (stem x) := by
  rw [Plain, stem, String.toList_ofList]
  intro h
  simpa using List.all_eq_true.1 List.all_takeWhile _ h

/-- The text of a drawn name: its stem, a dollar sign and digits. -/
theorem toList_numbered (stem : String) (k : Nat) :
    (numbered stem k).toList = stem.toList ++ '$' :: Nat.toDigits 10 k := by
  have hdollar : (toString "$").toList = ['$'] := by decide
  have hstem : toString stem = stem := rfl
  simp [numbered, hdollar, hstem]

/-- There is a dollar sign in a numbered name. -/
theorem not_plain_numbered (stem : String) (k : Nat) : ¬Plain (numbered stem k) := by
  simp [Plain, toList_numbered]

/-- Among digits there is no dollar sign. -/
theorem dollar_notMem_toDigits (k : Nat) : '$' ∉ Nat.toDigits 10 k := by
  intro h
  have hdigit := Nat.isDigit_of_mem_toDigits (by omega) (by omega) h
  simp at hdigit

/-- A generated name determines its stem and its number. -/
theorem numbered_inj {stem stem' : String} {k k' : Nat} (hstem : Plain stem)
    (h : numbered stem k = numbered stem' k') : stem = stem' ∧ k = k' := by
  have hlist := congrArg String.toList h
  rw [toList_numbered, toList_numbered, List.append_eq_append_iff] at hlist
  have hdigits : Nat.toDigits 10 k = Nat.toDigits 10 k' → k = k' := fun hk => by
    simpa using congrArg (Nat.ofDigitChars 10 · 0) hk
  rcases hlist with ⟨_ | ⟨c, rest⟩, hs, hk⟩ | ⟨_ | ⟨c, rest⟩, hs, hk⟩
  · exact ⟨String.toList_inj.1 (by simpa using hs.symm), hdigits (by simpa using hk)⟩
  · -- the number of the first name would hold a dollar sign
    have hrest : Nat.toDigits 10 k = rest ++ '$' :: Nat.toDigits 10 k' := (List.cons.inj hk).2
    exact absurd (by simp [hrest]) (dollar_notMem_toDigits k)
  · exact ⟨String.toList_inj.1 (by simpa using hs), hdigits (by simpa using hk.symm)⟩
  · -- its stem would hold one
    obtain rfl : '$' = c := (List.cons.inj hk).1
    exact absurd (by simp [hs]) hstem

/-- Names drawn between two numbers are drawn between wider bounds. -/
theorem Drawn.mono {a a' b b' : Nat} {x : String} (h : Drawn a b x) (ha : a' ≤ a) (hb : b ≤ b') :
    Drawn a' b' x := by
  obtain ⟨stem, k, hstem, hx, hk, hk'⟩ := h
  exact ⟨stem, k, hstem, hx, by omega, by omega⟩

/-- A supply draws the name with the next number. -/
theorem drawn_fresh (x : String) (supply : Supply) :
    Drawn supply.used (supply.used + 1) ((Supply.fresh x).run supply).1 :=
  ⟨stem x, _, plain_stem x, rfl, Nat.lt_succ_self _, le_rfl⟩

theorem Drawn.not_plain {a b : Nat} {x : String} (h : Drawn a b x) : ¬Plain x := by
  obtain ⟨stem, k, -, rfl, -, -⟩ := h
  exact not_plain_numbered stem k

/-- A drawn name differs from every plain one. -/
theorem Drawn.ne_of_plain {a b : Nat} {x y : String} (h : Drawn a b x) (hy : Plain y) : x ≠ y := by
  rintro rfl
  exact h.not_plain hy

/-- Names that were drawn at different times are different. -/
theorem Drawn.ne {a b c d : Nat} {x y : String} (hx : Drawn a b x) (hy : Drawn c d y)
    (hbc : b ≤ c) : x ≠ y := by
  rintro rfl
  obtain ⟨stem, k, hstem, rfl, -, hk⟩ := hx
  obtain ⟨stem', k', -, heq, hk', -⟩ := hy
  obtain ⟨-, rfl⟩ := numbered_inj hstem heq
  omega

end Name

/-! ## Binders -/

namespace Expr

mutual

/-- The variables of the quantifiers of an expression. -/
def binders : Expr → List String
  | .var _ | .lit _ => []
  | .binary _ l r | .subscript l r | .sliceFrom l r => binders l ++ binders r
  | .unary _ e => binders e
  | .slice l u s => binders l ++ binders u ++ binders s
  | .call _ args => bindersAll args
  | .forAll x _ body => x :: binders body

/-- The variables of the quantifiers of the members of a list. -/
def bindersAll : List Expr → List String
  | [] => []
  | e :: es => binders e ++ bindersAll es

end

/-- The binders of a list of expressions, one expression after the other. -/
theorem bindersAll_eq_flatMap (es : List Expr) : bindersAll es = es.flatMap binders := by
  induction es with
  | nil => rfl
  | cons e es ih => rw [bindersAll, ih, List.flatMap_cons]

mutual

/-- The binders do not depend on the types of the quantifiers. -/
theorem binders_untyped (e : Expr) : e.untyped.binders = e.binders := by
  match e with
  | .var _ | .lit _ => rfl
  | .binary _ l r | .subscript l r | .sliceFrom l r =>
    simp only [untyped, binders, binders_untyped l, binders_untyped r]
  | .unary _ e => simp only [untyped, binders, binders_untyped e]
  | .slice l u s =>
    simp only [untyped, binders, binders_untyped l, binders_untyped u, binders_untyped s]
  | .call _ args => simp only [untyped, binders, bindersAll_untypedAll args]
  | .forAll _ _ body => simp only [untyped, binders, binders_untyped body]

theorem bindersAll_untypedAll (es : List Expr) : bindersAll (untypedAll es) = bindersAll es := by
  match es with
  | [] => rfl
  | e :: es => simp only [untypedAll, bindersAll, binders_untyped e, bindersAll_untypedAll es]

end

/-- Where no binder would capture a variable, substitution keeps the binders. -/
theorem Substitutes.binders_eq {x : String} {r e e' : Expr} (h : Substitutes x r e e')
    (hr : r.binders = []) (hcapture : ∀ y ∈ e.binders, y ∉ r.freeVars) :
    e'.binders = e.binders := by
  induction h with
  | here => exact hr
  | other | lit | bound => rfl
  | binary _ _ iha ihb | subscript _ _ iha ihb | sliceFrom _ _ iha ihb =>
    simp only [binders, List.forall_mem_append] at hcapture
    simp only [binders, iha hr hcapture.1, ihb hr hcapture.2]
  | unary _ ih => exact ih hr hcapture
  | slice _ _ _ ihl ihu ihs =>
    simp only [binders, List.forall_mem_append] at hcapture
    simp only [binders, ihl hr hcapture.1.1, ihu hr hcapture.1.2, ihs hr hcapture.2]
  | call hlength _ ih =>
    simp only [binders, bindersAll_eq_flatMap, List.forall_mem_flatMap] at hcapture
    simp only [binders, bindersAll_eq_flatMap, List.flatMap_def]
    rw [map_eq_map_of_zip hlength fun p hp =>
      (ih p hp hr (hcapture p.1 (List.of_mem_zip hp).1)).symm]
  | kept _ _ _ ih =>
    simp only [binders, List.forall_mem_cons] at hcapture
    simp only [binders, ih hr hcapture.2]
  | renamed _ hyr => exact absurd hyr (hcapture _ List.mem_cons_self)

/-- A substitution without captures keeps the binders, if the replacement has none. -/
theorem binders_subst {x : String} {r e : Expr} (hr : r.binders = [])
    (hcapture : ∀ y ∈ e.binders, y ∉ r.freeVars) : (e.subst x r).binders = e.binders :=
  (substitutes_subst e x r).binders_eq hr hcapture

end Expr

/-! ## Drawing new binders -/

/-- The new names are all different, and each is an old one or was drawn. -/
structure Renews (old : List String) (a b : Nat) (new : List String) : Prop where
  nodup : new.Nodup
  mem : ∀ x ∈ new, x ∈ old ∨ Name.Drawn a b x

namespace Renews

variable {old old' new new' : List String} {a b c : Nat}

/-- Keeping the binders is renewing them, if they are different. -/
theorem keep (h : old.Nodup) : Renews old a b old := ⟨h, fun _ => Or.inl⟩

theorem nil : Renews old a b [] := ⟨List.nodup_nil, by simp⟩

/-- The order of the binders does not matter. -/
theorem perm (h : Renews old a b new) (hperm : new.Perm new') : Renews old a b new' :=
  ⟨hperm.nodup h.nodup, fun x hx => h.mem x (hperm.mem_iff.2 hx)⟩

theorem mono (h : Renews old a b new) (hold : ∀ x ∈ old, x ∈ old') : Renews old' a b new :=
  ⟨h.nodup, fun x hx => (h.mem x hx).imp_left (hold x)⟩

/-- Where there were no binders, all new ones are drawn. -/
theorem drawn (h : Renews [] a b new) : ∀ x ∈ new, Name.Drawn a b x := fun x hx => by
  simpa using h.mem x hx

/-- Names that are renewed one after another do not clash: an old name was drawn before. -/
theorem append (h : Renews old a b new) (h' : Renews old' b c new') (hab : a ≤ b) (hbc : b ≤ c)
    (hold : (old ++ old').Nodup) (hdrawn : ∀ x ∈ old ++ old', Name.Drawn 0 a x) :
    Renews (old ++ old') a c (new ++ new') := by
  rw [List.forall_mem_append] at hdrawn
  refine ⟨List.nodup_append.2 ⟨h.nodup, h'.nodup, fun x hx y hy => ?_⟩, fun x hx => ?_⟩
  · rcases h.mem x hx with hx | hx <;> rcases h'.mem y hy with hy | hy
    · exact (List.nodup_append.1 hold).2.2 x hx y hy
    · exact (hdrawn.1 x hx).ne hy hab
    · exact ((hdrawn.2 y hy).ne hx le_rfl).symm
    · exact hx.ne hy le_rfl
  · rcases List.mem_append.1 hx with hx | hx
    · exact (h.mem x hx).imp (List.mem_append_left _) (·.mono le_rfl hbc)
    · exact (h'.mem x hx).imp (List.mem_append_right _) (·.mono hab le_rfl)

/-- The same where nothing old is kept. -/
theorem append_drawn (h : Renews [] a b new) (h' : Renews [] b c new') (hab : a ≤ b)
    (hbc : b ≤ c) : Renews [] a c (new ++ new') :=
  h.append h' hab hbc List.nodup_nil (by simp)

/-- Drawing and then renewing is drawing. -/
theorem trans (h : Renews [] a b old) (h' : Renews old b c new) (hab : a ≤ b) (hbc : b ≤ c) :
    Renews [] a c new :=
  ⟨h'.nodup, fun x hx => Or.inr ((h'.mem x hx).elim
    (fun hold => (h.drawn x hold).mono le_rfl hbc) (·.mono hab le_rfl))⟩

end Renews

theorem renews_fresh (x : String) (supply : Supply) :
    Renews [] supply.used (supply.used + 1) [((Supply.fresh x).run supply).1] :=
  ⟨List.nodup_singleton _, by simpa using Name.drawn_fresh x supply⟩

namespace Expr

open Supply (run_bind run_pure run_fresh)

mutual

/-- All binders are drawn anew. -/
theorem renews_alphaRename (e : Expr) (supply : Supply) :
    Renews [] supply.used (e.alphaRename.run supply).2.used
      (e.alphaRename.run supply).1.binders := by
  match e with
  | .var _ | .lit _ => exact .nil
  | .binary _ l r | .subscript l r | .sliceFrom l r =>
    exact (renews_alphaRename l supply).append_drawn (renews_alphaRename r _)
      (used_le_alphaRename l _) (used_le_alphaRename r _)
  | .unary _ e => exact renews_alphaRename e supply
  | .slice l u s =>
    exact ((renews_alphaRename l supply).append_drawn (renews_alphaRename u _)
      (used_le_alphaRename l _) (used_le_alphaRename u _)).append_drawn (renews_alphaRename s _)
      ((used_le_alphaRename l _).trans (used_le_alphaRename u _)) (used_le_alphaRename s _)
  | .call _ args => exact renews_alphaRenameAll args supply
  | .forAll x ty body =>
    have hbody := renews_alphaRename body supply
    have hx := renews_fresh x (body.alphaRename.run supply).2
    simp only [alphaRename, run_bind, run_pure, binders]
    -- the binders of the body were drawn before the variable that is put into it
    rw [binders_subst rfl fun y hy => ?_]
    · exact (hbody.append_drawn hx (used_le_alphaRename body _) (Nat.le_succ _)).perm
        List.perm_append_comm
    · simpa [freeVars] using (hbody.drawn y hy).ne (Name.drawn_fresh x _) le_rfl

theorem renews_alphaRenameAll (es : List Expr) (supply : Supply) :
    Renews [] supply.used ((alphaRenameAll es).run supply).2.used
      (bindersAll ((alphaRenameAll es).run supply).1) := by
  match es with
  | [] => exact .nil
  | e :: es =>
    exact (renews_alphaRename e supply).append_drawn (renews_alphaRenameAll es _)
      (used_le_alphaRename e _) (used_le_alphaRenameAll es _)

end

/-- A conjunction has the binders of its members. -/
theorem binders_conjoin (es : List Expr) : (conjoin es).binders = bindersAll es := by
  have hfoldl : ∀ (es : List Expr) (e : Expr),
      (es.foldl and e).binders = e.binders ++ bindersAll es := by
    intro es
    induction es with
    | nil => simp [bindersAll]
    | cons d es ih => simp [ih, and, binders, bindersAll]
  cases es with
  | nil => rfl
  | cons e es => exact hfoldl es e

end Expr

namespace Stmt

/-- The variables of the quantifiers of a statement. -/
def binders : Stmt → List String
  | .skip | .havoc _ => []
  | .assign _ e | .assume e | .assert e => e.binders
  | .seq s t => binders s ++ binders t
  | .branch c s t => c.binders ++ binders s ++ binders t
  | .loop invariants c s => Expr.bindersAll invariants ++ c.binders ++ binders s

theorem binders_sequence (l : List Stmt) : (sequence l).binders = l.flatMap binders := by
  have hfoldl : ∀ (l : List Stmt) (s : Stmt),
      (l.foldl .seq s).binders = s.binders ++ l.flatMap binders := by
    intro l
    induction l with
    | nil => simp
    | cons t l ih => simp [ih, binders]
  match l with
  | [] => rfl
  | [s] => simp [sequence, binders]
  | s :: t :: rest => simp [sequence, hfoldl, binders]

/-- The binders of a fresh copy of an invariant are all different, and all of them were drawn for
it. -/
theorem renews_freshInvariant (invariants : List Expr) (supply : Supply) :
    Renews [] supply.used ((freshInvariant invariants).run supply).2.used
      ((freshInvariant invariants).run supply).1.binders := by
  have h := Expr.renews_alphaRenameAll invariants supply
  rw [← Expr.binders_conjoin] at h
  exact h

theorem used_le_copies (invariants : List Expr) (supply : Supply) :
    let entry := (freshInvariant invariants).run supply
    let head := (freshInvariant invariants).run entry.2
    let again := (freshInvariant invariants).run head.2
    supply.used ≤ again.2.used :=
  (Expr.used_le_alphaRenameAll invariants _).trans <|
    (Expr.used_le_alphaRenameAll invariants _).trans (Expr.used_le_alphaRenameAll invariants _)

/-- The three copies of an invariant share no binder. -/
theorem renews_copies (invariants : List Expr) (supply : Supply) :
    let entry := (freshInvariant invariants).run supply
    let head := (freshInvariant invariants).run entry.2
    let again := (freshInvariant invariants).run head.2
    Renews [] supply.used again.2.used
      (entry.1.binders ++ head.1.binders ++ again.1.binders) := by
  intro entry head again
  have hle : ∀ supply : Supply, supply.used ≤ ((freshInvariant invariants).run supply).2.used :=
    Expr.used_le_alphaRenameAll invariants
  exact ((renews_freshInvariant invariants supply).append_drawn
    (renews_freshInvariant invariants entry.2) (hle _) (hle _)).append_drawn
    (renews_freshInvariant invariants head.2) ((hle supply).trans (hle entry.2)) (hle head.2)

/-- The binders of a loop that was cut are those of the three copies of its invariant, of its
condition and of its body. -/
theorem binders_straightened (written : List String) (entry head cond again : Expr)
    (body : Stmt) :
    (straightened written entry head cond again body).binders =
      entry.binders ++ head.binders ++ cond.binders ++ body.binders ++ again.binders := by
  have hhavocs : (written.map Stmt.havoc).flatMap binders = [] := by
    simp [List.flatMap_eq_nil_iff, binders]
  simp [straightened, binders_sequence, hhavocs, binders, Expr.bool, Expr.binders]

theorem run_cutLoops_loop (invariants : List Expr) (cond : Expr) (body : Stmt)
    (supply : Supply) :
    let cut := body.cutLoops.run supply
    let entry := (freshInvariant invariants).run cut.2
    let head := (freshInvariant invariants).run entry.2
    let again := (freshInvariant invariants).run head.2
    (Stmt.loop invariants cond body).cutLoops.run supply =
      (straightened body.writtenVars entry.1 head.1 cond again.1 cut.1, again.2) := rfl

/-- Cutting loops gives every copy of an invariant binders of its own and keeps the others. -/
theorem renews_cutLoops (s : Stmt) (supply : Supply) (hs : s.binders.Nodup)
    (hdrawn : ∀ x ∈ s.binders, Name.Drawn 0 supply.used x) :
    Renews s.binders supply.used (s.cutLoops.run supply).2.used
      (s.cutLoops.run supply).1.binders := by
  induction s generalizing supply with
  | skip | havoc | assign | assume | assert => exact .keep hs
  | seq s t ihs iht =>
    have hs' := List.nodup_append.1 hs
    have hd := List.forall_mem_append.1 hdrawn
    have hle := used_le_cutLoops s supply
    exact (ihs supply hs'.1 hd.1).append
      (iht _ hs'.2.1 fun x hx => (hd.2 x hx).mono le_rfl hle) hle (used_le_cutLoops t _) hs hdrawn
  | branch c s t ihs iht =>
    have hs' := List.nodup_append.1 hs
    have hcs := List.nodup_append.1 hs'.1
    have hd := List.forall_mem_append.1 hdrawn
    have hdcs := List.forall_mem_append.1 hd.1
    have hle := used_le_cutLoops s supply
    have hc : Renews c.binders supply.used supply.used c.binders := .keep hcs.1
    exact (hc.append (ihs supply hcs.2.1 hdcs.2) le_rfl hle hs'.1 hd.1).append
      (iht _ hs'.2.1 fun x hx => (hd.2 x hx).mono le_rfl hle) hle (used_le_cutLoops t _) hs hdrawn
  | loop invariants cond body ih =>
    simp only [binders, List.append_assoc] at hs hdrawn
    have hs' := (List.nodup_append.1 hs).2.1
    have hd := (List.forall_mem_append.1 hdrawn).2
    have hcond : Renews cond.binders supply.used supply.used cond.binders :=
      .keep (List.nodup_append.1 hs').1
    have hbody := ih supply (List.nodup_append.1 hs').2.1 (List.forall_mem_append.1 hd).2
    have hcopies := renews_copies invariants (body.cutLoops.run supply).2
    have hall := (hcond.append hbody le_rfl (used_le_cutLoops body _) hs' hd).append hcopies
      (used_le_cutLoops body _) (used_le_copies invariants _) (by simpa using hs') (by simpa using hd)
    rw [run_cutLoops_loop, binders_straightened]
    refine (hall.perm (List.perm_iff_count.2 fun x => ?_)).mono (by simp +contextual [binders])
    simp only [List.count_append]
    omega

end Stmt

end Precond
