import Mathlib.Tactic
import Precond.Proofs.LayoutTokens
import Precond.Proofs.ProgramSoundness

/-!
# Places of the parts of a program

Every part of a program that has a range is a `Node`, and `Node.parts` lists the parts directly
inside it in the order of the text. Arguments of marks and parameters have no range of their own, so
their names, values and types are parts of the mark and of the function. A node is `Node.Nested` if
its parts stand one after another within its range, and the same is true of each part.

The tokens of a text stand one after another within it, those for layout included
(`Grammar.inOrder_of_tokenizeLayout`). `Encloses ts ns` says that wherever the tokens `ts` stand one
after another, so do the nodes `ns`, which are nested. What is put together from pieces is enclosed
by the tokens of the pieces (`Encloses.append`), and tokens that belong to no node, such as
parentheses or the ends of lines and blocks, take nothing away. The range of a node is the one from
its first token to its last one, so the tokens enclose the node itself if they enclose its parts
(`Encloses.node`). With these rules each production of the grammar encloses its value.
-/

namespace Precond.Grammar

/-! ## Tokens in order -/

/-- The tokens of a text stand one after another within it. -/
theorem inOrder_of_tokenizeLayout {text : List Char} {ts : List (Spanned Token)}
    (h : tokenizeLayout text = .ok ts) : InOrder 0 (byteLength text) ts := by
  have htext : text = [] ++ (Text.splitLines text).flatten := (Text.flatten_splitLines text).symm
  obtain ⟨hlaid, -⟩ := laid_layoutLines (areLines_splitLines text) htext h
  exact hlaid.places

namespace InOrder

variable {α : Type} {start stop : Nat}

/-- What stands in order can be cut in two. -/
theorem split {xs ys : List (Spanned α)} (h : InOrder start stop (xs ++ ys)) :
    ∃ mid, InOrder start mid xs ∧ InOrder mid stop ys := by
  induction xs generalizing start with
  | nil => exact ⟨start, le_rfl, h⟩
  | cons x xs ih =>
    obtain ⟨mid, hxs, hys⟩ := ih h.2.2
    exact ⟨mid, ⟨h.1, h.2.1, hxs⟩, hys⟩

/-- Tokens in order end where the last one of them stops. -/
theorem until_stopAfter {ts : List (Spanned Token)} (h : InOrder start stop ts) :
    InOrder start (stopAfter start ts) ts ∧ stopAfter start ts ≤ stop := by
  induction ts generalizing start with
  | nil => exact ⟨le_rfl, h⟩
  | cons t ts ih =>
    have hstop : stopAfter start (t :: ts) = stopAfter t.span.stop ts :=
      stopAfter_append start [t] ts
    rw [hstop]
    exact ⟨⟨h.1, h.2.1, (ih h.2.2).1⟩, (ih h.2.2).2⟩

/-- Tokens in order stand within their own range, and that is within all bounds. -/
theorem within_spanOf {ts : List (Spanned Token)} (h : InOrder start stop ts) (hne : ts ≠ []) :
    start ≤ (spanOf ts).start ∧ InOrder (spanOf ts).start (spanOf ts).stop ts ∧
      (spanOf ts).stop ≤ stop := by
  obtain ⟨horder, hstop⟩ := h.until_stopAfter
  rw [stopAfter_of_ne_nil hne] at horder hstop
  obtain ⟨t, ts, rfl⟩ := List.exists_cons_of_ne_nil hne
  exact ⟨h.1, ⟨le_rfl, horder.2⟩, hstop⟩

end InOrder

end Precond.Grammar

namespace Precond.Host

open Grammar

/-! ## Nodes -/

/-- A part of a program that has a range. -/
inductive Node where
  | name (x : Spanned String)
  | type (ty : TypeExpr)
  | expr (e : Expr)
  | stmt (s : Stmt)
  | decorator (d : Decorator)
  | function (f : Function)

/-- The parts of an expression. -/
def Expr.parts : Expr → List Node
  | .name .. | .int .. | .bool .. | .str .. => []
  | .binary _ _ l r => [.expr l, .expr r]
  | .unary _ _ e => [.expr e]
  | .chain _ _ first rest => .expr first :: rest.map .expr
  | .compare _ first rest => .expr first :: rest.map (.expr ·.2)
  | .call _ f args => .name f :: args.map .expr
  | .subscript _ b i => [.expr b, .expr i]
  | .slice _ lower upper step =>
    lower.toList.map .expr ++ (upper.toList.map .expr ++ step.toList.map .expr)
  | .list _ items => items.map .expr

/-- The parts of a statement. -/
def Stmt.parts : Stmt → List Node
  | .assign _ target value => [.expr target, .expr value]
  | .branch _ cond body orelse => .expr cond :: (body.map .stmt ++ orelse.map .stmt)
  | .loop _ cond body => .expr cond :: body.map .stmt
  | .give _ value => value.toList.map .expr
  | .pass _ => []
  | .assert _ e | .expr _ e => [.expr e]

/-- The parts of a named argument. -/
def argumentParts (a : Spanned String × Expr) : List Node := [.name a.1, .expr a.2]

/-- The parts of a parameter. -/
def Param.parts (p : Param) : List Node := .name p.name :: p.type.toList.map .type

namespace Node

/-- Where a node stands. -/
def span : Node → Span
  | .name x => x.span
  | .type ty => ty.span
  | .expr e => e.span
  | .stmt s => s.span
  | .decorator d => d.span
  | .function f => f.span

/-- The parts directly inside a node, in the order of the text. -/
def parts : Node → List Node
  | .name _ => []
  | .type (.mk _ args _) => args.map .type
  | .expr e => e.parts
  | .stmt s => s.parts
  | .decorator d => .name d.name :: d.arguments.flatMap argumentParts
  | .function f =>
    f.decorators.map .decorator ++ .name f.name :: (f.params.flatMap Param.parts ++
      (f.result.toList.map .type ++ f.body.map .stmt))

/-- A node with its range. -/
def placed (n : Node) : Spanned Node := ⟨n, n.span⟩

/-- The parts of a node stand one after another within its range, and so on inside of them. -/
inductive Nested : Node → Prop
  | mk {n : Node} (inOrder : InOrder n.span.start n.span.stop (n.parts.map placed))
      (parts : ∀ p ∈ n.parts, Nested p) : Nested n

end Node

/-- Nodes that are nested and stand one after another between two offsets. -/
structure Row (start stop : Nat) (ns : List Node) : Prop where
  inOrder : InOrder start stop (ns.map Node.placed)
  nested : ∀ n ∈ ns, n.Nested

/-- Two rows of nodes, the second one behind the first, are a row. -/
theorem Row.append {start mid stop : Nat} {ns ms : List Node} (h : Row start mid ns)
    (h' : Row mid stop ms) : Row start stop (ns ++ ms) := by
  refine ⟨?_, List.forall_mem_append.2 ⟨h.nested, h'.nested⟩⟩
  rw [List.map_append]
  exact h.inOrder.append h'.inOrder

/-! ## Tokens and the nodes that they enclose -/

/-- Wherever the tokens stand one after another, so do the nodes, which are nested. -/
def Encloses (ts : List (Spanned Token)) (ns : List Node) : Prop :=
  ∀ ⦃start stop⦄, InOrder start stop ts → Row start stop ns

namespace Encloses

variable {ts us : List (Spanned Token)} {ns ms : List Node}

/-- Tokens that belong to no node. -/
theorem none (ts : List (Spanned Token)) : Encloses ts [] :=
  fun _ _ h => ⟨h.start_le_stop, by simp⟩

/-- Nodes inside of two pieces of a text, one after the other. -/
theorem append (h : Encloses ts ns) (h' : Encloses us ms) : Encloses (ts ++ us) (ns ++ ms) := by
  intro start stop horder
  obtain ⟨mid, hts, hus⟩ := horder.split
  exact (h hts).append (h' hus)

/-- A token in front of a piece encloses nothing more. -/
theorem cons (t : Spanned Token) (h : Encloses ts ns) : Encloses (t :: ts) ns :=
  (none [t]).append h

theorem snoc (h : Encloses ts ns) (t : Spanned Token) : Encloses (ts ++ [t]) ns := by
  simpa using h.append (none [t])

/-- A node whose range is the one of its tokens stands where they do, if its parts do. -/
theorem node {n : Node} (hne : ts ≠ []) (hspan : n.span = spanOf ts) (h : Encloses ts n.parts) :
    Encloses ts [n] := by
  intro start stop horder
  obtain ⟨hstart, hown, hstop⟩ := horder.within_spanOf hne
  rw [← hspan] at hstart hown hstop
  have hparts := h hown
  refine ⟨⟨hstart, hown.start_le_stop, hstop⟩, List.forall_mem_singleton.2 ?_⟩
  exact .mk hparts.inOrder hparts.nested

/-- The nodes of several pieces, one after another. -/
theorem flatMap {α : Type} {ps : List α} {f : α → List (Spanned Token)} {g : α → List Node}
    (h : ∀ p ∈ ps, Encloses (f p) (g p)) : Encloses (ps.flatMap f) (ps.flatMap g) := by
  induction ps with
  | nil => exact none []
  | cons p ps ih =>
    obtain ⟨hp, hps⟩ := List.forall_mem_cons.1 h
    exact hp.append (ih hps)

theorem pieces {α : Type} {ps : List (Piece α)} {g : α → Node}
    (h : ∀ p ∈ ps, Encloses p.tokens [g p.value]) :
    Encloses (ps.flatMap (·.tokens)) ((ps.map (·.value)).map g) := by
  rw [List.map_map, List.map_eq_flatMap]
  exact flatMap h

theorem name {t : Spanned Token} (x : String) : Encloses [t] [.name ⟨x, t.span⟩] :=
  node (by simp) rfl (none [t])

/-- The nodes of a list with commas. -/
theorem commaList {α : Type} {l : CommaList α} {g : α → List Node}
    (h : ∀ p ∈ l.pieces, Encloses p.tokens (g p.value)) :
    Encloses l.tokens (l.values.flatMap g) := by
  induction l using CommaList.induction with
  | hnil => exact none []
  | hsingle p =>
    simpa [CommaList.tokens, CommaList.values, CommaList.pieces, CommaList.single] using h
  | hcons p hp l ih =>
    rw [CommaList.pieces_cons, List.forall_mem_cons] at h
    rw [CommaList.tokens_cons, CommaList.values, CommaList.pieces_cons, List.map_cons,
      List.flatMap_cons]
    exact h.1.append ((ih h.2).cons p.mark)

theorem commaList_map {α : Type} {l : CommaList α} {g : α → Node}
    (h : ∀ p ∈ l.pieces, Encloses p.tokens [g p.value]) : Encloses l.tokens (l.values.map g) := by
  rw [List.map_eq_flatMap]
  exact commaList h

theorem option {α : Type} {o : Option (Piece α)} {g : α → Node}
    (h : ∀ p ∈ o, Encloses p.tokens [g p.value]) :
    Encloses (optionTokens o) ((o.map (·.value)).toList.map g) := by
  cases o with
  | none => exact none []
  | some p => exact h p rfl

/-- The nodes of operands with operators between them. -/
theorem chain {α β : Type} {first : Piece α} {rest : List (Linked β)} {f : α → Node} {g : β → Node}
    (hfirst : Encloses first.tokens [f first.value])
    (hrest : ∀ p ∈ rest, Encloses p.tokens [g p.value]) :
    Encloses (chainTokens first rest) (f first.value :: (rest.map (·.value)).map g) := by
  rw [List.map_map, List.map_eq_flatMap]
  exact hfirst.append (flatMap fun p hp => (hrest p hp).cons p.mark)

end Encloses

/-! ## Types and expressions -/

theorem encloses_typeExpr {ts : List (Spanned Token)} {ty : TypeExpr} (h : TypeExpr.Derives ts ty) :
    Encloses ts [.type ty] := by
  induction h with
  | plain => exact .node (by simp) rfl (.none _)
  | applied _ _ _ _ ih =>
    exact .node (by simp) rfl (.cons _ (.cons _ (.snoc (.commaList_map ih) _)))

namespace Expr

/-- By induction on the rules: an expression stands where its tokens do, and so do its parts. -/
theorem Derives.encloses {l : Level} {ts : List (Spanned Token)} {e : Expr} (h : Derives l ts e) :
    Encloses ts [.expr e] := by
  induction h with
  | orChain _ _ hfirst _ ihfirst ihrest | andChain _ _ hfirst _ ihfirst ihrest
  | comparison _ _ hfirst _ ihfirst ihrest =>
    exact .node (by simp [chainTokens, hfirst.ne_nil]) rfl (.chain ihfirst ihrest)
  | and _ ih | not _ ih | compare _ ih | arith _ ih | term _ ih | factor _ ih | primary _ ih
  | atom _ ih | index _ ih => exact ih
  | negation _ _ ih | negative _ _ ih => exact .node (by simp) rfl (ih.cons _)
  | addition _ _ _ ihl ihr | multiplication _ _ _ ihl ihr =>
    exact .node (by simp) rfl (ihl.append (ihr.cons _))
  | subscript _ _ _ _ ihbase ihindex =>
    exact .node (by simp) rfl (ihbase.append ((ihindex.snoc _).cons _))
  | call hname _ _ _ ih =>
    exact .node (by simp) rfl ((Encloses.name _).append (.cons _ (.snoc (.commaList_map ih) _)))
  | slice _ _ _ ihlower ihupper =>
    -- without a step there is no part behind the upper bound
    refine .node (by simp) rfl ?_
    simpa [Node.parts, parts] using (Encloses.option ihlower).append (.cons _ (.option ihupper))
  | sliceBy _ _ _ _ _ ihlower ihupper ihstep =>
    exact .node (by simp) rfl ((Encloses.option ihlower).append
      (.cons _ ((Encloses.option ihupper).append (.cons _ (.option ihstep)))))
  | sliceAll _ _ _ ihlower ihstep =>
    exact .node (by simp) rfl ((Encloses.option ihlower).append (.cons _ (.option ihstep)))
  | int | kwTrue | kwFalse | name | str => exact .node (by simp) rfl (.none _)
  | parens _ _ _ ih =>
    -- no node of their own: the range is the one of what they hold
    exact (ih.snoc _).cons _
  | list _ _ _ ih => exact .node (by simp) rfl (.cons _ (.snoc (.commaList_map ih) _))

end Expr

/-! ## Statements -/

namespace Stmt

theorem Simple.ne_nil {ts : List (Spanned Token)} {s : Stmt} (h : Simple ts s) : ts ≠ [] := by
  cases h with
  | expr h => exact h.ne_nil
  | _ => simp

theorem Simple.encloses {ts : List (Spanned Token)} {s : Stmt} (h : Simple ts s) :
    Encloses ts [.stmt s] := by
  refine .node h.ne_nil ?_ ?_
  · cases h <;> rfl
  · cases h with
    | assign _ htarget hvalue => exact htarget.encloses.append (hvalue.encloses.cons _)
    | expr h => exact h.encloses
    | give _ hvalue => exact .cons _ (.option fun p hp => (hvalue p hp).encloses)
    | pass => exact .none _
    | assert _ h => exact h.encloses.cons _

/-- By induction on the rules: statements stand where their tokens do, and so do their parts. -/
theorem Derives.encloses {part : Part} {ts : List (Spanned Token)} {ss : List Stmt}
    (h : Derives part ts ss) : Encloses ts (ss.map .stmt) := by
  induction h with
  | line _ h | sameLine _ h => exact h.encloses.snoc _
  | branch _ _ hcond _ _ ihbody ihorelse | elif _ _ hcond _ _ ihbody ihorelse =>
    exact .node (by simp) rfl
      (.cons _ (hcond.encloses.append (.cons _ (ihbody.append ihorelse))))
  | loop _ _ hcond _ ihbody =>
    exact .node (by simp) rfl (.cons _ (hcond.encloses.append (.cons _ ihbody)))
  | one _ ih => exact ih
  | more _ _ ih ihrest =>
    rw [List.map_append]
    exact ih.append ihrest
  | indented _ _ _ _ ih => exact .cons _ (.cons _ (ih.snoc _))
  | nothing => exact .none _
  | orElse _ _ _ ih => exact .cons _ (.cons _ ih)

end Stmt

/-! ## Functions and programs -/

theorem Decorator.Argument.encloses {ts : List (Spanned Token)} {a : Spanned String × Expr}
    (h : Argument ts a) : Encloses ts (argumentParts a) := by
  cases h with
  | mk _ _ h => exact (Encloses.name _).append (.cons _ h.encloses)

theorem Decorator.Derives.encloses {ts : List (Spanned Token)} {d : Decorator} (h : Derives ts d) :
    Encloses ts [.decorator d] := by
  cases h with
  | @plain t name newline x =>
    have hmark : Encloses [t, name] [.decorator ⟨⟨x, name.span⟩, [], spanOf [t, name]⟩] :=
      .node (by simp) rfl ((Encloses.name x).cons t)
    exact hmark.snoc newline
  | applied _ _ _ _ _ hargs =>
    refine .snoc (.node (by simp) rfl ?_) _
    exact .cons _ ((Encloses.name _).append
      (.cons _ (.snoc (.commaList fun p hp => (hargs p hp).encloses) _)))

theorem Param.Derives.encloses {ts : List (Spanned Token)} {p : Param} (h : Derives ts p) :
    Encloses ts p.parts := by
  cases h with
  | plain => exact .name _
  | typed _ _ h => exact (Encloses.name _).append (.cons _ (encloses_typeExpr h))

theorem Function.Result.encloses {ts : List (Spanned Token)} {ty : Option TypeExpr}
    (h : Result ts ty) : Encloses ts (ty.toList.map .type) := by
  cases h with
  | none => exact .none _
  | some _ h => exact .cons _ (encloses_typeExpr h)

/-- A function stands where its tokens do, and so do its marks, its parameters and its body. -/
theorem Function.Derives.encloses {ts : List (Spanned Token)} {f : Function} (h : Derives ts f) :
    Encloses ts [.function f] := by
  cases h with
  | mk _ _ _ _ _ hdecorators hparams hresult hbody =>
    refine .node (by simp [tokens]) rfl ((Encloses.pieces fun p hp => ?_).append
      (.cons _ ((Encloses.name _).append (.cons _ ((Encloses.commaList fun p hp => ?_).append
        (.cons _ (hresult.encloses.append (.cons _ hbody.encloses))))))))
    · exact (hdecorators p hp).encloses
    · exact (hparams p hp).encloses

/-- The node of an item. -/
def Item.node : Item → Node
  | .function f => .function f
  | .stmt s => .stmt s

theorem Item.Derives.encloses {ts : List (Spanned Token)} {i : Item} (h : Derives ts i) :
    Encloses ts [i.node] := by
  cases h with
  | function h => exact h.encloses
  | stmt h => exact h.encloses

/-- The items of a program stand one after another. -/
theorem Program.Derives.encloses {ts : List (Spanned Token)} {items : List Item}
    (h : Derives ts items) : Encloses ts (items.map Item.node) := by
  cases h with
  | mk h => exact .pieces fun p hp => (h p hp).encloses

/-! ## Programs that are read -/

/-- The first node is the second one, or inside one of its parts. -/
inductive Node.Inside : Node → Node → Prop
  | self {n} : Inside n n
  | part {m p n} (hp : p ∈ n.parts) (h : Inside m p) : Inside m n

/-- What the range of a node has to be like, in a text of so many bytes. -/
structure Node.WellPlaced (length : Nat) (n : Node) : Prop where
  valid : n.span.start ≤ n.span.stop
  within : n.span.stop ≤ length
  encloses : ∀ p ∈ n.parts, n.span.start ≤ p.span.start ∧ p.span.stop ≤ n.span.stop
  inOrder : n.parts.Pairwise fun p q => p.span.stop ≤ q.span.start

theorem pairwise_of_inOrder {start stop : Nat} {ns : List Node}
    (h : InOrder start stop (ns.map Node.placed)) :
    ns.Pairwise fun p q => p.span.stop ≤ q.span.start := by
  induction ns generalizing start with
  | nil => exact .nil
  | cons n ns ih =>
    refine List.pairwise_cons.2 ⟨fun m hm => ?_, ih h.2.2⟩
    exact (h.2.2.mem (List.mem_map_of_mem hm)).1

/-- By induction on where the node is: inside a nested node every range is well placed. -/
theorem Node.Nested.wellPlaced {length : Nat} {m n : Node} (h : n.Nested)
    (hlength : n.span.stop ≤ length) (hm : m.Inside n) : m.WellPlaced length := by
  induction hm with
  | self =>
    obtain ⟨horder, -⟩ := h
    exact ⟨horder.start_le_stop, hlength, fun p hp => horder.mem (List.mem_map_of_mem hp),
      pairwise_of_inOrder horder⟩
  | part hp _ ih =>
    obtain ⟨horder, hparts⟩ := h
    exact ih (hparts _ hp) ((horder.mem (List.mem_map_of_mem hp)).2.trans hlength)

/-- The ranges in a program that is read lie within the text. The range of each node encloses those
of its parts, which stand one after another, as the items of the program do. -/
theorem wellPlaced_of_parseItems {source : String} {items : List Item}
    (h : parseItems source = .ok items) :
    (items.Pairwise fun i j => i.node.span.stop ≤ j.node.span.start) ∧
      ∀ i ∈ items, ∀ m : Node, m.Inside i.node → m.WellPlaced (byteLength source.toList) := by
  obtain ⟨tokens, htokens, hitems⟩ := Exec.bind_eq_ok.1 h
  have hrow := (derives_of_itemsOfTokens hitems).encloses (inOrder_of_tokenizeLayout htokens)
  refine ⟨List.pairwise_map.1 (pairwise_of_inOrder hrow.inOrder), fun i hi m hm => ?_⟩
  have hnode := List.mem_map_of_mem (f := Item.node) hi
  exact (hrow.nested _ hnode).wellPlaced (hrow.inOrder.mem (List.mem_map_of_mem hnode)).2 hm

/-- A marked function with parentheses, a slice and blocks of both kinds, and then a statement. -/
def sliced : String :=
  "@verify(a=[(x)])\ndef f(x: List[int]):\n  if (x[1:]):\n    y = (x)[0]\n  else: pass\nf('b')\n"

/-- The nodes of the program are well placed, and these are the ranges of the outer ones. -/
theorem wellPlaced_sliced :
    ∃ items, parseItems sliced = .ok items ∧
      items.map (fun i => (i.node.span, i.node.parts.map Node.span)) =
        [(⟨0, 80⟩, [⟨0, 16⟩, ⟨21, 22⟩, ⟨23, 24⟩, ⟨26, 35⟩, ⟨40, 79⟩]), (⟨80, 86⟩, [⟨80, 86⟩])] ∧
      (items.Pairwise fun i j => i.node.span.stop ≤ j.node.span.start) ∧
      ∀ i ∈ items, ∀ m : Node, m.Inside i.node → m.WellPlaced (byteLength sliced.toList) := by
  have hread : (parseItems sliced).map
      (fun items => items.map fun i => (i.node.span, i.node.parts.map Node.span)) =
        .ok [(⟨0, 80⟩, [⟨0, 16⟩, ⟨21, 22⟩, ⟨23, 24⟩, ⟨26, 35⟩, ⟨40, 79⟩]),
          (⟨80, 86⟩, [⟨80, 86⟩])] := by
    decide +kernel
  cases hitems : parseItems sliced with
  | error e =>
    rw [hitems] at hread
    cases hread
  | ok items =>
    rw [hitems] at hread
    exact ⟨items, rfl, Except.ok.inj hread, wellPlaced_of_parseItems hitems⟩

end Precond.Host
