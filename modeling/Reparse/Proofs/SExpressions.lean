import Reparse.Proofs.Legibility
import Reparse.Proofs.Lineage

/-!
# S-expressions

Nodes of trees that parses of C return have the same S-expression exactly if they have the same visible
structure (`C.toSExpression_eq_iff`). The S-expression is that of an outline, which is legible where all
summaries are exact (`Green.proper_outlines`): then the kind of a missing node tells whether it is named,
and nothing stands below it. That an S-expression is written piece by piece, with a space where something
was written before, makes no difference (`Node.write_eq`).
-/

namespace Reparse

/-! ## Outlines of green trees -/

namespace Green

mutual

/-- The outlines of the visible nodes at and below a node that stands under a field. -/
def outlines (grammar : Grammar) (field : Option String) : Green → List Outline
  | node l cs =>
    if l.isMissing then [.missing field l.isNamed (grammar.kindOf l.symbol)]
    else if l.isNamed then [.node field (grammar.kindOf l.symbol) (outlinesOf grammar true cs)]
    else outlinesOf grammar false cs

/-- The outlines of the visible nodes at and below some children. -/
def outlinesOf (grammar : Grammar) (labelled : Bool) : List (Child Green) → List Outline
  | [] => []
  | c :: rest =>
    c.node.outlines grammar (grammar.labelOf labelled c.field) ++ outlinesOf grammar labelled rest

end

variable {grammar : Grammar} {labelled : Bool} {cs : List (Child Green)}

/-- The outlines of children are those of each, under the name of its field. -/
lemma outlinesOf_eq_flatMap : outlinesOf grammar labelled cs =
    cs.flatMap fun c => c.node.outlines grammar (grammar.labelOf labelled c.field) := by
  induction cs with
  | nil => rfl
  | cons c cs ih => rw [outlinesOf, ih, List.flatMap_cons]

/-- What does not depend on places can be collected without them. -/
lemma flatMap_layOut {α : Type} {start : Length} {f : Child Green × Length → List α}
    {f' : Child Green → List α} (h : ∀ c ∈ cs, ∀ start, f (c, start) = f' c) :
    (layOut start cs).flatMap f = cs.flatMap f' := by
  have hmap : ((layOut start cs).map (·.1)).flatMap f' = cs.flatMap f' := by rw [map_fst_layOut]
  rw [← hmap, List.flatMap_map]
  refine List.flatMap_congr fun e he => h e.1 ?_ e.2
  rw [← map_fst_layOut start cs]
  exact List.mem_map_of_mem he

end Green

namespace Node

/-- The outline of a node does not depend on places, nor on the number of levels if there are enough. -/
lemma outlineUnder_eq {levels : Nat} {field : Option String} {n : Node} (h : n.green.depth ≤ levels) :
    outlineUnder levels field n = n.green.outlines n.tree.grammar field := by
  induction levels generalizing field n with
  | zero =>
    obtain ⟨t, ⟨l, cs⟩, start⟩ := n
    rw [Green.depth] at h
    omega
  | succ levels ih =>
    obtain ⟨t, ⟨l, cs⟩, start⟩ := n
    have hchild : ∀ c ∈ cs, ∀ field start, outlineUnder levels field ⟨t, c.node, start⟩ =
        c.node.outlines t.grammar field := by
      intro c hc field start
      have hle := Green.depth_le_depthOfAll hc
      rw [Green.depth] at h
      exact ih (Nat.le_trans hle (Nat.le_of_succ_le_succ h))
    rw [outlineUnder, Green.outlines]
    show (if l.isMissing then _ else if l.isNamed then _ else _) = _
    split
    · rfl
    split
    · rw [Green.outlinesOf_eq_flatMap, entries, List.flatMap_map]
      refine congrArg (fun parts => [Outline.node field _ parts]) (Green.flatMap_layOut ?_)
      exact fun c hc start => hchild c hc _ start
    · rw [Green.outlinesOf_eq_flatMap, children, entries, List.map_map, List.flatMap_map]
      exact Green.flatMap_layOut fun c hc start => hchild c hc _ start

/-- The outline of a node is that of its tree without a field. -/
lemma outline_eq (n : Node) : n.outline = n.green.outlines n.tree.grammar none :=
  outlineUnder_eq (Nat.le_refl _)

end Node

/-! ## Writing piece by piece -/

namespace Outline

/-- Some text with nodes written after it, each after a space unless there is no text. -/
def appendAll (out : String) (os : List Outline) : String :=
  os.foldl (fun out o => Green.separated out ++ o.render) out

variable {out : String} {os : List Outline}

/-- After some text each node is written after a space. -/
lemma appendAll_of_ne (h : out ≠ "") : appendAll out os = out ++ renderInner os := by
  induction os generalizing out with
  | nil => exact (String.append_empty).symm
  | cons o rest ih =>
    have hne : ¬ out.isEmpty = true := fun hempty => h (String.isEmpty_iff.1 hempty)
    have hnext : out ++ " " ++ o.render ≠ "" := fun hempty =>
      o.render_ne_empty (String.append_eq_empty_iff.1 hempty).2
    rw [appendAll, List.foldl_cons, Green.separated, if_neg hne]
    refine (ih hnext).trans ?_
    rw [renderInner, String.append_assoc, String.append_assoc, String.append_assoc]

/-- Nodes that are written one after the other are separated by spaces. -/
lemma appendAll_empty : appendAll "" os = " ".intercalate (os.map render) := by
  cases os with
  | nil => rfl
  | cons o rest =>
    rw [intercalate_cons]
    have hstart : Green.separated "" ++ o.render = o.render := String.empty_append
    rw [appendAll, List.foldl_cons, hstart]
    exact appendAll_of_ne o.render_ne_empty

end Outline

namespace Green

open Outline (appendAll)

variable {grammar : Grammar} {labelled : Bool} {cs : List (Child Green)} {g : Green}

/-- Children are written as their outlines if each is. -/
lemma writeAll_eq {out : String} (h : ∀ c ∈ cs, ∀ field out,
      c.node.write grammar field out = appendAll out (c.node.outlines grammar field)) :
    writeAll grammar labelled out cs = appendAll out (outlinesOf grammar labelled cs) := by
  induction cs generalizing out with
  | nil => rfl
  | cons c cs ih =>
    obtain ⟨hc, hcs⟩ := List.forall_mem_cons.1 h
    rw [writeAll, outlinesOf, appendAll, List.foldl_append, hc]
    exact ih hcs

/-- The name of a field is written after what is there. -/
lemma writeField_eq (field : Option String) (out : String) :
    writeField field out = out ++ Outline.fieldText field := by
  cases field with
  | none => exact String.append_empty.symm
  | some name => exact String.append_assoc

/-- A node is written as the outlines of what is visible of it. -/
lemma write_eq (g : Green) : ∀ field out,
    g.write grammar field out = appendAll out (g.outlines grammar field) := by
  induction g using Green.induct with
  | node l cs ih =>
    intro field out
    have hone : ∀ o : Outline, appendAll out [o] = separated out ++ o.render := fun _ => rfl
    rw [write, outlines]
    dsimp only
    rw [writeField_eq]
    cases hmissing : l.isMissing with
    | true =>
      rw [if_pos (Bool.or_true _), if_pos rfl, if_pos rfl, hone, Outline.render]
      cases l.isNamed with
      | true => simp only [↓reduceIte, String.append_assoc]
      | false =>
        have hopen : "(MISSING \"" = "(MISSING " ++ "\"" := rfl
        have hclose : "\")" = "\"" ++ ")" := rfl
        simp only [Bool.false_eq_true, ↓reduceIte, hopen, hclose, String.append_assoc]
    | false =>
      cases hnamed : l.isNamed with
      | true =>
        rw [if_pos (Bool.or_false _), if_neg Bool.false_ne_true, if_neg Bool.false_ne_true, if_pos rfl, hone,
          Outline.render, writeAll_eq ih, Outline.appendAll_of_ne]
        · simp only [String.append_assoc]
        · intro hempty
          rw [String.append_eq_empty_iff, String.append_eq_empty_iff] at hempty
          exact absurd hempty.1.2 (by decide)
      | false => exact writeAll_eq ih

end Green

/-- A node is written as its S-expression. -/
theorem Node.write_eq (n : Node) : n.write = n.toSExpression := by
  rw [write, Green.write_eq, Outline.appendAll_empty, ← outline_eq]
  rfl

/-! ## Figures -/

namespace Outline

mutual

/-- The figure of an outline, which does not tell of a missing node whether it is named. -/
def figure : Outline → Figure
  | missing field _ kind => .node kind true field []
  | node field kind parts => .node kind false field (figureAll parts)

/-- The figures of several outlines. -/
def figureAll : List Outline → List Figure
  | [] => []
  | o :: rest => o.figure :: figureAll rest

end

variable {g : Grammar} {os os' : List Outline}

/-- The figures of outlines come one after the other. -/
lemma figureAll_append : figureAll (os ++ os') = figureAll os ++ figureAll os' := by
  induction os with
  | nil => rfl
  | cons o os ih => rw [List.cons_append, figureAll, figureAll, ih, List.cons_append]

/-- Outlines in two parts are proper if both are. -/
lemma properAll_append : ProperAll g (os ++ os') ↔ ProperAll g os ∧ ProperAll g os' := by
  induction os with
  | nil => exact ⟨fun h => ⟨trivial, h⟩, fun h => h.2⟩
  | cons o os ih => rw [List.cons_append, ProperAll, ProperAll, ih, and_assoc]

mutual

/-- An outline is known from its figure: the kind of a missing node tells whether the node is named. -/
lemma figure_inj : ∀ {o o' : Outline}, o.Proper g → o'.Proper g → o.figure = o'.figure → o = o'
  | .missing field isNamed kind, .missing field' isNamed' kind', ho, ho', h => by
    obtain ⟨rfl, -, rfl, -⟩ := Figure.node.inj h
    rw [Bool.eq_iff_iff.2 (ho.2.trans ho'.2.symm)]
  | .missing .., .node .., _, _, h => by cases (Figure.node.inj h).2.1
  | .node .., .missing .., _, _, h => by cases (Figure.node.inj h).2.1
  | .node field kind parts, .node field' kind' parts', ho, ho', h => by
    obtain ⟨rfl, -, rfl, hparts⟩ := Figure.node.inj h
    rw [figureAll_inj ho.2.2 ho'.2.2 hparts]

/-- Proper outlines with the same figures are the same. -/
lemma figureAll_inj : ∀ {os os' : List Outline}, ProperAll g os → ProperAll g os' →
    figureAll os = figureAll os' → os = os'
  | [], [], _, _, _ => rfl
  | [], _ :: _, _, _, h => by cases h
  | _ :: _, [], _, _, h => by cases h
  | o :: os, o' :: os', ho, ho', h => by
    obtain ⟨hfirst, hrest⟩ := List.cons.inj h
    rw [figure_inj ho.1 ho'.1 hfirst, figureAll_inj ho.2 ho'.2 hrest]

end

end Outline

namespace Green

variable {grammar : Grammar} {labelled : Bool} {cs : List (Child Green)} {g : Green}

/-- The figures of children are those of their outlines if those of each are. -/
lemma figuresOf_eq (h : ∀ c ∈ cs, ∀ field,
      c.node.figures grammar field = Outline.figureAll (c.node.outlines grammar field)) :
    figuresOf grammar labelled cs = Outline.figureAll (outlinesOf grammar labelled cs) := by
  induction cs with
  | nil => rfl
  | cons c cs ih =>
    obtain ⟨hc, hcs⟩ := List.forall_mem_cons.1 h
    rw [figuresOf, outlinesOf, Outline.figureAll_append, hc, ih hcs]

/-- What is visible of a node has the figures of its outlines, as nothing stands below missing nodes. -/
lemma figures_eq (h : g.Summed grammar) : ∀ field,
    g.figures grammar field = Outline.figureAll (g.outlines grammar field) := by
  induction g using Green.induct with
  | node l cs ih =>
    intro field
    have hs : ∀ c ∈ cs, ∀ field, c.node.figures grammar field =
        Outline.figureAll (c.node.outlines grammar field) :=
      fun c hc => ih c hc (summedAll_iff.1 h.2 c hc)
    rw [figures, outlines]
    cases hmissing : l.isMissing with
    | true =>
      obtain rfl : cs = [] := List.map_eq_nil_iff.1 (h.1.childless hmissing)
      rw [if_pos (Bool.or_true _), if_pos rfl]
      rfl
    | false =>
      rw [if_neg Bool.false_ne_true]
      cases l.isNamed with
      | true =>
        rw [if_pos (Bool.or_false _), if_pos rfl, figuresOf_eq hs]
        rfl
      | false => exact figuresOf_eq hs

/-- The outlines of children are proper if those of each are. -/
lemma properAll_outlinesOf (h : ∀ c ∈ cs, ∀ field, (∀ name ∈ field, IsWord name) →
      Outline.ProperAll grammar (c.node.outlines grammar field)) (hl : grammar.Legible) :
    Outline.ProperAll grammar (outlinesOf grammar labelled cs) := by
  induction cs with
  | nil => trivial
  | cons c cs ih =>
    obtain ⟨hc, hcs⟩ := List.forall_mem_cons.1 h
    exact Outline.properAll_append.2 ⟨hc _ hl.isWord_label, ih hcs⟩

/-- The outlines of what is visible of a node are proper, if the grammar is legible. -/
lemma properAll_outlines (hl : grammar.Legible) (h : g.Summed grammar) : ∀ field,
    (∀ name ∈ field, IsWord name) → Outline.ProperAll grammar (g.outlines grammar field) := by
  induction g using Green.induct with
  | node l cs ih =>
    intro field hfield
    have hs := fun c hc => ih c hc (summedAll_iff.1 h.2 c hc)
    have hnamed : l.isNamed = true ↔ grammar.Named (grammar.kindOf l.symbol) := by
      rw [← hl.isNamed_iff]
      exact Eq.congr_left h.1.isNamed
    rw [outlines]
    split
    · exact ⟨⟨hfield, hnamed⟩, trivial⟩
    split
    · rename_i hname
      exact ⟨⟨hfield, hnamed.1 hname, properAll_outlinesOf hs hl⟩, trivial⟩
    · exact properAll_outlinesOf hs hl

end Green

/-! ## Nodes -/

/-- A tree that was made for a grammar is of it. -/
lemma Tree.Grown.grammar_eq {grammar : Grammar} {t : Tree} (h : t.Grown grammar) : t.grammar = grammar := by
  induction h with
  | built _ _ _ hbuilds _ =>
    exact (Builder.holds_of_builds (P := fun _ => True) hbuilds ⟨fun _ _ _ => trivial, fun _ _ _ => trivial⟩
      fun _ _ _ => trivial).2
  | edited _ _ _ ih => exact ih

/-- Whether all summaries of the subtree of a node are exact, for the grammar of its tree. -/
def Node.Summed (n : Node) (grammar : Grammar) : Prop := n.tree.grammar = grammar ∧ n.green.Summed grammar

namespace Node

variable {grammar : Grammar} {n m : Node}

/-- In a tree that was made for a grammar every node sums up those below it. -/
lemma summed_of_grown {t : Tree} {path : List Nat} (ht : t.Grown grammar)
    (hn : t.rootNode.descend? path = some n) : n.Summed grammar := by
  obtain ⟨hhas, htree⟩ := has_of_descend? hn
  refine ⟨?_, ht.summed.of_has hhas⟩
  rw [htree]
  exact ht.grammar_eq

/-- A node that sums up those below it has proper outlines. -/
lemma Summed.properAll (h : n.Summed grammar) (hl : grammar.Legible) :
    Outline.ProperAll grammar n.outline := by
  rw [outline_eq, h.1]
  exact Green.properAll_outlines hl h.2 none nofun

/-- What is visible of a node that sums up those below it are the figures of its outline. -/
lemma Summed.projection_eq (h : n.Summed grammar) : n.projection = Outline.figureAll n.outline := by
  rw [projection, outline_eq, h.1]
  exact Green.figures_eq h.2 none

/-- In a legible grammar, S-expressions are the same if and only if visible structures are. -/
theorem toSExpression_eq_iff_of_summed (hl : grammar.Legible) (hn : n.Summed grammar)
    (hm : m.Summed grammar) : n.toSExpression = m.toSExpression ↔ n.projection = m.projection := by
  rw [hn.projection_eq, hm.projection_eq]
  constructor
  · intro h
    rw [Outline.intercalate_inj hl (hn.properAll hl) (hm.properAll hl) h]
  · intro h
    rw [toSExpression, toSExpression, Outline.figureAll_inj (hn.properAll hl) (hm.properAll hl) h]

/-- The parentheses of an S-expression are balanced outside of quotes. -/
theorem balanced_toSExpression (hl : grammar.Legible) (hn : n.Summed grammar) : Balanced n.toSExpression :=
  Outline.balanced_intercalate hl (hn.properAll hl)

end Node

namespace C

/-- The grammar of C is legible. -/
lemma legible_grammar : grammar.Legible where
  words := by decide +kernel
  apart := by decide +kernel
  errors := by decide +kernel
  fields := by decide +kernel

/-- Whether a tree was returned by a parse of C. The parser may have been used for calls of any kind; the
old tree, if there is one and it is of the grammar of C, may be any that builders made. -/
def Returned (t : Tree) : Prop :=
  ∃ (p q : Parser Checkpoint) (outside : Outside) (generation : Nat) (d : Document) (oldTree : Option Tree),
    Ran p ∧ p.language = some language ∧ (∀ old ∈ oldTree, old.grammar = grammar → old.Grown grammar) ∧
    p.parse outside generation d oldTree = (.ok t, q)

/-- A tree that a parse returned was made for the grammar of C. -/
lemma Returned.grown {t : Tree} (h : Returned t) : t.Grown grammar := by
  obtain ⟨p, q, outside, generation, d, oldTree, hran, hl, hold, hp⟩ := h
  exact hran.grown hl hold hp

/-- Two nodes of trees that parses of C returned have the same S-expression if and only if what is visible
of them is the same: the named and the missing nodes in order, each with its kind, whether it is missing,
and the name of its field, where the nodes below one that is hidden move up into its place, without their
fields. Outside quotes the parentheses of an S-expression are balanced. -/
theorem toSExpression_eq_iff {t t' : Tree} (ht : Returned t) (ht' : Returned t') {path path' : List Nat}
    {n m : Node} (hn : t.rootNode.descend? path = some n) (hm : t'.rootNode.descend? path' = some m) :
    (n.toSExpression = m.toSExpression ↔ n.projection = m.projection) ∧ Balanced n.toSExpression := by
  have hn := Node.summed_of_grown ht.grown hn
  have hm := Node.summed_of_grown ht'.grown hm
  exact ⟨Node.toSExpression_eq_iff_of_summed legible_grammar hn hm,
    Node.balanced_toSExpression legible_grammar hn⟩

/-- Two words without a semicolon after them have the same visible structure. -/
theorem toSExpression_eq_iff_words :
    ∃ t t', (plainParser.parse stillWorld 0 ⟨[120], .utf8⟩ none).1 = .ok t ∧
      (plainParser.parse stillWorld 0 ⟨[121, 122], .utf8⟩ none).1 = .ok t' ∧
      t.rootNode.projection = t'.rootNode.projection ∧ Balanced t.rootNode.toSExpression := by
  have hran : Ran plainParser := .new rfl
  obtain ⟨-, -, t, -, -, -, hp⟩ := @parse_of_neverFires plainParser stillWorld ⟨[120], .utf8⟩ 0 rfl
    neverFires_plainParser
  obtain ⟨-, -, t', -, -, -, hp'⟩ := @parse_of_neverFires plainParser stillWorld ⟨[121, 122], .utf8⟩ 0 rfl
    neverFires_plainParser
  have hsame : (plainParser.parse stillWorld 0 ⟨[120], .utf8⟩ none).1.toOption.map
        (·.rootNode.toSExpression) =
      (plainParser.parse stillWorld 0 ⟨[121, 122], .utf8⟩ none).1.toOption.map
        (·.rootNode.toSExpression) := by
    decide +kernel
  simp only [hp, hp', Except.toOption, Option.map_some, Option.some.injEq] at hsame
  have hnone : ∀ old ∈ (none : Option Tree), old.grammar = grammar → old.Grown grammar :=
    fun _ hold => by cases hold
  have hiff := @toSExpression_eq_iff t t' ⟨_, _, _, _, _, _, hran, rfl, hnone, hp⟩
    ⟨_, _, _, _, _, _, hran, rfl, hnone, hp'⟩ [] [] t.rootNode t'.rootNode rfl rfl
  exact ⟨t, t', by rw [hp], by rw [hp'], hiff.1.1 hsame, hiff.2⟩

end C

end Reparse
