import Reparse.Proofs.Building
import Reparse.Proofs.Drafts

/-!
# Acceptance

The parser of C accepts exactly its grammar: a document that is parsed from its start without an
interruption has a tree without an error if and only if the kinds of its tokens are a sentence, and
then the tree without its extras is the only derivation of that sentence (`parse_accepts`).
-/

namespace Reparse

/-- What is left of a tree without places and extras: fields and symbols. -/
inductive Skeleton where
  | node (field : Option FieldId) (symbol : Symbol) (parts : List Skeleton)

namespace Green

mutual

/-- The tree under a field without places and extras. -/
def skeleton (field : Option FieldId) : Green → Skeleton
  | node l cs => .node field l.symbol (skeletons cs)

/-- Several trees without places and extras. -/
def skeletons : List (Child Green) → List Skeleton
  | [] => []
  | c :: rest =>
    if c.node.label.isExtra then skeletons rest else c.node.skeleton c.field :: skeletons rest

end

mutual

/-- Stamps and marks are no part of a skeleton. -/
lemma skeleton_bare (field : Option FieldId) : ∀ g : Green, g.bare.skeleton field = g.skeleton field
  | node l cs => by rw [bare, skeleton, skeleton, skeletons_bareAll cs]; rfl

/-- Stamps and marks are no part of the skeletons of children. -/
lemma skeletons_bareAll : ∀ cs : List (Child Green), skeletons (bareAll cs) = skeletons cs
  | [] => rfl
  | c :: rest => by
    rw [bareAll, skeletons, skeletons, skeletons_bareAll rest, skeleton_bare c.field c.node,
      label_bare]
    rfl

end

end Green

namespace C

open Item

namespace Shape

mutual

/-- The shape as the skeleton of a tree. -/
def skeleton : Shape → Skeleton
  | leaf field kind => .node (field.map Field.id) kind.symbol []
  | node field rule parts => .node (field.map Field.id) rule.symbol (skeletons parts)

/-- Several shapes as skeletons of trees. -/
def skeletons : List Shape → List Skeleton
  | [] => []
  | s :: rest => s.skeleton :: skeletons rest

end

/-- The skeletons of shapes come one after the other. -/
lemma skeletons_append (a b : List Shape) : skeletons (a ++ b) = skeletons a ++ skeletons b := by
  induction a with
  | nil => rfl
  | cons s a ih => simp [skeletons, ih]

end Shape

/-! ## What is built of tidy items -/

/-- Of tokens only those that are unknown make error nodes. -/
lemma Terminal.symbol_beq_error (kind : Terminal) :
    (kind.symbol == .error) = (kind == .unknown) := by
  cases kind <;> rfl

/-- Of rules only that of errors makes error nodes. -/
lemma Rule.symbol_beq_error (rule : Rule) : (rule.symbol == .error) = (rule == .error) := by
  cases rule <;> rfl

mutual

/-- What is built of an item holds an error if the item does. -/
lemma hasError_built (place : Nat → Length) : ∀ (position : Length) (i : Item),
    (built place position i).1.node.label.hasError = i.hasError
  | _, .token field t => t.kind.symbol_beq_error
  | _, .missing field kind => rfl
  | _, .reused g => by simp [built, hasError, Label.bare]
  | position, .node field rule parts => by
    have h := any_hasError_builtAll place position parts
    rw [hasError, ← rule.symbol_beq_error, ← h]
    rfl

/-- The nodes of items hold an error exactly if the items do. -/
lemma any_hasError_builtAll (place : Nat → Length) : ∀ (position : Length) (is : List Item),
    (builtAll place position is).1.any (·.node.label.hasError) = hasErrorOf is
  | _, [] => rfl
  | position, i :: rest => by
    simp only [builtAll, List.any_cons, hasErrorOf, hasError_built place position i,
      any_hasError_builtAll place (built place position i).2 rest]

end

mutual

/-- What is built of a tidy item has the skeleton of its shape, unless it is an extra. -/
lemma skeletons_built (place : Nat → Length) : ∀ (position : Length) {i : Item}, i.Tidy →
    Green.skeletons [(built place position i).1] = Shape.skeletons i.shapes
  | _, .token field t, _ => by
    cases h : t.isComment with
    | true =>
      have hk : (t.kind == .comment) = true := h
      simp [built, Green.skeletons, Green.label, leafLabel, hk, Item.shapes, h, Shape.skeletons]
    | false =>
      have hk : (t.kind == .comment) = false := h
      simp [built, Green.skeletons, Green.skeleton, Green.label, leafLabel, hk, Item.shapes, h,
        Shape.skeletons, Shape.skeleton]
  | _, .missing _ _, h => h.elim
  | _, .reused _, h => h.elim
  | position, .node field rule parts, h => by
    have hp := skeletons_builtAll place position h.1
    simp [built, Green.skeletons, Green.skeleton, Green.label, nodeLabel, Item.shapes,
      Shape.skeletons, Shape.skeleton, hp]

/-- The nodes of tidy items have the skeletons of their shapes. -/
lemma skeletons_builtAll (place : Nat → Length) : ∀ (position : Length) {is : List Item},
    TidyAll is → Green.skeletons (builtAll place position is).1 = Shape.skeletons (shapesOf is)
  | _, [], _ => rfl
  | position, i :: rest, h => by
    have hi := skeletons_built place position h.1
    have hr := skeletons_builtAll place (built place position i).2 h.2.1
    rw [shapesOf, Shape.skeletons_append, ← hi, ← hr]
    simp only [builtAll, Green.skeletons]
    split <;> rfl

end

/-- The tree of a document holds an error if one of its items does. -/
lemma hasError_builtRoot (place : Nat → Length) (stop : Length) (items : List Item) :
    (builtRoot place stop items).label.hasError = hasErrorOf items := by
  have h := hasError_built place .zero (.node none .document items)
  rw [builtRoot, Green.label_withLabel]
  rw [h, hasError]
  rfl

/-- The tree of tidy items has the skeleton of their shapes. -/
lemma skeleton_builtRoot (place : Nat → Length) (stop : Length) {items : List Item}
    (h : TidyAll items) : (builtRoot place stop items).skeleton none =
      (Shape.node none .document (shapesOf items)).skeleton := by
  have hp := skeletons_builtAll place .zero h
  simp only [builtRoot, built, Green.withLabel, Green.skeleton, Green.label, nodeLabel,
    Shape.skeleton, hp]
  rfl

/-! ## Parses from the start -/

/-- A call of a parser that is never told to stop gives what its engine finishes with. -/
lemma parse_of_neverFires {p : Parser Checkpoint} {outside : Outside} {d : Document}
    (generation : Nat) (hl : p.language = some language)
    (hq : NeverFires (p.probes outside) (.start p.timeout)) :
    ∃ s' parts tree, Steps (.ofDocument d p.includedRanges) none
        (State.start (.ofDocument d p.includedRanges) (p.task outside language d none).progress)
        s' ∧
      step (.ofDocument d p.includedRanges) none s' = .finished parts ∧
      treeOf (.ofDocument d p.includedRanges) generation parts = .ok tree ∧
      p.parse outside generation d none = (.ok tree, p.reset) := by
  obtain ⟨s', parts, hs, hf, hr⟩ := engine_of_neverFires generation
    (p.task outside language d none) rfl hq
  obtain ⟨tree, ht, -⟩ := treeOf_eq (.ofDocument d p.includedRanges) generation parts
  refine ⟨s', parts, tree, hs, hf, ht, parse_of_complete hl ?_⟩
  have ht' : treeOf (p.task outside language d none).source generation parts = .ok tree := ht
  rw [hr, finish, ht']

/-- The parser of C accepts exactly its grammar and builds its derivation. -/
lemma parse_accepts {p : Parser Checkpoint} {outside : Outside} {d : Document}
    (generation : Nat) (hl : p.language = some language)
    (hfresh : (p.task outside language d none).progress = none)
    (hq : NeverFires (p.probes outside) (.start p.timeout)) :
    ∃ tree, (p.parse outside generation d none).1 = .ok tree ∧
      (tree.rootNode.hasError = false ↔ ∃ ss, Derives .document ss ∧
        Shape.leavesOf ss = kinds (tokensFrom (.ofDocument d p.includedRanges) 0)) ∧
      (tree.rootNode.hasError = false → ∃ ss, Derives .document ss ∧
        Shape.leavesOf ss = kinds (tokensFrom (.ofDocument d p.includedRanges) 0) ∧
        tree.root.skeleton none = (Shape.node none .document ss).skeleton ∧
        ∀ ss', Derives .document ss' →
          Shape.leavesOf ss' = kinds (tokensFrom (.ofDocument d p.includedRanges) 0) →
          ss' = ss) := by
  obtain ⟨s', parts, tree, hs, hf, ht, hp⟩ := parse_of_neverFires generation hl hq
  rw [hfresh] at hs
  have hstart : (State.start (.ofDocument d p.includedRanges) none).draft.Sound := .empty
  have htokens : tokensOf parts = tokensFrom (.ofDocument d p.includedRanges) 0 :=
    (tokens_finished hf).trans (tokens_steps hs)
  obtain ⟨tree', ht', -, -, hroot⟩ := treeOf_eq (.ofDocument d p.includedRanges) generation parts
  obtain rfl : tree = tree' := Except.ok.inj (ht.symm.trans ht')
  have herror : tree.rootNode.hasError = hasErrorOf parts := by
    rw [← hasError_builtRoot _ _ parts, ← hroot, Green.label_bare]
    rfl
  have hsound : tree.rootNode.hasError = false → ∃ ss, Derives .document ss ∧
      Shape.leavesOf ss = kinds (tokensFrom (.ofDocument d p.includedRanges) 0) ∧
      tree.root.skeleton none = (Shape.node none .document ss).skeleton := by
    intro he
    obtain ⟨ss, hd, hss⟩ := (hstart.steps hs).finished hf (herror.symm.trans he)
    refine ⟨ss, hd, ?_, ?_⟩
    · rw [← htokens, hss.tidy.kinds_tokensOf, hss.shapes]
    · rw [← Green.skeleton_bare, hroot, skeleton_builtRoot _ _ hss.tidy, hss.shapes]
  refine ⟨tree, by rw [hp], ⟨fun he => ?_, fun h => ?_⟩, fun he => ?_⟩
  · obtain ⟨ss, hd, hk, -⟩ := hsound he
    exact ⟨ss, hd, hk⟩
  · obtain ⟨ss, hd, hk⟩ := h
    obtain ⟨s'', parts', hs', hf', -, he⟩ := finished_of_derives
      (.ofDocument d p.includedRanges) (State.start (.ofDocument d p.includedRanges) none) hd hk.symm
      rfl rfl
    obtain rfl := finished_unique hs hs' hf hf'
    rw [herror, Step.finished.inj (hf.symm.trans hf'), he]
  · obtain ⟨ss, hd, hk, hsk⟩ := hsound he
    exact ⟨ss, hd, hk, hsk, fun ss' hd' hk' => hd'.unique hd hk'.symm hk.symm⟩

/-- A parser of C without a timeout and a flag. -/
def plainParser : Parser Checkpoint := ⟨some language, [.document], 0, none, none⟩

/-- A world in which no flag is set and no time passes. -/
def stillWorld : Outside := ⟨fun _ _ => 0, fun _ => 0, 0⟩

/-- A new parser that has neither a flag nor a timeout is never stopped. -/
lemma neverFires_plainParser : NeverFires (plainParser.probes stillWorld) (.start 0) :=
  neverFires_of_flag fun _ => rfl

end C

end Reparse
