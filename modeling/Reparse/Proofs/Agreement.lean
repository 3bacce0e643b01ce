import Mathlib.Data.List.Basic
import Reparse.Proofs.Building

/-!
# Agreement of trees

Two trees agree if a walk finds the same in both: at every step the same depth, field and symbol, the
same number of children, the same start and stop in bytes and in rows and columns, and the same
flags (`Tree.Agrees`). Storage and what was looked at do not count (`Tree.agrees_of_bare`).
-/

namespace Reparse

/-- What a walk finds at a node. -/
structure Finding where
  depth : Nat
  field : Option FieldId
  symbol : Symbol
  childCount : Nat
  start : Length
  stop : Length
  isNamed : Bool
  isMissing : Bool
  isExtra : Bool
  isError : Bool
  hasError : Bool
  hasChanges : Bool
deriving DecidableEq

/-- What a walk finds at a visit. -/
def Visit.finding (v : Visit) : Finding where
  depth := v.depth
  field := v.field
  symbol := v.node.symbol
  childCount := v.node.childCount
  start := v.node.start
  stop := v.node.stop
  isNamed := v.node.isNamed
  isMissing := v.node.isMissing
  isExtra := v.node.isExtra
  isError := v.node.isError
  hasError := v.node.hasError
  hasChanges := v.node.hasChanges

/-- What a walk over a tree finds. -/
def Tree.findings (t : Tree) : List Finding := t.rootNode.visits.map Visit.finding

/-- Whether walks find the same in two trees. -/
def Tree.Agrees (t u : Tree) : Prop := t.findings = u.findings

instance (t u : Tree) : Decidable (t.Agrees u) := inferInstanceAs (Decidable (_ = _))

namespace Green

mutual

/-- Stamps and marks do not change how deep a tree is. -/
@[simp]
lemma depth_bare : ∀ g : Green, g.bare.depth = g.depth
  | node l cs => by rw [bare, depth, depth, depthOfAll_bareAll cs]

/-- Stamps and marks do not change how deep children are. -/
@[simp]
lemma depthOfAll_bareAll : ∀ cs : List (Child Green), depthOfAll (bareAll cs) = depthOfAll cs
  | [] => rfl
  | c :: rest => by rw [bareAll, depthOfAll, depthOfAll, depth_bare c.node, depthOfAll_bareAll rest]

end

/-- Bare children stand where the children do. -/
lemma layOutAfter_bareAll (stop : Length) (cs : List (Child Green)) :
    layOutAfter stop (bareAll cs) =
      (layOutAfter stop cs).map fun e => (⟨e.1.field, e.1.node.bare⟩, e.2) := by
  induction cs generalizing stop with
  | nil => rfl
  | cons c cs ih =>
    simp only [bareAll, layOutAfter, label_bare, List.map_cons]
    rw [show c.node.label.bare.padding = c.node.label.padding from rfl,
      show c.node.label.bare.size = c.node.label.size from rfl, ih]

/-- Children without stamps and marks have the same places. -/
lemma layOut_bareAll (start : Length) (cs : List (Child Green)) :
    layOut start (bareAll cs) =
      (layOut start cs).map fun e => (⟨e.1.field, e.1.node.bare⟩, e.2) := by
  cases cs with
  | nil => rfl
  | cons c cs =>
    simp only [bareAll, layOut, label_bare, List.map_cons]
    rw [show c.node.label.bare.size = c.node.label.size from rfl, layOutAfter_bareAll]

end Green

namespace Node

/-- The node over the bare tree. -/
def bare (n : Node) : Node := { n with green := n.green.bare }

/-- The entries of a node without stamps and marks are those of the node, without theirs. -/
lemma entries_bare (n : Node) : n.bare.entries = n.entries.map fun e => (e.1, e.2.bare) := by
  simp only [entries, bare, Green.children_bare, Green.layOut_bareAll, List.map_map]
  rfl

/-- Walks find the same in a bare tree. -/
lemma findings_bare (levels depth : Nat) (field : Option FieldId) (n : Node) :
    (visitsWithin levels depth field n.bare).map Visit.finding =
      (visitsWithin levels depth field n).map Visit.finding := by
  induction levels generalizing depth field n with
  | zero => rfl
  | succ levels ih =>
    have hhead : Visit.finding ⟨depth, field, n.bare⟩ = Visit.finding ⟨depth, field, n⟩ := by
      simp only [Visit.finding, childCount, symbol, stop, isNamed, isMissing, isExtra, isError,
        hasError, hasChanges, bare, Green.label_bare, Label.bare, Green.children_bare,
        Green.bareAll_eq_map, List.length_map]
    simp only [visitsWithin, List.map_cons, hhead, entries_bare, List.map_flatMap, List.flatMap_map,
      ih]

/-- The trees that nodes belong to do not matter for what a walk finds. -/
lemma findings_congr (levels depth : Nat) (field : Option FieldId) {n m : Node}
    (hg : n.green = m.green) (hs : n.start = m.start) :
    (visitsWithin levels depth field n).map Visit.finding =
      (visitsWithin levels depth field m).map Visit.finding := by
  induction levels generalizing depth field n m with
  | zero => rfl
  | succ levels ih =>
    have hhead : Visit.finding ⟨depth, field, n⟩ = Visit.finding ⟨depth, field, m⟩ := by
      simp only [Visit.finding, childCount, symbol, stop, isNamed, isMissing, isExtra, isError,
        hasError, hasChanges, hg, hs]
    simp only [visitsWithin, List.map_cons, hhead, entries, hg, hs, List.map_flatMap,
      List.flatMap_map]
    congr 1
    refine List.flatMap_congr fun e _ => ?_
    exact ih _ _ rfl rfl

end Node

/-- Trees whose bare roots are equal agree. -/
theorem Tree.agrees_of_bare {t u : Tree} (h : t.root.bare = u.root.bare) : t.Agrees u := by
  have hd : t.root.depth = u.root.depth := by rw [← Green.depth_bare, h, Green.depth_bare]
  have hl : t.root.label.bare = u.root.label.bare := by
    rw [← Green.label_bare, h, Green.label_bare]
  have hp : t.root.label.padding = u.root.label.padding := by
    have := congrArg Label.padding hl
    exact this
  rw [Agrees, findings, findings, Node.visits, Node.visits, ← Node.findings_bare,
    ← Node.findings_bare _ _ _ u.rootNode, show t.rootNode.green.depth = u.rootNode.green.depth from hd]
  exact Node.findings_congr _ _ _ h hp

/-! ## Leaves -/

namespace Node

/-- The visits to a node and the nodes below it, from a depth on. -/
def visitsFrom (depth : Nat) (field : Option FieldId) (n : Node) : List Visit :=
  visitsWithin n.green.depth depth field n

/-- A child of a node is a node over one of its green children. -/
lemma exists_of_mem_entries {n : Node} {e : Option FieldId × Node} (h : e ∈ n.entries) :
    ∃ c ∈ n.green.children, e.1 = c.field ∧ e.2.green = c.node := by
  obtain ⟨⟨c, start⟩, hc, rfl⟩ := List.mem_map.1 h
  have hm := List.mem_map_of_mem (f := fun e : Child Green × Length => e.1) hc
  rw [Green.map_fst_layOut] at hm
  exact ⟨c, hm, rfl, rfl⟩

/-- A node is deeper than its entries. -/
lemma depth_entry_lt {n : Node} {e : Option FieldId × Node} (h : e ∈ n.entries) :
    e.2.green.depth < n.green.depth := by
  obtain ⟨c, hc, -, hg⟩ := exists_of_mem_entries h
  have hle := Green.depth_le_depthOfAll hc
  rw [hg]
  generalize n.green = g at hle
  cases g
  exact Nat.lt_succ_of_le hle

/-- A walk that may go deeper than the tree meets no more nodes. -/
lemma visitsWithin_of_le {levels depth : Nat} {field : Option FieldId} {n : Node}
    (h : n.green.depth ≤ levels) : visitsWithin levels depth field n = n.visitsFrom depth field := by
  induction levels using Nat.strongRecOn generalizing depth field n with
  | _ levels ih =>
    have hpos : 0 < n.green.depth := by
      cases n.green
      exact Nat.succ_pos _
    obtain ⟨k, hk⟩ : ∃ k, n.green.depth = k + 1 := ⟨n.green.depth - 1, by omega⟩
    obtain ⟨l, rfl⟩ : ∃ l, levels = l + 1 := ⟨levels - 1, by omega⟩
    rw [visitsFrom, hk, visitsWithin, visitsWithin]
    congr 1
    refine List.flatMap_congr fun e he => ?_
    have hlt := depth_entry_lt he
    have h1 := @ih l (Nat.lt_succ_self l) (depth + 1) e.1 e.2 (by omega)
    exact h1.trans (@ih k (by omega) (depth + 1) e.1 e.2 (by omega)).symm

/-- The visits are the one to the node itself and those to and below its children. -/
lemma visitsFrom_eq (depth : Nat) (field : Option FieldId) (n : Node) :
    n.visitsFrom depth field =
      ⟨depth, field, n⟩ :: n.entries.flatMap fun e => e.2.visitsFrom (depth + 1) e.1 := by
  obtain ⟨k, hk⟩ : ∃ k, n.green.depth = k + 1 := by
    cases n.green
    exact ⟨_, rfl⟩
  rw [visitsFrom, hk, visitsWithin]
  congr 1
  refine List.flatMap_congr fun e he => ?_
  have hlt := depth_entry_lt he
  exact visitsWithin_of_le (by omega)

/-- The nodes at and below a node, in document order. -/
def below (n : Node) : List Node := n.visits.map (·.node)

/-- Where a walk starts does not matter for the nodes that it meets. -/
lemma map_node_visitsFrom (depth : Nat) (field : Option FieldId) (n : Node) :
    (n.visitsFrom depth field).map (·.node) = n.below := by
  have hall : ∀ levels d e f g (n : Node), (visitsWithin levels d f n).map (·.node) =
      (visitsWithin levels e g n).map (·.node) := by
    intro levels
    induction levels with
    | zero => exact fun _ _ _ _ _ => rfl
    | succ levels ih =>
      intro d e f g n
      simp only [visitsWithin, List.map_cons, List.map_flatMap]
      congr 1
      exact List.flatMap_congr fun c _ => ih _ _ _ _ _
  exact hall _ _ _ _ _ n

/-- Below a node are the node itself and what is below its children. -/
lemma below_eq (n : Node) : n.below = n :: n.children.flatMap below := by
  rw [below, show n.visits = n.visitsFrom 0 none from rfl, visitsFrom_eq, List.map_cons,
    List.map_flatMap, children, List.flatMap_map]
  congr 1
  exact List.flatMap_congr fun e _ => map_node_visitsFrom _ _ _

/-- The leaves at and below a node, in document order. -/
def leaves (n : Node) : List Node := n.below.filter fun m => m.childCount == 0

/-- The leaves of a node with children are those of its children. -/
lemma leaves_of_ne {n : Node} (h : n.childCount ≠ 0) : n.leaves = n.children.flatMap leaves := by
  have hc : (n.childCount == 0) = false := by simpa using h
  rw [leaves, below_eq, List.filter_cons, hc, List.filter_flatMap]
  rfl

/-- A node without children is its only leaf. -/
lemma leaves_of_eq {n : Node} (h : n.childCount = 0) : n.leaves = [n] := by
  have hc : n.children = [] := List.eq_nil_of_length_eq_zero ((length_children n).trans h)
  rw [leaves, below_eq, hc]
  simp [h]

/-- Every visit of a walk is at least as deep as where the walk starts. -/
lemma le_depth_of_mem {levels depth : Nat} {field : Option FieldId} {n : Node} {v : Visit}
    (h : v ∈ visitsWithin levels depth field n) : depth ≤ v.depth := by
  induction levels generalizing depth field n with
  | zero => cases h
  | succ levels ih =>
    rcases List.mem_cons.1 h with rfl | h
    · exact Nat.le_refl _
    · obtain ⟨e, -, he⟩ := List.mem_flatMap.1 h
      exact Nat.le_of_succ_le (ih he)

/-- The leaves of the children of a node are those that a walk meets below it. -/
lemma leaves_children (n : Node) : n.children.flatMap leaves =
    (n.visits.filter fun v => v.depth != 0 && v.node.childCount == 0).map (·.node) := by
  rw [show n.visits = n.visitsFrom 0 none from rfl, visitsFrom_eq,
    List.filter_cons_of_neg (by simp), List.filter_flatMap, List.map_flatMap, children,
    List.flatMap_map]
  refine List.flatMap_congr fun e _ => ?_
  rw [leaves, ← map_node_visitsFrom 1 e.1, List.filter_map]
  congr 1
  refine List.filter_congr fun v hv => ?_
  have hd : v.depth ≠ 0 := Nat.ne_of_gt (le_depth_of_mem hv)
  have hd' : (v.depth != 0) = true := by simpa using hd
  rw [hd', Bool.true_and]
  rfl

end Node

/-- Trees that agree have the same leaves below their roots, as far as these stand for text: of the same
symbols and in the same places. -/
lemma Tree.Agrees.words {t u : Tree} (h : t.Agrees u) :
    ((t.rootNode.children.flatMap Node.leaves).filter fun n => !n.isMissing).map
        (fun n => (n.symbol, n.startByte, n.stopByte)) =
      ((u.rootNode.children.flatMap Node.leaves).filter fun n => !n.isMissing).map
        fun n => (n.symbol, n.startByte, n.stopByte) := by
  have hw : ∀ t : Tree, ((t.rootNode.children.flatMap Node.leaves).filter fun n => !n.isMissing).map
      (fun n => (n.symbol, n.startByte, n.stopByte)) =
      (t.findings.filter fun f => (f.depth != 0 && f.childCount == 0) && !f.isMissing).map
        fun f => (f.symbol, f.start.bytes, f.stop.bytes) := by
    intro t
    simp only [Node.leaves_children, Tree.findings, List.filter_map, List.map_map,
      List.filter_filter, Function.comp_def]
    congr 1
    refine List.filter_congr fun v _ => ?_
    exact Bool.and_comm _ _
  rw [hw, hw, h]

end Reparse
