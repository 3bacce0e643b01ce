import Mathlib.Data.List.Find
import Reparse.Node.Family
import Reparse.Proofs.Sessions
import Reparse.Proofs.Spanning

/-!
# Parents and siblings

The search for a parent goes down from the root into every child that covers the node, and stops at the
first node that has an equal child. Nodes inside each other cover each other, so it does not miss the
parent (`Node.Nested.parentWithin?_isSome`); and where no two paths lead to equal nodes, it finds no other
node (`Tree.Distinct.kin`). The trees of a program are such trees, whatever was parsed and edited
before (`C.World.Reachable.relatives`), and no two of them share storage that is not the same in both, so
that their changed spans tell them apart (`C.World.Reachable.compared`).
-/

namespace Reparse

/-! ## Nearest elements -/

section

variable {α : Type} {p : α → Bool} {l : List α} {i : Nat} {a : α}

/-- The first element that satisfies `p`, from a number on. -/
lemma find?_drop_eq_some_iff : (l.drop i).find? p = some a ↔ ∃ j, i ≤ j ∧ l[j]? = some a ∧ p a = true ∧
    ∀ k b, i ≤ k → k < j → l[k]? = some b → p b = false := by
  rw [List.find?_eq_some_iff_getElem]
  constructor
  · rintro ⟨hp, j, hj, rfl, hbefore⟩
    rw [List.length_drop] at hj
    refine ⟨i + j, Nat.le_add_right i j, ?_, hp, fun k b hik hkj hb => ?_⟩
    · rw [List.getElem_drop]
      exact List.getElem?_eq_getElem _
    · obtain ⟨k, rfl⟩ := Nat.exists_eq_add_of_le hik
      obtain ⟨hlt, rfl⟩ := List.getElem?_eq_some_iff.1 hb
      have hk := hbefore k (by omega)
      rwa [List.getElem_drop, Bool.not_eq_true'] at hk
  · rintro ⟨j, hij, hj, hp, hbefore⟩
    obtain ⟨j, rfl⟩ := Nat.exists_eq_add_of_le hij
    obtain ⟨hlt, rfl⟩ := List.getElem?_eq_some_iff.1 hj
    refine ⟨hp, j, by rw [List.length_drop]; omega, List.getElem_drop, fun k hk => ?_⟩
    rw [List.getElem_drop, Bool.not_eq_true']
    exact hbefore (i + k) _ (Nat.le_add_right i k) (by omega) (List.getElem?_eq_getElem _)

/-- The last element that satisfies `p`, before a number. -/
lemma getLast?_filter_take_eq_some_iff : ((l.take i).filter p).getLast? = some a ↔
    ∃ j, j < i ∧ l[j]? = some a ∧ p a = true ∧
      ∀ k b, j < k → k < i → l[k]? = some b → p b = false := by
  induction i with
  | zero => simp
  | succ i ih =>
    rw [List.take_add_one, List.filter_append]
    by_cases hlast : ∃ b, l[i]? = some b ∧ p b = true
    · -- the last element is the one
      obtain ⟨b, hb, hp⟩ := hlast
      rw [hb, Option.toList_some, List.filter_singleton, hp, cond_true, List.getLast?_concat,
        Option.some.injEq]
      constructor
      · rintro rfl
        exact ⟨i, Nat.lt_succ_self i, hb, hp, fun k _ hik hk => by omega⟩
      · rintro ⟨j, hj, hja, hpa, hafter⟩
        rcases Nat.lt_or_eq_of_le (Nat.le_of_lt_succ hj) with hlt | rfl
        · rw [hafter i b hlt (Nat.lt_succ_self i) hb] at hp
          cases hp
        · rw [hb] at hja
          exact Option.some.inj hja
    · have hnone : (l[i]?.toList).filter p = [] := by
        rw [List.filter_eq_nil_iff]
        intro b hb hp
        exact hlast ⟨b, Option.mem_toList.1 hb, hp⟩
      rw [hnone, List.append_nil, ih]
      constructor
      · rintro ⟨j, hj, hja, hpa, hafter⟩
        refine ⟨j, Nat.lt_succ_of_lt hj, hja, hpa, fun k b hjk hk hb => ?_⟩
        rcases Nat.lt_or_eq_of_le (Nat.le_of_lt_succ hk) with hlt | rfl
        · exact hafter k b hjk hlt hb
        · exact Bool.eq_false_iff.2 fun hp => hlast ⟨b, hb, hp⟩
      · rintro ⟨j, hj, hja, hpa, hafter⟩
        rcases Nat.lt_or_eq_of_le (Nat.le_of_lt_succ hj) with hlt | rfl
        · exact ⟨j, hlt, hja, hpa, fun k b hjk hk hb => hafter k b hjk (Nat.lt_succ_of_lt hk) hb⟩
        · exact absurd ⟨a, hja, hpa⟩ hlast

end

namespace Node

variable {n p c : Node} {i : Nat}

/-- Whether `m` is the named child of `p` nearest to the child with the number `i`, of those after it. -/
def IsNamedAfter (p : Node) (i : Nat) (m : Node) : Prop :=
  ∃ j, i < j ∧ p.child? j = some m ∧ m.isNamed = true ∧
    ∀ k c, i < k → k < j → p.child? k = some c → c.isNamed = false

/-- Whether `m` is the named child of `p` nearest to the child with the number `i`, of those before it. -/
def IsNamedBefore (p : Node) (i : Nat) (m : Node) : Prop :=
  ∃ j, j < i ∧ p.child? j = some m ∧ m.isNamed = true ∧
    ∀ k c, j < k → k < i → p.child? k = some c → c.isNamed = false

/-- Whether the parent, the number, the field and the siblings that are found for a node are those of the
child of `p` with the number `i`. -/
structure Kin (n p : Node) (i : Nat) : Prop where
  parent : n.parent? = some p
  index : n.childIndex = i
  field : ∃ f, p.entries[i]? = some (f, n) ∧ n.fieldName? = f.bind n.tree.grammar.fieldName?
  next : n.nextSibling? = p.child? (i + 1)
  prev : n.prevSibling? = if i = 0 then none else p.child? (i - 1)
  nextNamed : ∀ m, n.nextNamedSibling? = some m ↔ p.IsNamedAfter i m
  prevNamed : ∀ m, n.prevNamedSibling? = some m ↔ p.IsNamedBefore i m

/-- The field that a child is listed with is the one that it is stored under. -/
lemma fieldForChild?_of_entries {f : Option FieldId} (h : p.entries[i]? = some (f, n)) :
    p.fieldForChild? i = f := by
  obtain ⟨⟨c, start⟩, hc, heq⟩ := Option.map_eq_some_iff.1 ((List.getElem?_map ..).symm.trans h)
  obtain ⟨rfl, -⟩ := Prod.mk.inj heq
  have hmap := congrArg (Option.map Prod.fst) hc
  rw [← List.getElem?_map, Green.map_fst_layOut] at hmap
  rw [fieldForChild?, hmap]
  rfl

/-! ## The search for a parent -/

/-- A node is equal to itself. -/
lemma beq_self (n : Node) : (n == n) = true := by
  show same n n = true
  simp [same, sameStorage, Green.sameStorage]

/-- The search stops at a node that has a child equal to the target. -/
lemma exists_of_parentWithin? {levels : Nat} (h : parentWithin? n levels p = some c) :
    ∃ path i m, p.descend? path = some c ∧ c.child? i = some m ∧ (m == n) = true := by
  induction levels generalizing p with
  | zero => cases h
  | succ levels ih =>
    obtain ⟨k, hk, hfound⟩ := List.exists_of_findSome?_eq_some h
    obtain ⟨j, hj⟩ := List.getElem?_of_mem hk
    split at hfound
    case isTrue heq =>
      obtain rfl := Option.some.inj hfound
      exact ⟨[], j, k, rfl, hj, heq⟩
    case isFalse =>
      split at hfound
      case isTrue =>
        obtain ⟨path, i, m, hc, hm, heq⟩ := ih hfound
        refine ⟨j :: path, i, m, ?_, hm, heq⟩
        rw [descend?, child?, hj, Option.bind_some, hc]
      case isFalse => cases hfound

/-- Among nodes inside each other, the search finds something for every node below the first. -/
lemma Nested.parentWithin?_isSome {levels : Nat} {path : List Nat} (h : p.Nested)
    (hn : p.descend? (i :: path) = some n) (hlevels : p.green.depth ≤ levels) :
    (parentWithin? n levels p).isSome := by
  induction levels generalizing p i path with
  | zero =>
    obtain ⟨k, hk, -⟩ := h.inside_descend hn
    have hdepth := depth_child_lt (List.mem_of_getElem? hk)
    omega
  | succ levels ih =>
    obtain ⟨k, hk, hn, hstart, hstop⟩ := h.inside_descend hn
    have hmem : k ∈ p.children := List.mem_of_getElem? hk
    have hdepth := depth_child_lt hmem
    rw [parentWithin?, List.findSome?_isSome_iff]
    refine ⟨k, hmem, ?_⟩
    split
    case isTrue => rfl
    case isFalse hne =>
      rw [if_pos ⟨hstart, hstop⟩]
      cases path with
      | nil =>
        obtain rfl := Option.some.inj hn
        exact absurd k.beq_self hne
      | cons j path => exact ih (h.child hmem) hn (by omega)

end Node

namespace Tree

variable {t : Tree} {n p : Node} {path : List Nat} {i : Nat}

/-- Whether no two paths of a tree lead to equal nodes. -/
def Distinct (t : Tree) : Prop :=
  ∀ path path' n n', t.rootNode.descend? path = some n → t.rootNode.descend? path' = some n' →
    (n == n') = true → path = path'

/-- In a tiled tree, children stand apart and inside their parents. -/
lemma nested_of_tiled (h : t.root.Tiled) (hw : t.root.width ≤ limit) : t.rootNode.Nested := by
  intro m hm
  obtain ⟨path, hpath⟩ := Node.mem_below_iff.1 hm
  obtain ⟨x, -, htiled, hle, hstart⟩ := tiled_of_descend? h hw hpath
  have hm := Node.tiled_of_placed htiled hle hstart
  refine ⟨hm.ordered.imp fun hab => Nat.le_trans hab (Nat.sub_le _ _), fun c hc => ?_⟩
  obtain ⟨-, hle', hstop⟩ := hm.inside c hc
  refine ⟨hle', ?_, hstop⟩
  -- a child starts below the largest count, so that its stop is not cut off before its start
  obtain ⟨j, hj⟩ := List.getElem?_of_mem hc
  have hchild : t.rootNode.descend? (path ++ [j]) = some c := by
    rw [Node.descend?_concat, hpath, Option.bind_some]
    exact hj
  obtain ⟨y, -, -, hcle, hcstart⟩ := tiled_of_descend? h hw hchild
  have hwidth : c.green.width = c.green.label.padding.bytes + c.green.label.size.bytes := rfl
  have hcstop : c.stopByte = addCounts c.startByte c.green.label.size.bytes := rfl
  rw [hcstop, addCounts_of_le (by omega)]
  exact Nat.le_add_right _ _

/-- Where no two paths lead to equal nodes, what is found for the child of a node is what it has. -/
theorem Distinct.kin (h : t.Distinct) (hnested : t.rootNode.Nested)
    (hp : t.rootNode.descend? path = some p) (hn : p.child? i = some n) : n.Kin p i := by
  have hpath : t.rootNode.descend? (path ++ [i]) = some n := by
    rw [Node.descend?_concat, hp, Option.bind_some, hn]
  have htree : n.tree = t := (Node.has_of_descend? hpath).2
  have hparent : n.parent? = some p := by
    have hroot : ¬ (n == t.rootNode) = true := fun heq => by
      have hnil := h _ [] _ _ hpath rfl heq
      exact absurd hnil (List.append_ne_nil_of_right_ne_nil _ (List.cons_ne_nil _ _))
    have hsome : (Node.parentWithin? n t.rootNode.green.depth t.rootNode).isSome := by
      cases path with
      | nil => exact hnested.parentWithin?_isSome hpath (Nat.le_refl _)
      | cons j path => exact hnested.parentWithin?_isSome hpath (Nat.le_refl _)
    obtain ⟨q, hq⟩ := Option.isSome_iff_exists.1 hsome
    obtain ⟨path', j, m, hq', hm, heq⟩ := Node.exists_of_parentWithin? hq
    -- a child that equals the node stands at its path, and so its parent is the parent of the node
    have hpaths := h (path' ++ [j]) (path ++ [i]) m n
      (by rw [Node.descend?_concat, hq', Option.bind_some, hm]) hpath heq
    obtain ⟨rfl, -⟩ := List.append_inj' hpaths rfl
    obtain rfl := Option.some.inj (hq'.symm.trans hp)
    rw [Node.parent?, htree, if_neg hroot, hq]
  have hindex : p.children.findIdx? (· == n) = some i := by
    obtain ⟨hlt, hget⟩ := List.getElem?_eq_some_iff.1 hn
    refine List.findIdx?_eq_some_iff_getElem.2 ⟨hlt, by rw [hget]; exact n.beq_self, fun j hj heq => ?_⟩
    have hpaths := h (path ++ [j]) (path ++ [i]) _ n (by
      rw [Node.descend?_concat, hp, Option.bind_some]
      exact List.getElem?_eq_getElem (Nat.lt_trans hj hlt)) hpath heq
    obtain ⟨-, hji⟩ := List.append_inj' hpaths rfl
    exact Nat.ne_of_lt hj (List.cons.inj hji).1
  have hstanding : n.standing? = some (p, i) := by
    rw [Node.standing?, hparent, Option.bind_some, hindex, Option.map_some]
  have hnumber : n.childIndex = i := by
    rw [Node.childIndex, hstanding, Option.map_some, Option.getD_some]
  refine ⟨hparent, hnumber, ?field, ?next, ?prev, ?nextNamed, ?prevNamed⟩
  case field =>
    obtain ⟨⟨f, m⟩, he, rfl⟩ := Option.map_eq_some_iff.1 ((List.getElem?_map ..).symm.trans hn)
    refine ⟨f, he, ?_⟩
    rw [Node.fieldName?, hparent, Option.bind_some, hnumber, Node.fieldNameForChild?,
      Node.fieldForChild?_of_entries he, htree, (Node.has_of_descend? hp).2]
    rfl
  case next => rw [Node.nextSibling?, hstanding, Option.bind_some]
  case prev => rw [Node.prevSibling?, hstanding, Option.bind_some]
  case nextNamed =>
    intro m
    rw [Node.nextNamedSibling?, hstanding, Option.bind_some]
    exact find?_drop_eq_some_iff
  case prevNamed =>
    intro m
    rw [Node.prevNamedSibling?, hstanding, Option.bind_some]
    exact getLast?_filter_take_eq_some_iff

/-- The root has neither a parent nor siblings. -/
lemma rootNode_alone (t : Tree) : t.rootNode.parent? = none ∧ t.rootNode.nextSibling? = none ∧
    t.rootNode.prevSibling? = none ∧ t.rootNode.nextNamedSibling? = none ∧
    t.rootNode.prevNamedSibling? = none := by
  have hparent : t.rootNode.parent? = none := if_pos t.rootNode.beq_self
  have hstanding : t.rootNode.standing? = none := by rw [Node.standing?, hparent, Option.bind_none]
  refine ⟨hparent, ?_, ?_, ?_, ?_⟩
  · rw [Node.nextSibling?, hstanding, Option.bind_none]
  · rw [Node.prevSibling?, hstanding, Option.bind_none]
  · rw [Node.nextNamedSibling?, hstanding, Option.bind_none]
  · rw [Node.prevNamedSibling?, hstanding, Option.bind_none]

end Tree

namespace C.World

variable {w : World} {d : Document} {t : Tree}

/-- In a tree of a program, no two paths lead to equal nodes. -/
lemma Kept.distinct (h : w.Kept) (ht : (d, t) ∈ w.trees) : t.Distinct := by
  intro path path' n n' hn hn' heq
  have hknown := (h.fits d t ht).known
  have hequal : (n.sameStorage n' && n.start == n'.start && n.tree.root.sameStorage n'.tree.root) =
    true := heq
  simp only [Node.sameStorage, Green.sameStorage, Bool.and_eq_true, beq_iff_eq] at hequal
  obtain ⟨⟨hstamp, hstart⟩, -⟩ := hequal
  have hhas := (Node.has_of_descend? hn).1
  have hhas' := (Node.has_of_descend? hn').1
  have hgreen : n.green = n'.green := h.named _ _ ⟨d, t, path, ht, hhas⟩ ⟨d, t, path', ht, hhas'⟩ hstamp
  by_contra hne
  -- a subtree that stands at two paths is not void, and so it does not stand at one place twice
  have hpos := h.apart d t ht path path' _ _ hhas hhas' hstamp hne
  have hlocate := Tree.locate_of_descend? hknown.length_le hknown.fits hn
  have hlocate' := Tree.locate_of_descend? hknown.length_le hknown.fits hn'
  have htotal : n'.totalStart = n.totalStart := by rw [Node.totalStart, Node.totalStart, hgreen, hstart]
  rw [htotal, ← hgreen] at hlocate'
  have hwidth : 0 < n.green.width := Nat.lt_of_lt_of_le hpos (Nat.le_add_left _ _)
  exact hne (hknown.fits.path_unique hlocate hlocate' rfl hwidth hwidth)

/-- The nodes of a tree of a program nest. -/
lemma Kept.nested (h : w.Kept) (ht : (d, t) ∈ w.trees) : t.rootNode.Nested := by
  have hknown := (h.fits d t ht).known
  exact Tree.nested_of_tiled hknown.fits.tiled (Nat.le_trans hknown.fits.width_le hknown.length_le)

/-- The changed spans of any two trees of a program tell them apart: storage that both have is the same
subtree in both. -/
theorem Reachable.compared (h : w.Reachable) {d' : Document} {t' : Tree} (ht : (d, t) ∈ w.trees)
    (ht' : (d', t') ∈ w.trees) : t.Compared t' := by
  have hkept := h.kept
  refine Tree.compared (hkept.nested ht) (hkept.nested ht') fun n hn m hm hstorage => ?_
  obtain ⟨path, hpath⟩ := Node.mem_below_iff.1 hn
  obtain ⟨path', hpath'⟩ := Node.mem_below_iff.1 hm
  exact hkept.named _ _ ⟨d, t, path, ht, (Node.has_of_descend? hpath).1⟩
    ⟨d', t', path', ht', (Node.has_of_descend? hpath').1⟩ (beq_iff_eq.1 hstorage)

/-- What is found up and sideways in a tree inverts the way down, whatever was parsed and edited before:
the child of a node with some number has that node for its parent, that number, the field that it is
stored under, and the children around it for siblings; the root has none; and different paths lead to
different nodes. -/
theorem Reachable.relatives (h : w.Reachable) (ht : (d, t) ∈ w.trees) :
    (∀ path i n, t.rootNode.descend? (path ++ [i]) = some n →
      ∃ p, t.rootNode.descend? path = some p ∧ p.child? i = some n ∧ n.Kin p i) ∧
    (t.rootNode.parent? = none ∧ t.rootNode.nextSibling? = none ∧ t.rootNode.prevSibling? = none ∧
      t.rootNode.nextNamedSibling? = none ∧ t.rootNode.prevNamedSibling? = none) ∧
    ∀ path path' n n', t.rootNode.descend? path = some n → t.rootNode.descend? path' = some n' →
      path ≠ path' → (n == n') = false := by
  have hkept := h.kept
  have hdistinct := hkept.distinct ht
  have hnested := hkept.nested ht
  refine ⟨fun path i n hn => ?_, t.rootNode_alone, fun path path' n n' hn hn' hne => ?_⟩
  · rw [Node.descend?_concat] at hn
    obtain ⟨p, hp, hn⟩ := Option.bind_eq_some_iff.1 hn
    exact ⟨p, hp, hn, hdistinct.kin hnested hp hn⟩
  · exact Bool.eq_false_iff.2 fun heq => hne (hdistinct path path' n n' hn hn' heq)

/-- The word of the first of the statements `x;y;` is replaced, and the text is parsed again, with the
edited tree: the second statement has the new root for its parent, and the number that it stands at. -/
theorem Reachable.relatives_second : ∃ w t n, Reachable w ∧
    (⟨[121, 122, 59, 121, 59], .utf8⟩, t) ∈ w.trees ∧ t.rootNode.descend? [1] = some n ∧
    n.parent? = some t.rootNode ∧ n.childIndex = 1 := by
  have hsecond : ((plainParser.parse stillWorld 0 ⟨[120, 59, 121, 59], .utf8⟩ none).1.toOption.bind
      fun t₀ => (plainParser.parse stillWorld 2 ⟨[121, 122, 59, 121, 59], .utf8⟩
        (some (t₀.edit 1 ⟨.zero, ⟨1, ⟨0, 1⟩⟩, ⟨2, ⟨0, 2⟩⟩⟩))).1.toOption.map fun t =>
          (t.rootNode.descend? [1]).isSome) = some true := by
    decide +kernel
  generalize hd : (⟨[120, 59, 121, 59], .utf8⟩ : Document) = d at hsecond
  generalize hd' : (⟨[121, 122, 59, 121, 59], .utf8⟩ : Document) = d' at hsecond ⊢
  generalize he : (⟨.zero, ⟨1, ⟨0, 1⟩⟩, ⟨2, ⟨0, 2⟩⟩⟩ : Edit) = e at hsecond
  have hlength : d.bytes.length ≤ limit := by rw [← hd]; decide
  have hlength' : d'.bytes.length ≤ limit := by rw [← hd']; decide
  have hturns : e.Turns d.bytes d'.bytes := by
    rw [← hd, ← hd', ← he]
    exact ⟨by decide, by decide, by decide, [121, 122], rfl, rfl⟩
  obtain ⟨-, -, t₀, -, -, -, hp₀⟩ := @parse_of_neverFires plainParser stillWorld d 0 rfl
    neverFires_plainParser
  have hopened : Next empty ⟨0, [plainParser], []⟩ := .opened rfl rfl
  have hparsed : Next ⟨0, [plainParser], []⟩ ⟨1, [plainParser.reset, plainParser], [(d, t₀)]⟩ :=
    @Next.parsed _ _ _ _ none _ _ (List.mem_cons_self ..) (fun _ ht => by cases ht) hlength hp₀
  have hedited : Next ⟨1, [plainParser.reset, plainParser], [(d, t₀)]⟩
      ⟨2, [plainParser.reset, plainParser], [(d', t₀.edit 1 e), (d, t₀)]⟩ :=
    .edited (List.mem_cons_self ..) ⟨hturns, by rw [← hd, ← hd']⟩ hlength'
  have hreachable := ((Relation.ReflTransGen.single hopened).tail hparsed).tail hedited
  have hmatches : ∀ t ∈ some (t₀.edit 1 e), Matches False d' t := by
    rintro _ ⟨⟩
    exact (Reachable.kept hreachable).fits _ _ (List.mem_cons_self ..)
  have hused : Used False plainParser := .new rfl rfl
  obtain ⟨t, hp⟩ := (hused.parse_cases hmatches (fun hf => hf.elim) stillWorld 2).resolve_right
    fun h => h.1 neverFires_plainParser
  have hreparsed : Next ⟨2, [plainParser.reset, plainParser], [(d', t₀.edit 1 e), (d, t₀)]⟩
      ⟨3, [plainParser.reset, plainParser.reset, plainParser],
        [(d', t), (d', t₀.edit 1 e), (d, t₀)]⟩ :=
    .parsed (List.mem_cons_of_mem _ (List.mem_cons_self ..)) (fun _ ht => by
      obtain rfl := Option.some.inj ht
      exact List.mem_cons_self ..) hlength' hp
  simp only [hp₀, hp, Except.toOption, Option.map_some, Option.bind_some, Option.some.injEq] at hsecond
  obtain ⟨n, hn⟩ := Option.isSome_iff_exists.1 hsecond
  have hmem : (d', t) ∈ [(d', t), (d', t₀.edit 1 e), (d, t₀)] := List.mem_cons_self ..
  obtain ⟨p, hroot, -, hkin⟩ := (Reachable.relatives (hreachable.tail hreparsed) hmem).1 [] 1 n hn
  obtain rfl := Option.some.inj hroot
  exact ⟨_, t, n, hreachable.tail hreparsed, hmem, hn, hkin.parent, hkin.index⟩

end C.World

end Reparse
