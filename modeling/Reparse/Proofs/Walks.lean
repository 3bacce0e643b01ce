import Reparse.Proofs.Cursors

/-!
# Walks

A cursor that goes down where it can, else across, else up, meets every node below the one that it was
made for once, in document order, and comes back to that node. With this, what cursors do is what paths
of child numbers do (`Cursor.refines_paths`).
-/

namespace Reparse

/-! ## All paths -/

namespace Green

mutual

/-- The paths of child numbers that lead to the nodes of a tree, in document order. -/
def paths : Green → List (List Nat)
  | node _ cs => [] :: pathsFrom 0 cs

/-- The same of children from number `i` on. -/
def pathsFrom (i : Nat) : List (Child Green) → List (List Nat)
  | [] => []
  | c :: rest => c.node.paths.map (i :: ·) ++ pathsFrom (i + 1) rest

end

/-- The paths of a tree are the empty one and those into its children. -/
lemma paths_eq (g : Green) : g.paths = [] :: pathsFrom 0 g.children := by
  obtain ⟨l, cs⟩ := g
  rw [paths, children]

/-- A path into children leads into one of them. -/
lemma exists_of_mem_pathsFrom {i : Nat} {cs : List (Child Green)} {path : List Nat}
    (h : path ∈ pathsFrom i cs) : ∃ j c rest, cs[j]? = some c ∧ rest ∈ c.node.paths ∧
      path = (i + j) :: rest := by
  induction cs generalizing i with
  | nil => cases h
  | cons c cs ih =>
    rw [pathsFrom] at h
    rcases List.mem_append.1 h with h | h
    · obtain ⟨rest, hrest, rfl⟩ := List.mem_map.1 h
      exact ⟨0, c, rest, rfl, hrest, rfl⟩
    · obtain ⟨j, d, rest, hd, hrest, rfl⟩ := ih h
      exact ⟨j + 1, d, rest, hd, hrest, by rw [Nat.add_assoc, Nat.add_comm 1]⟩

/-- The paths of a child are paths into the children. -/
lemma mem_pathsFrom {i j : Nat} {cs : List (Child Green)} {c : Child Green} {rest : List Nat}
    (hc : cs[j]? = some c) (hrest : rest ∈ c.node.paths) : (i + j) :: rest ∈ pathsFrom i cs := by
  induction cs generalizing i j with
  | nil => cases hc
  | cons d cs ih =>
    rw [pathsFrom]
    cases j with
    | zero =>
      obtain rfl := Option.some.inj hc
      exact List.mem_append_left _ (List.mem_map_of_mem hrest)
    | succ j =>
      refine List.mem_append_right _ ?_
      have := ih (i := i + 1) hc
      rwa [Nat.add_assoc, Nat.add_comm 1] at this

/-- The paths stand in order: a node comes before what is below it, and that before its later
siblings. -/
theorem pairwise_paths (g : Green) : g.paths.Pairwise (· < ·) := by
  induction g using Green.induct with
  | node l cs ih =>
    rw [paths, List.pairwise_cons]
    refine ⟨fun path h => ?_, ?_⟩
    · obtain ⟨j, c, rest, -, -, rfl⟩ := exists_of_mem_pathsFrom h
      exact List.nil_lt_cons _ _
    · generalize 0 = i
      induction cs generalizing i with
      | nil => exact .nil
      | cons c cs ihcs =>
        rw [pathsFrom, List.pairwise_append]
        refine ⟨?_, ihcs (fun d hd => ih d (List.mem_cons_of_mem _ hd)) (i + 1), ?_⟩
        · rw [List.pairwise_map]
          exact (ih c (List.mem_cons_self ..)).imp fun h => List.cons_lt_cons_self.2 h
        · intro p hp q hq
          obtain ⟨rest, -, rfl⟩ := List.mem_map.1 hp
          obtain ⟨j, d, rest', -, -, rfl⟩ := exists_of_mem_pathsFrom hq
          exact List.cons_lt_cons_iff.2 (.inl (by omega))

end Green

/-- The paths of a tree are those that lead to a node. -/
theorem Node.mem_paths_iff {n : Node} {path : List Nat} :
    path ∈ n.green.paths ↔ (n.descend? path).isSome = true := by
  induction path generalizing n with
  | nil =>
    rw [Green.paths_eq]
    exact ⟨fun _ => rfl, fun _ => List.mem_cons_self ..⟩
  | cons i path ih =>
    have hchild : (n.child? i).map (·.green) = n.green.children[i]?.map (·.node) := by
      have hfst := congrArg (fun cs => cs[i]?) (Green.map_fst_layOut n.start n.green.children)
      rw [child?_eq, ← hfst, List.getElem?_map, Option.map_map, Option.map_map]
      rfl
    rw [Green.paths_eq, descend?]
    constructor
    · intro h
      rcases List.mem_cons.1 h with h | h
      · cases h
      · obtain ⟨j, c, rest, hc, hrest, heq⟩ := Green.exists_of_mem_pathsFrom h
        obtain ⟨rfl, rfl⟩ := List.cons.inj heq
        rw [Nat.zero_add, hc] at hchild
        obtain ⟨m, hm, hgreen⟩ := Option.map_eq_some_iff.1 hchild
        have hgreen : m.green = c.node := hgreen
        rw [← hgreen] at hrest
        rw [Nat.zero_add, hm, Option.bind_some]
        exact ih.1 hrest
    · intro h
      obtain ⟨m, hm⟩ := Option.isSome_iff_exists.1 h
      obtain ⟨d, hd, hm⟩ := Option.bind_eq_some_iff.1 hm
      rw [hd] at hchild
      obtain ⟨c, hc, hgreen⟩ := Option.map_eq_some_iff.1 hchild.symm
      have hgreen : c.node = d.green := hgreen
      have hrest : path ∈ c.node.paths := by
        rw [hgreen, ih, hm]
        rfl
      have hmem := Green.mem_pathsFrom (i := 0) hc hrest
      rw [Nat.zero_add] at hmem
      exact List.mem_cons_of_mem _ hmem

/-! ## Tours -/

namespace Cursor

/-- Where a cursor goes when it has met all nodes at and below the one that it stands on: across, or up
until it can go across, and at the top it is done. Also says whether it goes on. -/
def leaveFrom (tree : Tree) (top : Entry) : List Entry → Cursor × Bool
  | [] => (⟨tree, top, []⟩, false)
  | p :: above =>
    match nextSibling? ⟨tree, top, p :: above⟩ with
    | some next => (next, true)
    | none => leaveFrom tree p above

/-- The cursors at the nodes that are met, at most `count` of them, where a cursor goes down if it can, else
across, else up, and the cursor that is done. -/
def tour : Nat → Cursor → List Cursor × Option Cursor
  | 0, _ => ([], none)
  | count + 1, c =>
    let (met, last) := match c.firstChild? with
      | some down => tour count down
      | none =>
        match leaveFrom c.tree c.top c.above with
        | (next, true) => tour count next
        | (last, false) => ([], some last)
    (c :: met, last)

/-- What is still met when all nodes at and below the one that a cursor stands on have been. -/
def tourAfter (count : Nat) (c : Cursor) : List Cursor × Option Cursor :=
  match leaveFrom c.tree c.top c.above with
  | (next, true) => tour count next
  | (last, false) => ([], some last)

/-- The cursors that a tour meets are those of a walk. -/
lemma tour_fst (count : Nat) (c : Cursor) : (tour count c).1 = walkWithin count c := by
  have hleave : ∀ tree top above, acrossFrom? tree top above =
      (if (leaveFrom tree top above).2 then some (leaveFrom tree top above).1 else none) := by
    intro tree top above
    induction above generalizing top with
    | nil => rfl
    | cons p above ih =>
      rw [acrossFrom?, leaveFrom]
      cases nextSibling? ⟨tree, top, p :: above⟩ with
      | none => exact ih p
      | some next => rfl
  induction count generalizing c with
  | zero => rfl
  | succ count ih =>
    rw [tour, walkWithin, following?]
    cases c.firstChild? with
    | some down => exact congrArg _ (ih down)
    | none =>
      rw [hleave]
      obtain ⟨next, _ | _⟩ := leaveFrom c.tree c.top c.above
      · rfl
      · exact congrArg _ (ih next)

/-- A tour that comes to its end does not change if it may meet more. -/
lemma tour_add {count : Nat} {c last : Cursor} (h : (tour count c).2 = some last) (more : Nat) :
    tour (count + more) c = tour count c := by
  induction count generalizing c with
  | zero => cases h
  | succ count ih =>
    rw [Nat.succ_add]
    unfold tour at h ⊢
    cases hc : c.firstChild? with
    | some down =>
      rw [hc] at h
      exact congrArg (fun r => (c :: r.1, r.2)) (ih h)
    | none =>
      rw [hc] at h
      dsimp only at h ⊢
      generalize leaveFrom c.tree c.top c.above = left at h ⊢
      obtain ⟨next, _ | _⟩ := left
      · rfl
      · exact congrArg (fun r => (c :: r.1, r.2)) (ih h)

/-- The path of an entry goes one step further than that of the one above. -/
lemma path_child (t : Tree) (e p : Entry) (above : List Entry) :
    path ⟨t, e, p :: above⟩ = path ⟨t, p, above⟩ ++ [e.index] := by
  rw [path, path, List.dropLast_cons_cons, List.reverse_cons, List.map_append, List.map_singleton]

/-- Whether a tour from a cursor meets the nodes at and below it, and then goes on from there. -/
def Tours (c : Cursor) : Prop :=
  ∀ k, ∃ met, tour (c.top.green.count + k) c = (met ++ (tourAfter k c).1, (tourAfter k c).2) ∧
    met.map visit = c.node.visitsFrom c.depth c.field? ∧
    met.map path = c.top.green.paths.map (c.path ++ ·)

/-- The cursor at a child, where the children are laid out. -/
def atChild (t : Tree) (p : Entry) (above : List Entry) (i : Nat) (e : Child Green × Length) : Cursor :=
  ⟨t, ⟨e.1.node, e.2, i, e.1.field⟩, p :: above⟩

section

variable {t : Tree} {p : Entry} {above : List Entry} {i : Nat} {e : Child Green × Length}
  {more : List (Child Green × Length)}

/-- The path of a child goes one step further. -/
lemma path_atChild (rest : List Nat) :
    (atChild t p above i e).path ++ rest = path ⟨t, p, above⟩ ++ i :: rest := by
  rw [atChild, path_child, List.append_assoc]
  rfl

/-- Across from a child is the next one in the layout of its parent. -/
lemma nextSibling_atChild (hlaid : (Green.layOut p.start p.green.children).drop i = e :: more) :
    nextSibling? (atChild t p above i e) = more.head?.map fun e' => atChild t p above (i + 1) e' := by
  have hget : (Green.layOut p.start p.green.children)[i]? = some e := by
    rw [← List.head?_drop, hlaid]
    rfl
  have hnext := Green.getElem?_layOut_succ hget
  rw [← List.head?_drop, ← List.tail_drop, hlaid, List.tail_cons] at hnext
  rw [hnext, Option.map_map]
  rfl

/-- From a child on, a tour meets the nodes at and below it and its later siblings, and then goes on from
the parent. -/
lemma tour_children (hlaid : (Green.layOut p.start p.green.children).drop i = e :: more)
    (hall : ∀ e' ∈ e :: more, ∀ j, Tours (atChild t p above j e')) (k : Nat) :
    ∃ met, tour (Green.countOfAll ((e :: more).map (·.1)) + k) (atChild t p above i e) =
        (met ++ (tourAfter k ⟨t, p, above⟩).1, (tourAfter k ⟨t, p, above⟩).2) ∧
      met.map visit = (e :: more).flatMap (fun e' =>
        (Node.mk t e'.1.node e'.2).visitsFrom (above.length + 1) e'.1.field) ∧
      met.map path = (Green.pathsFrom i ((e :: more).map (·.1))).map (path ⟨t, p, above⟩ ++ ·) := by
  induction more generalizing i e with
  | nil =>
    obtain ⟨met, htour, hvisits, hpaths⟩ := hall e (List.mem_singleton_self _) i k
    have hleave : tourAfter k (atChild t p above i e) = tourAfter k ⟨t, p, above⟩ := by
      have hnone : nextSibling? (atChild t p above i e) = none := nextSibling_atChild hlaid
      rw [tourAfter, tourAfter]
      dsimp only [atChild] at hnone ⊢
      rw [leaveFrom, hnone]
    rw [hleave] at htour
    refine ⟨met, ?_, ?_, ?_⟩
    · rw [List.map_singleton, Green.countOfAll, Green.countOfAll, Nat.add_zero]
      exact htour
    · rw [hvisits, List.flatMap_singleton]
      rfl
    · rw [hpaths, List.map_singleton, Green.pathsFrom, Green.pathsFrom, List.append_nil, List.map_map]
      exact List.map_congr_left fun rest _ => path_atChild rest
  | cons e' more ih =>
    obtain ⟨met, htour, hvisits, hpaths⟩ := hall e (List.mem_cons_self ..) i
      (Green.countOfAll ((e' :: more).map (·.1)) + k)
    have hleave : ∀ k, tourAfter k (atChild t p above i e) = tour k (atChild t p above (i + 1) e') := by
      intro k
      have hsome : nextSibling? (atChild t p above i e) = some (atChild t p above (i + 1) e') :=
        nextSibling_atChild hlaid
      rw [tourAfter]
      dsimp only [atChild] at hsome ⊢
      rw [leaveFrom, hsome]
    obtain ⟨met', htour', hvisits', hpaths'⟩ := ih (i := i + 1) (e := e')
      (by rw [← List.tail_drop, hlaid]; rfl) fun e'' he => hall e'' (List.mem_cons_of_mem _ he)
    rw [hleave, htour'] at htour
    have hnode : (Green.pathsFrom i ((e :: e' :: more).map (·.1))) =
        e.1.node.paths.map (i :: ·) ++ Green.pathsFrom (i + 1) ((e' :: more).map (·.1)) := by
      rw [List.map_cons, Green.pathsFrom]
    refine ⟨met ++ met', ?_, ?_, ?_⟩
    · rw [List.map_cons, Green.countOfAll, Nat.add_assoc, List.append_assoc]
      exact htour
    · rw [List.map_append, hvisits, hvisits', List.flatMap_cons]
      rfl
    · rw [List.map_append, hpaths, hpaths', hnode, List.map_append, List.map_map]
      congr 1
      exact List.map_congr_left fun rest _ => path_atChild rest

end

/-- A tour meets the nodes at and below a cursor, in document order. -/
lemma tours (c : Cursor) : Tours c := by
  obtain ⟨t, ⟨g, start, index, field⟩, above⟩ := c
  induction g using Green.induct generalizing start index field above with
  | node l cs ih =>
    intro k
    cases cs with
    | nil =>
      refine ⟨[⟨t, ⟨.node l [], start, index, field⟩, above⟩], ?_, ?_, ?_⟩
      · show tour (0 + 1 + k) _ = _
        rw [Nat.zero_add, Nat.add_comm, tour]
        rfl
      · rw [Node.visitsFrom_eq]
        rfl
      · rw [Green.paths, Green.pathsFrom, List.map_singleton, List.map_singleton, List.append_nil]
    | cons d ds =>
      have hfst : ((d, start) :: Green.layOutAfter (start + d.node.label.size) ds).map (·.1) = d :: ds :=
        Green.map_fst_layOut start (d :: ds)
      have hmem : ∀ e' ∈ (d, start) :: Green.layOutAfter (start + d.node.label.size) ds,
          e'.1 ∈ d :: ds := fun e' he => hfst ▸ List.mem_map_of_mem he
      obtain ⟨met, htour, hvisits, hpaths⟩ := @tour_children t ⟨.node l (d :: ds), start, index, field⟩
        above 0 (d, start) (Green.layOutAfter (start + d.node.label.size) ds) rfl
        (fun e' he j => ih e'.1 (hmem e' he) _ e'.2 j e'.1.field) k
      rw [hfst] at htour hpaths
      refine ⟨⟨t, ⟨.node l (d :: ds), start, index, field⟩, above⟩ :: met, ?_, ?_, ?_⟩
      · show tour (Green.countOfAll (d :: ds) + 1 + k) _ = _
        rw [Nat.add_right_comm, tour]
        show (let (met, last) := tour (Green.countOfAll (d :: ds) + k) (atChild t _ above 0 (d, start));
          (_ :: met, last)) = _
        rw [htour]
        rfl
      · rw [List.map_cons, hvisits, Node.visitsFrom_eq]
        refine congrArg _ ?_
        show _ = ((Green.layOut start (d :: ds)).map _).flatMap _
        rw [List.flatMap_map]
        rfl
      · rw [List.map_cons, hpaths, Green.paths, List.map_cons, List.append_nil]

/-- Whatever moves are asked of a cursor, those that are not possible changing nothing, it stands at the
path of child numbers that they lead to below the node that it was last reset to; a move is possible
exactly where it is for the path. A cursor that goes down from a node where it can, else across, else up,
meets every node at and below it once, in document order, and comes back to it. -/
theorem refines_paths (n : Node) (moves : List Move) :
    (∃ base path, Reaches n moves base path ∧ StandsAt base path (moved n moves) ∧
      (∀ m c', (moved n moves).move? m = some c' → ∃ base' path',
        Moves base path m base' path' ∧ StandsAt base' path' c') ∧
      ∀ m, (moved n moves).move? m = none ↔ ∀ base' path', ¬ Moves base path m base' path') ∧
    (∀ more, tour (n.green.count + more) (.ofNode n) = (n.walk, some (.ofNode n))) ∧
    n.walk.map visit = n.visits ∧ (n.walk.map path).Pairwise (· < ·) ∧
    ∀ path, path ∈ n.walk.map Cursor.path ↔ (n.descend? path).isSome = true := by
  obtain ⟨met, htour, hvisits, hpaths⟩ := tours (.ofNode n) 0
  rw [show tourAfter 0 (.ofNode n) = ([], some (.ofNode n)) from rfl, List.append_nil] at htour
  have htour : tour n.green.count (.ofNode n) = (met, some (.ofNode n)) := htour
  have hpaths : met.map path = n.green.paths := hpaths.trans (List.map_id _)
  have hwalk : n.walk = met := by rw [Node.walk, ← tour_fst, htour]
  refine ⟨?_, fun more => ?_, hwalk ▸ hvisits, ?_, fun path => ?_⟩
  · obtain ⟨base, path, hreaches, hfollows⟩ := exists_follows_moved n moves
    refine ⟨base, path, hreaches, hfollows.standsAt, fun m c' hm => ?_, fun m =>
      ⟨fun hm _ _ => hfollows.refused hm, fun hno => ?_⟩⟩
    · obtain ⟨base', path', hmoves, hfollows'⟩ := hfollows.made hm
      exact ⟨base', path', hmoves, hfollows'.standsAt⟩
    · rw [Option.eq_none_iff_forall_not_mem]
      intro c' hm
      obtain ⟨base', path', hmoves, -⟩ := hfollows.made hm
      exact hno base' path' hmoves
  · rw [tour_add (congrArg Prod.snd htour), htour, hwalk]
  · rw [hwalk, hpaths]
    exact n.green.pairwise_paths
  · rw [hwalk, hpaths]
    exact Node.mem_paths_iff

end Cursor

end Reparse
