import Reparse.Proofs.Editing

/-!
# Locations

Where the nodes of a tree stand, by their paths of child numbers. A node is located by the byte at
which its padding begins (`Green.locate?`), and the nodes that lead down a tree are those that are
located (`Node.descend?_eq`), as long as all children fit into their parents (`Green.Fits`).
-/

namespace Reparse

namespace Green

variable {α β : Type} {P : List α → Green → Prop}

/-- Trees that follow one another, each with the byte at which its padding begins; that of the first
begins at `x`. -/
def placed (x : Nat) : List (Child Green) → List (Nat × Child Green)
  | [] => []
  | c :: rest => (x, c) :: placed (x + c.node.width) rest

/-- Trees from a later byte on are placed by as much later. -/
lemma placed_add (x y : Nat) (cs : List (Child Green)) :
    placed (x + y) cs = (placed y cs).map fun p => (x + p.1, p.2) := by
  induction cs generalizing y with
  | nil => rfl
  | cons c cs ih => rw [placed, placed, List.map_cons, Nat.add_assoc, ih]

/-- Trees in two parts are placed one part after the other. -/
lemma placed_append (x : Nat) (cs ds : List (Child Green)) :
    placed x (cs ++ ds) = placed x cs ++ placed (x + widthOf cs) ds := by
  induction cs generalizing x with
  | nil => rfl
  | cons c cs ih => rw [List.cons_append, placed, placed, List.cons_append, ih, widthOf, Nat.add_assoc]

/-- A tree that is placed is one of those that were given. -/
lemma mem_of_mem_placed {x : Nat} {cs : List (Child Green)} {p : Nat × Child Green}
    (h : p ∈ placed x cs) : p.2 ∈ cs := by
  induction cs generalizing x with
  | nil => cases h
  | cons c cs ih =>
    rcases List.mem_cons.1 h with rfl | h
    · exact List.mem_cons_self ..
    · exact List.mem_cons_of_mem _ (ih h)

/-- The node at a path of child numbers, with the byte at which its padding begins, counted from the
padding of the whole. -/
def locate? : Green → List Nat → Option (Nat × Green)
  | g, [] => some (0, g)
  | g, i :: path => (placed 0 g.children)[i]?.bind fun p =>
    (p.2.node.locate? path).map fun q => (p.1 + q.1, q.2)

/-- What a path leads to is found from the child that it leads to first. -/
lemma locate?_cons {g h : Green} {i x : Nat} {path : List Nat} :
    g.locate? (i :: path) = some (x, h) ↔ ∃ y c z, (placed 0 g.children)[i]? = some (y, c) ∧
      c.node.locate? path = some (z, h) ∧ x = y + z := by
  rw [locate?]
  constructor
  · intro hl
    obtain ⟨⟨y, c⟩, hc, hl⟩ := Option.bind_eq_some_iff.1 hl
    obtain ⟨⟨z, h'⟩, hz, heq⟩ := Option.map_eq_some_iff.1 hl
    obtain ⟨rfl, rfl⟩ := Prod.mk.inj heq
    exact ⟨y, c, z, hc, hz, rfl⟩
  · rintro ⟨y, c, z, hc, hz, rfl⟩
    rw [hc, Option.bind_some, hz]
    rfl

/-- A path below a located node leads on from where that node is. -/
lemma locate?_append {g k : Green} {x : Nat} {path : List Nat} (h : g.locate? path = some (x, k))
    (rest : List Nat) :
    g.locate? (path ++ rest) = (k.locate? rest).map fun q => (x + q.1, q.2) := by
  induction path generalizing g x with
  | nil =>
    obtain ⟨rfl, rfl⟩ := Prod.mk.inj (Option.some.inj h)
    simp
  | cons i path ih =>
    obtain ⟨y, c, z, hc, hz, rfl⟩ := locate?_cons.1 h
    rw [List.cons_append, locate?, hc, Option.bind_some, ih hz, Option.map_map]
    congr 1
    funext q
    simp [Nat.add_assoc]

/-- Whether all nodes of a tree fit into their parents, and the whole into a text. -/
abbrev Fits (w : List α) (g : Green) : Prop := g.Holds (fun _ _ => True) w

mutual

/-- What stands on cells fits into every text that is as long. -/
lemma Holds.fits : ∀ {g : Green} {w : List α} {w' : List β}, g.Holds P w → w.length ≤ w'.length →
    g.Fits w'
  | node _ _, _, _, ⟨hw, hc, hp, _, hs⟩, hle =>
    ⟨Nat.le_trans hw hle, hc, hp, fun _ => trivial, HoldsAll.fits hs hle⟩

/-- Trees that stand on cells fit any others that are as many. -/
lemma HoldsAll.fits : ∀ {cs : List (Child Green)} {w : List α} {w' : List β}, HoldsAll P w cs →
    w.length ≤ w'.length → HoldsAll (fun _ _ => True) w' cs
  | [], _, _, _, _ => trivial
  | _ :: _, _, _, ⟨hc, hr⟩, hle => ⟨hc.fits hle, HoldsAll.fits hr (by
      rw [List.length_drop, List.length_drop]
      omega)⟩

end

/-- Each of some trees that follow one another stands where it is placed. -/
lemma HoldsAll.of_mem_placed {w : List α} {x y : Nat} {c : Child Green} {cs : List (Child Green)}
    (h : HoldsAll P (w.drop x) cs) (hc : (y, c) ∈ placed x cs) :
    c.node.Holds P (w.drop y) ∧ x ≤ y ∧ y + c.node.width ≤ x + widthOf cs := by
  induction cs generalizing x with
  | nil => cases hc
  | cons d cs ih =>
    rw [widthOf]
    rcases List.mem_cons.1 hc with heq | hc
    · obtain ⟨rfl, rfl⟩ := Prod.mk.inj heq
      exact ⟨h.1, Nat.le_refl _, by omega⟩
    · obtain ⟨hholds, hle, hend⟩ := ih (by rw [← List.drop_drop]; exact h.2) hc
      exact ⟨hholds, by omega, by omega⟩

/-- A located node stands where it is located, inside the whole. -/
lemma Holds.locate {w : List α} {g h : Green} {x : Nat} {path : List Nat} (hg : g.Holds P w)
    (hl : g.locate? path = some (x, h)) : h.Holds P (w.drop x) ∧ x + h.width ≤ g.width := by
  induction path generalizing g x w with
  | nil =>
    obtain ⟨rfl, rfl⟩ := Prod.mk.inj (Option.some.inj hl)
    exact ⟨hg, by omega⟩
  | cons i path ih =>
    obtain ⟨y, c, z, hc, hz, rfl⟩ := locate?_cons.1 hl
    obtain ⟨l, cs⟩ := g
    obtain ⟨-, hwidth, -, -, hs⟩ := hg
    obtain ⟨hholds, -, hend⟩ := HoldsAll.of_mem_placed (x := 0) hs (List.mem_of_getElem? hc)
    obtain ⟨hh, hle⟩ := ih hholds hz
    rw [List.drop_drop] at hh
    have hw : (node l cs).width = l.padding.bytes + l.size.bytes := rfl
    exact ⟨hh, by omega⟩

/-- Trees that are laid out start after their paddings from where they are placed. -/
lemma map_layOutAfter {w : List α} {stop : Length} {x : Nat} {cs : List (Child Green)}
    (hstop : stop.bytes = x) (hw : w.length ≤ limit) (hfit : x + widthOf cs ≤ w.length) :
    (layOutAfter stop cs).map (fun e => (e.1, e.2.bytes)) =
      (placed x cs).map fun p => (p.2, p.1 + p.2.node.label.padding.bytes) := by
  induction cs generalizing stop x with
  | nil => rfl
  | cons c cs ih =>
    have hwidth : c.node.width = c.node.label.padding.bytes + c.node.label.size.bytes := rfl
    rw [widthOf] at hfit
    have hstart : (stop + c.node.label.padding).bytes = x + c.node.label.padding.bytes := by
      simp only [Length.bytes_add, addCounts]
      omega
    have hend : (stop + c.node.label.padding + c.node.label.size).bytes = x + c.node.width := by
      rw [Length.bytes_add, hstart]
      simp only [addCounts]
      omega
    rw [layOutAfter, placed, List.map_cons, List.map_cons, ih hend (by omega), hstart]

end Green

namespace Node

variable {α : Type} {w : List α}

/-- The children of a node start after their paddings from where they are placed. -/
lemma map_children {n : Node} {x : Nat} (hw : w.length ≤ limit) (hx : x ≤ w.length)
    (h : n.green.Fits (w.drop x)) (hs : n.startByte = x + n.green.label.padding.bytes) :
    n.children.map (fun m => (m.green, m.startByte)) = (Green.placed 0 n.green.children).map fun p =>
      (p.2.node, x + p.1 + p.2.node.label.padding.bytes) := by
  obtain ⟨t, ⟨l, cs⟩, start⟩ := n
  obtain ⟨hle, hc, hp, -, -⟩ := h
  rw [List.length_drop] at hle
  dsimp only [startByte, Green.label] at hs
  have hmap : (Node.children ⟨t, .node l cs, start⟩).map (fun m => (m.green, m.startByte)) =
      ((Green.layOut start cs).map fun e => (e.1, e.2.bytes)).map fun e => (e.1.node, e.2) := by
    simp [children, entries, startByte, Function.comp_def, Green.children]
  rw [hmap]
  cases cs with
  | nil => rfl
  | cons c cs =>
    have hpad : c.node.label.padding.bytes = l.padding.bytes := hp c rfl
    have hwidth : c.node.width = c.node.label.padding.bytes + c.node.label.size.bytes := rfl
    rw [Green.widthOf] at hc
    have hend : (start + c.node.label.size).bytes = x + c.node.width := by
      simp only [Length.bytes_add, addCounts]
      omega
    have hrest := @Green.map_layOutAfter α w _ _ cs hend hw (by omega)
    rw [Green.layOut, List.map_cons, List.map_cons, hrest, Green.placed_add, hs, ← hpad]
    simp [Green.placed, Green.children, Function.comp_def]

/-- The nodes that lead down from a node are those that are located below it. -/
theorem descend?_eq {n : Node} {x : Nat} (hw : w.length ≤ limit) (hx : x ≤ w.length)
    (h : n.green.Fits (w.drop x)) (hs : n.startByte = x + n.green.label.padding.bytes)
    (path : List Nat) :
    (n.descend? path).map (fun m => (m.green, m.startByte)) = (n.green.locate? path).map fun q =>
      (q.2, x + q.1 + q.2.label.padding.bytes) := by
  induction path generalizing n x with
  | nil =>
    show some (n.green, n.startByte) = some (n.green, x + 0 + _)
    rw [hs, Nat.add_zero]
  | cons i path ih =>
    have hmap := congrArg (fun ns => ns[i]?) (map_children hw hx h hs)
    simp only [List.getElem?_map] at hmap
    rw [descend?, child?, Green.locate?]
    cases hc : n.children[i]? with
    | none =>
      rw [hc] at hmap
      have hnone := Option.map_eq_none_iff.1 hmap.symm
      rw [hnone]
      rfl
    | some m =>
      rw [hc] at hmap
      obtain ⟨⟨y, c⟩, hplaced, heq⟩ := Option.map_eq_some_iff.1 hmap.symm
      obtain ⟨hgreen, hstart⟩ := Prod.mk.inj heq
      dsimp only at hgreen hstart
      rw [hplaced, Option.bind_some, Option.bind_some]
      have hlocate : n.green.locate? [i] = some (y, c.node) :=
        Green.locate?_cons.2 ⟨y, c, 0, hplaced, rfl, rfl⟩
      obtain ⟨hholds, hle⟩ := h.locate hlocate
      rw [List.drop_drop] at hholds
      have hwidth := h.width_le
      rw [List.length_drop] at hwidth
      have := ih (n := m) (x := x + y) (by omega) (by rw [← hgreen]; exact hholds)
        (by rw [← hstart, hgreen])
      rw [this, ← hgreen, Option.map_map]
      congr 1
      funext q
      simp [Nat.add_assoc]

end Node

/-- A node of a tree in which all nodes fit into their parents is located where its padding begins. -/
lemma Tree.locate_of_descend? {t : Tree} {w : List UInt8} {path : List Nat} {n : Node}
    (hw : w.length ≤ limit) (hfits : t.root.Fits w) (hn : t.rootNode.descend? path = some n) :
    t.root.locate? path = some (n.totalStart, n.green) := by
  have heq := Node.descend?_eq (n := t.rootNode) (x := 0) hw (Nat.zero_le _) hfits
    (Nat.zero_add _).symm path
  rw [hn] at heq
  obtain ⟨⟨x, k⟩, hl, hk⟩ := Option.map_eq_some_iff.1 heq.symm
  obtain ⟨rfl, hx⟩ := Prod.mk.inj hk
  have hstart : n.totalStart = x := by
    dsimp only at hx
    rw [Node.totalStart, show n.start.bytes = n.startByte from rfl, ← hx]
    omega
  rw [hstart]
  exact hl

/-- A path leads to a node if it leads to a place. -/
lemma Tree.exists_descend?_of_locate {t : Tree} {w : List UInt8} {path : List Nat} {x : Nat} {k : Green}
    (hw : w.length ≤ limit) (hfits : t.root.Fits w) (hl : t.root.locate? path = some (x, k)) :
    ∃ n, t.rootNode.descend? path = some n ∧ n.green = k ∧ n.totalStart = x := by
  have heq := Node.descend?_eq (n := t.rootNode) (x := 0) hw (Nat.zero_le _) hfits
    (Nat.zero_add _).symm path
  rw [show t.rootNode.green = t.root from rfl, hl] at heq
  obtain ⟨n, hn, -⟩ := Option.map_eq_some_iff.1 heq
  have hl' := Tree.locate_of_descend? hw hfits hn
  rw [hl] at hl'
  obtain ⟨hx, hk⟩ := Prod.mk.inj (Option.some.inj hl')
  exact ⟨n, hn, hk.symm, hx.symm⟩

/-- A node that a path leads to has its padding before it. -/
lemma Tree.padding_le_of_descend? {t : Tree} {w : List UInt8} {path : List Nat} {n : Node}
    (hw : w.length ≤ limit) (hfits : t.root.Fits w) (hn : t.rootNode.descend? path = some n) :
    n.green.label.padding.bytes ≤ n.startByte := by
  have heq := Node.descend?_eq (n := t.rootNode) (x := 0) hw (Nat.zero_le _) hfits
    (Nat.zero_add _).symm path
  rw [hn] at heq
  obtain ⟨⟨x, k⟩, -, hk⟩ := Option.map_eq_some_iff.1 heq.symm
  obtain ⟨rfl, hx⟩ := Prod.mk.inj hk
  rw [← hx]
  exact Nat.le_add_left _ _

end Reparse
