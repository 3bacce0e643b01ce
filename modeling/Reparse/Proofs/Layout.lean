import Reparse.Proofs.Agreement
import Reparse.Proofs.Lexing
import Reparse.Proofs.Places

/-!
# Layout

Where the nodes of a tree stand. A tree is laid out between two places if its padding and size, and
those of all trees below it, lead from place to place (`Laid`). What is built of tokens in order is
laid out (`laid_built`), is the same wherever the tokens stand (`built_map`), and has the tokens as
its leaves (`words_built`).
-/

namespace Reparse

/-! ## Trees between places -/

namespace Green

/-- The number of bytes of a tree, its padding included. -/
def width (g : Green) : Nat := g.label.padding.bytes + g.label.size.bytes

/-- The number of bytes of several trees. -/
def widthOf : List (Child Green) → Nat
  | [] => 0
  | c :: rest => c.node.width + widthOf rest

/-- A tree is as wide without stamps and marks. -/
@[simp]
lemma width_bare (g : Green) : g.bare.width = g.width := by
  simp [width, Label.bare]

end Green

mutual

/-- Whether a tree, whose padding begins at `x`, starts at `a` and stops at `y`. -/
inductive Laid (place : Nat → Length) : Nat → Nat → Nat → Green → Prop where
  | leaf {x a y l} :
    x ≤ a → a ≤ y → l.padding = (place a).beyond (place x) →
    l.size = (place y).beyond (place a) → Laid place x a y (.node l [])
  | node {x a y z l c cs} :
    Laid place x a y c.node → LaidAll place y cs z → l.padding = c.node.label.padding →
    l.size = (place z).beyond (place a) → Laid place x a z (.node l (c :: cs))

/-- Whether trees follow one another from `x` to `y`. -/
inductive LaidAll (place : Nat → Length) : Nat → List (Child Green) → Nat → Prop where
  | nil {x} : LaidAll place x [] x
  | cons {x a y z c cs} :
    Laid place x a y c.node → LaidAll place y cs z → LaidAll place x (c :: cs) z

end

section

variable {place : Nat → Length}

mutual

/-- A tree begins before its place and ends after it. -/
lemma Laid.le : ∀ {x a y g}, Laid place x a y g → x ≤ a ∧ a ≤ y
  | _, _, _, _, .leaf hx hy _ _ => ⟨hx, hy⟩
  | _, _, _, _, .node h hs _ _ => by
    have h1 := h.le
    have h2 := hs.le
    exact ⟨h1.1, Nat.le_trans h1.2 h2⟩

/-- Trees in a row end after they begin. -/
lemma LaidAll.le : ∀ {x cs y}, LaidAll place x cs y → x ≤ y
  | _, _, _, .nil => Nat.le_refl _
  | _, _, _, .cons h hs => by
    have h1 := h.le
    have h2 := hs.le
    omega

end

/-- The padding and the size of a tree lead from place to place. -/
lemma Laid.padding {x a y g} (h : Laid place x a y g) :
    g.label.padding = (place a).beyond (place x) ∧ g.label.size = (place y).beyond (place a) := by
  induction g using Green.induct generalizing x a y with
  | node l cs ih =>
    cases h with
    | leaf _ _ hp hs => exact ⟨hp, hs⟩
    | @node _ _ y' _ _ c cs h _ hp hs =>
      exact ⟨hp.trans (ih c (List.mem_cons_self ..) h).1, hs⟩

/-- The padding of the first of some trees leads from where they begin to a place among them. -/
lemma LaidAll.padding {x y cs} (h : LaidAll place x cs y) : ∃ a, x ≤ a ∧ a ≤ y ∧
    (cs.head?.map (·.node.label.padding)).getD .zero = (place a).beyond (place x) := by
  cases h with
  | nil => exact ⟨x, Nat.le_refl x, Nat.le_refl x, (if_neg (Nat.lt_irrefl _)).symm⟩
  | cons hc hs => exact ⟨_, hc.le.1, Nat.le_trans hc.le.2 hs.le, hc.padding.1⟩

/-- Trees are laid out in two parts. -/
lemma LaidAll.append {cs ds : List (Child Green)} {x y z : Nat} (h : LaidAll place x cs y)
    (h' : LaidAll place y ds z) : LaidAll place x (cs ++ ds) z := by
  induction cs generalizing x with
  | nil =>
    cases h
    exact h'
  | cons c cs ih =>
    cases h with
    | cons hc hcs => exact .cons hc (ih hcs)

/-- A node over trees that follow one another is laid out as they are. -/
lemma LaidAll.over {bound x y : Nat} {l : Label} {cs : List (Child Green)}
    (h : LaidAll place x cs y) (hp : Coherent place bound) (hy : y ≤ bound)
    (hpad : l.padding = (cs.head?.map (·.node.label.padding)).getD .zero)
    (hsize : l.size = (place y).beyond (place x + l.padding)) :
    ∃ a, Laid place x a y (.node l cs) := by
  cases h with
  | nil =>
    have hself : (place x).beyond (place x) = .zero := if_neg (Nat.lt_irrefl _)
    have hzero : l.padding = (place x).beyond (place x) := hpad.trans hself.symm
    rw [hzero, hp.step (Nat.le_refl x) hy] at hsize
    exact ⟨x, .leaf (Nat.le_refl x) (Nat.le_refl x) hzero hsize⟩
  | @cons _ a _ _ c _ h hs =>
    have h1 := h.le
    have h2 := hs.le
    have hpad' : l.padding = c.node.label.padding := hpad
    rw [hpad', h.padding.1, hp.step h1.1 (by omega)] at hsize
    exact ⟨a, .node h hs hpad' hsize⟩

/-- The node that a builder makes over trees that follow one another up to where it stands. -/
lemma LaidAll.nodeOver {bound x y : Nat} {cs : List (Child Green)} (h : LaidAll place x cs y)
    (hp : Coherent place bound) (hy : y ≤ bound) {b : Builder} (hb : b.position = place y)
    (stamp : Stamp) (symbol : Symbol) :
    ∃ a, Laid place x a y (b.nodeOver stamp symbol (place x) cs) :=
  h.over hp hy rfl (by rw [← hb])

mutual

/-- A tree is laid out as its bare tree is. -/
lemma Laid.of_bare : ∀ {g : Green} {x a y}, Laid place x a y g.bare → Laid place x a y g
  | .node l [], _, _, _, h => by
    cases h with
    | leaf hx hy hp hs => exact .leaf hx hy hp hs
  | .node l (c :: cs), _, _, _, h => by
    cases h with
    | node h hs hp hz =>
      refine .node (Laid.of_bare h) (LaidAll.of_bare hs) ?_ hz
      rw [show l.padding = l.bare.padding from rfl, hp, Green.label_bare]
      rfl

/-- Where trees are laid out does not depend on stamps and marks. -/
lemma LaidAll.of_bare : ∀ {cs : List (Child Green)} {x y}, LaidAll place x (Green.bareAll cs) y →
    LaidAll place x cs y
  | [], _, _, h => by
    cases h with
    | nil => exact .nil
  | c :: cs, _, _, h => by
    cases h with
    | cons h hs => exact .cons (Laid.of_bare h) (LaidAll.of_bare hs)

end

end

/-! ## What is built of tokens -/

namespace C

/-- Where some tokens stop; `x` if there are none. -/
def endOf (x : Nat) (ts : List Token) : Nat := (ts.getLast?.map (·.stop)).getD x

/-- No tokens end where they begin. -/
@[simp]
lemma endOf_nil (x : Nat) : endOf x [] = x := rfl

/-- After its first token the end is that of the others. -/
@[simp]
lemma endOf_cons (x : Nat) (t : Token) (ts : List Token) : endOf x (t :: ts) = endOf t.stop ts := by
  simp only [endOf, List.getLast?_cons, Option.map_some, Option.getD_some]
  cases ts.getLast? <;> rfl

/-- Tokens in two parts end where the second part does. -/
@[simp]
lemma endOf_append (x : Nat) (ts us : List Token) : endOf x (ts ++ us) = endOf (endOf x ts) us := by
  induction ts generalizing x with
  | nil => rfl
  | cons t ts ih => rw [List.cons_append, endOf_cons, endOf_cons, ih]

/-- Tokens in order end between where they may begin and end. -/
lemma InOrder.le {x y : Nat} {ts : List Token} (h : InOrder x ts y) :
    x ≤ endOf x ts ∧ endOf x ts ≤ y := by
  induction ts generalizing x with
  | nil => exact ⟨Nat.le_refl x, h⟩
  | cons t ts ih =>
    obtain ⟨hx, hlt, h⟩ := h
    have := ih h
    rw [endOf_cons]
    omega

/-- Tokens that stand in order after a byte do so after an earlier one. -/
lemma InOrder.of_le {x x' y : Nat} {ts : List Token} (h : InOrder x ts y) (hx : x' ≤ x) :
    InOrder x' ts y := by
  cases ts with
  | nil => exact Nat.le_trans hx h
  | cons t ts => exact ⟨Nat.le_trans hx h.1, h.2⟩

/-- Tokens in order in two groups are in order in each of them. -/
lemma inOrder_append {x y : Nat} {ts us : List Token} :
    InOrder x (ts ++ us) y ↔ InOrder x ts (endOf x ts) ∧ InOrder (endOf x ts) us y := by
  induction ts generalizing x with
  | nil => exact ⟨fun h => ⟨Nat.le_refl x, h⟩, fun h => h.2⟩
  | cons t ts ih =>
    rw [List.cons_append, endOf_cons, InOrder, InOrder, ih]
    constructor
    · rintro ⟨h1, h2, h3, h4⟩
      exact ⟨⟨h1, h2, h3⟩, h4⟩
    · rintro ⟨⟨h1, h2, h3⟩, h4⟩
      exact ⟨h1, h2, h3, h4⟩

namespace Item

mutual

/-- Whether an item is made of tokens: it holds no subtree that was taken over, and no node without
parts. -/
def Whole : Item → Prop
  | token _ _ => True
  | missing _ _ => True
  | reused _ => False
  | node _ _ parts => parts ≠ [] ∧ WholeAll parts

/-- Whether items are made of tokens. -/
def WholeAll : List Item → Prop
  | [] => True
  | i :: rest => i.Whole ∧ WholeAll rest

end

mutual

/-- What is built of an item made of tokens in order is laid out as they are. -/
theorem laid_built {place : Nat → Length} {bound : Nat} (hp : Coherent place bound) :
    ∀ {i : Item} {x y : Nat}, i.Whole → InOrder x i.tokens y → y ≤ bound →
      (∃ a, Laid place x a (endOf x i.tokens) (built place (place x) i).1.node) ∧
        (built place (place x) i).2 = place (endOf x i.tokens)
  | token field t, x, y, _, ho, hy => by
    obtain ⟨hx, hlt, hle⟩ := ho
    refine ⟨⟨t.start, .leaf hx ?_ rfl rfl⟩, if_pos ?_⟩
    · exact Nat.le_of_lt hlt
    · rw [hp.bytes, hp.bytes]
      omega
  | missing field kind, x, y, _, _, _ => by
    have hz : (place x).beyond (place x) = .zero := if_neg (Nat.lt_irrefl _)
    exact ⟨⟨x, .leaf (Nat.le_refl x) (Nat.le_refl x) hz.symm hz.symm⟩, rfl⟩
  | reused g, _, _, h, _, _ => h.elim
  | node field rule [], _, _, h, _, _ => absurd rfl h.1
  | node field rule (i :: rest), x, y, h, ho, hy => by
    have ho' : InOrder x (tokensOf (i :: rest)) y := ho
    obtain ⟨hl, hs⟩ := laid_builtAll hp h.2 ho' hy
    refine ⟨?_, hs⟩
    refine hl.over hp (Nat.le_trans ho'.le.2 hy) rfl ?_
    rw [← hs]
    rfl

/-- What is built of items made of tokens in order is laid out as they are. -/
theorem laid_builtAll {place : Nat → Length} {bound : Nat} (hp : Coherent place bound) :
    ∀ {is : List Item} {x y : Nat}, WholeAll is → InOrder x (tokensOf is) y → y ≤ bound →
      LaidAll place x (builtAll place (place x) is).1 (endOf x (tokensOf is)) ∧
        (builtAll place (place x) is).2 = place (endOf x (tokensOf is))
  | [], _, _, _, _, _ => ⟨.nil, rfl⟩
  | i :: rest, x, y, h, ho, hy => by
    rw [tokensOf, inOrder_append] at ho
    have hle := Nat.le_trans ho.2.le.1 (Nat.le_trans ho.2.le.2 hy)
    obtain ⟨⟨a, hi⟩, hpos⟩ := laid_built hp h.1 ho.1 hle
    obtain ⟨hr, hend⟩ := laid_builtAll hp h.2 ho.2 hy
    rw [tokensOf, endOf_append, builtAll_cons, hpos]
    exact ⟨.cons hi hr, hend⟩

end

/-! ## Items that stand elsewhere -/

mutual

/-- An item with its tokens changed. -/
def map (f : Token → Token) : Item → Item
  | token field t => token field (f t)
  | missing field kind => missing field kind
  | reused g => reused g
  | node field rule parts => node field rule (mapAll f parts)

/-- Items with their tokens changed. -/
def mapAll (f : Token → Token) : List Item → List Item
  | [] => []
  | i :: rest => i.map f :: mapAll f rest

end

mutual

/-- The tokens of an item with its tokens in other places are the moved ones. -/
lemma tokens_map (f : Token → Token) : ∀ i : Item, (i.map f).tokens = i.tokens.map f
  | token _ _ => rfl
  | missing _ _ => rfl
  | reused _ => rfl
  | node _ _ parts => tokensOf_mapAll f parts

/-- The tokens of items with their tokens in other places are the moved ones. -/
lemma tokensOf_mapAll (f : Token → Token) : ∀ is : List Item,
    tokensOf (mapAll f is) = (tokensOf is).map f
  | [] => rfl
  | i :: rest => by
    rw [mapAll, tokensOf, tokensOf, List.map_append, tokens_map f i, tokensOf_mapAll f rest]

end

/-- Whether tokens stand `x` bytes further on after a change. -/
def Moves (x : Nat) (f : Token → Token) : Prop :=
  ∀ t, (f t).kind = t.kind ∧ (f t).start = x + t.start ∧ (f t).stop = x + t.stop

/-- Tokens that move along are in order where they have moved to. -/
lemma Moves.inOrder {x : Nat} {f : Token → Token} (hf : Moves x f) {u y : Nat} {ts : List Token}
    (h : InOrder u ts y) : InOrder (x + u) (ts.map f) (x + y) := by
  induction ts generalizing u with
  | nil => exact Nat.add_le_add_left h x
  | cons t ts ih =>
    obtain ⟨h1, h2, h3⟩ := h
    obtain ⟨-, hs, he⟩ := hf t
    rw [List.map_cons, InOrder, hs, he]
    exact ⟨Nat.add_le_add_left h1 x, Nat.add_lt_add_left h2 x, ih h3⟩

mutual

/-- What is built of tokens is the same wherever they stand, if the extents between them are. -/
theorem built_map {p q : Nat → Length} {x bound : Nat} {f : Token → Token} (hp : Coherent p bound)
    (hq : Coherent q (x + bound)) (hf : Moves x f)
    (h : ∀ u v, u ≤ v → v ≤ bound → (q (x + v)).beyond (q (x + u)) = (p v).beyond (p u)) :
    ∀ {i : Item} {u y : Nat}, i.Whole → InOrder u i.tokens y → y ≤ bound →
      built q (q (x + u)) (i.map f) = ((built p (p u) i).1, q (x + endOf u i.tokens))
  | token field t, u, y, _, ho, hy => by
    obtain ⟨hu, hlt, hle⟩ := ho
    have hle' : t.stop ≤ y := hle
    obtain ⟨hk, hs, he⟩ := hf t
    have hpos : (q (x + u)).bytes ≤ (q (x + t.stop)).bytes := by
      rw [hq.bytes, hq.bytes]
      omega
    simp only [map, built, leafLabel, hk, hs, he, h u t.start hu (by omega),
      h t.start t.stop (by omega) (by omega), if_pos hpos]
    rfl
  | missing field kind, u, y, _, _, _ => rfl
  | reused g, _, _, h, _, _ => h.elim
  | node field rule [], _, _, h, _, _ => absurd rfl h.1
  | node field rule (i :: rest), u, y, hw, ho, hy => by
    have ho' : InOrder u (tokensOf (i :: rest)) y := ho
    have hall := builtAll_map hp hq hf h hw.2 ho' hy
    obtain ⟨hl, hs⟩ := laid_builtAll hp hw.2 ho' hy
    have hend := Nat.le_trans ho'.le.2 hy
    rw [map, built, hall, built]
    generalize builtAll p (p u) (i :: rest) = r at hl hs
    obtain ⟨cs, stop⟩ := r
    dsimp only at hl hs ⊢
    subst hs
    have hlabel : nodeLabel (q (x + u)) (q (x + endOf u (tokensOf (i :: rest)))) rule.symbol cs =
        nodeLabel (p u) (p (endOf u (tokensOf (i :: rest)))) rule.symbol cs := by
      obtain ⟨a, hua, hae, hpad⟩ := hl.padding
      have hqa : q (x + u) + (p a).beyond (p u) = q (x + a) := by
        rw [← h u a hua (by omega), hq.step (by omega) (by omega)]
      simp only [nodeLabel, hpad, hqa, hp.step hua (Nat.le_trans hae hend),
        h a _ hae hend]
    rw [hlabel]
    rfl

/-- Items whose tokens move along have the same trees. -/
theorem builtAll_map {p q : Nat → Length} {x bound : Nat} {f : Token → Token}
    (hp : Coherent p bound) (hq : Coherent q (x + bound)) (hf : Moves x f)
    (h : ∀ u v, u ≤ v → v ≤ bound → (q (x + v)).beyond (q (x + u)) = (p v).beyond (p u)) :
    ∀ {is : List Item} {u y : Nat}, WholeAll is → InOrder u (tokensOf is) y → y ≤ bound →
      builtAll q (q (x + u)) (mapAll f is) =
        ((builtAll p (p u) is).1, q (x + endOf u (tokensOf is)))
  | [], _, _, _, _, _ => rfl
  | i :: rest, u, y, hw, ho, hy => by
    rw [tokensOf, inOrder_append] at ho
    have hle := Nat.le_trans ho.2.le.1 (Nat.le_trans ho.2.le.2 hy)
    have hi := built_map hp hq hf h hw.1 ho.1 hle
    have hr := builtAll_map hp hq hf h hw.2 ho.2 hy
    have hpos := (laid_built hp hw.1 ho.1 hle).2
    rw [mapAll, builtAll_cons, hi, builtAll_cons, tokensOf, endOf_append]
    simp only [hr, hpos]

end

end Item

end C

/-! ## Nodes between places -/

/-- Whether nodes of a tree follow one another from `x` to `y`. -/
inductive Standing (place : Nat → Length) : Nat → List Node → Nat → Prop where
  | nil {x} : Standing place x [] x
  | cons {x a y z n ns} :
    Laid place x a y n.green → n.start = place a → Standing place y ns z →
    Standing place x (n :: ns) z

/-- Nodes that follow one another go on from where they begin. -/
lemma Standing.le {place : Nat → Length} {x y : Nat} {ns : List Node} (h : Standing place x ns y) :
    x ≤ y := by
  induction h with
  | nil => exact Nat.le_refl _
  | cons h _ _ ih =>
    have := h.le
    omega

/-- Whether some nodes are in order between two bytes. -/
def InsideBytes (x y : Nat) (ns : List Node) : Prop :=
  ns.Pairwise (fun n m => n.stopByte ≤ m.startByte) ∧
    ∀ n ∈ ns, x ≤ n.startByte ∧ n.startByte ≤ n.stopByte ∧ n.stopByte ≤ y

/-- No nodes are in order between any bytes. -/
lemma InsideBytes.nil {x y : Nat} : InsideBytes x y [] :=
  ⟨List.Pairwise.nil, fun _ h => absurd h List.not_mem_nil⟩

/-- Nodes between two bytes may be followed by nodes after them. -/
lemma InsideBytes.append {x y z : Nat} {ns ms : List Node} (h : InsideBytes x y ns)
    (h' : InsideBytes y z ms) (hxy : x ≤ y) (hyz : y ≤ z) : InsideBytes x z (ns ++ ms) := by
  refine ⟨List.pairwise_append.2 ⟨h.1, h'.1, fun n hn m hm => ?_⟩, fun n hn => ?_⟩
  · exact Nat.le_trans (h.2 n hn).2.2 (h'.2 m hm).1
  · rcases List.mem_append.1 hn with hn | hn
    · have := h.2 n hn
      omega
    · have := h'.2 n hn
      omega

/-- Some depth is that of the deepest of some nodes. -/
lemma exists_depth_le (ns : List Node) : ∃ k, ∀ n ∈ ns, n.green.depth ≤ k := by
  induction ns with
  | nil => exact ⟨0, fun _ h => absurd h List.not_mem_nil⟩
  | cons n ns ih =>
    obtain ⟨k, hk⟩ := ih
    refine ⟨max n.green.depth k, fun m hm => ?_⟩
    rcases List.mem_cons.1 hm with rfl | hm
    · exact Nat.le_max_left _ _
    · exact Nat.le_trans (hk m hm) (Nat.le_max_right _ _)

/-- Whether a node is laid out where it stands. -/
def Node.Placed (place : Nat → Length) (bound : Nat) (n : Node) : Prop :=
  ∃ x a y, Laid place x a y n.green ∧ n.start = place a ∧ y ≤ bound

section

variable {place : Nat → Length} {bound : Nat} (hp : Coherent place bound)

include hp

/-- A node that is laid out stops at the place where its tree does. -/
lemma Laid.stop_eq {n : Node} {x a y : Nat} (h : Laid place x a y n.green)
    (hs : n.start = place a) (hy : y ≤ bound) : n.stop = place y := by
  rw [Node.stop, hs, h.padding.2, hp.step h.le.2 hy]

/-- Trees that follow one another are laid out one after the other. -/
lemma LaidAll.standing (t : Tree) {x y : Nat} {cs : List (Child Green)} (h : LaidAll place x cs y)
    (hy : y ≤ bound) : Standing place x
      ((Green.layOutAfter (place x) cs).map fun e => ⟨t, e.1.node, e.2⟩) y := by
  induction cs generalizing x with
  | nil =>
    cases h with
    | nil => exact .nil
  | cons c cs ih =>
    cases h with
    | @cons _ a z _ _ _ h hs =>
      have hz := Nat.le_trans hs.le hy
      have ha : place x + c.node.label.padding = place a := by
        rw [h.padding.1, hp.step h.le.1 (Nat.le_trans h.le.2 hz)]
      have hstop : place a + c.node.label.size = place z := by
        rw [h.padding.2, hp.step h.le.2 hz]
      rw [Green.layOutAfter]
      simp only [ha, hstop, List.map_cons]
      exact .cons (n := ⟨t, c.node, place a⟩) h rfl (ih hs)

/-- The children of a node that is laid out follow one another, and the first starts where the node
does. -/
lemma Laid.standing {n : Node} {x a y : Nat} (h : Laid place x a y n.green)
    (hs : n.start = place a) (hy : y ≤ bound) (hc : n.children ≠ []) :
    Standing place x n.children y ∧ n.children.head?.map (·.start) = some n.start := by
  obtain ⟨t, g, start⟩ := n
  dsimp only at h hs
  subst hs
  cases h with
  | leaf => exact absurd rfl hc
  | @node _ _ z _ l c cs h hcs hp' hz =>
    have hstop : place a + c.node.label.size = place z := by
      rw [h.padding.2, hp.step h.le.2 (Nat.le_trans hcs.le hy)]
    have heq : (Node.mk t (.node l (c :: cs)) (place a)).children = ⟨t, c.node, place a⟩ ::
        (Green.layOutAfter (place z) cs).map fun e => ⟨t, e.1.node, e.2⟩ := by
      simp only [Node.children, Node.entries, Green.children, Green.layOut, hstop, List.map_cons,
        List.map_map]
      rfl
    rw [heq]
    exact ⟨.cons (n := ⟨t, c.node, place a⟩) h rfl (hcs.standing hp t hy), rfl⟩

/-- Nodes that follow one another are laid out. -/
lemma Standing.placed {x y : Nat} {ns : List Node} (h : Standing place x ns y) (hy : y ≤ bound) :
    ∀ n ∈ ns, n.Placed place bound ∧ x ≤ n.startByte ∧ n.startByte ≤ n.stopByte ∧ n.stopByte ≤ y := by
  induction h with
  | nil => exact fun _ h => absurd h List.not_mem_nil
  | @cons x a y z n ns h hs hns ih =>
    have hz := Nat.le_trans hns.le hy
    have hstart : n.startByte = a := by rw [Node.startByte, hs, hp.bytes]
    have hstop : n.stopByte = y := by rw [Node.stopByte, h.stop_eq hp hs hz, hp.bytes]
    intro m hm
    rcases List.mem_cons.1 hm with rfl | hm
    · exact ⟨⟨x, a, y, h, hs, hz⟩, by rw [hstart]; exact h.le.1, by rw [hstart, hstop]; exact h.le.2,
        by rw [hstop]; exact hns.le⟩
    · obtain ⟨h1, h2, h3, h4⟩ := ih hy m hm
      have h5 := h.le
      exact ⟨h1, by omega, h3, h4⟩

/-- Nodes that follow one another do not overlap. -/
lemma Standing.pairwise {x y : Nat} {ns : List Node} (h : Standing place x ns y) (hy : y ≤ bound) :
    ns.Pairwise fun n m => n.stopByte ≤ m.startByte := by
  induction h with
  | nil => exact List.Pairwise.nil
  | @cons x a y z n ns h hs hns ih =>
    refine List.pairwise_cons.2 ⟨fun m hm => ?_, ih hy⟩
    have hm' := hns.placed hp hy m hm
    have hz : y ≤ bound := by omega
    rw [Node.stopByte, h.stop_eq hp hs hz, hp.bytes]
    exact hm'.2.1

/-- The last of nodes that follow one another stops where they do. -/
lemma Standing.getLast {x y : Nat} {ns : List Node} (h : Standing place x ns y) (hy : y ≤ bound)
    (hne : ns ≠ []) : ns.getLast?.map (·.stop) = some (place y) := by
  induction h with
  | nil => exact absurd rfl hne
  | @cons x a y z n ns h hs hns ih =>
    cases hns with
    | nil =>
      simp only [List.getLast?_singleton, Option.map_some]
      rw [h.stop_eq hp hs hy]
    | cons hm hms hrest =>
      rw [List.getLast?_cons_cons]
      exact ih hy (List.cons_ne_nil _ _)

/-- The children of a placed node are placed. -/
lemma Node.Placed.children {n m : Node} (h : n.Placed place bound) (hm : m ∈ n.children) :
    m.Placed place bound := by
  obtain ⟨x, a, y, hl, hs, hy⟩ := h
  exact ((hl.standing hp hs hy (List.ne_nil_of_mem hm)).1.placed hp hy m hm).1

/-- All nodes that a walk over a placed node meets are placed. -/
lemma Node.Placed.visits {n : Node} (h : n.Placed place bound) {levels depth : Nat}
    {field : Option FieldId} {v : Visit} (hv : v ∈ Node.visitsWithin levels depth field n) :
    v.node.Placed place bound := by
  induction levels generalizing depth field n with
  | zero => cases hv
  | succ levels ih =>
    rcases List.mem_cons.1 hv with rfl | hv
    · exact h
    · obtain ⟨e, he, hv⟩ := List.mem_flatMap.1 hv
      exact ih (h.children hp (List.mem_map_of_mem he)) hv

/-- A placed node starts and stops in both coordinate systems where its bytes say. -/
lemma Node.Placed.ends {n : Node} (h : n.Placed place bound) :
    n.start = place n.startByte ∧ n.stop = place n.stopByte := by
  obtain ⟨x, a, y, hl, hs, hy⟩ := h
  rw [Node.startByte, Node.stopByte, hl.stop_eq hp hs hy, hs, hp.bytes, hp.bytes]
  exact ⟨rfl, rfl⟩

/-- A tree is laid out between the places that its padding and its size lead to. -/
lemma Laid.unique {x a y a' y' : Nat} {g g' : Green} (h : Laid place x a y g)
    (h' : Laid place x a' y' g') (hg : g.bare = g') : a = a' ∧ y = y' := by
  have hl : g.label.bare = g'.label := by rw [← hg, Green.label_bare]
  have hpad : (place a).beyond (place x) = (place a').beyond (place x) := by
    rw [← h.padding.1, ← h'.padding.1, ← hl]
    rfl
  have hsize : (place y).beyond (place a) = (place y').beyond (place a') := by
    rw [← h.padding.2, ← h'.padding.2, ← hl]
    rfl
  have h1 := congrArg Length.bytes hpad
  have h2 := congrArg Length.bytes hsize
  simp only [Length.bytes_beyond, hp.bytes] at h1 h2
  have h3 := h.le
  have h4 := h'.le
  omega

/-- From where a tree is laid out, padding and size together lead to where it stops. -/
lemma Laid.add_total {x a y : Nat} {g : Green} (h : Laid place x a y g) (hy : y ≤ bound) :
    place x + g.total = place y := by
  have hle := h.le
  rw [Green.total, ← Length.add_assoc, h.padding.1, h.padding.2, hp.step hle.1 (by omega),
    hp.step hle.2 hy]

/-- A tree that is laid out is as wide as its places are apart. -/
lemma Laid.width {x a y : Nat} {g : Green} (h : Laid place x a y g) : x + g.width = y := by
  have hle := h.le
  rw [Green.width, h.padding.1, h.padding.2, Length.bytes_beyond, Length.bytes_beyond, hp.bytes,
    hp.bytes, hp.bytes]
  omega

/-- Trees that are laid out are as wide as their places are apart. -/
lemma LaidAll.width {x y : Nat} {cs : List (Child Green)} (h : LaidAll place x cs y) :
    x + Green.widthOf cs = y := by
  induction cs generalizing x with
  | nil =>
    cases h
    rfl
  | cons c cs ih =>
    cases h with
    | cons hc hcs =>
      have h1 := hc.width hp
      have h2 := ih hcs
      rw [Green.widthOf]
      omega

/-- The leaves of nodes of a bounded depth that follow one another do so too. -/
lemma Standing.leaves_of_depth {k x y : Nat} {ns : List Node} (hk : ∀ n ∈ ns, n.green.depth ≤ k)
    (h : Standing place x ns y) (hy : y ≤ bound) : InsideBytes x y (ns.flatMap Node.leaves) := by
  induction k generalizing ns x y with
  | zero =>
    cases ns with
    | nil =>
      cases h
      exact .nil
    | cons n ns =>
      have hn := hk n (List.mem_cons_self ..)
      generalize n.green = g at hn
      cases g
      exact absurd hn (Nat.not_succ_le_zero _)
  | succ k ih =>
    have hplaced := h.placed hp hy
    induction h with
    | nil => exact .nil
    | @cons x a y z n ns h hs hns ihns =>
      have hrest := ihns (fun m hm => hk m (List.mem_cons_of_mem n hm)) hy (hns.placed hp hy)
      have hn := hplaced n (List.mem_cons_self ..)
      have hyz := hns.le
      have hstop : n.stopByte = y := by
        rw [Node.stopByte, h.stop_eq hp hs (Nat.le_trans hyz hy), hp.bytes]
      have hnode : InsideBytes x y n.leaves := by
        by_cases hc : n.childCount = 0
        · rw [Node.leaves_of_eq hc]
          refine ⟨List.pairwise_singleton _ _, fun m hm => ?_⟩
          obtain rfl := List.mem_singleton.1 hm
          omega
        · rw [Node.leaves_of_ne hc]
          have hne : n.children ≠ [] := fun he => hc (by rw [← Node.length_children, he]; rfl)
          refine ih (fun m hm => ?_) (h.standing hp hs (Nat.le_trans hyz hy) hne).1
            (Nat.le_trans hyz hy)
          obtain ⟨e, he, rfl⟩ := List.mem_map.1 hm
          have h1 := Node.depth_entry_lt he
          have h2 := hk n (List.mem_cons_self ..)
          omega
      rw [List.flatMap_cons]
      exact hnode.append hrest (by omega) hyz

/-- The leaves of nodes that follow one another do so too. -/
lemma Standing.leaves {x y : Nat} {ns : List Node} (h : Standing place x ns y) (hy : y ≤ bound) :
    (ns.flatMap Node.leaves).Pairwise (fun n m => n.stopByte ≤ m.startByte) ∧
      ∀ n ∈ ns.flatMap Node.leaves,
        x ≤ n.startByte ∧ n.startByte ≤ n.stopByte ∧ n.stopByte ≤ y := by
  obtain ⟨k, hk⟩ := exists_depth_le ns
  exact h.leaves_of_depth hp hk hy

end

/-! ## Leaves and tokens -/

/-- What the leaves that stand for text say: their symbols and where they are. -/
def wordsOf (ns : List Node) : List (Symbol × Nat × Nat) :=
  (ns.filter fun n => !n.isMissing).map fun n => (n.symbol, n.startByte, n.stopByte)

/-- The words of nodes come one after the other. -/
lemma wordsOf_append (a b : List Node) : wordsOf (a ++ b) = wordsOf a ++ wordsOf b := by
  simp [wordsOf]

/-- What a leaf that is made of a token says. -/
def C.Token.word (t : Token) : Symbol × Nat × Nat := (t.kind.symbol, t.start, t.stop)

/-- No two tokens have the same symbol. -/
lemma C.Terminal.symbol_injective {a b : Terminal} (h : a.symbol = b.symbol) : a = b := by
  cases a <;> cases b <;> first | rfl | cases h

/-- Tokens have the same word if they have the same kind and place. -/
lemma C.Token.word_eq_iff {t u : Token} :
    t.word = u.word ↔ t.kind = u.kind ∧ t.start = u.start ∧ t.stop = u.stop := by
  simp only [word, Prod.mk.injEq]
  exact ⟨fun h => ⟨Terminal.symbol_injective h.1, h.2⟩, fun h => ⟨congrArg Terminal.symbol h.1, h.2⟩⟩

/-- Where tokens say the same and what was looked at to find them is the same, they are the same. -/
lemma C.eq_of_words {ts us : List Token} (h : ts.map Token.word = us.map Token.word)
    (ha : ∀ t ∈ ts, ∀ u ∈ us, t.stop = u.stop → t.lookahead = u.lookahead) : ts = us := by
  induction ts generalizing us with
  | nil => exact (List.map_eq_nil_iff.1 h.symm).symm
  | cons t ts ih =>
    cases us with
    | nil => cases h
    | cons u us =>
      obtain ⟨hw, hr⟩ := List.cons.inj h
      obtain ⟨hk, hstart, hs⟩ := Token.word_eq_iff.1 hw
      have hahead := ha t (List.mem_cons_self ..) u (List.mem_cons_self ..) hs
      have htu : t = u := by
        obtain ⟨k, a, b, l⟩ := t
        dsimp only at hk hstart hs hahead
        rw [hk, hstart, hs, hahead]
      rw [htu, ih hr fun t ht u hu => ha t (List.mem_cons_of_mem _ ht) u (List.mem_cons_of_mem _ hu)]

/-- The children of a node over a bare tree. -/
lemma Node.map_bare_children {n : Node} {l : Label} {cs : List (Child Green)}
    (h : n.green.bare = .node l cs) :
    n.children.map (·.green.bare) = cs.map (·.node) ∧ n.childCount = cs.length := by
  obtain ⟨t, g, start⟩ := n
  cases g with
  | node l' cs' =>
    obtain ⟨-, rfl⟩ := Green.node.inj h
    constructor
    · rw [Green.bareAll_eq_map, List.map_map, children, entries, List.map_map, List.map_map]
      have hm := congrArg (List.map fun c : Child Green => c.node.bare)
        (Green.map_fst_layOut start cs')
      rw [List.map_map] at hm
      exact hm
    · rw [Green.bareAll_eq_map, List.length_map]
      rfl

namespace C.Item

variable {place : Nat → Length} {bound : Nat}

mutual

/-- The leaves of what is built of an item made of tokens say what its tokens do. -/
theorem words_built (hp : Coherent place bound) :
    ∀ {i : Item} {x y : Nat}, i.Whole → InOrder x i.tokens y → y ≤ bound →
      ∀ {n : Node} {a z : Nat}, n.green.bare = (built place (place x) i).1.node →
        Laid place x a z n.green → n.start = place a → wordsOf n.leaves = i.tokens.map Token.word
  | token field t, x, y, hw, ho, hy, n, a, z, hn, hl, hs => by
    obtain ⟨⟨a', hl'⟩, -⟩ := laid_built hp hw ho hy
    obtain ⟨-, hcount⟩ := Node.map_bare_children hn
    obtain ⟨rfl, rfl⟩ := hl.unique hp hl' hn
    have hlabel : n.green.label.bare = leafLabel (place x) (place t.start) (place t.stop) t.kind := by
      rw [← Green.label_bare, hn]
      rfl
    have hmissing : n.isMissing = false := congrArg Label.isMissing hlabel
    have hsymbol : n.symbol = t.kind.symbol := congrArg Label.symbol hlabel
    have hstop := hl.stop_eq hp hs (Nat.le_trans ho.2.2 hy)
    have hpad := congrArg (fun l => l.padding.bytes) hlabel
    have hpad' : n.green.label.padding.bytes = t.start - x := by
      simpa [leafLabel, hp.bytes, Label.bare] using hpad
    rw [hl.padding.1, Length.bytes_beyond, hp.bytes, hp.bytes] at hpad'
    have h1 := hl.le
    have h2 := ho.1
    rw [Node.leaves_of_eq hcount]
    simp only [wordsOf, hmissing, List.filter_cons, Bool.not_false, if_true, List.filter_nil,
      List.map_cons, List.map_nil, tokens, Token.word, hsymbol, Node.startByte, Node.stopByte, hs,
      hstop, hp.bytes]
    rw [show a = t.start by omega]
    rfl
  | missing field kind, x, y, _, _, _, n, a, z, hn, _, _ => by
    obtain ⟨-, hcount⟩ := Node.map_bare_children hn
    have hmissing : n.isMissing = true := by
      have hlabel : n.green.label.bare = missingLabel kind := by
        rw [← Green.label_bare, hn]
        rfl
      exact congrArg Label.isMissing hlabel
    rw [Node.leaves_of_eq hcount]
    simp [wordsOf, hmissing, tokens]
  | reused g, _, _, h, _, _, _, _, _, _, _, _ => h.elim
  | node field rule [], _, _, h, _, _, _, _, _, _, _, _ => absurd rfl h.1
  | node field rule (i :: rest), x, y, hw, ho, hy, n, a, z, hn, hl, hs => by
    have ho' : InOrder x (tokensOf (i :: rest)) y := ho
    obtain ⟨⟨a', hl'⟩, -⟩ := laid_built hp hw ho hy
    obtain ⟨hchildren, hcount⟩ := Node.map_bare_children hn
    obtain ⟨rfl, rfl⟩ := hl.unique hp hl' hn
    have hne : n.childCount ≠ 0 := by
      rw [hcount]
      exact Nat.succ_ne_zero _
    have hne' : n.children ≠ [] := fun he => hne (by rw [← Node.length_children, he]; rfl)
    have hz := Nat.le_trans ho'.le.2 hy
    rw [Node.leaves_of_ne hne]
    exact words_builtAll hp hw.2 ho' hy hchildren (hl.standing hp hs hz hne').1 hz

/-- The leaves of what is built of items made of tokens say what the tokens do. -/
theorem words_builtAll (hp : Coherent place bound) :
    ∀ {is : List Item} {x y : Nat}, WholeAll is → InOrder x (tokensOf is) y → y ≤ bound →
      ∀ {ns : List Node} {z : Nat},
        ns.map (·.green.bare) = (builtAll place (place x) is).1.map (·.node) →
        Standing place x ns z → z ≤ bound →
        wordsOf (ns.flatMap Node.leaves) = (tokensOf is).map Token.word
  | [], _, _, _, _, _, ns, _, hn, _, _ => by
    obtain rfl : ns = [] := List.map_eq_nil_iff.1 hn
    rfl
  | i :: rest, x, y, hw, ho, hy, ns, z, hn, hs, hz => by
    rw [tokensOf, inOrder_append] at ho
    have hle := Nat.le_trans ho.2.le.1 (Nat.le_trans ho.2.le.2 hy)
    obtain ⟨⟨a', hl'⟩, hpos⟩ := laid_built hp hw.1 ho.1 hle
    rw [builtAll_cons, hpos] at hn
    cases hs with
    | nil => cases hn
    | cons hl hstart hns =>
      obtain ⟨hi, hrest⟩ := List.cons.inj hn
      have hword := words_built hp hw.1 ho.1 hle hi hl hstart
      obtain ⟨rfl, rfl⟩ := hl.unique hp hl' hi
      rw [List.flatMap_cons, wordsOf_append, hword, tokensOf, List.map_append,
        words_builtAll hp hw.2 ho.2 hy hrest hns hz]

end

/-! ## The tree of a document -/

/-- A place, seen from the start of the document. -/
lemma beyond_zero (hp : Coherent place bound) (x : Nat) : (place x).beyond .zero = place x := by
  have hz : place 0 = .zero := hp.zero
  unfold Length.beyond
  split
  · show Length.mk _ (_ - _) = _
    rw [show (Length.zero).extent = Point.zero from rfl, Point.sub_zero]
    rfl
  · rename_i hx
    have hx' : x = 0 := Nat.eq_zero_of_not_pos (by simpa [hp.bytes, Length.zero] using hx)
    rw [hx', hz]

/-- From a place to one that is not before it, what lies between is what the second has beyond the
first. -/
lemma sub_eq_beyond (hp : Coherent place bound) {x y : Nat} (hxy : x ≤ y) :
    place y - place x = (place y).beyond (place x) := by
  unfold Length.beyond
  split
  · rfl
  · rename_i hlt
    obtain rfl : x = y := by
      rw [hp.bytes, hp.bytes] at hlt
      omega
    show Length.mk (_ - _) (_ - _) = _
    rw [Nat.sub_self, Point.sub_self]
    rfl

/-- The root of the tree of a document ends where the document does, and its children, which follow
one another from the start of the document, are what is built of the items. -/
theorem root_of_built (hp : Coherent place bound) {t : Tree} {items : List Item} {stop : Nat}
    (hw : WholeAll items) (ho : InOrder 0 (tokensOf items) stop) (hstop : stop ≤ bound)
    (ht : t.root.bare = builtRoot place (place stop) items) :
    (∃ a, t.rootNode.start = place a ∧ a ≤ stop) ∧ t.rootNode.stop = place stop ∧
      Standing place 0 t.rootNode.children (endOf 0 (tokensOf items)) ∧
      t.rootNode.children.map (·.green.bare) =
        (builtAll place (place 0) items).1.map (·.node) := by
  have hle := ho.le.2
  obtain ⟨hl, hs⟩ := laid_builtAll hp hw ho hstop
  obtain ⟨hmap, -⟩ := Node.map_bare_children (n := t.rootNode) ht
  obtain ⟨hpad, hsize⟩ := label_builtRoot place (place stop) items
  rw [← ht, Green.label_bare] at hpad hsize
  obtain ⟨a, -, hae, hpa⟩ := hl.padding
  rw [hp.zero, beyond_zero hp] at hpa
  have hstart : t.rootNode.start = place a := hpad.trans hpa
  have hsize : t.root.label.size = place stop - place a := by
    have hif := hsize (by
      rw [hpad, hpa, hp.bytes, hp.bytes]
      omega)
    rwa [hpad, hpa] at hif
  refine ⟨⟨a, hstart, by omega⟩, ?_, ?_, ?_⟩
  · rw [Node.stop, hstart]
    show place a + t.root.label.size = _
    rw [hsize, sub_eq_beyond hp (by omega), hp.step (by omega) hstop]
  · by_cases hne : t.rootNode.children = []
    · have hnil : (builtAll place (place 0) items).1 = [] := by
        rw [hne] at hmap
        rw [hp.zero]
        exact List.map_eq_nil_iff.1 hmap.symm
      rw [hnil] at hl
      rw [hne]
      generalize endOf 0 (tokensOf items) = e at hl
      cases hl with
      | nil => exact .nil
    · -- the children are those of a node that is not stretched to the end
      obtain ⟨c, cs, hcs⟩ : ∃ c cs, t.root.children = c :: cs := by
        cases hc : t.root.children with
        | nil =>
          refine absurd (List.eq_nil_of_length_eq_zero ?_) hne
          rw [Node.length_children]
          exact congrArg List.length hc
        | cons c cs => exact ⟨c, cs, rfl⟩
      have hbare : Green.bareAll (c :: cs) = (builtAll place (place 0) items).1 := by
        rw [← hcs, ← Green.children_bare, ht, hp.zero]
        rfl
      rw [← hbare] at hl
      obtain ⟨a', hl'⟩ := hl.of_bare.over hp (Nat.le_trans hle hstop)
        (rfl : (nodeLabel (place 0) (place (endOf 0 (tokensOf items))) Rule.document.symbol
          (c :: cs)).padding = _) rfl
      have hstart' : t.rootNode.start = place a' := by
        have hpad' := hl'.padding.1
        have hhead : (nodeLabel (place 0) (place (endOf 0 (tokensOf items))) Rule.document.symbol
            (c :: cs)).padding = t.root.label.padding := by
          refine Eq.trans ?_ hpad.symm
          rw [← hp.zero, ← hbare, Green.padding_head_bareAll]
          rfl
        show t.root.label.padding = _
        rw [← hhead]
        exact hpad'.trans (by rw [hp.zero, beyond_zero hp])
      have hchildren : t.rootNode.children = (Node.mk t (.node (nodeLabel (place 0)
          (place (endOf 0 (tokensOf items))) Rule.document.symbol (c :: cs)) (c :: cs))
          (place a')).children := by
        simp only [Node.children, Node.entries, hstart', ← hcs]
        rfl
      rw [hchildren]
      refine (Laid.standing hp hl' rfl (Nat.le_trans hle hstop) ?_).1
      rw [← hchildren]
      exact hne
  · rw [hmap, hp.zero]

/-- The leaves below the root of a document say what its tokens do. -/
theorem words_of_built (hp : Coherent place bound) {t : Tree} {items : List Item} {stop : Nat}
    (hw : WholeAll items) (ho : InOrder 0 (tokensOf items) stop) (hstop : stop ≤ bound)
    (ht : t.root.bare = builtRoot place (place stop) items) :
    wordsOf (t.rootNode.children.flatMap Node.leaves) = (tokensOf items).map Token.word := by
  obtain ⟨-, -, hstand, hmap⟩ := root_of_built hp hw ho hstop ht
  exact words_builtAll hp hw ho hstop hmap hstand (Nat.le_trans ho.le.2 hstop)

end C.Item

end Reparse
