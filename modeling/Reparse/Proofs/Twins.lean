import Reparse.Proofs.Layout

/-!
# Twin trees

Two trees that differ in nothing but their places: the same marks of a text, numbered from its start,
have places of their own in each of them (`Twins`). What is built of the same items with either places
are twins (`twins_built`), and walks over twins find the same nodes between the same marks
(`Twins.findings`).
-/

namespace Reparse

/-- Whether the places of the marks up to `bound` add up. -/
structure Steady (place : Nat → Length) (bound : Nat) : Prop where
  zero : place 0 = .zero
  bytes_le : ∀ {x y}, x ≤ y → y ≤ bound → (place x).bytes ≤ (place y).bytes
  step : ∀ {x y}, x ≤ y → y ≤ bound → place x + (place y).beyond (place x) = place y

namespace Steady

variable {place : Nat → Length} {bound : Nat}

/-- From a mark to a later one, what lies between is what the second has beyond the first. -/
lemma sub_eq (h : Steady place bound) {x y : Nat} (hxy : x ≤ y) (hy : y ≤ bound) :
    place y - place x = (place y).beyond (place x) := by
  by_cases hlt : (place x).bytes < (place y).bytes
  · exact (if_pos hlt).symm
  · -- the two places are one
    have hbeyond : (place y).beyond (place x) = .zero := if_neg hlt
    have hself : (place x).beyond (place x) = .zero := if_neg (Nat.lt_irrefl _)
    have heq : place y = place x := by
      rw [← h.step hxy hy, hbeyond, ← hself, h.step (Nat.le_refl x) (Nat.le_trans hxy hy)]
    rw [heq, hself]
    show Length.mk (_ - _) (_ - _) = _
    rw [Nat.sub_self, Point.sub_self]
    rfl

/-- A place, seen from the start of the text. -/
lemma beyond_zero (h : Steady place bound) {x : Nat} (hx : x ≤ bound) :
    (place x).beyond .zero = place x := by
  rw [← h.zero, ← h.sub_eq (Nat.zero_le x) hx, h.zero]
  show Length.mk _ (_ - _) = _
  rw [show (Length.zero).extent = Point.zero from rfl, Point.sub_zero]
  rfl

end Steady

namespace Label

/-- Whether two labels differ in extents and storage alone. -/
structure Alike (l m : Label) : Prop where
  symbol : l.symbol = m.symbol
  isNamed : l.isNamed = m.isNamed
  isExtra : l.isExtra = m.isExtra
  isMissing : l.isMissing = m.isMissing
  hasChanges : l.hasChanges = m.hasChanges
  hasError : l.hasError = m.hasError
  namedChildCount : l.namedChildCount = m.namedChildCount

/-- Labels that are alike may have any sizes. -/
lemma Alike.resize {l m : Label} (h : l.Alike m) (s s' : Length) :
    Label.Alike { l with size := s } { m with size := s' } :=
  ⟨h.symbol, h.isNamed, h.isExtra, h.isMissing, h.hasChanges, h.hasError, h.namedChildCount⟩

/-- Whether a label has the padding from mark `x` to mark `a` and the size from there to mark `y`. -/
structure Leads (l : Label) (place : Nat → Length) (x a y : Nat) : Prop where
  padding : l.padding = (place a).beyond (place x)
  size : l.size = (place y).beyond (place a)

end Label

mutual

/-- Whether two trees are twins whose padding begins at mark `x`, and which start at `a` and stop at
`z`. -/
inductive Twins (p q : Nat → Length) : Nat → Nat → Nat → Green → Green → Prop where
  | leaf {x a z l m} :
    x ≤ a → a ≤ z → l.Alike m → l.Leads p x a z → m.Leads q x a z →
    Twins p q x a z (.node l []) (.node m [])
  | node {x a y y' z l m field c d cs ds} :
    Twins p q x a y c d → TwinsAll p q y cs ds y' → y' ≤ z → l.Alike m → l.Leads p x a z →
    m.Leads q x a z → Twins p q x a z (.node l (⟨field, c⟩ :: cs)) (.node m (⟨field, d⟩ :: ds))

/-- Whether trees are twins one by one and follow one another from mark `x` to mark `z`. -/
inductive TwinsAll (p q : Nat → Length) : Nat → List (Child Green) → List (Child Green) → Nat →
    Prop where
  | nil {x} : TwinsAll p q x [] [] x
  | cons {x a y z field c d cs ds} :
    Twins p q x a y c d → TwinsAll p q y cs ds z →
    TwinsAll p q x (⟨field, c⟩ :: cs) (⟨field, d⟩ :: ds) z

end

section

variable {p q : Nat → Length} {bound : Nat}

mutual

/-- Twins begin before their place and end after it. -/
lemma Twins.le : ∀ {x a z g h}, Twins p q x a z g h → x ≤ a ∧ a ≤ z
  | _, _, _, _, _, .leaf hx hz _ _ _ => ⟨hx, hz⟩
  | _, _, _, _, _, .node h hs hz _ _ _ => by
    have h1 := h.le
    have h2 := hs.le
    omega

/-- Twins in a row end after they begin. -/
lemma TwinsAll.le : ∀ {x cs ds z}, TwinsAll p q x cs ds z → x ≤ z
  | _, _, _, _, .nil => Nat.le_refl _
  | _, _, _, _, .cons h hs => by
    have h1 := h.le
    have h2 := hs.le
    omega

end

/-- Twins have labels that are alike, and stand between the same characters. -/
lemma Twins.labels {x a z g h} (t : Twins p q x a z g h) :
    g.label.Alike h.label ∧ g.label.Leads p x a z ∧ h.label.Leads q x a z := by
  cases t with
  | leaf _ _ hl hp hq => exact ⟨hl, hp, hq⟩
  | node _ _ _ hl hp hq => exact ⟨hl, hp, hq⟩

/-- Twins hold as many errors and as many named trees. -/
lemma TwinsAll.counts {x cs ds z} (h : TwinsAll p q x cs ds z) :
    cs.any (·.node.label.hasError) = ds.any (·.node.label.hasError) ∧
      cs.countP (·.node.label.isNamed) = ds.countP (·.node.label.isNamed) ∧
      cs.length = ds.length := by
  induction cs generalizing x ds with
  | nil =>
    cases h
    exact ⟨rfl, rfl, rfl⟩
  | cons c cs ih =>
    cases h with
    | cons h hs =>
      obtain ⟨hany, hcount, hlength⟩ := ih hs
      have hl := h.labels.1
      simp only [List.any_cons, List.countP_cons, List.length_cons, hany, hcount, hlength,
        hl.hasError, hl.isNamed, and_self]

/-! ## Walks over twins -/

/-- Whether walks find the same at two nodes, which lie between the same marks. -/
structure Finding.Twins (p q : Nat → Length) (bound : Nat) (f g : Finding) : Prop where
  depth : f.depth = g.depth
  field : f.field = g.field
  symbol : f.symbol = g.symbol
  childCount : f.childCount = g.childCount
  isNamed : f.isNamed = g.isNamed
  isMissing : f.isMissing = g.isMissing
  isExtra : f.isExtra = g.isExtra
  isError : f.isError = g.isError
  hasError : f.hasError = g.hasError
  hasChanges : f.hasChanges = g.hasChanges
  start : ∃ i ≤ bound, f.start = p i ∧ g.start = q i
  stop : ∃ i ≤ bound, f.stop = p i ∧ g.stop = q i

/-- What a walk finds at and below a node. -/
def Node.findings (depth : Nat) (field : Option FieldId) (n : Node) : List Finding :=
  (n.visitsFrom depth field).map Visit.finding

/-- A walk finds the node, and then what it finds at its entries. -/
lemma Node.findings_eq (depth : Nat) (field : Option FieldId) (n : Node) :
    n.findings depth field = Visit.finding ⟨depth, field, n⟩ ::
      n.entries.flatMap fun e => e.2.findings (depth + 1) e.1 := by
  rw [findings, visitsFrom_eq, List.map_cons, List.map_flatMap]
  rfl

/-- A walk over a node with children meets the first of them where the node starts. -/
lemma Node.findings_node (t : Tree) (l : Label) (start : Length) (c : Child Green)
    (cs : List (Child Green)) (depth : Nat) (field : Option FieldId) :
    (Node.mk t (.node l (c :: cs)) start).findings depth field =
      Visit.finding ⟨depth, field, ⟨t, .node l (c :: cs), start⟩⟩ ::
        ((Node.mk t c.node start).findings (depth + 1) c.field ++
          (Green.layOutAfter (start + c.node.label.size) cs).flatMap fun e =>
            (Node.mk t e.1.node e.2).findings (depth + 1) e.1.field) := by
  rw [Node.findings_eq, Node.entries, Green.children, Green.layOut, List.map_cons, List.flatMap_cons,
    List.flatMap_map]

variable (hp : Steady p bound) (hq : Steady q bound)

include hp hq

/-- Twins are found to be the same at the top. -/
lemma Twins.finding {x a z g h} (t : Twins p q x a z g h) (hz : z ≤ bound) {n m : Node}
    (hn : n.green = g) (hm : m.green = h) (hns : n.start = p a) (hms : m.start = q a)
    (hc : g.children.length = h.children.length) (depth : Nat) (field : Option FieldId) :
    (Visit.finding ⟨depth, field, n⟩).Twins p q bound (Visit.finding ⟨depth, field, m⟩) := by
  subst hn hm
  obtain ⟨hl, hlp, hlq⟩ := t.labels
  have hle := t.le
  refine ⟨rfl, rfl, hl.symbol, hc, hl.isNamed, hl.isMissing, hl.isExtra, ?_, hl.hasError,
    hl.hasChanges, ⟨a, by omega, hns, hms⟩, ⟨z, hz, ?_, ?_⟩⟩
  · exact congrArg (· == Symbol.error) hl.symbol
  · show n.start + n.green.label.size = p z
    rw [hns, hlp.size, hp.step hle.2 hz]
  · show m.start + m.green.label.size = q z
    rw [hms, hlq.size, hq.step hle.2 hz]

mutual

/-- Walks over twins find the same, between the same marks. -/
theorem Twins.findings : ∀ {x a z g h}, Twins p q x a z g h → z ≤ bound → ∀ {n m : Node},
    n.green = g → m.green = h → n.start = p a → m.start = q a → ∀ depth field,
    List.Forall₂ (Finding.Twins p q bound) (n.findings depth field) (m.findings depth field)
  | _, _, _, _, _, .leaf hx hz hl hlp hlq, hb, n, m, hn, hm, hns, hms, depth, field => by
    have htop := Twins.finding hp hq (.leaf hx hz hl hlp hlq) hb hn hm hns hms rfl depth field
    have hleaf : ∀ {k : Node} {l : Label}, k.green = .node l [] → k.entries = [] := fun h => by
      rw [Node.entries, h]
      rfl
    rw [Node.findings_eq, Node.findings_eq, hleaf hn, hleaf hm]
    exact .cons htop .nil
  | _, _, _, _, _, @Twins.node _ _ x a y y' z l m f c d cs ds h hs hz hl hlp hlq, hb, ⟨t, _, _⟩,
      ⟨u, _, _⟩, hn, hm, hns, hms, depth, field => by
    cases hn
    cases hm
    cases hns
    cases hms
    have hy := Nat.le_trans hs.le (Nat.le_trans hz hb)
    have htop := Twins.finding hp hq (@Twins.node _ _ x a y y' z l m f c d cs ds h hs hz hl hlp hlq) hb
      (n := ⟨t, .node l (⟨f, c⟩ :: cs), p a⟩) (m := ⟨u, .node m (⟨f, d⟩ :: ds), q a⟩) rfl rfl rfl rfl
      (congrArg (· + 1) hs.counts.2.2) depth field
    obtain ⟨-, hcp, hcq⟩ := h.labels
    rw [Node.findings_node, Node.findings_node, hcp.size, hp.step h.le.2 hy, hcq.size,
      hq.step h.le.2 hy]
    exact .cons htop (List.rel_append (h.findings hy rfl rfl rfl rfl (depth + 1) _)
      (hs.findings (Nat.le_trans hz hb) t u (depth + 1)))

/-- Walks over trees that follow one another find the same, between the same marks. -/
theorem TwinsAll.findings : ∀ {x cs ds z}, TwinsAll p q x cs ds z → z ≤ bound → ∀ (t u : Tree) depth,
    List.Forall₂ (Finding.Twins p q bound)
      ((Green.layOutAfter (p x) cs).flatMap fun e =>
        (Node.mk t e.1.node e.2).findings depth e.1.field)
      ((Green.layOutAfter (q x) ds).flatMap fun e =>
        (Node.mk u e.1.node e.2).findings depth e.1.field)
  | _, _, _, _, .nil, _, _, _, _ => .nil
  | x, _, _, _, @TwinsAll.cons _ _ _ a y z field c d cs ds h hs, hb, t, u, depth => by
    have hy := Nat.le_trans hs.le hb
    obtain ⟨-, hcp, hcq⟩ := h.labels
    simp only [Green.layOutAfter, List.flatMap_cons, hcp.padding, hcp.size, hcq.padding, hcq.size,
      hp.step h.le.1 (Nat.le_trans h.le.2 hy), hq.step h.le.1 (Nat.le_trans h.le.2 hy),
      hp.step h.le.2 hy, hq.step h.le.2 hy]
    exact List.rel_append (h.findings hy rfl rfl rfl rfl depth field) (hs.findings hb t u depth)

end

end

/-! ## What is built of the same items -/

namespace C.Item

open C

section

variable {p q : Nat → Length} {bound : Nat}

mutual

/-- The place after what is built of an item. -/
lemma stop_built (hp : Steady p bound) : ∀ {i : Item} {x z : Nat}, i.Whole →
    InOrder x i.tokens z → z ≤ bound → (built p (p x) i).2 = p (endOf x i.tokens)
  | token _ t, x, z, _, ⟨hx, hlt, hle⟩, hz => by
    have hle : t.stop ≤ z := hle
    exact if_pos (hp.bytes_le (by omega) (by omega))
  | missing _ _, _, _, _, _, _ => rfl
  | reused _, _, _, h, _, _ => h.elim
  | node _ _ parts, _, _, h, ho, hz => stop_builtAll hp h.2 ho hz

/-- Items are built up to where their tokens end. -/
lemma stop_builtAll (hp : Steady p bound) : ∀ {is : List Item} {x z : Nat}, WholeAll is →
    InOrder x (tokensOf is) z → z ≤ bound → (builtAll p (p x) is).2 = p (endOf x (tokensOf is))
  | [], _, _, _, _, _ => rfl
  | i :: rest, x, z, h, ho, hz => by
    rw [tokensOf, inOrder_append] at ho
    have hle := Nat.le_trans ho.2.le.1 (Nat.le_trans ho.2.le.2 hz)
    rw [builtAll_cons, stop_built hp h.1 ho.1 hle, tokensOf, endOf_append]
    exact stop_builtAll hp h.2 ho.2 hz

end

/-- The label of a node over nothing. -/
lemma leads_nodeLabel_nil (hp : Steady p bound) {x : Nat} (hx : x ≤ bound) (symbol : Symbol) :
    (nodeLabel (p x) (p x) symbol []).Leads p x x x := by
  have hself : (p x).beyond (p x) = .zero := if_neg (Nat.lt_irrefl _)
  refine ⟨hself.symm, ?_⟩
  show (p x).beyond (p x + .zero) = _
  rw [← hself, hp.step (Nat.le_refl x) hx]

/-- The label of a node over trees that follow one another. -/
lemma leads_nodeLabel (hp : Steady p bound) {x a z : Nat} {c : Child Green}
    (h : c.node.label.padding = (p a).beyond (p x)) (hxa : x ≤ a) (haz : a ≤ z) (hz : z ≤ bound)
    (symbol : Symbol) (cs : List (Child Green)) :
    (nodeLabel (p x) (p z) symbol (c :: cs)).Leads p x a z where
  padding := h
  size := by
    show (p z).beyond (p x + c.node.label.padding) = _
    rw [h, hp.step hxa (Nat.le_trans haz hz)]

/-- Nodes over twins have labels that are alike. -/
lemma alike_nodeLabel {x z : Nat} {cs ds : List (Child Green)} (h : TwinsAll p q x cs ds z)
    (u v u' v' : Length) (symbol : Symbol) :
    (nodeLabel u v symbol cs).Alike (nodeLabel u' v' symbol ds) := by
  obtain ⟨hany, hcount, -⟩ := h.counts
  exact ⟨rfl, rfl, rfl, rfl, rfl, congrArg (symbol == .error || ·) hany,
    congrArg Span.countOf hcount⟩

variable (hp : Steady p bound) (hq : Steady q bound)

include hp hq

/-- Nodes over twins are twins. -/
lemma twins_over {x z : Nat} {cs ds : List (Child Green)} (h : TwinsAll p q x cs ds z)
    (hz : z ≤ bound) (hne : cs ≠ []) (symbol : Symbol) :
    ∃ a, Twins p q x a z (.node (nodeLabel (p x) (p z) symbol cs) cs)
      (.node (nodeLabel (q x) (q z) symbol ds) ds) := by
  have halike := alike_nodeLabel h (p x) (p z) (q x) (q z) symbol
  cases h with
  | nil => exact absurd rfl hne
  | @cons _ a _ _ _ c d cs ds h hs =>
    have h1 := h.le
    have h2 := hs.le
    obtain ⟨-, hcp, hcq⟩ := h.labels
    exact ⟨a, .node h hs (Nat.le_refl z) halike
      (leads_nodeLabel hp hcp.padding h1.1 (by omega) hz symbol cs)
      (leads_nodeLabel hq hcq.padding h1.1 (by omega) hz symbol ds)⟩

mutual

/-- What is built of an item with either places are twins. -/
theorem twins_built : ∀ {i : Item} {x z : Nat}, i.Whole → InOrder x i.tokens z → z ≤ bound →
    ∃ a field g h, (built p (p x) i).1 = ⟨field, g⟩ ∧ (built q (q x) i).1 = ⟨field, h⟩ ∧
      Twins p q x a (endOf x i.tokens) g h
  | token field t, x, z, _, ⟨hx, hlt, _⟩, _ =>
    ⟨t.start, _, _, _, rfl, rfl, .leaf hx (Nat.le_of_lt hlt) ⟨rfl, rfl, rfl, rfl, rfl, rfl, rfl⟩
      ⟨rfl, rfl⟩ ⟨rfl, rfl⟩⟩
  | missing field kind, x, _, _, _, _ => by
    have hself : ∀ l : Length, l.beyond l = .zero := fun l => if_neg (Nat.lt_irrefl _)
    exact ⟨x, _, _, _, rfl, rfl, .leaf (Nat.le_refl x) (Nat.le_refl x)
      ⟨rfl, rfl, rfl, rfl, rfl, rfl, rfl⟩ ⟨(hself _).symm, (hself _).symm⟩
      ⟨(hself _).symm, (hself _).symm⟩⟩
  | reused _, _, _, h, _, _ => h.elim
  | node field rule parts, x, z, ⟨hne, hw⟩, ho, hz => by
    have hend := Nat.le_trans ho.le.2 hz
    have hall := twinsAll_built hw ho hz
    have hcs : (builtAll p (p x) parts).1 ≠ [] := by
      cases parts with
      | nil => exact absurd rfl hne
      | cons i rest => exact List.cons_ne_nil _ _
    obtain ⟨a, h⟩ := twins_over hp hq hall hend hcs rule.symbol
    refine ⟨a, _, _, _, rfl, rfl, ?_⟩
    rw [stop_builtAll hp hw ho hz, stop_builtAll hq hw ho hz]
    exact h

/-- What is built of items with either places are twins. -/
theorem twinsAll_built : ∀ {is : List Item} {x z : Nat}, WholeAll is → InOrder x (tokensOf is) z →
    z ≤ bound → TwinsAll p q x (builtAll p (p x) is).1 (builtAll q (q x) is).1
      (endOf x (tokensOf is))
  | [], _, _, _, _, _ => .nil
  | i :: rest, x, z, ⟨hi, hr⟩, ho, hz => by
    rw [tokensOf, inOrder_append] at ho
    have hle := Nat.le_trans ho.2.le.1 (Nat.le_trans ho.2.le.2 hz)
    obtain ⟨a, field, g, h, hg, hh, htwins⟩ := twins_built hi ho.1 hle
    have hrest := twinsAll_built hr ho.2 hz
    rw [builtAll_cons, builtAll_cons, stop_built hp hi ho.1 hle, stop_built hq hi ho.1 hle, hg, hh,
      tokensOf, endOf_append]
    exact .cons htwins hrest

end

end

/-! ## The trees of documents -/

section

variable {p q : Nat → Length} {bound : Nat}

/-- The label of a root that ends at a mark. -/
lemma leads_root (hp : Steady p bound) {a y z : Nat} {l : Label} (h : l.Leads p 0 a y)
    (haz : a ≤ z) (hz : z ≤ bound) :
    Label.Leads { l with
      size := if l.padding.bytes ≤ (p z).bytes then p z - l.padding else l.size } p 0 a z where
  padding := h.padding
  size := by
    have hpad : l.padding = p a := by
      rw [h.padding, hp.zero, hp.beyond_zero (Nat.le_trans haz hz)]
    show (if l.padding.bytes ≤ (p z).bytes then p z - l.padding else l.size) = _
    rw [hpad, if_pos (hp.bytes_le haz hz), hp.sub_eq haz hz]

/-- The root that is built of items, by the marks between which its children stand. -/
lemma builtRoot_eq (hp : Steady p bound) {items : List Item} {z : Nat} (hw : WholeAll items)
    (ho : InOrder 0 (tokensOf items) z) (hz : z ≤ bound) (stop : Length) :
    ∃ l, l = nodeLabel (p 0) (p (endOf 0 (tokensOf items))) Rule.document.symbol
        (builtAll p (p 0) items).1 ∧
      builtRoot p stop items = .node { l with
        size := if l.padding.bytes ≤ stop.bytes then stop - l.padding else l.size }
        (builtAll p (p 0) items).1 := by
  refine ⟨_, rfl, ?_⟩
  rw [← stop_builtAll hp hw ho hz, hp.zero]
  rfl

/-- The roots of the trees that are built of the same items with either places are twins. -/
theorem twins_builtRoot (hp : Steady p bound) (hq : Steady q bound) {items : List Item} {z : Nat}
    (hw : WholeAll items) (ho : InOrder 0 (tokensOf items) z) (hz : z ≤ bound) :
    ∃ a, Twins p q 0 a z (builtRoot p (p z) items) (builtRoot q (q z) items) := by
  have hall := twinsAll_built hp hq hw ho hz
  have hend := ho.le.2
  have hend' := Nat.le_trans hend hz
  obtain ⟨l, rfl, hl⟩ := builtRoot_eq hp hw ho hz (p z)
  obtain ⟨m, rfl, hm⟩ := builtRoot_eq hq hw ho hz (q z)
  rw [hl, hm]
  have halike := alike_nodeLabel hall (p 0) (p (endOf 0 (tokensOf items))) (q 0)
    (q (endOf 0 (tokensOf items))) Rule.document.symbol
  generalize endOf 0 (tokensOf items) = e at hall hend hend' halike
  generalize (builtAll p (p 0) items).1 = cs at hall halike ⊢
  generalize (builtAll q (q 0) items).1 = ds at hall halike ⊢
  cases hall with
  | nil =>
    exact ⟨0, .leaf (Nat.le_refl 0) (Nat.zero_le z) (halike.resize _ _)
      (leads_root hp (leads_nodeLabel_nil hp hend' _) hend hz)
      (leads_root hq (leads_nodeLabel_nil hq hend' _) hend hz)⟩
  | @cons _ a y _ _ c d cs ds h hs =>
    have h1 := h.le
    have h2 := hs.le
    obtain ⟨-, hcp, hcq⟩ := h.labels
    exact ⟨a, .node h hs hend (halike.resize _ _)
      (leads_root hp (leads_nodeLabel hp hcp.padding h1.1 (by omega) hend' _ cs) (by omega) hz)
      (leads_root hq (leads_nodeLabel hq hcq.padding h1.1 (by omega) hend' _ ds) (by omega) hz)⟩

/-- Walks over trees with such roots find the same, between the same marks. -/
theorem findings_of_builtRoot (hp : Steady p bound) (hq : Steady q bound) {items : List Item}
    (hw : WholeAll items) (ho : InOrder 0 (tokensOf items) bound) {t u : Tree}
    (ht : t.root.bare = builtRoot p (p bound) items)
    (hu : u.root.bare = builtRoot q (q bound) items) :
    List.Forall₂ (Finding.Twins p q bound) t.findings u.findings := by
  have hbare : ∀ t : Tree, t.findings = t.rootNode.bare.findings 0 none := by
    intro t
    have hdepth : t.rootNode.bare.green.depth = t.rootNode.green.depth := Green.depth_bare _
    rw [Tree.findings, Node.findings, Node.visitsFrom, hdepth, Node.findings_bare]
    rfl
  obtain ⟨a, h⟩ := twins_builtRoot hp hq hw ho (Nat.le_refl bound)
  rw [← ht, ← hu] at h
  have hle := h.le.2
  obtain ⟨-, hlp, hlq⟩ := h.labels
  rw [hbare, hbare]
  refine h.findings hp hq (Nat.le_refl bound) rfl rfl ?_ ?_ 0 none
  · show t.root.label.padding = p a
    rw [← hp.beyond_zero hle, ← hp.zero, ← hlp.padding, Green.label_bare]
    rfl
  · show u.root.label.padding = q a
    rw [← hq.beyond_zero hle, ← hq.zero, ← hlq.padding, Green.label_bare]
    rfl

end

end C.Item

end Reparse
