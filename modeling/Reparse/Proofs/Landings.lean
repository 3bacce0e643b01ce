import Reparse.Proofs.Noting
import Reparse.Proofs.Tiling

/-!
# Landings

Calls that take a builder from byte to byte, where the tokens come in order and each subtree that is
taken over belongs where the builder stands (`Call.Lands`). The builder then stands at the last of these
bytes (`Call.Lands.performAll`), and every node of the tree that comes of it was made by it, unless it
belongs to such a subtree and stands in it as it does in the tree (`Green.LandsAll.locate`). What
belongs where is left open here.
-/

namespace Reparse

/-! ## Trees with subtrees of other trees -/

namespace Green

mutual

/-- Whether a tree whose padding begins at `x` was made in a generation, apart from subtrees that belong
where they stand. -/
def Lands (Q : Nat → Green → Prop) (generation : Nat) : Nat → Green → Prop
  | x, node l cs => Q x (node l cs) ∨ l.stamp.generation = generation ∧ LandsAll Q generation x cs

/-- The same of trees that follow one another. -/
def LandsAll (Q : Nat → Green → Prop) (generation : Nat) : Nat → List (Child Green) → Prop
  | _, [] => True
  | x, c :: rest => c.node.Lands Q generation x ∧ LandsAll Q generation (x + c.node.width) rest

end

variable {Q : Nat → Green → Prop} {generation : Nat}

/-- Trees land in two parts. -/
lemma LandsAll.append {x : Nat} {cs ds : List (Child Green)} (h : LandsAll Q generation x cs)
    (h' : LandsAll Q generation (x + widthOf cs) ds) : LandsAll Q generation x (cs ++ ds) := by
  induction cs generalizing x with
  | nil => exact h'
  | cons c cs ih =>
    rw [widthOf, ← Nat.add_assoc] at h'
    exact ⟨h.1, ih h.2 h'⟩

/-- Of trees that land each does where it stands. -/
lemma LandsAll.of_mem_placed {x y : Nat} {c : Child Green} {cs : List (Child Green)}
    (h : LandsAll Q generation x cs) (hc : (y, c) ∈ placed x cs) : c.node.Lands Q generation y := by
  induction cs generalizing x with
  | nil => cases hc
  | cons d cs ih =>
    cases hc with
    | head => exact h.1
    | tail _ hc => exact ih h.2 hc

/-- A node that lands was made in the generation, or it stands in a subtree that belongs where it
stands. -/
theorem Lands.locate {g k : Green} {x y : Nat} {path : List Nat} (h : g.Lands Q generation x)
    (hl : g.locate? path = some (y, k)) : k.label.stamp.generation = generation ∨
      ∃ above below u m v, path = above ++ below ∧ g.locate? above = some (u, m) ∧ Q (x + u) m ∧
        m.locate? below = some (v, k) ∧ y = u + v := by
  induction path generalizing g x y with
  | nil =>
    obtain ⟨rfl, rfl⟩ := Prod.mk.inj (Option.some.inj hl)
    obtain ⟨l, cs⟩ := g
    cases h with
    | inl h => exact .inr ⟨[], [], 0, _, 0, rfl, rfl, h, rfl, rfl⟩
    | inr h => exact .inl h.1
  | cons i path ih =>
    obtain ⟨l, cs⟩ := g
    cases h with
    | inl h => exact .inr ⟨[], i :: path, 0, _, y, rfl, rfl, h, hl, (Nat.zero_add y).symm⟩
    | inr h =>
      obtain ⟨u, c, v, hc, hv, rfl⟩ := locate?_cons.1 hl
      have hplaced : (x + u, c) ∈ placed x cs := by
        have hadd := placed_add x 0 cs
        rw [Nat.add_zero] at hadd
        rw [hadd]
        exact List.mem_map_of_mem (List.mem_of_getElem? hc)
      cases ih (h.2.of_mem_placed hplaced) hv with
      | inl hmade => exact .inl hmade
      | inr hgraft =>
        obtain ⟨above, below, u', m, v', rfl, habove, hm, hbelow, rfl⟩ := hgraft
        refine .inr ⟨i :: above, below, u + u', m, v', rfl, ?_, ?_, hbelow, (Nat.add_assoc ..).symm⟩
        · exact locate?_cons.2 ⟨u, c, u', hc, habove, rfl⟩
        · rw [← Nat.add_assoc]
          exact hm

end Green

/-! ## Builders -/

/-- Whether what a builder has made lands: the children of each open node from where that node
starts. -/
def LandsPile (Q : Nat → Green → Prop) (generation : Nat) :
    List OpenNode → List (Child Green) → Prop
  | [], children => Green.LandsAll Q generation 0 children.reverse
  | o :: rest, children =>
    Green.LandsAll Q generation o.start.bytes children.reverse ∧ LandsPile Q generation rest o.siblings

/-- What is added next lands after the rest. -/
lemma LandsPile.push {Q : Nat → Green → Prop} {generation : Nat} {os : List OpenNode}
    {c : Child Green} {cs : List (Child Green)} {y : Nat} (h : LandsPile Q generation os cs)
    (hp : Piled os cs y) (hc : c.node.Lands Q generation y) : LandsPile Q generation os (c :: cs) := by
  cases os with
  | nil =>
    obtain ⟨-, rfl⟩ := hp
    rw [LandsPile, List.reverse_cons]
    apply Green.LandsAll.append h
    rw [Nat.zero_add]
    exact ⟨hc, trivial⟩
  | cons o os =>
    obtain ⟨-, rfl, -⟩ := hp
    rw [LandsPile, List.reverse_cons]
    exact ⟨h.1.append ⟨hc, trivial⟩, h.2⟩

/-- Whether a builder was given tokens in order, and subtrees that belong where it stood. -/
structure Builder.Grafts (Q : Nat → Green → Prop) (b : Builder) : Prop where
  ordered : b.Ordered
  lands : LandsPile Q b.generation b.openNodes b.children

namespace Builder.Grafts

variable {Q : Nat → Green → Prop} {b b' : Builder}

/-- A new builder was given nothing yet. -/
lemma new (grammar : Grammar) (generation : Nat) : (Builder.new grammar generation).Grafts Q :=
  ⟨.new, trivial⟩

/-- A node may be started. -/
lemma startNode (h : b.Grafts Q) (symbol : Symbol) (field : Option FieldId) :
    (b.startNode symbol field).Grafts Q :=
  ⟨h.ordered.startNode symbol field, trivial, h.lands⟩

/-- A missing token may be put in. -/
lemma missing (h : b.Grafts Q) (symbol : Symbol) (field : Option FieldId) :
    (b.missing symbol field).Grafts Q :=
  ⟨h.ordered.missing symbol field, h.lands.push h.ordered.piled.2 (.inr ⟨rfl, trivial⟩)⟩

/-- A leaf may be added that starts after what is there. -/
lemma leaf {l : Leaf} (h : b.Grafts Q) (hstart : b.position.bytes ≤ l.start.bytes)
    (hstop : l.start.bytes ≤ l.stop.bytes) (hlimit : l.stop.bytes ≤ limit) : (b.leaf l).Grafts Q :=
  ⟨h.ordered.leaf hstart hstop hlimit, h.lands.push h.ordered.piled.2 (.inr ⟨rfl, trivial⟩)⟩

/-- A subtree may be added that belongs where the builder stands. -/
lemma reuse {g : Green} (h : b.Grafts Q) (hg : Q b.position.bytes g) (htiled : g.Tiled)
    (hlimit : b.position.bytes + g.width ≤ limit) (field : Option FieldId) :
    (b.reuse g field).Grafts Q := by
  refine ⟨h.ordered.reuse field htiled hlimit, h.lands.push h.ordered.piled.2 ?_⟩
  obtain ⟨l, cs⟩ := g
  exact .inl hg

/-- A node may be finished, which leaves the position. -/
lemma finishNode (h : b.Grafts Q) (hb : b.finishNode = .ok b') :
    b'.Grafts Q ∧ b'.position = b.position ∧ b'.generation = b.generation := by
  have hordered := h.ordered.finishNode hb
  obtain ⟨-, hpiled⟩ := h.ordered.piled
  have hlands := h.lands
  rw [Builder.finishNode] at hb
  cases ho : b.openNodes with
  | nil =>
    rw [ho] at hb
    cases hb
  | cons o rest =>
    rw [ho] at hb hpiled hlands
    obtain rfl := Except.ok.inj hb
    obtain ⟨-, -, hrest⟩ := hpiled
    exact ⟨⟨hordered, hlands.2.push hrest (.inr ⟨rfl, hlands.1⟩)⟩, rfl, rfl⟩

end Builder.Grafts

namespace C

open Item

/-! ## Calls -/

/-- Whether calls take a builder from one byte to another: the tokens among them come in order, and each
subtree that is taken over belongs where the builder stands. -/
def Call.Lands (Q : Nat → Green → Prop) : Nat → List Call → Nat → Prop
  | x, [], y => x = y
  | x, .startNode .. :: rest, y => Lands Q x rest y
  | x, .leaf _ t _ :: rest, y => x ≤ t.start ∧ t.start < t.stop ∧ t.stop ≤ limit ∧ Lands Q t.stop rest y
  | x, .missing .. :: rest, y => Lands Q x rest y
  | x, .reuse g :: rest, y => Q x g ∧ Lands Q (x + g.width) rest y
  | x, .finishNode :: rest, y => Lands Q x rest y

section

variable {Q : Nat → Green → Prop}

/-- Calls land one after the other. -/
lemma Call.lands_append {x z : Nat} {a b : List Call} :
    Lands Q x (a ++ b) z ↔ ∃ y, Lands Q x a y ∧ Lands Q y b z := by
  induction a generalizing x with
  | nil => exact ⟨fun h => ⟨x, rfl, h⟩, fun ⟨_, hx, h⟩ => hx ▸ h⟩
  | cons c a ih => cases c <;> simp only [List.cons_append, Lands, ih, ← exists_and_left, and_assoc]

mutual

/-- The calls that build an item made of tokens in order land. -/
lemma lands_calls : ∀ {i : Item} {x y : Nat}, i.Whole → InOrder x i.tokens y → y ≤ limit →
    Call.Lands Q x i.calls (endOf x i.tokens)
  | .token _ t, _, _, _, ⟨hstart, hlt, hle⟩, hy => ⟨hstart, hlt, Nat.le_trans hle hy, rfl⟩
  | .missing _ _, _, _, _, _, _ => rfl
  | .reused _, _, _, h, _, _ => h.elim
  | .node _ _ parts, x, _, h, ho, hy => by
    show Call.Lands Q x (callsOf parts ++ [Call.finishNode]) _
    exact Call.lands_append.2 ⟨_, lands_callsOf h.2 ho hy, rfl⟩

/-- The same of several items. -/
lemma lands_callsOf : ∀ {is : List Item} {x y : Nat}, WholeAll is → InOrder x (tokensOf is) y →
    y ≤ limit → Call.Lands Q x (callsOf is) (endOf x (tokensOf is))
  | [], _, _, _, _, _ => rfl
  | i :: rest, x, y, h, ho, hy => by
    rw [tokensOf, inOrder_append] at ho
    obtain ⟨hi, hrest⟩ := ho
    rw [callsOf, tokensOf, endOf_append]
    apply Call.lands_append.2
    refine ⟨endOf x i.tokens, lands_calls h.1 hi ?_, lands_callsOf h.2 hrest hy⟩
    exact Nat.le_trans hrest.le.1 (Nat.le_trans hrest.le.2 hy)

end

/-- One call takes a builder to where the rest of them land. -/
lemma Call.Lands.perform (hQ : ∀ x g, Q x g → g.Tiled ∧ x + g.width ≤ limit) {s : Source} {c : Call}
    {rest : List Call} {b b' : Builder} {z : Nat} (h : Lands Q b.position.bytes (c :: rest) z)
    (hb : b.Grafts Q) (hp : c.perform s b = .ok b') :
    b'.Grafts Q ∧ b'.generation = b.generation ∧ Lands Q b'.position.bytes rest z := by
  cases c with
  | startNode rule field =>
    obtain rfl := Except.ok.inj hp
    exact ⟨hb.startNode _ _, rfl, h⟩
  | leaf field t isExtra =>
    obtain ⟨hstart, hlt, hlimit, h⟩ := h
    obtain rfl := Except.ok.inj hp
    have hposition : (b.leaf { Item.leafOf s field t with isExtra := isExtra }).position =
        s.positionAt t.stop := if_pos (Nat.le_trans hstart (Nat.le_of_lt hlt))
    refine ⟨hb.leaf hstart (Nat.le_of_lt hlt) hlimit, rfl, ?_⟩
    rw [hposition]
    exact h
  | missing field kind =>
    obtain rfl := Except.ok.inj hp
    exact ⟨hb.missing _ _, rfl, h⟩
  | reuse g =>
    obtain ⟨hg, h⟩ := h
    obtain rfl := Except.ok.inj hp
    obtain ⟨htiled, hlimit⟩ := hQ _ _ hg
    have hposition : (b.reuse g none).position.bytes = b.position.bytes + g.width :=
      Green.bytes_add_total hlimit (Nat.le_refl _)
    refine ⟨hb.reuse hg htiled hlimit none, rfl, ?_⟩
    rw [hposition]
    exact h
  | finishNode =>
    obtain ⟨hb', hposition, hgeneration⟩ := hb.finishNode hp
    refine ⟨hb', hgeneration, ?_⟩
    rw [hposition]
    exact h

/-- Calls take a builder to where they land. -/
theorem Call.Lands.performAll (hQ : ∀ x g, Q x g → g.Tiled ∧ x + g.width ≤ limit) {s : Source}
    {calls : List Call} {b b' : Builder} {z : Nat} (h : Lands Q b.position.bytes calls z)
    (hb : b.Grafts Q) (hp : Call.performAll s b calls = .ok b') :
    b'.Grafts Q ∧ b'.generation = b.generation ∧ b'.position.bytes = z := by
  induction calls generalizing b with
  | nil =>
    obtain rfl := Except.ok.inj hp
    exact ⟨hb, rfl, h⟩
  | cons c rest ih =>
    rw [performAll_cons] at hp
    obtain ⟨b₁, hc, hrest⟩ := bind_ok hp
    obtain ⟨hb₁, hgeneration, h₁⟩ := h.perform hQ hb hc
    obtain ⟨hb', hgeneration', hz⟩ := ih h₁ hb₁ hrest
    exact ⟨hb', hgeneration'.trans hgeneration, hz⟩

/-- The root of a tree is made anew, and what is below it lands if the calls do that build its items. -/
theorem lands_treeOf (hQ : ∀ x g, Q x g → g.Tiled ∧ x + g.width ≤ limit) {s : Source}
    {generation y : Nat} {items : List Item} {t : Tree} (h : Call.Lands Q 0 (callsOf items) y)
    (ht : treeOf s generation items = .ok t) : t.root.Lands Q generation 0 := by
  obtain ⟨made, cs, hadd, -⟩ := addAllTo_eq s items
    ((Builder.new grammar generation).startNode Rule.document.symbol none) rfl
  have hperform := performAll_callsOf s items
    ((Builder.new grammar generation).startNode Rule.document.symbol none) []
  rw [List.append_nil, hadd] at hperform
  obtain ⟨⟨-, hlands, -⟩, -, -⟩ :=
    Call.Lands.performAll hQ h ((Builder.Grafts.new grammar generation).startNode _ _) hperform
  rw [treeOf, addTo, show Option.map Field.id none = none from rfl, hadd] at ht
  obtain rfl := Except.ok.inj ht
  exact .inr ⟨rfl, hlands⟩

end

end C

/-! ## Errors -/

namespace Green

mutual

/-- Whether a tree reports errors: a node without errors has none below it. -/
def Reports : Green → Prop
  | node l cs => (l.hasError = false → ∀ c ∈ cs, c.node.label.hasError = false) ∧ ReportsAll cs

/-- The same of several trees. -/
def ReportsAll : List (Child Green) → Prop
  | [] => True
  | c :: rest => c.node.Reports ∧ ReportsAll rest

end

/-- Of trees that report errors each does. -/
lemma ReportsAll.of_mem {cs : List (Child Green)} (h : ReportsAll cs) {c : Child Green} (hc : c ∈ cs) :
    c.node.Reports := by
  induction cs with
  | nil => cases hc
  | cons d cs ih =>
    cases hc with
    | head => exact h.1
    | tail _ hc => exact ih h.2 hc

mutual

/-- Whether a tree reports errors does not depend on stamps and marks. -/
lemma Reports.of_bare : ∀ {g : Green}, g.bare.Reports → g.Reports
  | node l cs, ⟨h, hs⟩ => by
    refine ⟨fun he c hc => ?_, ReportsAll.of_bareAll hs⟩
    have hmem : (⟨c.field, c.node.bare⟩ : Child Green) ∈ bareAll cs := by
      rw [bareAll_eq_map]
      exact List.mem_map_of_mem hc
    have hbare := h he _ hmem
    rw [label_bare] at hbare
    exact hbare

/-- Whether trees report errors does not depend on stamps and marks. -/
lemma ReportsAll.of_bareAll : ∀ {cs : List (Child Green)}, ReportsAll (bareAll cs) → ReportsAll cs
  | [], _ => trivial
  | _ :: _, ⟨hc, hs⟩ => ⟨Reports.of_bare hc, ReportsAll.of_bareAll hs⟩

end

/-- Below a node without errors there are none. -/
lemma Reports.locate {g k : Green} {y : Nat} {path : List Nat} (h : g.Reports)
    (hl : g.locate? path = some (y, k)) :
    k.Reports ∧ (g.label.hasError = false → k.label.hasError = false) := by
  induction path generalizing g y with
  | nil =>
    obtain ⟨-, rfl⟩ := Prod.mk.inj (Option.some.inj hl)
    exact ⟨h, id⟩
  | cons i path ih =>
    obtain ⟨u, c, v, hc, hv, -⟩ := locate?_cons.1 hl
    obtain ⟨l, cs⟩ := g
    have hmem : c ∈ cs := mem_of_mem_placed (List.mem_of_getElem? hc)
    obtain ⟨hk, hclean⟩ := ih (h.2.of_mem hmem) hv
    exact ⟨hk, fun he => hclean (h.1 he c hmem)⟩

end Green

namespace C.Item

/-- The node over trees that report errors does so too. -/
lemma reports_nodeLabel (start stop : Length) (symbol : Symbol) {cs : List (Child Green)}
    (h : Green.ReportsAll cs) : (Green.node (nodeLabel start stop symbol cs) cs).Reports := by
  refine ⟨fun he c hc => ?_, h⟩
  have he' : (symbol == .error || cs.any (·.node.label.hasError)) = false := he
  rw [Bool.or_eq_false_iff, List.any_eq_false] at he'
  exact Bool.eq_false_iff.2 (he'.2 c hc)

mutual

/-- What is built of tokens reports errors. -/
lemma reports_built (place : Nat → Length) : ∀ (position : Length) {i : Item}, i.Whole →
    (built place position i).1.node.Reports
  | _, .token _ _, _ => ⟨fun _ => nofun, trivial⟩
  | _, .missing _ _, _ => ⟨fun _ => nofun, trivial⟩
  | _, .reused _, h => h.elim
  | position, .node _ _ _, h => reports_nodeLabel _ _ _ (reports_builtAll place position h.2)

/-- Trees that are built from items report errors. -/
lemma reports_builtAll (place : Nat → Length) : ∀ (position : Length) {is : List Item}, WholeAll is →
    Green.ReportsAll (builtAll place position is).1
  | _, [], _ => trivial
  | position, i :: _, h =>
    ⟨reports_built place position h.1, reports_builtAll place (built place position i).2 h.2⟩

end

/-- The tree that is built of tokens reports errors. -/
lemma reports_builtRoot (place : Nat → Length) (stop : Length) {items : List Item}
    (h : WholeAll items) : (builtRoot place stop items).Reports :=
  reports_nodeLabel .zero (builtAll place .zero items).2 Rule.document.symbol
    (reports_builtAll place .zero h)

end C.Item

end Reparse
