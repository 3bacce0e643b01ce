import Mathlib.Algebra.GroupWithZero.Nat
import Reparse.Proofs.Starts

/-!
# Tiling

A tree is tiled if the children of each node begin where it does and take no more bytes than it takes
(`Green.Tiled`). A builder that is given tokens in order makes a tiled tree (`Builder.Ordered.piled`),
whatever the rows and columns of the tokens are, and edits keep it so, as long as no count leaves its
domain (`Green.Tiled.edit`). For an edit that reaches past the end of the document there is no text to
compare with, so the proof edits a text that is long enough. The children of a node that took all of
its bytes still do so afterwards (`Green.Tiled.full_edit`).
-/

namespace Reparse

/-! ## Tiled trees -/

namespace Green

mutual

/-- Whether the children of each node of a tree begin where it does, and take no more bytes than it. -/
def Tiled : Green → Prop
  | node l cs =>
    (∀ c ∈ cs.head?, c.node.label.padding.bytes = l.padding.bytes) ∧
    widthOf cs ≤ l.padding.bytes + l.size.bytes ∧ TiledAll cs

/-- The same of several trees. -/
def TiledAll : List (Child Green) → Prop
  | [] => True
  | c :: rest => c.node.Tiled ∧ TiledAll rest

end

/-- The bytes that the children of a node take together, their paddings included. -/
def childBytes (g : Green) : Nat := (g.children.map fun c => c.node.total.bytes).sum

/-- Whether the children of a node take all of its bytes. -/
def Full (g : Green) : Prop := widthOf g.children = g.width

section

variable {α : Type}

mutual

/-- A tiled tree fits into every text that is as long. -/
lemma Tiled.fits : ∀ {g : Green} {w : List α}, g.Tiled → g.width ≤ w.length → g.Fits w
  | node _ _, _, ⟨hp, hc, hs⟩, hw =>
    ⟨hw, hc, hp, fun _ => trivial, TiledAll.fits hs (Nat.le_trans hc hw)⟩

/-- Tiled trees fit cells that are as many. -/
lemma TiledAll.fits : ∀ {cs : List (Child Green)} {w : List α}, TiledAll cs → widthOf cs ≤ w.length →
    HoldsAll (fun _ _ => True) w cs
  | [], _, _, _ => trivial
  | c :: rest, w, ⟨hc, hs⟩, hw => by
    rw [widthOf] at hw
    refine ⟨hc.fits (by omega), TiledAll.fits hs ?_⟩
    rw [List.length_drop]
    omega

end

mutual

/-- What fits into a text is tiled. -/
lemma Holds.tiled {P : List α → Green → Prop} : ∀ {g : Green} {w : List α}, g.Holds P w → g.Tiled
  | node _ _, _, ⟨_, hc, hp, _, hs⟩ => ⟨hp, hc, HoldsAll.tiled hs⟩

/-- Trees that stand on cells are tiled. -/
lemma HoldsAll.tiled {P : List α → Green → Prop} : ∀ {cs : List (Child Green)} {w : List α},
    HoldsAll P w cs → TiledAll cs
  | [], _, _ => trivial
  | _ :: _, _, ⟨hc, hs⟩ => ⟨hc.tiled, HoldsAll.tiled hs⟩

end

end

/-- Trees are tiled in two parts. -/
lemma TiledAll.append {cs ds : List (Child Green)} (h : TiledAll cs) (h' : TiledAll ds) :
    TiledAll (cs ++ ds) := by
  induction cs with
  | nil => exact h'
  | cons c cs ih => exact ⟨h.1, ih h.2⟩

/-- The widths of trees in two parts add up. -/
lemma widthOf_append (cs ds : List (Child Green)) :
    widthOf (cs ++ ds) = widthOf cs + widthOf ds := by
  induction cs with
  | nil => exact (Nat.zero_add _).symm
  | cons c cs ih =>
    rw [List.cons_append, widthOf, widthOf, ih]
    omega

/-- Below the largest count, the bytes of a tree are its width. -/
lemma bytes_total {g : Green} (h : g.width ≤ limit) : g.total.bytes = g.width :=
  addCounts_of_le h

/-- Below the largest count, the bytes of children are their widths. -/
lemma sum_bytes_total {cs : List (Child Green)} (h : widthOf cs ≤ limit) :
    (cs.map fun c => c.node.total.bytes).sum = widthOf cs := by
  induction cs with
  | nil => rfl
  | cons c cs ih =>
    rw [widthOf] at h
    rw [List.map_cons, List.sum_cons, widthOf, bytes_total (by omega), ih (by omega)]

/-- The children of a tiled node take no more bytes than it does, all of them if it is full. -/
lemma Tiled.childBytes {g : Green} (h : g.Tiled) (hw : g.width ≤ limit) :
    g.childBytes ≤ g.total.bytes ∧ (g.childBytes = g.total.bytes ↔ g.Full) := by
  obtain ⟨l, cs⟩ := g
  obtain ⟨-, hc, -⟩ := h
  have hwidth : (node l cs).width = l.padding.bytes + l.size.bytes := rfl
  have hsum : (node l cs).childBytes = widthOf cs := sum_bytes_total (Nat.le_trans hc (by omega))
  rw [hsum, bytes_total hw]
  exact ⟨hc, Iff.rfl⟩

end Green

/-! ## Trees of tokens in order -/

/-- Whether what a builder was given came in order, by its bytes: each token starts where the builder
stands or later, and does not stop before. A subtree that is taken over is tiled. -/
inductive Builder.Ordered : Builder → Prop where
  | new {grammar generation} : Ordered (.new grammar generation)
  | startNode {b} (symbol : Symbol) (field : Option FieldId) : Ordered b → Ordered (b.startNode symbol field)
  | finishNode {b b'} : Ordered b → b.finishNode = .ok b' → Ordered b'
  | missing {b} (symbol : Symbol) (field : Option FieldId) : Ordered b → Ordered (b.missing symbol field)
  | leaf {b l} :
    Ordered b → b.position.bytes ≤ l.start.bytes → l.start.bytes ≤ l.stop.bytes →
    l.stop.bytes ≤ limit → Ordered (b.leaf l)
  | reuse {b g} (field : Option FieldId) :
    Ordered b → g.Tiled → b.position.bytes + g.width ≤ limit → Ordered (b.reuse g field)

/-- Whether what a builder has made is tiled and takes `y` bytes: the children of each open node take
those from where it starts. -/
def Piled : List OpenNode → List (Child Green) → Nat → Prop
  | [], children, y => Green.TiledAll children.reverse ∧ Green.widthOf children.reverse = y
  | o :: rest, children, y =>
    Green.TiledAll children.reverse ∧ o.start.bytes + Green.widthOf children.reverse = y ∧
    Piled rest o.siblings o.start.bytes

/-- What is added next takes the bytes after the rest. -/
lemma Piled.push {os : List OpenNode} {c : Child Green} {cs : List (Child Green)} {y z : Nat}
    (h : Piled os cs y) (hc : c.node.Tiled) (hz : y + c.node.width = z) : Piled os (c :: cs) z := by
  have hlast : Green.widthOf [c] = c.node.width := rfl
  cases os with
  | nil =>
    obtain ⟨ht, hw⟩ := h
    rw [Piled, List.reverse_cons, Green.widthOf_append]
    exact ⟨ht.append ⟨hc, trivial⟩, by omega⟩
  | cons o os =>
    obtain ⟨ht, hw, hrest⟩ := h
    rw [Piled, List.reverse_cons, Green.widthOf_append]
    exact ⟨ht.append ⟨hc, trivial⟩, by omega, hrest⟩

/-- The padding of the first of some trees. -/
def Green.firstPadding (cs : List (Child Green)) : Length :=
  (cs.head?.map (·.node.label.padding)).getD .zero

/-- Trees begin with the padding of the first of them. -/
lemma Green.firstPadding_le (cs : List (Child Green)) : (firstPadding cs).bytes ≤ widthOf cs := by
  cases cs with
  | nil => exact Nat.le_refl 0
  | cons c cs =>
    show c.node.label.padding.bytes ≤ c.node.width + widthOf cs
    rw [width]
    omega

/-- The node that a builder makes over tiled trees is tiled, and takes the bytes that they take. -/
lemma Green.TiledAll.nodeOver {b : Builder} {start : Length} {cs : List (Child Green)}
    (h : TiledAll cs) (hw : start.bytes + widthOf cs = b.position.bytes)
    (hb : b.position.bytes ≤ limit) (stamp : Stamp) (symbol : Symbol) :
    (b.nodeOver stamp symbol start cs).Tiled ∧ (b.nodeOver stamp symbol start cs).width = widthOf cs := by
  have hpad := firstPadding_le cs
  have hsize : (b.nodeOver stamp symbol start cs).label.size.bytes =
      b.position.bytes - addCounts start.bytes (firstPadding cs).bytes := Length.bytes_beyond _ _
  have hwidth : (b.nodeOver stamp symbol start cs).width =
      (firstPadding cs).bytes + (b.nodeOver stamp symbol start cs).label.size.bytes := rfl
  rw [hsize, addCounts_of_le (by omega)] at hwidth
  refine ⟨⟨?_, ?_, h⟩, by omega⟩
  · intro c hc
    show c.node.label.padding.bytes = (firstPadding cs).bytes
    rw [firstPadding, Option.mem_def.1 hc]
    rfl
  · show widthOf cs ≤ (b.nodeOver stamp symbol start cs).width
    omega

/-- What a builder has made of tokens in order is tiled, up to where it stands. -/
theorem Builder.Ordered.piled {b : Builder} (h : b.Ordered) :
    b.position.bytes ≤ limit ∧ Piled b.openNodes b.children b.position.bytes := by
  induction h with
  | new => exact ⟨Nat.zero_le _, trivial, rfl⟩
  | startNode symbol field _ ih =>
    obtain ⟨hle, hs⟩ := ih
    exact ⟨hle, trivial, rfl, hs⟩
  | @finishNode b b' _ hb ih =>
    obtain ⟨hle, hs⟩ := ih
    rw [Builder.finishNode] at hb
    cases ho : b.openNodes with
    | nil =>
      rw [ho] at hb
      cases hb
    | cons o rest =>
      rw [ho] at hb hs
      obtain rfl := Except.ok.inj hb
      obtain ⟨ht, hw, hrest⟩ := hs
      obtain ⟨htiled, hwidth⟩ := ht.nodeOver (b := b.stamp.2) hw hle b.stamp.1 o.symbol
      refine ⟨hle, hrest.push (c := ⟨o.field, _⟩) htiled ?_⟩
      exact (congrArg (o.start.bytes + ·) hwidth).trans hw
  | missing symbol field _ ih =>
    obtain ⟨hle, hs⟩ := ih
    exact ⟨hle, hs.push ⟨fun _ hc => (by cases hc), Nat.le_refl 0, trivial⟩ rfl⟩
  | @leaf b l _ hstart hstop hlimit ih =>
    obtain ⟨hle, hs⟩ := ih
    have hposition : (b.leaf l).position = l.stop := if_pos (Nat.le_trans hstart hstop)
    have hwidth : (l.start.beyond b.position).bytes + (l.stop.beyond l.start).bytes =
        l.stop.bytes - b.position.bytes := by
      rw [Length.bytes_beyond, Length.bytes_beyond]
      omega
    rw [hposition]
    refine ⟨hlimit, hs.push ⟨fun _ hc => (by cases hc), Nat.zero_le _, trivial⟩ ?_⟩
    show b.position.bytes + ((l.start.beyond b.position).bytes + (l.stop.beyond l.start).bytes) = _
    omega
  | @reuse b g field _ hg hlimit ih =>
    obtain ⟨hle, hs⟩ := ih
    have hposition : (b.reuse g field).position.bytes = b.position.bytes + g.width :=
      Green.bytes_add_total hlimit (Nat.le_refl _)
    rw [hposition]
    exact ⟨hlimit, hs.push (c := ⟨field, g⟩) hg rfl⟩

/-- Whether a builder made a tree of tokens in order, up to where the last of them stops or later. -/
inductive Tree.Assembled : Tree → Prop where
  | finish {b : Builder} {stop ranges t} :
    b.Ordered → b.position.bytes ≤ stop.bytes → stop.bytes ≤ limit →
    b.finish stop ranges = .ok t → Assembled t

/-- A tree that is stretched to a later end is still tiled. -/
lemma Green.Tiled.stretched {g : Green} (h : g.Tiled) {stop : Length} (hstop : g.width ≤ stop.bytes)
    (generation : Nat) : (g.withLabel (Builder.rootLabel generation stop g.label)).Tiled ∧
      (g.withLabel (Builder.rootLabel generation stop g.label)).width = stop.bytes := by
  obtain ⟨l, cs⟩ := g
  obtain ⟨hp, hc, hs⟩ := h
  have hwidth : (node l cs).width = l.padding.bytes + l.size.bytes := rfl
  have hsize : (Builder.rootLabel generation stop l).size.bytes = stop.bytes - l.padding.bytes :=
    congrArg Length.bytes (if_pos (show l.padding.bytes ≤ stop.bytes by omega))
  have hpad : (Builder.rootLabel generation stop l).padding = l.padding := rfl
  refine ⟨⟨hp, ?_, hs⟩, ?_⟩
  · show widthOf cs ≤ (Builder.rootLabel generation stop l).padding.bytes +
      (Builder.rootLabel generation stop l).size.bytes
    rw [hsize, hpad]
    omega
  · show (Builder.rootLabel generation stop l).padding.bytes +
      (Builder.rootLabel generation stop l).size.bytes = stop.bytes
    rw [hsize, hpad]
    omega

/-- A tree of tokens in order is tiled. -/
theorem Tree.Assembled.tiled {t : Tree} (h : t.Assembled) : t.root.Tiled ∧ t.root.width ≤ limit := by
  obtain @⟨b, stop, ranges, t, hb, hstop, hlimit, ht⟩ := h
  obtain ⟨hle, hs⟩ := hb.piled
  have hroot : ∀ {g : Green}, g.Tiled → g.width = b.position.bytes →
      t = ⟨g.withLabel (Builder.rootLabel b.generation stop g.label), b.grammar, ranges⟩ →
      t.root.Tiled ∧ t.root.width ≤ limit := by
    rintro g hg hw rfl
    obtain ⟨htiled, hwidth⟩ := hg.stretched (show g.width ≤ stop.bytes by omega) b.generation
    exact ⟨htiled, Nat.le_trans (Nat.le_of_eq hwidth) hlimit⟩
  rw [Builder.finish] at ht
  cases ho : b.openNodes with
  | cons o rest =>
    rw [ho] at ht
    cases ht
  | nil =>
    rw [ho] at ht hs
    obtain ⟨hall, hw⟩ := hs
    have ht := (Except.ok.inj ht).symm
    have hover := @Green.TiledAll.nodeOver b .zero _ hall ((Nat.zero_add _).trans hw) hle
      ⟨b.generation, []⟩ .error
    rw [hw] at hover
    -- a single node becomes the root, and otherwise an error node over all of them
    cases hc : b.children with
    | nil =>
      rw [hc] at hover
      exact hroot hover.1 hover.2 (by rw [ht, hc])
    | cons c cs =>
      cases cs with
      | nil =>
        rw [hc] at hall hw
        exact hroot hall.1 hw (by rw [ht, hc])
      | cons c' cs =>
        rw [hc] at hover
        exact hroot hover.1 hover.2 (by rw [ht, hc])

/-! ## Edits -/

/-- Whether an edit can be made in a tree of `width` bytes: its ends are in order, and no count grows
beyond its domain. The old end may lie past the end of the tree. -/
structure Edit.Allowed (e : Edit) (width : Nat) : Prop where
  start_le : e.start.bytes ≤ e.oldEnd.bytes
  le_newEnd : e.start.bytes ≤ e.newEnd.bytes
  oldEnd_le : e.oldEnd.bytes ≤ limit
  newEnd_le : e.newEnd.bytes + (width - e.oldEnd.bytes) ≤ limit

/-- An edit that can be made in a tree turns one text into another, both long enough. -/
lemma Edit.Allowed.turns {e : Edit} {width : Nat} (h : e.Allowed width) (hw : width ≤ limit) :
    ∃ w w' : List UInt8, width ≤ w.length ∧ w.length ≤ limit ∧ w'.length ≤ limit ∧ e.Turns w w' := by
  obtain ⟨h1, h2, h3, h4⟩ := h
  let w : List UInt8 := List.replicate (max width e.oldEnd.bytes) 32
  let mid : List UInt8 := List.replicate (e.newEnd.bytes - e.start.bytes) 32
  have hlength : w.length = max width e.oldEnd.bytes := List.length_replicate
  have hturns : e.Turns w (w.take e.start.bytes ++ mid ++ w.drop e.oldEnd.bytes) :=
    ⟨h1, by omega, h2, mid, List.length_replicate, rfl⟩
  refine ⟨w, _, by omega, by omega, ?_, hturns⟩
  rw [hturns.length]
  omega

namespace Green

variable {generation : Nat} {place : List Nat} {e : Edit}

/-- An edited tree is tiled, and its bytes are in their domain. -/
theorem Tiled.edit {g : Green} (h : g.Tiled) (hw : g.width ≤ limit) (he : e.Allowed g.width) :
    (g.edit generation place e).Tiled ∧ (g.edit generation place e).width ≤ limit := by
  obtain ⟨w, w', hle, hlimit, hlimit', hturns⟩ := he.turns hw
  have hfits := (h.fits hle).edit generation place hturns hlimit hlimit'
  exact ⟨hfits.tiled, Nat.le_trans hfits.width_le hlimit'⟩

/-- Where the children of a node take all of its bytes, they do so after an edit. -/
lemma Fits.full_edit {g : Green} {w w' : List UInt8} (h : g.Fits w) (ht : e.Turns w w')
    (hw : w.length ≤ limit) (hw' : w'.length ≤ limit) (hne : g.children ≠ []) (hfull : g.Full) :
    (g.edit generation place e).Full := by
  have hwidth := @width_edit generation place e w w' g h ht hw hw'
  rw [Full, hwidth]
  obtain ⟨l, cs⟩ := g
  obtain ⟨hle, -, -, -, hs⟩ := h
  have hnode : (node l cs).width = l.padding.bytes + l.size.bytes := rfl
  have hall : widthOf cs = (node l cs).width := hfull
  rw [Green.edit]
  split
  · rename_i hun
    obtain ⟨-, hsame, -⟩ := Label.widthAfter_of_isUntouchedBy (by omega) ht.start_le hun
    rw [hnode, hsame]
    exact hall
  · obtain ⟨-, hcases⟩ := @HoldsAll.edit UInt8 _ cs (fun c _ => follows _ c.node) generation place e 0
      .zero w w' ht hw hw' (Nat.zero_le _) (fun _ => rfl)
      (by rw [show (Length.zero).bytes = 0 from rfl]; omega) hs
    have hlength : cs.length ≠ 0 := fun hl => hne (List.length_eq_zero_iff.1 hl)
    rw [← hall]
    exact hcases.eq_widthAfter hlength

/-- An edit keeps the number of trees. -/
lemma length_editChildren (insertion : Bool) (index : Nat) (left : Length) (cs : List (Child Green)) :
    (editChildren generation place e insertion index left cs).length = cs.length := by
  induction cs generalizing e insertion index left with
  | nil => rfl
  | cons c cs ih =>
    unfold editChildren
    extract_lets right
    split_ifs <;> simp only [List.length_cons, ih]

/-- An edit keeps the number of children. -/
lemma length_children_edit (g : Green) :
    (g.edit generation place e).children.length = g.children.length := by
  obtain ⟨l, cs⟩ := g
  rw [Green.edit]
  split
  · rfl
  · exact length_editChildren ..

/-- What an edit keeps of the node at each path: the number of its children, and that they take all of
its bytes. -/
theorem Tiled.full_edit {g h' : Green} {path : List Nat} {x' : Nat} (h : g.Tiled) (hw : g.width ≤ limit)
    (he : e.Allowed g.width) (hl : (g.edit generation place e).locate? path = some (x', h')) :
    ∃ x k, g.locate? path = some (x, k) ∧ k.children.length = h'.children.length ∧
      (k.children ≠ [] → k.Full → h'.Full) := by
  obtain ⟨w, w', hle, hlimit, hlimit', hturns⟩ := he.turns hw
  have hfits : g.Fits w := h.fits hle
  obtain ⟨⟨x, k⟩, hk, hcarried⟩ := @exists_carried width False generation place e w w' path g (x', h')
    hturns.moves hlimit hlimit' hfits nofun (hfits.sheltered hlimit) hl
  refine ⟨x, k, hk, ?_⟩
  cases hcarried with
  | kept _ _ => exact ⟨rfl, fun _ hf => hf⟩
  | edited hpart _ =>
    have hv := hpart.length
    refine ⟨(length_children_edit k).symm, fun hne hf => ?_⟩
    exact (hpart.fits (hfits.locate hk).1).full_edit hpart.moves.turns (by omega) hpart.length_le' hne hf

end Green

/-- Whether one tree becomes another by edits that can be made in it, one after the other. -/
inductive Tree.Edited : Tree → Tree → Prop where
  | refl (t : Tree) : Edited t t
  | edit {t t' : Tree} {e : Edit} (generation : Nat) :
    Edited t t' → e.Allowed t'.root.width → Edited t (t'.edit generation e)

/-- Edits keep a tree tiled. -/
theorem Tree.Edited.tiled {t t' : Tree} (h : t.Edited t') (ht : t.root.Tiled)
    (hw : t.root.width ≤ limit) : t'.root.Tiled ∧ t'.root.width ≤ limit := by
  induction h with
  | refl => exact ⟨ht, hw⟩
  | edit generation _ he ih => exact ih.1.edit ih.2 he

/-- Edits keep the nodes that are full. -/
theorem Tree.Edited.full {t t' : Tree} (h : t.Edited t') (ht : t.root.Tiled)
    (hw : t.root.width ≤ limit) {path : List Nat} {x' : Nat} {k' : Green}
    (hl : t'.root.locate? path = some (x', k')) :
    ∃ x k, t.root.locate? path = some (x, k) ∧ k.children.length = k'.children.length ∧
      (k.children ≠ [] → k.Full → k'.Full) := by
  induction h generalizing x' k' with
  | refl => exact ⟨x', k', hl, rfl, fun _ hf => hf⟩
  | edit generation hedits he ih =>
    obtain ⟨htiled, hwidth⟩ := hedits.tiled ht hw
    obtain ⟨y, m, hm, hcount, hfull⟩ := htiled.full_edit hwidth he hl
    obtain ⟨x, k, hk, hcount', hfull'⟩ := ih hm
    refine ⟨x, k, hk, hcount'.trans hcount, fun hne hf => ?_⟩
    apply hfull _ (hfull' hne hf)
    intro hnil
    apply hne
    rw [← List.length_eq_zero_iff, hcount', hnil]
    rfl

/-! ## Children inside their parents -/

/-- Whether the children of a node begin where it does, follow one another, and stop inside it. -/
structure Node.Tiled (n : Node) : Prop where
  padding : ∀ c ∈ n.green.children.head?, c.node.label.padding.bytes = n.green.label.padding.bytes
  childBytes : n.green.childBytes ≤ n.green.total.bytes
  ordered : n.children.Pairwise fun c d => c.stopByte ≤ d.totalStart
  inside : ∀ c ∈ n.children, n.totalStart ≤ c.totalStart ∧ n.startByte ≤ c.startByte ∧
    c.stopByte ≤ n.stopByte

namespace Green

/-- Trees that follow one another are placed one after the other. -/
lemma pairwise_placed (x : Nat) (cs : List (Child Green)) :
    (placed x cs).Pairwise (fun p q => p.1 + p.2.node.width ≤ q.1) ∧ ∀ p ∈ placed x cs, x ≤ p.1 := by
  induction cs generalizing x with
  | nil => exact ⟨.nil, nofun⟩
  | cons c cs ih =>
    obtain ⟨hpairs, hle⟩ := ih (x + c.node.width)
    refine ⟨List.pairwise_cons.2 ⟨hle, hpairs⟩, ?_⟩
    intro p hp
    cases hp with
    | head => exact Nat.le_refl x
    | tail _ hp => exact Nat.le_trans (Nat.le_add_right _ _) (hle p hp)

/-- None of some trees starts before the first of them. -/
lemma firstPadding_le_of_mem_placed {x : Nat} {cs : List (Child Green)} {p : Nat × Child Green}
    (h : p ∈ placed x cs) : x + (firstPadding cs).bytes ≤ p.1 + p.2.node.label.padding.bytes := by
  cases cs with
  | nil => cases h
  | cons c cs =>
    have hfirst : (firstPadding (c :: cs)).bytes ≤ c.node.width := Nat.le_add_right _ _
    cases h with
    | head => exact Nat.le_refl _
    | tail _ h =>
      have hle := (pairwise_placed (x + c.node.width) cs).2 p h
      omega

/-- The first child of a tiled node has the padding of the node. -/
lemma Tiled.firstPadding {l : Label} {cs : List (Child Green)} (h : (node l cs).Tiled) (hne : cs ≠ []) :
    (firstPadding cs).bytes = l.padding.bytes := by
  cases cs with
  | nil => exact absurd rfl hne
  | cons c cs => exact h.1 c rfl

end Green

namespace Node

/-- The children of a node over a tiled tree lie in it. -/
lemma tiled_of_placed {n : Node} {x : Nat} (h : n.green.Tiled) (hw : x + n.green.width ≤ limit)
    (hs : n.startByte = x + n.green.label.padding.bytes) : n.Tiled := by
  -- a text that is long enough, to cite what is known of trees that fit into one
  let w : List UInt8 := List.replicate limit 32
  have hlength : w.length = limit := List.length_replicate
  have hfits : n.green.Fits (w.drop x) := h.fits (by rw [List.length_drop]; omega)
  have hmap := map_children (Nat.le_of_eq hlength) (by omega) hfits hs
  obtain ⟨t, ⟨l, cs⟩, start⟩ := n
  have hwidth : (Green.node l cs).width = l.padding.bytes + l.size.bytes := rfl
  have hstart : start.bytes = x + l.padding.bytes := hs
  have hstop : (Node.mk t (.node l cs) start).stopByte = x + (Green.node l cs).width := by
    show addCounts start.bytes l.size.bytes = _
    dsimp only at hw
    rw [hstart, addCounts_of_le (by omega)]
    omega
  have htotal : (Node.mk t (.node l cs) start).totalStart = x := by
    show start.bytes - l.padding.bytes = x
    omega
  have hc : Green.widthOf cs ≤ (Green.node l cs).width := h.2.1
  refine ⟨h.1, (h.childBytes (Nat.le_trans (Nat.le_add_left _ _) hw)).1, ?_, ?_⟩
  · have hpairs : ((Node.mk t (.node l cs) start).children.map fun m => (m.green, m.startByte)).Pairwise
        fun p q => p.2 + p.1.label.size.bytes ≤ q.2 - q.1.label.padding.bytes := by
      rw [hmap, List.pairwise_map]
      refine (Green.pairwise_placed 0 cs).1.imp ?_
      intro p q hpq
      have hp : p.2.node.width = p.2.node.label.padding.bytes + p.2.node.label.size.bytes := rfl
      dsimp only
      omega
    refine (List.pairwise_map.1 hpairs).imp ?_
    intro m m' hm
    exact Nat.le_trans (Nat.min_le_left _ _) hm
  · intro m hm
    have hmem := List.mem_map_of_mem (f := fun m : Node => (m.green, m.startByte)) hm
    rw [hmap] at hmem
    obtain ⟨p, hp, heq⟩ := List.mem_map.1 hmem
    obtain ⟨hgreen, hstart'⟩ := Prod.mk.inj heq
    obtain ⟨-, -, hle⟩ := Green.HoldsAll.of_mem_placed (x := 0) hfits.2.2.2.2 hp
    have hfirst : 0 + (Green.firstPadding cs).bytes ≤ _ := Green.firstPadding_le_of_mem_placed hp
    rw [h.firstPadding (List.ne_nil_of_mem (Green.mem_of_mem_placed hp))] at hfirst
    have hmwidth : m.green.width = m.green.label.padding.bytes + m.green.label.size.bytes := rfl
    have hmstop : m.stopByte ≤ m.startByte + m.green.label.size.bytes := Nat.min_le_left _ _
    have hmtotal : m.totalStart = m.startByte - m.green.label.padding.bytes := rfl
    have hnstart : (Node.mk t (.node l cs) start).startByte = x + l.padding.bytes := hs
    rw [hgreen] at hfirst hle hstart'
    rw [htotal, hnstart, hstop]
    omega

end Node

/-- A path leads down a tiled tree to a tiled node, which stands where it is located. -/
lemma Tree.tiled_of_descend? {t : Tree} (h : t.root.Tiled) (hw : t.root.width ≤ limit)
    {path : List Nat} {n : Node} (hn : t.rootNode.descend? path = some n) :
    ∃ x, t.root.locate? path = some (x, n.green) ∧ n.green.Tiled ∧ x + n.green.width ≤ limit ∧
      n.startByte = x + n.green.label.padding.bytes := by
  let w : List UInt8 := List.replicate limit 32
  have hlength : w.length = limit := List.length_replicate
  have hfits : t.root.Fits w := h.fits (by omega)
  have hl := locate_of_descend? (Nat.le_of_eq hlength) hfits hn
  have hpad := padding_le_of_descend? (Nat.le_of_eq hlength) hfits hn
  obtain ⟨htiled, hle⟩ := hfits.locate hl
  refine ⟨n.totalStart, hl, htiled.tiled, by omega, ?_⟩
  have htotal : n.totalStart = n.startByte - n.green.label.padding.bytes := rfl
  omega

/-- Edits keep trees tiled. In a tree that a builder made of tokens in order, after edits of any
number, the children of each node begin where it does, follow one another and stop inside it, and they
take all of its bytes if they did so after some of the edits. -/
theorem Tree.Assembled.tiled_edited {t t' t'' : Tree} (h : t.Assembled) (h' : t.Edited t')
    (h'' : t'.Edited t'') {path : List Nat} {n'' : Node} (hn : t''.rootNode.descend? path = some n'') :
    n''.Tiled ∧ ∃ n', t'.rootNode.descend? path = some n' ∧ n'.childCount = n''.childCount ∧
      (n''.childCount ≠ 0 → n'.green.childBytes = n'.green.total.bytes →
        n''.green.childBytes = n''.green.total.bytes) := by
  obtain ⟨ht, hw⟩ := h.tiled
  obtain ⟨ht', hw'⟩ := h'.tiled ht hw
  obtain ⟨ht'', hw''⟩ := h''.tiled ht' hw'
  obtain ⟨x, hl, htiled, hle, hstart⟩ := tiled_of_descend? ht'' hw'' hn
  refine ⟨Node.tiled_of_placed htiled hle hstart, ?_⟩
  -- the node at the same path before the last edits
  obtain ⟨y, k, hk, hcount, hfull⟩ := h''.full ht' hw' hl
  obtain ⟨n', hn', rfl, -⟩ := exists_descend?_of_locate (w := List.replicate limit 32)
    (Nat.le_of_eq List.length_replicate) (ht'.fits (by rw [List.length_replicate]; exact hw')) hk
  obtain ⟨z, -, htiled', hle', -⟩ := tiled_of_descend? ht' hw' hn'
  refine ⟨n', hn', hcount, ?_⟩
  intro hne hbytes
  rw [(htiled'.childBytes (by omega)).2] at hbytes
  rw [(htiled.childBytes (by omega)).2]
  apply hfull _ hbytes
  intro hnil
  apply hne
  rw [hnil] at hcount
  exact hcount.symm

/-- Of two words, `ab cd`, all from the end of the first one on is replaced, and more than there is: the
tree over what is left is tiled, and still taken up by its children. -/
theorem Tree.Assembled.tiled_edited_words :
    ∃ t, (((Builder.new C.grammar 0).leaf ⟨.error, none, .zero, ⟨2, ⟨0, 2⟩⟩, 1, false⟩).leaf
        ⟨.error, none, ⟨3, ⟨0, 3⟩⟩, ⟨5, ⟨0, 5⟩⟩, 1, false⟩).finish ⟨5, ⟨0, 5⟩⟩ [] = .ok t ∧
      (t.edit 1 ⟨⟨2, ⟨0, 2⟩⟩, ⟨9, ⟨0, 9⟩⟩, ⟨4, ⟨0, 4⟩⟩⟩).rootNode.Tiled ∧
      t.root.childBytes = t.root.total.bytes ∧
      (t.edit 1 ⟨⟨2, ⟨0, 2⟩⟩, ⟨9, ⟨0, 9⟩⟩, ⟨4, ⟨0, 4⟩⟩⟩).root.childBytes =
        (t.edit 1 ⟨⟨2, ⟨0, 2⟩⟩, ⟨9, ⟨0, 9⟩⟩, ⟨4, ⟨0, 4⟩⟩⟩).root.total.bytes := by
  refine ⟨_, rfl, ?_⟩
  have hb : Builder.Ordered (((Builder.new C.grammar 0).leaf
      ⟨.error, none, .zero, ⟨2, ⟨0, 2⟩⟩, 1, false⟩).leaf
      ⟨.error, none, ⟨3, ⟨0, 3⟩⟩, ⟨5, ⟨0, 5⟩⟩, 1, false⟩) :=
    .leaf (.leaf .new (by decide) (by decide) (by decide)) (by decide) (by decide) (by decide)
  have h := @Tree.Assembled.finish _ ⟨5, ⟨0, 5⟩⟩ [] _ hb (by decide) (by decide) rfl
  obtain ⟨htiled, n', hn', -, hfull⟩ := @Tree.Assembled.tiled_edited _ _ _ h (.refl _)
    (@Tree.Edited.edit _ _ ⟨⟨2, ⟨0, 2⟩⟩, ⟨9, ⟨0, 9⟩⟩, ⟨4, ⟨0, 4⟩⟩⟩ 1 (.refl _)
      ⟨by decide, by decide, by decide, by decide⟩) [] _ rfl
  obtain rfl := Option.some.inj hn'
  exact ⟨htiled, by decide, hfull (by decide) (by decide)⟩

end Reparse
