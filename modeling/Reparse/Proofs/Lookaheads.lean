import Reparse.Proofs.Growth

/-!
# Lookaheads

What a builder makes of what a call has read has no marks, and each node covers what was looked at to
build the nodes below it (`Grows.clear`). So the marks of the tree of a call can be relied on, whatever
was taken over from an old tree (`guarded_root`).
-/

namespace Reparse.C

open Item

/-- A root that is stretched to the end of the document covers what it did before. -/
lemma lookaheadEnd_rootLabel {generation : Nat} {stop : Length} {l : Label}
    (h : l.padding.bytes + l.size.bytes ≤ stop.bytes) :
    l.lookaheadEnd ≤ (Builder.rootLabel generation stop l).lookaheadEnd := by
  simp only [Builder.rootLabel, if_pos (Nat.le_of_add_right_le h), Label.lookaheadEnd, Label.total,
    Length.bytes_add, Length.bytes_sub, addCounts]
  omega

/-- Whether a builder has added trees from `x` to `y` to the open node. They have no marks, and depend on
nothing from `bound` on. -/
structure Adds (place : Nat → Length) (bound x y : Nat) (cs : List (Child Green)) (b b' : Builder) :
    Prop where
  openNodes : b'.openNodes = b.openNodes
  children : b'.children = cs.reverse ++ b.children
  position : b'.position = place y
  laid : LaidAll place x cs y
  clear : ∀ p ∈ Green.placed x cs, p.2.node.Clear bound p.1

namespace Adds

variable {place : Nat → Length} {bound x y z : Nat} {cs ds : List (Child Green)} {b b' b'' : Builder}

/-- A builder may add nothing. -/
lemma refl (hb : b.position = place x) : Adds place bound x x [] b b :=
  ⟨rfl, rfl, hb, .nil, nofun⟩

/-- A builder may add one tree. -/
lemma single {a : Nat} {c : Child Green} (ho : b'.openNodes = b.openNodes)
    (hc : b'.children = c :: b.children) (hb : b'.position = place y)
    (hl : Laid place x a y c.node) (hclear : c.node.Clear bound x) : Adds place bound x y [c] b b' :=
  ⟨ho, hc, hb, .cons hl .nil, fun p hp => by
    obtain rfl := List.mem_singleton.1 hp
    exact hclear⟩

/-- A builder adds trees in two parts. -/
lemma trans (hp : Coherent place bound) (h : Adds place bound x y cs b b')
    (h' : Adds place bound y z ds b' b'') : Adds place bound x z (cs ++ ds) b b'' where
  openNodes := h'.openNodes.trans h.openNodes
  children := by rw [h'.children, h.children, List.reverse_append, List.append_assoc]
  position := h'.position
  laid := h.laid.append h'.laid
  clear p hp' := by
    rw [Green.placed_append, h.laid.width hp] at hp'
    exact (List.mem_append.1 hp').elim (h.clear p) (h'.clear p)

/-- A builder adds a leaf that looked ahead no further than the bound. -/
lemma leaf (hp : Coherent place bound) {l : Leaf} {start stop : Nat}
    (hb : b.position = place x) (hx : x ≤ start) (hle : start ≤ stop) (hstart : l.start = place start)
    (hstop : l.stop = place stop) (hahead : stop + l.lookahead ≤ bound) :
    ∃ cs, Adds place bound x stop cs b (b.leaf l) := by
  have hposition : (if b.position.bytes ≤ l.stop.bytes then l.stop else b.position) = place stop := by
    rw [hb, hstop, hp.bytes, hp.bytes, if_pos (Nat.le_trans hx hle)]
  have hlaid : ∀ label : Label, label.padding = l.start.beyond b.position →
      label.size = l.stop.beyond l.start → Laid place x start stop (.node label []) := by
    intro label hpad hsize
    exact .leaf hx hle (by rw [hpad, hstart, hb]) (by rw [hsize, hstart, hstop])
  have hclear : ∀ label : Label, Laid place x start stop (.node label []) →
      label.hasChanges = false → label.lookahead = l.lookahead →
      (Green.node label []).Clear bound x := by
    intro label hl hchanges hlookahead
    have hwidth := hl.width hp
    have hend := Green.lookaheadEnd_eq (.node label [])
    dsimp only [Green.label] at hend
    exact .leaf hchanges (by omega)
  exact ⟨_, .single rfl rfl hposition (hlaid _ rfl rfl) (hclear _ (hlaid _ rfl rfl) rfl rfl)⟩

/-- A builder adds a missing token. -/
lemma missing (hx : x ≤ bound) (hb : b.position = place x) (symbol : Symbol) (field : Option FieldId) :
    ∃ cs, Adds place bound x x cs b (b.missing symbol field) := by
  have hzero : (place x).beyond (place x) = .zero := if_neg (Nat.lt_irrefl _)
  exact ⟨_, .single rfl rfl hb (.leaf (Nat.le_refl x) (Nat.le_refl x) hzero.symm hzero.symm)
    (.leaf rfl hx)⟩

/-- The node over all that was added to an open node. -/
lemma finishNode (hp : Coherent place bound) (hbound : bound ≤ limit) (hy : y ≤ bound)
    {symbol : Symbol} {field : Option FieldId} (hb : b.position = place x)
    (h : Adds place bound x y cs (b.startNode symbol field) b') :
    ∃ b'' l, b'.finishNode = .ok b'' ∧ Adds place bound x y [⟨field, .node l cs⟩] b b'' := by
  have hcs : b'.children.reverse = cs := by
    rw [h.children]
    simp [Builder.startNode]
  obtain ⟨a, hlaid⟩ := h.laid.nodeOver hp hy (b := b'.stamp.2) h.position b'.stamp.1 symbol
  have hwidth := hlaid.width hp
  have hwidths := h.laid.width hp
  rw [Builder.finishNode, h.openNodes]
  refine ⟨_, _, rfl, .single rfl ?_ h.position hlaid
    (.nodeOver _ _ h.clear (by omega) (by omega) hbound)⟩
  show _ :: b.children = _
  rw [hcs, hb]
  rfl

end Adds

section

variable {strict : Prop} {d : Document} {ranges : List Span}

/-- What was looked at to find a token lies inside the document if the token does. -/
lemma Token.stop_add_lookahead_le {t : Token}
    (h : t.lookahead = Lexer.widthAhead ((Source.ofDocument d ranges).charsFrom t.stop))
    (ht : t.stop ≤ d.bytes.length) : t.stop + t.lookahead ≤ d.bytes.length := by
  rw [h, Lexer.widthAhead]
  cases hc : ((Source.ofDocument d ranges).charsFrom t.stop).head? with
  | none => exact ht
  | some c =>
    have hmem := List.mem_of_mem_head? (Option.mem_def.2 hc)
    have hle := Source.le_byte_of_mem_charsFrom (Source.ordered_chars d ranges) hmem
    obtain ⟨u, hu, -⟩ := (Source.ofDocument d ranges).exists_charsFrom t.stop
    have hstop : c.byte + c.width ≤ d.bytes.length :=
      @Source.stop_le_size d ranges c (by rw [hu]; exact List.mem_append_right u hmem)
    show t.stop + c.width ≤ _
    omega

mutual

/-- What a builder adds for an item stands between the places of its tokens, and has no marks. -/
theorem Grows.adds (hd : d.bytes.length ≤ limit) : ∀ {i i' : Item} {x y : Nat} {b : Builder},
    Grows strict d ranges x i i' → InOrder x i'.tokens y → y ≤ d.bytes.length →
    (∀ t ∈ i'.tokens, t.lookahead = Lexer.widthAhead ((Source.ofDocument d ranges).charsFrom t.stop)) →
    b.position = (Source.ofDocument d ranges).positionAt x →
    ∃ b' cs, addTo (.ofDocument d ranges) b i = .ok b' ∧ Adds (Source.ofDocument d ranges).positionAt
      d.bytes.length x (endOf x i'.tokens) cs b b'
  | .token f t, _, x, y, b, h, ho, hy, hts, hb => by
    cases h with
    | token =>
      obtain ⟨hx, hlt, hle⟩ := ho
      have hahead := Token.stop_add_lookahead_le (hts t (List.mem_singleton_self t))
        (Nat.le_trans hle hy)
      obtain ⟨cs, hadds⟩ := Adds.leaf ((Source.coherent_positionAt d ranges).mono hd)
        (l := leafOf _ f t) hb hx (Nat.le_of_lt hlt) rfl rfl hahead
      exact ⟨_, cs, rfl, hadds⟩
  | .missing f kind, _, x, y, b, h, ho, hy, hts, hb => by
    cases h with
    | missing =>
      obtain ⟨cs, hadds⟩ := Adds.missing (Nat.le_trans ho hy) hb kind.symbol (f.map Field.id)
      exact ⟨_, cs, rfl, hadds⟩
  | .reused g, i', x, y, b, h, ho, hy, hts, hb => by
    cases h with
    | reused h _ hclear =>
      obtain ⟨⟨a, hlaid⟩, hposition⟩ :=
        laid_built (Source.coherent_positionAt d ranges) h.whole ho (Nat.le_trans hy hd)
      rw [h.built] at hlaid hposition
      refine ⟨_, _, rfl, .single rfl rfl ?_ hlaid.of_bare hclear⟩
      show b.position + _ = _
      rw [hb]
      exact hposition
  | .node f rule parts, i', x, y, b, h, ho, hy, hts, hb => by
    cases h with
    | @node _ _ _ _ parts' _ _ h =>
      have ho : InOrder x (tokensOf parts') y := ho
      obtain ⟨b', cs, hadd, hadds⟩ := GrowsAll.adds hd h ho hy hts
        (b := b.startNode rule.symbol (f.map Field.id)) hb
      obtain ⟨b'', l, hfinish, hnode⟩ := hadds.finishNode
        ((Source.coherent_positionAt d ranges).mono hd) hd (Nat.le_trans ho.le.2 hy) hb
      exact ⟨b'', _, by rw [addTo, hadd]; exact hfinish, hnode⟩

/-- A builder adds what items grow into. -/
theorem GrowsAll.adds (hd : d.bytes.length ≤ limit) : ∀ {is is' : List Item} {x y : Nat} {b : Builder},
    GrowsAll strict d ranges x is is' → InOrder x (tokensOf is') y → y ≤ d.bytes.length →
    (∀ t ∈ tokensOf is',
      t.lookahead = Lexer.widthAhead ((Source.ofDocument d ranges).charsFrom t.stop)) →
    b.position = (Source.ofDocument d ranges).positionAt x →
    ∃ b' cs, addAllTo (.ofDocument d ranges) b is = .ok b' ∧ Adds (Source.ofDocument d ranges).positionAt
      d.bytes.length x (endOf x (tokensOf is')) cs b b'
  | [], _, x, y, b, h, ho, hy, hts, hb => by
    cases h with
    | nil => exact ⟨b, [], rfl, .refl hb⟩
  | i :: rest, _, x, y, b, h, ho, hy, hts, hb => by
    cases h with
    | @cons _ _ i' _ rest' h hs =>
      rw [tokensOf, inOrder_append] at ho
      have hle := Nat.le_trans ho.2.le.1 (Nat.le_trans ho.2.le.2 hy)
      obtain ⟨b', cs, hadd, hadds⟩ :=
        Grows.adds hd h ho.1 hle (fun t ht => hts t (List.mem_append_left _ ht)) hb
      obtain ⟨b'', ds, hadd', hadds'⟩ :=
        GrowsAll.adds hd hs ho.2 hy (fun t ht => hts t (List.mem_append_right _ ht)) hadds.position
      refine ⟨b'', cs ++ ds, ?_, ?_⟩
      · rw [addAllTo, hadd]
        exact hadd'
      · rw [tokensOf, endOf_append]
        exact hadds.trans ((Source.coherent_positionAt d ranges).mono hd) hadds'

end

/-- The tree that is built of what a call has read has no marks, and its marks can be relied on. -/
theorem guarded_root (hd : d.bytes.length ≤ limit) {items items' : List Item} {generation : Nat}
    {rest : List SourceChar} {t : Tree} (h : GrowsAll strict d ranges 0 items items')
    (hc : Covers (Source.ofDocument d ranges).chars (tokensOf items') rest)
    (hts : ∀ t ∈ tokensOf items',
      t.lookahead = Lexer.widthAhead ((Source.ofDocument d ranges).charsFrom t.stop))
    (ht : treeOf (.ofDocument d ranges) generation items = .ok t) :
    t.root.Unmarked ∧ t.root.Guarded d.bytes := by
  have hp := (Source.coherent_positionAt d ranges).mono hd
  have hsize := Source.endOfInput_le_size d ranges
  rw [← Source.charsFrom_zero] at hc
  have horder := hc.inOrder_charsFrom (Nat.zero_le _)
  have hle := horder.le.2
  obtain ⟨b, cs, hadd, hadds⟩ := h.adds hd horder hsize hts
    (b := (Builder.new grammar generation).startNode Rule.document.symbol none) hp.zero.symm
  obtain ⟨b', l, hfinish, hnode⟩ := hadds.finishNode hp hd (by omega) hp.zero.symm
  have hroot : addTo (.ofDocument d ranges) (.new grammar generation) (.node none .document items) =
      .ok b' := by
    rw [addTo, show (none : Option Field).map Field.id = none from rfl, hadd]
    exact hfinish
  rw [treeOf, hroot] at ht
  have htree : b'.finish ((Source.ofDocument d ranges).positionAt
      (Source.ofDocument d ranges).endOfInput) (Source.ofDocument d ranges).ranges = .ok t := ht
  rw [Builder.finish, hnode.openNodes, hnode.children] at htree
  obtain rfl := Except.ok.inj htree
  have hclear := hnode.clear (0, ⟨none, .node l cs⟩) (List.mem_singleton_self _)
  have hwidth := hnode.laid.width hp
  have hw : (Green.node l cs).width = l.padding.bytes + l.size.bytes := rfl
  rw [Green.widthOf, Green.widthOf] at hwidth
  dsimp only at hwidth
  refine ⟨hclear.relabelled rfl, hclear.stretched rfl (lookaheadEnd_rootLabel ?_)⟩
  rw [hp.bytes]
  omega

end

end Reparse.C
