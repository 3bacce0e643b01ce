import Reparse.Proofs.Histories
import Reparse.Proofs.Motion

/-!
# Charts

Trees whose coordinates are those of a document (`Charted`): a parser of C gave them for it, or a
builder that took tokens of it in order (`Builder.Fed`). They fit into the text of the document, and
their extents are those of it if it is UTF-8 (`Charted.spans`).
-/

namespace Reparse

/-! ## Trees that are laid out -/

section

variable {α : Type} {place : Nat → Length} {bound : Nat}

mutual

/-- A tree that is laid out fits into a text that is as long. -/
lemma Laid.fits (hp : Coherent place bound) {w : List α} : ∀ {g : Green} {x a y : Nat},
    Laid place x a y g → y ≤ w.length → g.Fits (w.drop x)
  | .node l [], x, a, y, h, hy => by
    have hwidth := h.width hp
    have hw : (Green.node l []).width = l.padding.bytes + l.size.bytes := rfl
    refine ⟨?_, Nat.zero_le _, nofun, fun _ => trivial, trivial⟩
    rw [List.length_drop]
    omega
  | .node l (c :: cs), x, a, y, h, hy => by
    have hwidth := h.width hp
    have hw : (Green.node l (c :: cs)).width = l.padding.bytes + l.size.bytes := rfl
    cases h with
    | node hc hcs hpad hsize =>
      have hall := LaidAll.cons hc hcs
      have hwidths := hall.width hp
      refine ⟨?_, by omega, fun d hd => ?_, fun _ => trivial, hall.fits hp hy⟩
      · rw [List.length_drop]
        omega
      · obtain rfl := Option.some.inj hd
        rw [hpad]

/-- Trees that are laid out over cells fit them. -/
lemma LaidAll.fits (hp : Coherent place bound) {w : List α} : ∀ {cs : List (Child Green)} {x y : Nat},
    LaidAll place x cs y → y ≤ w.length → Green.HoldsAll (fun _ _ => True) (w.drop x) cs
  | [], _, _, _, _ => trivial
  | c :: cs, x, y, h, hy => by
    cases h with
    | cons hc hcs =>
      refine ⟨hc.fits hp (Nat.le_trans hcs.le hy), ?_⟩
      rw [List.drop_drop, hc.width hp]
      exact hcs.fits hp hy

end

/-- Whether places are the positions of the bytes of a text. -/
def Plots (place : Nat → Length) (w : List UInt8) : Prop := ∀ x ≤ w.length, place x = .upTo w x

/-- What lies between two places is the extent of the text between them. -/
lemma Plots.beyond {w : List UInt8} (h : Plots place w) {x y : Nat} (hxy : x ≤ y) (hy : y ≤ w.length) :
    (place y).beyond (place x) = .upTo (w.drop x) (y - x) ∧
      ((place y).beyond (place x)).bytes = y - x := by
  rw [h x (by omega), h y hy, Length.upTo_beyond]
  exact ⟨rfl, Length.bytes_upTo (by rw [List.length_drop]; omega)⟩

mutual

/-- A tree that is laid out at the places of a text has its extents. -/
lemma Laid.measured {w : List UInt8} (h : Plots place w) : ∀ {g : Green} {x a y : Nat},
    Laid place x a y g → y ≤ w.length → g.Measured (w.drop x)
  | .node l cs, x, a, y, hl, hy => by
    have hle := hl.le
    obtain ⟨hpad, hsize⟩ := hl.padding
    obtain ⟨hp, hpb⟩ := h.beyond hle.1 (by omega)
    obtain ⟨hs, hsb⟩ := h.beyond hle.2 hy
    refine ⟨⟨?_, ?_⟩, ?_⟩
    · show l.padding = .upTo _ l.padding.bytes
      rw [show l.padding = _ from hpad, hpb, hp]
    · show l.size = .upTo _ l.size.bytes
      rw [show l.size = _ from hsize, show l.padding = _ from hpad, hpb, hsb, hs, List.drop_drop,
        Nat.add_sub_cancel' hle.1]
    · cases cs with
      | nil => trivial
      | cons c cs =>
        cases hl with
        | node hc hcs _ _ => exact LaidAll.measured h (.cons hc hcs) hy

/-- Trees that are laid out over bytes have their extents. -/
lemma LaidAll.measured {w : List UInt8} (h : Plots place w) : ∀ {cs : List (Child Green)} {x y : Nat},
    LaidAll place x cs y → y ≤ w.length → Green.MeasuredAll (w.drop x) cs
  | [], _, _, _, _ => trivial
  | c :: cs, x, y, hl, hy => by
    cases hl with
    | @cons _ a z _ _ _ hc hcs =>
      have hle := hcs.le
      have hcle := hc.le
      obtain ⟨-, hpb⟩ := h.beyond hcle.1 (by omega)
      obtain ⟨-, hsb⟩ := h.beyond hcle.2 (by omega)
      have hwidth : x + c.node.width = z := by
        rw [Green.width, hc.padding.1, hc.padding.2, hpb, hsb]
        omega
      refine ⟨hc.measured h (Nat.le_trans hle hy), ?_⟩
      rw [List.drop_drop, hwidth]
      exact hcs.measured h hy

end

end

/-! ## Trees of documents -/

/-- Whether a tree fits into the text of a document, and if that is UTF-8, has the extents of it. -/
structure Tree.Spans (d : Document) (t : Tree) : Prop where
  fits : t.root.Fits d.bytes
  measured : d.encoding = .utf8 → t.root.Measured d.bytes

/-- The positions of a source in UTF-8 are the extents of its bytes, whatever its ranges. -/
lemma Source.plots (d : Document) (ranges : List Span) (h : d.encoding = .utf8) :
    Plots (ofDocument d ranges).positionAt d.bytes := by
  obtain ⟨bytes, encoding⟩ := d
  obtain rfl : encoding = .utf8 := h
  exact fun x hx => positionAt_utf8 bytes ranges hx

/-- A tree that is laid out from the start of a document still has its extents if the root is stretched
to a later place. -/
lemma Laid.spans {d : Document} {ranges : List Span} {t : Tree} {g : Green} {a y stop : Nat}
    (h : Laid (Source.ofDocument d ranges).positionAt 0 a y g) (hd : d.bytes.length ≤ limit)
    (hy : y ≤ stop) (hstop : stop ≤ d.bytes.length) (hcs : t.root.children = g.children)
    (hpad : t.root.label.padding = g.label.padding)
    (hsize : t.root.label.padding.bytes ≤ stop →
      t.root.label.size = (Source.ofDocument d ranges).positionAt stop - t.root.label.padding) :
    t.Spans d := by
  have hp := (Source.coherent_positionAt d ranges).mono hd
  have hle := h.le
  obtain ⟨root, grammar, spans⟩ := t
  obtain ⟨l, cs⟩ := root
  obtain ⟨l', cs'⟩ := g
  obtain rfl : cs = cs' := hcs
  dsimp only [Green.label] at hpad hsize
  have hpadding : l.padding = (Source.ofDocument d ranges).positionAt a := by
    rw [hpad, ← C.Item.beyond_zero hp a, ← hp.zero]
    exact h.padding.1
  rw [hpadding] at hsize
  have hsize := hsize (Nat.le_trans hle.2 hy)
  have hbytes : l.size.bytes = stop - a := by
    rw [hsize]
    rfl
  have hpbytes : l.padding.bytes = a := by
    rw [hpadding]
    rfl
  have hfits : (Green.node l' cs).Fits d.bytes := h.fits hp (Nat.le_trans hy hstop)
  have hwidth := h.width hp
  have hw : (Green.node l' cs).width = l'.padding.bytes + l'.size.bytes := rfl
  obtain ⟨-, hc, hhead, -, hs⟩ := hfits
  refine ⟨⟨by omega, by omega, fun c hc => ?_, fun _ => trivial, hs⟩, fun hutf8 => ?_⟩
  · rw [hhead c hc, ← hpad]
  · have hplots := Source.plots d ranges hutf8
    have hmeasured : (Green.node l' cs).Measured d.bytes := h.measured hplots (Nat.le_trans hy hstop)
    refine ⟨⟨?_, ?_⟩, hmeasured.2⟩
    · rw [hpbytes, hpadding]
      exact hplots a (by omega)
    · rw [hbytes, hpbytes, hsize, hplots stop hstop, hplots a (by omega)]
      exact Length.upTo_sub _ (by omega)

namespace C

open Item

/-- The tree that is built of tokens that cut up a document has the extents of every document that is as
long and gives its bytes the same positions. -/
lemma Builds.spans_of_positionAt {strict : Prop} {d d' : Document} {ranges : List Span} {e : State}
    {items : List Item} {t : Tree} (h : Builds strict (.ofDocument d ranges) e items t)
    (hd : d.bytes.length ≤ limit) (hlength : d'.bytes.length = d.bytes.length)
    (hposition : (Source.ofDocument d' ranges).positionAt = (Source.ofDocument d ranges).positionAt) :
    t.Spans d' := by
  obtain ⟨blanks, hc, -⟩ := h.covers
  have ho := Source.ordered_chars d ranges
  have hp := Source.coherent_positionAt d ranges
  have hsize := Source.endOfInput_le_size d ranges
  have horder := hc.inOrder ho (fun _ _ => Nat.zero_le _) (Nat.zero_le _)
    fun c hc => Source.stop_le_endOfInput ho hc
  have hlast := horder.le.2
  have hstop : endOf 0 (tokensOf items) ≤ limit := by
    have : (Source.ofDocument d ranges).size = d.bytes.length := rfl
    omega
  obtain ⟨hl, -⟩ := laid_builtAll hp h.whole horder (Nat.le_trans hsize hd)
  obtain ⟨hpad, hsize'⟩ := label_builtRoot (Source.ofDocument d ranges).positionAt
    ((Source.ofDocument d ranges).positionAt (Source.ofDocument d ranges).endOfInput) items
  rw [← h.root, Green.label_bare] at hpad hsize'
  have hcs : Green.bareAll t.root.children =
      (builtAll (Source.ofDocument d ranges).positionAt .zero items).1 := by
    rw [← Green.children_bare, h.root]
    rfl
  rw [hp.zero, ← hcs] at hl
  rw [← hcs, Green.padding_head_bareAll] at hpad
  -- the root before it is stretched to the end of the input
  obtain ⟨a, hlaid⟩ := hl.of_bare.over hp hstop (l := { t.root.label with
    size := ((Source.ofDocument d ranges).positionAt (endOf 0 (tokensOf items))).beyond
      ((Source.ofDocument d ranges).positionAt 0 + t.root.label.padding) }) hpad rfl
  rw [← hposition] at hlaid hsize'
  have hd' : d'.bytes.length ≤ limit := Nat.le_trans (Nat.le_of_eq hlength) hd
  exact hlaid.spans hd' hlast (Nat.le_trans hsize (Nat.le_of_eq hlength.symm)) rfl rfl hsize'

/-- So it has those of the document. -/
lemma Builds.spans {strict : Prop} {d : Document} {ranges : List Span} {e : State} {items : List Item}
    {t : Tree} (h : Builds strict (.ofDocument d ranges) e items t) (hd : d.bytes.length ≤ limit) :
    t.Spans d :=
  h.spans_of_positionAt hd rfl rfl

end C

/-! ## Trees of builders -/

/-- Whether a builder has taken tokens of a document in order: each one starts where the builder stands
or later, and has the positions that the document gives to its ends. -/
inductive Builder.Fed (d : Document) : Builder → Prop where
  | new {grammar generation} : Fed d (.new grammar generation)
  | startNode {b} (symbol : Symbol) (field : Option FieldId) : Fed d b → Fed d (b.startNode symbol field)
  | finishNode {b b'} : Fed d b → b.finishNode = .ok b' → Fed d b'
  | missing {b} (symbol : Symbol) (field : Option FieldId) : Fed d b → Fed d (b.missing symbol field)
  | leaf {b l start stop} :
    Fed d b → b.position.bytes ≤ start → start ≤ stop → stop ≤ d.bytes.length →
    l.start = (Source.ofDocument d []).positionAt start →
    l.stop = (Source.ofDocument d []).positionAt stop → Fed d (b.leaf l)

/-- Whether what a builder has made is laid out up to `y`: the children of each open node from where
that node starts. -/
def Stacked (place : Nat → Length) : List OpenNode → List (Child Green) → Nat → Prop
  | [], children, y => LaidAll place 0 children.reverse y
  | o :: rest, children, y => ∃ x, o.start = place x ∧ LaidAll place x children.reverse y ∧
    Stacked place rest o.siblings x

section

variable {place : Nat → Length} {bound : Nat}

/-- What is added next is laid out after the rest. -/
lemma Stacked.push {os : List OpenNode} {c : Child Green} {cs : List (Child Green)} {y a z : Nat}
    (h : Stacked place os cs y) (hc : Laid place y a z c.node) : Stacked place os (c :: cs) z := by
  cases os with
  | nil =>
    rw [Stacked, List.reverse_cons]
    exact LaidAll.append h (.cons hc .nil)
  | cons o os =>
    obtain ⟨x, hs, hl, hrest⟩ := h
    refine ⟨x, hs, ?_, hrest⟩
    rw [List.reverse_cons]
    exact hl.append (.cons hc .nil)

/-- What a builder has made of tokens in order is laid out, up to where it stands. -/
theorem Builder.Fed.stacked {d : Document} {b : Builder} (h : b.Fed d) (hd : d.bytes.length ≤ limit) :
    ∃ y ≤ d.bytes.length, b.position = (Source.ofDocument d []).positionAt y ∧
      Stacked (Source.ofDocument d []).positionAt b.openNodes b.children y := by
  have hp := (Source.coherent_positionAt d []).mono hd
  induction h with
  | new => exact ⟨0, Nat.zero_le _, hp.zero.symm, .nil⟩
  | startNode symbol field _ ih =>
    obtain ⟨y, hy, hpos, hs⟩ := ih
    exact ⟨y, hy, hpos, y, hpos, .nil, hs⟩
  | @finishNode b b' _ hb ih =>
    obtain ⟨y, hy, hpos, hs⟩ := ih
    rw [Builder.finishNode] at hb
    cases ho : b.openNodes with
    | nil =>
      rw [ho] at hb
      cases hb
    | cons o rest =>
      rw [ho] at hb hs
      obtain rfl := Except.ok.inj hb
      obtain ⟨x, hstart, hl, hrest⟩ := hs
      obtain ⟨a, hnode⟩ := hl.nodeOver hp hy (b := b.stamp.2) hpos b.stamp.1 o.symbol
      rw [← hstart] at hnode
      exact ⟨y, hy, hpos, hrest.push (c := ⟨o.field, _⟩) hnode⟩
  | missing symbol field _ ih =>
    obtain ⟨y, hy, hpos, hs⟩ := ih
    have hzero : ((Source.ofDocument d []).positionAt y).beyond
        ((Source.ofDocument d []).positionAt y) = .zero := if_neg (Nat.lt_irrefl _)
    exact ⟨y, hy, hpos, hs.push (.leaf (Nat.le_refl y) (Nat.le_refl y) hzero.symm hzero.symm)⟩
  | @leaf b l start stop _ hfrom hlt hstop hstart' hstop' ih =>
    obtain ⟨y, hy, hpos, hs⟩ := ih
    rw [hpos, hp.bytes] at hfrom
    refine ⟨stop, hstop, ?_, hs.push (.leaf hfrom hlt ?_ ?_)⟩
    · show (if b.position.bytes ≤ l.stop.bytes then l.stop else b.position) = _
      rw [hpos, hstop', hp.bytes, hp.bytes, if_pos (Nat.le_trans hfrom hlt)]
    · rw [← hstart', ← hpos]
    · rw [← hstart', ← hstop']

/-- The tree of a builder that has taken tokens of a document in order has the extents of it. -/
lemma Builder.Fed.spans {d : Document} {b : Builder} {ranges : List Span} {stop : Nat} {t : Tree}
    (h : b.Fed d) (hd : d.bytes.length ≤ limit) (hpos : b.position.bytes ≤ stop)
    (hstop : stop ≤ d.bytes.length)
    (ht : b.finish ((Source.ofDocument d []).positionAt stop) ranges = .ok t) : t.Spans d := by
  have hp := (Source.coherent_positionAt d []).mono hd
  obtain ⟨y, hy, hb, hs⟩ := h.stacked hd
  rw [hb, hp.bytes] at hpos
  -- whatever becomes the root, a node that was made or one over several, is stretched to the end
  have hroot : ∀ {g : Green} {a : Nat}, Laid (Source.ofDocument d []).positionAt 0 a y g →
      t = ⟨g.withLabel (Builder.rootLabel b.generation ((Source.ofDocument d []).positionAt stop)
        g.label), b.grammar, ranges⟩ → t.Spans d := by
    rintro g a hg rfl
    refine hg.spans hd hpos hstop (Green.children_withLabel _ g) ?_ fun hle => ?_
    · dsimp only
      rw [Green.label_withLabel]
      rfl
    · dsimp only at hle ⊢
      rw [Green.label_withLabel] at hle ⊢
      exact if_pos hle
  rw [Builder.finish] at ht
  cases ho : b.openNodes with
  | cons o rest =>
    rw [ho] at ht
    cases ht
  | nil =>
    rw [ho] at ht hs
    have hs : LaidAll (Source.ofDocument d []).positionAt 0 b.children.reverse y := hs
    have ht := (Except.ok.inj ht).symm
    obtain ⟨a, hover⟩ := hs.nodeOver hp hy hb ⟨b.generation, []⟩ .error
    rw [hp.zero] at hover
    cases hc : b.children with
    | nil =>
      rw [hc] at hover
      exact hroot hover (by rw [ht, hc])
    | cons c cs =>
      cases cs with
      | nil =>
        rw [hc] at hs
        cases hs with
        | cons hnode hnil =>
          cases hnil
          exact hroot hnode (by rw [ht, hc])
      | cons c' cs =>
        rw [hc] at hover
        exact hroot hover (by rw [ht, hc])

end

/-- Whether a tree has the coordinates of a document: a parser of C, used for anything before, gave it
for the document, or a builder that took tokens of the document in order. -/
inductive Charted : Document → Tree → Prop where
  | parsed {p q d oldTree outside generation t} :
    C.Used False p → (∀ t ∈ oldTree, C.Matches False d t) → d.bytes.length ≤ limit →
    p.parse outside generation d oldTree = (.ok t, q) → Charted d t
  | built {d stop ranges t} {b : Builder} :
    d.bytes.length ≤ limit → b.Fed d → b.position.bytes ≤ stop → stop ≤ d.bytes.length →
    b.finish ((Source.ofDocument d []).positionAt stop) ranges = .ok t → Charted d t

/-- Such a tree fits into the text, and has the extents of it. -/
theorem Charted.spans {d : Document} {t : Tree} (h : Charted d t) :
    d.bytes.length ≤ limit ∧ t.Spans d := by
  cases h with
  | parsed hused hold hd hp =>
    obtain ⟨e, items, hbuilds⟩ := hused.builds hold hd (fun hf => hf.elim) hp
    exact ⟨hd, hbuilds.spans hd⟩
  | built hd hb hpos hstop ht => exact ⟨hd, hb.spans hd hpos hstop ht⟩

end Reparse
