import Reparse.Proofs.Grafts
import Reparse.Proofs.Guards
import Reparse.Proofs.Resumption
import Reparse.Proofs.Volumes

/-!
# Growth

A call that takes nodes over from an old tree reads what a call without one would read: for every item
that it holds there is one that is made of tokens alone and of which the same is built (`Grows`). What
is known of the nodes of the old tree then holds of those of the new one (`holds_of_grows`).
-/

namespace Reparse.C

open Item

mutual

/-- Whether an item, read from a byte of a document on, becomes another one when every subtree that
was taken over is replaced by what it stands for, where all nodes that may be taken over are proper,
and all subtrees are known and without marks. -/
inductive Grows (strict : Prop) (d : Document) (ranges : List Span) : Nat → Item → Item → Prop where
  | token {x f t} : Grows strict d ranges x (.token f t) (.token f t)
  | missing {x f kind} : Grows strict d ranges x (.missing f kind) (.missing f kind)
  | reused {x g i} :
    StandsFor strict (.ofDocument d ranges) x g i →
    g.Holds (Regrown strict d.encoding) ((d.cells (Source.effectiveRanges ranges)).drop x) →
    g.Clear d.bytes.length x →
    Grows strict d ranges x (.reused g) i
  | node {x f rule parts parts'} :
    parts' ≠ [] →
    (rule ∈ reusableAtTop → (Item.node none rule parts').Proper strict (.ofDocument d ranges)) →
    GrowsAll strict d ranges x parts parts' →
    Grows strict d ranges x (.node f rule parts) (.node f rule parts')

/-- The same of items that are read one after the other. -/
inductive GrowsAll (strict : Prop) (d : Document) (ranges : List Span) :
    Nat → List Item → List Item → Prop where
  | nil {x} : GrowsAll strict d ranges x [] []
  | cons {x i i' rest rest'} :
    Grows strict d ranges x i i' →
    GrowsAll strict d ranges (endOf x i'.tokens) rest rest' →
    GrowsAll strict d ranges x (i :: rest) (i' :: rest')

end

section

variable {strict : Prop} {d : Document} {ranges : List Span}

mutual

/-- What an item becomes is made of tokens. -/
lemma Grows.whole : ∀ {x i i'}, Grows strict d ranges x i i' → i'.Whole
  | _, _, _, .token => trivial
  | _, _, _, .missing => trivial
  | _, _, _, .reused h _ _ => h.whole
  | _, _, _, .node hne _ h => ⟨hne, h.whole⟩

/-- What items grow into is whole. -/
lemma GrowsAll.whole : ∀ {x is is'}, GrowsAll strict d ranges x is is' → WholeAll is'
  | _, _, _, .nil => trivial
  | _, _, _, .cons h hs => ⟨h.whole, hs.whole⟩

end

mutual

/-- A subtree that was taken over is noted by one event, what it stands for by one at least. -/
lemma Grows.volume_le : ∀ {x i i'}, Grows strict d ranges x i i' → i.volume ≤ i'.volume
  | _, _, _, .token => Nat.le_refl _
  | _, _, _, .missing => Nat.le_refl _
  | _, _, i', .reused _ _ _ => i'.volume_pos
  | _, _, _, .node _ _ h => Nat.add_le_add_right h.volumeOf_le 2

/-- Items are noted by no more events than what they grow into. -/
lemma GrowsAll.volumeOf_le : ∀ {x is is'}, GrowsAll strict d ranges x is is' →
    volumeOf is ≤ volumeOf is'
  | _, _, _, .nil => Nat.le_refl _
  | _, _, _, .cons h hs => Nat.add_le_add h.volume_le hs.volumeOf_le

end

mutual

/-- An item that is made of tokens, and whose nodes are proper, becomes itself. -/
lemma Grows.of_each : ∀ {i : Item} (x : Nat),
    i.Each (Item.Proper strict (.ofDocument d ranges)) → Grows strict d ranges x i i
  | .token _ _, _, _ => .token
  | .missing _ _, _, _ => .missing
  | .node _ _ _, x, ⟨hne, hp, hparts⟩ => .node hne hp (GrowsAll.of_each x hparts)

/-- Items of which each is proper grow into themselves. -/
lemma GrowsAll.of_each : ∀ {is : List Item} (x : Nat),
    EachAll (Item.Proper strict (.ofDocument d ranges)) is → GrowsAll strict d ranges x is is
  | [], _, _ => .nil
  | i :: _, x, ⟨hi, hr⟩ => .cons (Grows.of_each x hi) (GrowsAll.of_each (endOf x i.tokens) hr)

end

/-- Items grow in two parts. -/
lemma GrowsAll.append {x : Nat} {a a' b b' : List Item} (ha : GrowsAll strict d ranges x a a')
    (hb : GrowsAll strict d ranges (endOf x (tokensOf a')) b b') :
    GrowsAll strict d ranges x (a ++ b) (a' ++ b') := by
  induction a generalizing x a' with
  | nil =>
    cases ha with
    | nil => exact hb
  | cons i a ih =>
    cases ha with
    | cons hi ha =>
      rw [tokensOf, endOf_append] at hb
      exact .cons hi (ih ha hb)

/-- One item grows alone. -/
lemma GrowsAll.single {x : Nat} {i i' : Item} (h : Grows strict d ranges x i i') :
    GrowsAll strict d ranges x [i] [i'] := .cons h .nil

/-- Items that hold no node that may be taken over become themselves. -/
lemma GrowsAll.of_inner {is : List Item} (x : Nat) (h : InnerAll is) :
    GrowsAll strict d ranges x is is :=
  GrowsAll.of_each x (EachAll.imp (fun _ h => h.elim) h)

mutual

/-- The same is built of an item and of what it becomes. -/
theorem Grows.built (hd : d.bytes.length ≤ limit) : ∀ {x y i i'}, Grows strict d ranges x i i' →
    InOrder x i'.tokens y → y ≤ d.bytes.length →
    built (Source.ofDocument d ranges).positionAt ((Source.ofDocument d ranges).positionAt x) i =
      built (Source.ofDocument d ranges).positionAt ((Source.ofDocument d ranges).positionAt x) i'
  | _, _, _, _, .token, _, _ => rfl
  | _, _, _, _, .missing, _, _ => rfl
  | _, _, _, _, .reused h _ _, _, _ => h.built.symm
  | _, _, _, _, .node _ _ h, ho, hy => by
    rw [Item.built, Item.built, GrowsAll.built hd h ho hy]

/-- Items and what they grow into have the same trees, apart from stamps. -/
theorem GrowsAll.built (hd : d.bytes.length ≤ limit) : ∀ {x y is is'},
    GrowsAll strict d ranges x is is' → InOrder x (tokensOf is') y → y ≤ d.bytes.length →
    builtAll (Source.ofDocument d ranges).positionAt ((Source.ofDocument d ranges).positionAt x) is =
      builtAll (Source.ofDocument d ranges).positionAt ((Source.ofDocument d ranges).positionAt x) is'
  | _, _, _, _, .nil, _, _ => rfl
  | x, y, _, _, .cons h hs, ho, hy => by
    rw [tokensOf, inOrder_append] at ho
    have hle := Nat.le_trans ho.2.le.1 (Nat.le_trans ho.2.le.2 hy)
    have hpos := (laid_built (Source.coherent_positionAt d ranges) h.whole ho.1
      (Nat.le_trans hle hd)).2
    rw [builtAll_cons, builtAll_cons, Grows.built hd h ho.1 hle, hpos, GrowsAll.built hd hs ho.2 hy]

end

/-- The same is built of the items of a document, whether they hold subtrees of an old tree or what these
stand for. -/
lemma root_of_grows (hd : d.bytes.length ≤ limit) {items items' : List Item} {blanks : List SourceChar}
    {g : Green} (h : GrowsAll strict d ranges 0 items items')
    (hc : Covers (Source.ofDocument d ranges).chars (tokensOf items') blanks)
    (hg : g.bare = builtRoot (Source.ofDocument d ranges).positionAt
      ((Source.ofDocument d ranges).positionAt (Source.ofDocument d ranges).endOfInput) items) :
    g.bare = builtRoot (Source.ofDocument d ranges).positionAt
      ((Source.ofDocument d ranges).positionAt (Source.ofDocument d ranges).endOfInput) items' := by
  have ho := Source.ordered_chars d ranges
  have horder := hc.inOrder ho (fun _ _ => Nat.zero_le _) (Nat.zero_le _)
    fun c hc => Source.stop_le_endOfInput ho hc
  have hbuilt := h.built hd horder (Source.endOfInput_le_size d ranges)
  rw [(Source.coherent_positionAt d ranges).zero] at hbuilt
  have hdocument : built (Source.ofDocument d ranges).positionAt .zero (.node none .document items) =
      built (Source.ofDocument d ranges).positionAt .zero (.node none .document items') := by
    rw [Item.built, Item.built, hbuilt]
  rw [hg, builtRoot, builtRoot, hdocument]

/-! ## What is known of the nodes of a tree -/

/-- What is known of a node depends on its bare tree. -/
lemma Regrown.of_bare {e : Encoding} {w : List Cell} {g g' : Green} (hg : g.bare = g'.bare)
    (h : Regrown strict e w g) : Regrown strict e w g' := by
  have hlabel : g.label.bare = g'.label.bare := by rw [← Green.label_bare, hg, Green.label_bare]
  intro he rule hr hs
  obtain ⟨parts, hreg, hb⟩ := h ((congrArg Label.hasError hlabel).trans he) rule hr
    ((congrArg Label.symbol hlabel).trans hs)
  exact ⟨parts, hreg, hb.trans hg⟩

mutual

/-- Where the nodes of a tree stand, and what is known of them, depends on its bare tree. -/
lemma holds_of_bare {e : Encoding} : ∀ {g g' : Green} {w : List Cell}, g.bare = g'.bare →
    g.Holds (Regrown strict e) w → g'.Holds (Regrown strict e) w
  | .node l cs, .node l' cs', w, hg, ⟨hle, hc, hp, hP, hs⟩ => by
    obtain ⟨hlabel, hcs⟩ := Green.node.inj hg
    have hpad : l.padding = l'.padding := (congrArg Label.padding hlabel : _)
    have hsize : l.size = l'.size := (congrArg Label.size hlabel : _)
    have hchanges : l.hasChanges = l'.hasChanges := (congrArg Label.hasChanges hlabel : _)
    obtain ⟨hall, hwidth, hhead⟩ := holdsAll_of_bare hcs hs
    rw [hpad, hsize] at hle hc hP
    refine ⟨hle, by rw [← hwidth]; exact hc, fun b hb => ?_, fun hl => ?_, hall⟩
    · cases cs with
      | nil =>
        rw [Option.mem_def.1 hb] at hhead
        cases hhead
      | cons c₀ cs =>
        rw [Option.mem_def.1 hb] at hhead
        rw [← hpad, ← hp c₀ rfl]
        exact congrArg Length.bytes (Option.some.inj hhead).symm
    · exact Regrown.of_bare hg (hP (hchanges.trans hl))

/-- What holds of the cells of trees holds of those of trees that differ in stamps only. -/
lemma holdsAll_of_bare {e : Encoding} : ∀ {cs cs' : List (Child Green)} {w : List Cell},
    Green.bareAll cs = Green.bareAll cs' → Green.HoldsAll (Regrown strict e) w cs →
    Green.HoldsAll (Regrown strict e) w cs' ∧ Green.widthOf cs = Green.widthOf cs' ∧
      cs.head?.map (·.node.label.padding) = cs'.head?.map (·.node.label.padding)
  | [], [], _, _, _ => ⟨trivial, rfl, rfl⟩
  | c :: cs, c' :: cs', w, hcs, ⟨hc, hr⟩ => by
    obtain ⟨hhead, htail⟩ := List.cons.inj hcs
    have hb : c.node.bare = c'.node.bare := congrArg Child.node hhead
    have hlabel : c.node.label.bare = c'.node.label.bare := by
      rw [← Green.label_bare, hb, Green.label_bare]
    have hwidth : c.node.width = c'.node.width := by
      rw [← Green.width_bare, hb, Green.width_bare]
    obtain ⟨hall, hw, -⟩ := holdsAll_of_bare htail hr
    refine ⟨⟨holds_of_bare hb hc, by rw [← hwidth]; exact hall⟩, ?_, ?_⟩
    · rw [Green.widthOf, Green.widthOf, hwidth, hw]
    · have hpad : c.node.label.padding = c'.node.label.padding := (congrArg Label.padding hlabel : _)
      exact congrArg some hpad

end

/-- No token has the symbol of what may be taken over. -/
lemma Terminal.symbol_ne {rule : Rule} (h : rule ∈ reusableAtTop) (kind : Terminal) :
    kind.symbol ≠ rule.symbol := by
  have hrule : 18 < rule.symbol.raw ∧ rule.symbol.raw < maxId := by
    revert rule
    decide
  have hkind : kind.symbol.raw ≤ 18 ∨ maxId ≤ kind.symbol.raw := by
    cases kind <;> decide
  intro heq
  rw [heq] at hkind
  omega

/-- A leaf, which is no node that may be taken over, inside a document. -/
lemma holds_of_leaf {x : Nat} {g : Green} {l : Label} {kind : Terminal} (hg : g.bare = .node l [])
    (hs : l.symbol = kind.symbol) (hw : x + g.width ≤ d.bytes.length) :
    g.Holds (Regrown strict d.encoding) ((d.cells (Source.effectiveRanges ranges)).drop x) := by
  obtain ⟨l', cs⟩ := g
  obtain ⟨hlabel, hcs⟩ := Green.node.inj hg
  have hsymbol : l'.symbol = kind.symbol := Eq.trans (congrArg Label.symbol hlabel : _) hs
  cases cs with
  | cons c cs => cases hcs
  | nil =>
    have hwidth : (Green.node l' []).width = l'.padding.bytes + l'.size.bytes := rfl
    refine ⟨?_, Nat.zero_le _, nofun, fun _ _ rule hr hs' => ?_, trivial⟩
    · rw [List.length_drop, Document.length_cells]
      omega
    · exact absurd (hsymbol.symm.trans hs') (Terminal.symbol_ne hr kind)

/-- Where an item stands in a document, between the places of its tokens. -/
lemma laid_of_grows (hd : d.bytes.length ≤ limit) {x : Nat} {i : Item} {g : Green}
    {rest : List SourceChar} (hxs : x ≤ (Source.ofDocument d ranges).endOfInput) (hw : i.Whole)
    (hc : Covers ((Source.ofDocument d ranges).charsFrom x) i.tokens rest)
    (hg : g.bare = (built (Source.ofDocument d ranges).positionAt
      ((Source.ofDocument d ranges).positionAt x) i).1.node) :
    (∃ a, Laid (Source.ofDocument d ranges).positionAt x a (endOf x i.tokens) g) ∧
      x + g.width = endOf x i.tokens ∧ endOf x i.tokens ≤ d.bytes.length := by
  have hsize := Source.endOfInput_le_size d ranges
  have horder := hc.inOrder_charsFrom hxs
  have hle := horder.le.2
  obtain ⟨⟨a, hl⟩, -⟩ := laid_built (Source.coherent_positionAt d ranges) hw horder (by omega)
  rw [← hg] at hl
  have hwidth := hl.of_bare.width (Source.coherent_positionAt d ranges)
  exact ⟨⟨a, hl.of_bare⟩, hwidth, by omega⟩

mutual

/-- What is built of an item stands on the cells of the document, and what is asked of its nodes is
known of them. -/
theorem holds_of_grows (hd : d.bytes.length ≤ limit) : ∀ {x : Nat} {i i' : Item} {g : Green}
    {rest : List SourceChar}, Grows strict d ranges x i i' → PartedAt d x →
    x ≤ (Source.ofDocument d ranges).endOfInput →
    Covers ((Source.ofDocument d ranges).charsFrom x) i'.tokens rest →
    g.bare = (built (Source.ofDocument d ranges).positionAt
      ((Source.ofDocument d ranges).positionAt x) i').1.node →
    g.Holds (Regrown strict d.encoding) ((d.cells (Source.effectiveRanges ranges)).drop x)
  | _, _, _, _, _, @Grows.token _ _ _ x f t, hx, hxs, hc, hg => by
    obtain ⟨-, hwidth, hle⟩ := laid_of_grows hd hxs (i := .token f t) trivial hc hg
    exact holds_of_leaf hg rfl (by omega)
  | _, _, _, _, _, @Grows.missing _ _ _ x f kind, hx, hxs, hc, hg => by
    obtain ⟨-, hwidth, hle⟩ := laid_of_grows hd hxs (i := .missing f kind) trivial hc hg
    exact holds_of_leaf hg rfl (by omega)
  | _, _, _, _, _, .reused h hg₀ _, _, _, _, hg => by
    rw [h.built] at hg
    exact holds_of_bare hg.symm hg₀
  | _, _, _, g, _, @Grows.node _ _ _ x f rule parts parts' hne hp h, hx, hxs, hc, hg => by
    obtain ⟨l, cs⟩ := g
    have hwhole : (Item.node f rule parts').Whole := ⟨hne, h.whole⟩
    obtain ⟨⟨a, hl⟩, hwidth, hle⟩ := laid_of_grows hd hxs hwhole hc hg
    have hw : (Green.node l cs).width = l.padding.bytes + l.size.bytes := rfl
    have hcs : Green.bareAll cs = (builtAll (Source.ofDocument d ranges).positionAt
        ((Source.ofDocument d ranges).positionAt x) parts').1 :=
      congrArg Green.children hg
    have hreg := regrown_of_built hd hx hc hwhole hp hg
    have htake : endOf x (Item.node none rule parts').tokens - x = l.padding.bytes + l.size.bytes := by
      have : endOf x (Item.node none rule parts').tokens = endOf x (Item.node f rule parts').tokens := rfl
      omega
    rw [htake] at hreg
    refine ⟨?_, ?_, ?_, fun _ => hreg, holdsAll_of_grows hd h hx hxs hc hcs⟩
    · rw [List.length_drop, Document.length_cells]
      omega
    · cases hl with
      | leaf => exact Nat.zero_le _
      | node hc' hcs' _ _ =>
        have h1 := hc'.width (Source.coherent_positionAt d ranges)
        have h2 := hcs'.width (Source.coherent_positionAt d ranges)
        rw [Green.widthOf]
        omega
    · intro c hc'
      cases hl with
      | leaf => cases hc'
      | node _ _ hpad _ =>
        obtain rfl := Option.some.inj (Option.mem_def.1 hc')
        rw [hpad]

/-- What items grow into is laid over the cells of the document. -/
theorem holdsAll_of_grows (hd : d.bytes.length ≤ limit) : ∀ {x : Nat} {is is' : List Item}
    {cs : List (Child Green)} {rest : List SourceChar}, GrowsAll strict d ranges x is is' →
    PartedAt d x → x ≤ (Source.ofDocument d ranges).endOfInput →
    Covers ((Source.ofDocument d ranges).charsFrom x) (tokensOf is') rest →
    Green.bareAll cs = (builtAll (Source.ofDocument d ranges).positionAt
      ((Source.ofDocument d ranges).positionAt x) is').1 →
    Green.HoldsAll (Regrown strict d.encoding)
      ((d.cells (Source.effectiveRanges ranges)).drop x) cs
  | _, _, _, cs, _, .nil, _, _, _, hcs => by
    cases cs with
    | nil => trivial
    | cons c cs => cases hcs
  | _, _, _, cs, _, .cons h hs, hx, hxs, hc, hcs => by
    cases cs with
    | nil => cases hcs
    | cons c cs =>
      rw [tokensOf] at hc
      obtain ⟨mid, h1, h2⟩ := hc.split
      rw [builtAll_cons] at hcs
      obtain ⟨hhead, htail⟩ := List.cons.inj hcs
      have hnode := congrArg Child.node hhead
      obtain ⟨-, hwidth, hle⟩ := laid_of_grows hd hxs h.whole h1 hnode
      obtain ⟨hx', hmid⟩ := h1.parted hx
      have horder := h1.inOrder_charsFrom hxs
      have hpos := (laid_built (Source.coherent_positionAt d ranges) h.whole horder
        (Source.endOfInput_le_limit hd ranges)).2
      rw [hpos] at htail
      rw [hmid] at h2
      refine ⟨holds_of_grows hd h hx hxs h1 hnode, ?_⟩
      rw [List.drop_drop, hwidth]
      exact holdsAll_of_grows hd hs hx' horder.le.2 h2 htail

end

/-- What is asked of the nodes of a document is known of the nodes of its tree. -/
theorem holds_root (hd : d.bytes.length ≤ limit) {items items' : List Item} {t : Tree}
    {rest : List SourceChar} (h : GrowsAll strict d ranges 0 items items')
    (hc : Covers (Source.ofDocument d ranges).chars (tokensOf items') rest)
    (ht : t.root.bare = builtRoot (Source.ofDocument d ranges).positionAt
      ((Source.ofDocument d ranges).positionAt (Source.ofDocument d ranges).endOfInput) items') :
    t.root.Holds (Regrown strict d.encoding) (d.cells (Source.effectiveRanges ranges)) := by
  have hp := Source.coherent_positionAt d ranges
  have hsize := Source.endOfInput_le_size d ranges
  have hc' := hc
  rw [← Source.charsFrom_zero] at hc'
  have horder := hc'.inOrder_charsFrom (Nat.zero_le _)
  obtain ⟨⟨a, hstart, ha⟩, hstop, -⟩ := root_of_built hp h.whole horder (Nat.le_trans hsize hd) ht
  obtain ⟨hlaid, -⟩ := laid_builtAll hp h.whole horder (Nat.le_trans hsize hd)
  obtain ⟨t, grammar, includedRanges⟩ := t
  obtain ⟨l, cs⟩ := t
  obtain ⟨hlabel, hcs⟩ := Green.node.inj ht
  rw [hp.zero] at hlaid
  have hcs' : Green.bareAll cs = (builtAll (Source.ofDocument d ranges).positionAt .zero items').1 := hcs
  have hpadding : l.padding = ((builtAll (Source.ofDocument d ranges).positionAt .zero
      items').1.head?.map (·.node.label.padding)).getD .zero := (congrArg Label.padding hlabel : _)
  have hsymbol : l.symbol = Rule.document.symbol := (congrArg Label.symbol hlabel : _)
  -- the root reaches to the end of the input
  have hpad : l.padding.bytes = a := by
    have : l.padding = (Source.ofDocument d ranges).positionAt a := hstart
    rw [this, hp.bytes]
  have hwidth : l.padding.bytes + l.size.bytes = (Source.ofDocument d ranges).endOfInput := by
    have hsz : l.size = if l.padding.bytes ≤
        ((Source.ofDocument d ranges).positionAt (Source.ofDocument d ranges).endOfInput).bytes then
        (Source.ofDocument d ranges).positionAt (Source.ofDocument d ranges).endOfInput - l.padding
        else (nodeLabel .zero (builtAll (Source.ofDocument d ranges).positionAt .zero items').2
          Rule.document.symbol (builtAll (Source.ofDocument d ranges).positionAt .zero items').1).size := by
      rw [hpadding]
      exact (congrArg Label.size hlabel : _)
    rw [hsz, hp.bytes, if_pos (by omega), Length.bytes_sub, hp.bytes]
    omega
  refine ⟨?_, ?_, fun c hc => ?_, fun _ _ rule hr hs => ?_, ?_⟩
  · rw [hwidth, Document.length_cells]
    exact hsize
  · rw [← hcs'] at hlaid
    have h1 := hlaid.of_bare.width hp
    have h2 := horder.le.2
    omega
  · rw [hpadding, ← hcs']
    cases cs with
    | nil => cases hc
    | cons c₀ cs =>
      obtain rfl := Option.some.inj (Option.mem_def.1 hc)
      simp [Green.bareAll, Label.bare]
  · exfalso
    rw [show (Green.node l cs).label.symbol = l.symbol from rfl, hsymbol] at hs
    obtain rfl := Rule.symbol_injective hs
    exact absurd hr (by decide)
  · have hall := holdsAll_of_grows hd h (PartedAt.zero d) (Nat.zero_le _) hc' (hp.zero ▸ hcs')
    exact hall

end

end Reparse.C
