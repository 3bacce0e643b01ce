import Reparse.Proofs.Acceptance
import Reparse.Proofs.Contents
import Reparse.Proofs.Editing
import Reparse.Proofs.Locality

/-!
# Grafts

What is known of a node that may be taken over: it is built of an item of the grammar whose tokens
cut up the cells that it was read from (`Regrown`). Every tree that is built of such items is known
in that way, node by node (`holds_builtRoot`), and a node of which it is known can be put where its
cells stand again: it is what is built there of its item, moved along (`Regrown.graft`).
-/

namespace Reparse.C

open Item
open Decode (widthOf widthOf_nil widthOf_cons widthOf_append IsCloser)

/-! ## Items that are moved -/

namespace Item

section

variable {f : Token → Token}

mutual

/-- Other places for the tokens leave the shapes of an item. -/
lemma shapes_map (hf : ∀ t, (f t).kind = t.kind) : ∀ i : Item, (i.map f).shapes = i.shapes
  | token field t => by
    have hc : (f t).isComment = t.isComment := by rw [Token.isComment, hf]; rfl
    simp only [map, shapes, hc, hf]
  | missing _ _ => rfl
  | reused _ => rfl
  | node _ _ parts => by rw [map, shapes, shapes, shapesOf_mapAll hf parts]

/-- Other places for the tokens leave the shapes of items. -/
lemma shapesOf_mapAll (hf : ∀ t, (f t).kind = t.kind) :
    ∀ is : List Item, shapesOf (mapAll f is) = shapesOf is
  | [] => rfl
  | i :: rest => by rw [mapAll, shapesOf, shapesOf, shapes_map hf i, shapesOf_mapAll hf rest]

end

mutual

/-- Other places for the tokens leave the errors of an item. -/
lemma hasError_map (hf : ∀ t, (f t).kind = t.kind) : ∀ i : Item, (i.map f).hasError = i.hasError
  | token _ _ => by simp only [map, hasError, hf]
  | missing _ _ => rfl
  | reused _ => rfl
  | node _ _ parts => by rw [map, hasError, hasError, hasErrorOf_mapAll hf parts]

/-- Other places for the tokens leave the errors of items. -/
lemma hasErrorOf_mapAll (hf : ∀ t, (f t).kind = t.kind) :
    ∀ is : List Item, hasErrorOf (mapAll f is) = hasErrorOf is
  | [] => rfl
  | i :: rest => by rw [mapAll, hasErrorOf, hasErrorOf, hasError_map hf i, hasErrorOf_mapAll hf rest]

end

/-- An item with its tokens in other places is a comment if it was one. -/
lemma isComment_map (hf : ∀ t, (f t).kind = t.kind) (i : Item) : (i.map f).isComment = i.isComment := by
  cases i with
  | token _ _ => simp only [map, isComment, Token.isComment, hf]
  | _ => rfl

/-- An item with its tokens in other places takes comments along if it did. -/
lemma isLoose_map (hf : ∀ t, (f t).kind = t.kind) (i : Item) : (i.map f).isLoose = i.isLoose := by
  cases i with
  | node field rule parts => cases rule <;> simp only [map, isLoose, shapesOf_mapAll hf]
  | _ => rfl

/-- The tokens of each item are moved by themselves. -/
lemma mapAll_eq_map (is : List Item) : mapAll f is = is.map (Item.map f) := by
  induction is with
  | nil => rfl
  | cons i is ih => rw [mapAll, ih, List.map_cons]

/-- Items with their tokens in other places start with a comment if they did. -/
lemma startsWithComment_mapAll (hf : ∀ t, (f t).kind = t.kind) (is : List Item) :
    startsWithComment (mapAll f is) = startsWithComment is := by
  cases is with
  | nil => rfl
  | cons i is => exact isComment_map hf i

/-- Items with their tokens in other places take comments along if they did. -/
lemma endsOpen_mapAll (hf : ∀ t, (f t).kind = t.kind) (is : List Item) :
    endsOpen (mapAll f is) = endsOpen is := by
  rw [endsOpen, endsOpen, mapAll_eq_map, List.getLast?_map]
  cases is.getLast? with
  | none => rfl
  | some i => simp only [Option.map_some, Option.any_some, isComment_map hf, isLoose_map hf]

mutual

/-- A tidy item with its tokens in other places is tidy. -/
lemma Tidy.map (hf : ∀ t, (f t).kind = t.kind) : ∀ {i : Item}, i.Tidy → (i.map f).Tidy
  | token _ t, h => fun hc => h (by rw [Token.isComment, hf] at hc; exact hc)
  | missing _ _, h => h
  | reused _, h => h
  | node field rule parts, ⟨hp, hne, hs, he⟩ => by
    refine ⟨TidyAll.map hf hp, ?_, ?_, fun hl => ?_⟩
    · rw [mapAll_eq_map]
      exact fun hn => hne (List.map_eq_nil_iff.1 hn)
    · rw [startsWithComment_mapAll hf, hs]
    · rw [endsOpen_mapAll hf]
      refine he ?_
      rw [← isLoose_map hf]
      exact hl

/-- Tidy items with their tokens in other places are tidy. -/
lemma TidyAll.map (hf : ∀ t, (f t).kind = t.kind) : ∀ {is : List Item}, TidyAll is → TidyAll (mapAll f is)
  | [], h => h
  | i :: rest, ⟨hi, hr, hl⟩ => by
    refine ⟨Tidy.map hf hi, TidyAll.map hf hr, fun h => ?_⟩
    rw [isLoose_map hf] at h
    rw [startsWithComment_mapAll hf, hl h]

end

/-- An item of a category with its tokens in other places is of that category. -/
lemma Is.map (hf : ∀ t, (f t).kind = t.kind) {c : Category} {i : Item} (h : i.Is c) : (i.map f).Is c where
  derives := by
    rw [shapes_map hf]
    exact h.derives
  tidy := h.tidy.map hf
  isComment := (isComment_map hf i).trans h.isComment
  isLoose := (isLoose_map hf i).trans h.isLoose

end

section

variable {f : Token → Token}

mutual

/-- An item that is whole with its tokens in other places is whole. -/
lemma Whole.map : ∀ {i : Item}, i.Whole → (i.map f).Whole
  | token _ _, _ => trivial
  | missing _ _, _ => trivial
  | node _ _ parts, ⟨hne, hparts⟩ => by
    refine ⟨?_, WholeAll.map hparts⟩
    rw [mapAll_eq_map]
    exact fun hn => hne (List.map_eq_nil_iff.1 hn)

/-- Items that are whole with their tokens in other places are whole. -/
lemma WholeAll.map : ∀ {is : List Item}, WholeAll is → WholeAll (mapAll f is)
  | [], _ => trivial
  | _ :: _, ⟨hi, hr⟩ => ⟨Whole.map hi, WholeAll.map hr⟩

end

end

mutual

/-- An item whose tokens are changed twice. -/
lemma map_map (f g : Token → Token) : ∀ i : Item, (i.map f).map g = i.map (g ∘ f)
  | token _ _ => rfl
  | missing _ _ => rfl
  | reused _ => rfl
  | node _ _ parts => by rw [map, map, map, mapAll_mapAll f g parts]

/-- Tokens that are moved twice are moved once by both together. -/
lemma mapAll_mapAll (f g : Token → Token) : ∀ is : List Item,
    mapAll g (mapAll f is) = mapAll (g ∘ f) is
  | [] => rfl
  | i :: rest => by rw [mapAll, mapAll, mapAll, map_map f g i, mapAll_mapAll f g rest]

end

mutual

/-- An item stays what it is if its tokens do. -/
lemma map_of_id {f : Token → Token} : ∀ {i : Item}, (∀ t ∈ i.tokens, f t = t) → i.map f = i
  | token _ t, h => by rw [map, h t (List.mem_singleton_self t)]
  | missing _ _, _ => rfl
  | reused _, _ => rfl
  | node _ _ parts, h => by rw [map, mapAll_of_id h]

/-- Items whose tokens stay stay as they are. -/
lemma mapAll_of_id {f : Token → Token} : ∀ {is : List Item}, (∀ t ∈ tokensOf is, f t = t) →
    mapAll f is = is
  | [], _ => rfl
  | i :: rest, h => by
    rw [mapAll, map_of_id fun t ht => h t (List.mem_append_left _ ht),
      mapAll_of_id fun t ht => h t (List.mem_append_right _ ht)]

end

/-- What may stand at the top of a document ends with a semicolon or a brace. -/
lemma Is.closer {i : Item} (h : i.Is .topLevel) :
    ∃ (ts : List Token) (t : Token), i.tokens = ts ++ [t] ∧ t.kind.isCloser = true := by
  obtain ⟨ts, t, ht, hc⟩ := h.tidy.tokens_last h.ends
  have hk := h.tidy.kinds_tokens
  rw [ht, kinds_append, kinds_cons hc, kinds_nil] at hk
  refine ⟨ts, t, ht, ?_⟩
  have hlast : ∀ {c ss}, Derives c ss → (c = .statement ∨ c = .topLevel) →
      ∃ (ks : List Terminal) (k : Terminal), Shape.leavesOf ss = ks ++ [k] ∧ k.isCloser = true := by
    intro c ss hd hcat
    induction hd with
    | @declaration ds _ =>
      exact ⟨.primitiveType :: Shape.leavesOf ds, .semicolon,
        by simp [Shape.leavesOf, Shape.leaves], rfl⟩
    | @compound body _ =>
      exact ⟨.leftBrace :: Shape.leavesOf body, .rightBrace,
        by simp [Shape.leavesOf, Shape.leaves], rfl⟩
    | emptyReturn => exact ⟨[.returnKeyword], .semicolon, rfl, rfl⟩
    | @«return» e _ =>
      exact ⟨.returnKeyword :: e.leaves, .semicolon, by simp [Shape.leavesOf, Shape.leaves], rfl⟩
    | emptyStatement => exact ⟨[], .semicolon, rfl, rfl⟩
    | @evaluation e _ => exact ⟨e.leaves, .semicolon, by simp [Shape.leavesOf, Shape.leaves], rfl⟩
    | loose _ ih => exact ih (.inl rfl)
    | @definition ps body _ _ =>
      refine ⟨.primitiveType :: .identifier :: .leftParen :: (Shape.leavesOf ps ++
        .rightParen :: .leftBrace :: Shape.leavesOf body), .rightBrace, ?_, rfl⟩
      simp [Shape.leavesOf, Shape.leaves]
    | _ => rcases hcat with hcat | hcat <;> cases hcat
  obtain ⟨ks, k, hks, hk'⟩ := hlast h.derives (.inr rfl)
  rw [hks] at hk
  obtain ⟨-, hkk⟩ := List.append_inj' hk rfl
  rw [List.singleton_inj.1 hkk]
  exact hk'

end Item

/-! ## Tokens of a document -/

/-- Whether the characters of a document are parted at a byte. -/
def PartedAt (d : Document) (x : Nat) : Prop := ∃ a b, d.decode = a ++ b ∧ widthOf a = x

/-- A document is parted at its beginning. -/
lemma PartedAt.zero (d : Document) : PartedAt d 0 := ⟨[], d.decode, rfl, rfl⟩

section

variable {d : Document} {ranges : List Span}

/-- Tokens that cut up the characters from a byte on part the document where they end, and leave the
characters from there on. -/
lemma Covers.parted {x : Nat} {ts : List Token} {rest : List SourceChar} (hx : PartedAt d x)
    (h : Covers ((Source.ofDocument d ranges).charsFrom x) ts rest) :
    PartedAt d (endOf x ts) ∧ rest = (Source.ofDocument d ranges).charsFrom (endOf x ts) := by
  have ho := Source.ordered_chars d ranges
  rcases List.eq_nil_or_concat ts with rfl | ⟨ts, t, rfl⟩
  · exact ⟨hx, h.eq_of_nil⟩
  · rw [List.concat_eq_append] at h ⊢
    rw [endOf_append, endOf_cons, endOf_nil]
    refine ⟨?_, (h.charsFrom_stop ho).symm⟩
    obtain ⟨v, hv, -⟩ := (Source.ofDocument d ranges).exists_charsFrom x
    have ho' := ho
    rw [hv] at ho'
    obtain ⟨u, hu, -, c, hc, hstop⟩ := h.stop ho'.append.2
    obtain ⟨a, e, b, hd, ha, hw, -⟩ := @Source.exists_decode_of_mem_chars d ranges c
      (by rw [hv, hu]; simp [hc])
    refine ⟨a ++ [e], b, by simpa using hd, ?_⟩
    rw [widthOf_append, widthOf_cons, widthOf_nil, ha, hw, Nat.add_zero, ← hstop, SourceChar.stop]

/-- The places of the characters of some cells. -/
def placeIn (e : Encoding) (w : List Cell) : Nat → Length :=
  Places.positionIn (Places.linesOf (Document.mk (w.map (·.1)) e).decode)

/-- The places in a text of its own are coherent. -/
lemma coherent_placeIn (e : Encoding) (w : List Cell) : Coherent (placeIn e w) limit :=
  Places.coherent_positionIn (Places.areLines_linesOf fun _ h => Document.width_pos h)

/-- What is built of tokens of closed cells is built of them where the cells stand in a document. -/
theorem built_slice {u w r : List Cell} {i : Item} {f : Token → Token} (hd : d.bytes.length ≤ limit)
    (hcells : d.cells (Source.effectiveRanges ranges) = u ++ w ++ r) (hu : PartedAt d u.length)
    (hw : Closed d.encoding w) (hi : i.Whole) (ho : InOrder 0 i.tokens w.length)
    (hf : Item.Moves u.length f) :
    built (Source.ofDocument d ranges).positionAt ((Source.ofDocument d ranges).positionAt u.length)
        (i.map f) = ((built (placeIn d.encoding w) .zero i).1,
          (Source.ofDocument d ranges).positionAt (u.length + endOf 0 i.tokens)) := by
  obtain ⟨a, b, hab, ha⟩ := hu
  obtain ⟨⟨c, rfl⟩, -⟩ := Source.charsFrom_slice hw hcells hab ha
  have hlen : u.length + w.length ≤ limit := by
    rw [← d.length_cells (Source.effectiveRanges ranges), hcells, List.length_append,
      List.length_append] at hd
    omega
  have hwidth : widthOf (Document.mk (w.map (·.1)) d.encoding).decode = w.length := by
    obtain ⟨ds, e, hds, hwd, -⟩ := hw
    rw [hds, widthOf_append, widthOf_cons, widthOf_nil]
    exact hwd
  have hpos : ∀ c' ∈ a ++ ((Document.mk (w.map (·.1)) d.encoding).decode ++ c), 0 < c'.width :=
    fun c' hc' => Document.width_pos (d := d) (by rwa [hab])
  have hextent : ∀ x y, x ≤ y → y ≤ w.length →
      ((Source.ofDocument d ranges).positionAt (u.length + y)).beyond
        ((Source.ofDocument d ranges).positionAt (u.length + x)) =
      (placeIn d.encoding w y).beyond (placeIn d.encoding w x) := by
    intro x y hxy hy
    have h := @Places.beyond_positionIn_append a (Document.mk (w.map (·.1)) d.encoding).decode c
      (fun c' hc' => hpos c' (List.mem_append_left _ hc'))
      (fun c' hc' => hpos c' (List.mem_append_right _ (List.mem_append_left _ hc')))
      (fun c' hc' => hpos c' (List.mem_append_right _ (List.mem_append_right _ hc'))) x y hxy
      (by omega)
    rw [ha, List.append_assoc, ← hab] at h
    exact h
  have h := @built_map (placeIn d.encoding w) (Source.ofDocument d ranges).positionAt u.length
    w.length f ((coherent_placeIn _ _).mono (by omega))
    ((Source.coherent_positionAt d ranges).mono hlen) hf hextent i 0 w.length hi ho (Nat.le_refl _)
  rw [(coherent_placeIn d.encoding w).zero] at h
  exact h

/-- Whether an item that may stand at the top of a document is made of tokens that cut up some cells
to their end; if `strict`, these are the tokens that the cells have by themselves. -/
structure Regular (strict : Prop) (e : Encoding) (w : List Cell) (i : Item) : Prop where
  closed : Closed e w
  covers : Covers (Source.ofCells e w) i.tokens []
  stop : endOf 0 i.tokens = w.length
  is : i.Is .topLevel
  whole : i.Whole
  lexed : strict →
    i.tokens.map Token.word = (Lexer.lexAll .plain (Source.ofCells e w)).map Token.word

/-- The characters of some cells stand in order, inside the cells. -/
lemma ordered_ofCells (e : Encoding) (w : List Cell) : Ordered (Source.ofCells e w) ∧
    ∀ c ∈ Source.ofCells e w, c.stop ≤ w.length := by
  have hw : ∀ c ∈ (Document.mk (w.map (·.1)) e).decode, 0 < c.width :=
    fun _ hc => Document.width_pos hc
  refine ⟨Source.ordered_charsIn _ hw, fun c hc => ?_⟩
  have h1 := (Source.le_byte_of_mem_charsIn hw hc).2.2
  have h2 := Document.widthOf_decode_le (Document.mk (w.map (·.1)) e)
  rw [List.length_map] at h2
  omega

variable {strict : Prop}

/-- The tokens of an item that is read from cells of its own are in order in these. -/
lemma Regular.inOrder {e : Encoding} {w : List Cell} {i : Item} (h : Regular strict e w i) :
    InOrder 0 i.tokens w.length :=
  h.covers.inOrder (ordered_ofCells e w).1 (fun _ _ => Nat.zero_le _) (Nat.zero_le _)
    (ordered_ofCells e w).2

/-- What is known of a node that was parsed from some cells, if it may be taken over: it is built of
an item that stands on these cells. -/
def Regrown (strict : Prop) (e : Encoding) (w : List Cell) (g : Green) : Prop :=
  g.label.hasError = false → ∀ rule ∈ reusableAtTop, g.label.symbol = rule.symbol →
    ∃ parts, Regular strict e w (.node none rule parts) ∧
      (built (placeIn e w) .zero (.node none rule parts)).1.node = g.bare

/-! ## From a document to its cells -/

/-- Whether the tokens of an item are those that are read from where it starts, outside of strings. -/
def Item.Lexed (source : Source) (i : Item) : Prop :=
  ∀ t ∈ i.tokens.head?, ∃ ts, tokensFrom source t.start = i.tokens ++ ts

/-- Whether an item, unless it holds an error, may stand at the top of a document, and if `strict`,
its tokens are those that are read from where it starts. -/
def Item.Proper (strict : Prop) (source : Source) (i : Item) : Prop :=
  i.hasError = false → i.Is .topLevel ∧ (strict → i.Lexed source)

/-- A token `x` bytes further back. -/
def Token.back (x : Nat) (t : Token) : Token := { t with start := t.start - x, stop := t.stop - x }

/-- Tokens that cut up the characters from a byte on are in order. -/
lemma Covers.inOrder_charsFrom {x : Nat} {ts : List Token} {rest : List SourceChar}
    (hxs : x ≤ (Source.ofDocument d ranges).endOfInput)
    (h : Covers ((Source.ofDocument d ranges).charsFrom x) ts rest) :
    InOrder x ts (Source.ofDocument d ranges).endOfInput := by
  have ho := Source.ordered_chars d ranges
  obtain ⟨u, hu, -⟩ := (Source.ofDocument d ranges).exists_charsFrom x
  have ho' := ho
  rw [hu] at ho'
  refine h.inOrder ho'.append.2 (fun c hc => Source.le_byte_of_mem_charsFrom ho hc) hxs fun c hc => ?_
  exact Source.stop_le_endOfInput ho (by rw [hu]; exact List.mem_append_right u hc)

/-- Before the first of some tokens stand only blanks. -/
lemma Covers.charsFrom_start {source : Source} {x : Nat} {t : Token} {ts : List Token}
    {rest : List SourceChar} (ho : Ordered source.chars)
    (h : Covers (source.charsFrom x) (t :: ts) rest) :
    ∃ blanks, source.charsFrom x = blanks ++ source.charsFrom t.start ∧ AllBlank blanks := by
  obtain ⟨u, hu, -⟩ := source.exists_charsFrom x
  generalize hcs : source.charsFrom x = cs at h hu
  cases h with
  | @cons blanks piece cs _ _ _ hb hs _ =>
    refine ⟨blanks, ?_, hb⟩
    obtain ⟨first, hfirst, hstart⟩ := Option.map_eq_some_iff.1 hs.start
    obtain ⟨piece', rfl⟩ := List.head?_eq_some_iff.1 hfirst
    have hsplit : source.chars = (u ++ blanks) ++ (first :: piece' ++ cs) := by simp [hu]
    have ho' := ho
    rw [hsplit] at ho'
    have hfrom : source.charsFrom t.start = first :: piece' ++ cs := by
      rw [← hstart]
      refine Source.charsFrom_eq hsplit (fun c hc => ?_) fun c hc => ?_
      · have hlt := SourceChar.byte_lt_stop (ho'.append.1.width c hc)
        exact Nat.lt_of_lt_of_le hlt (ho'.stop_le hc (List.mem_cons_self ..))
      · rcases List.mem_cons.1 hc with rfl | hc
        · exact Nat.le_refl _
        · have hlt := SourceChar.byte_lt_stop (ho'.append.2.width first (List.mem_cons_self ..))
          have hle := (List.pairwise_cons.1 ho'.append.2.apart).1 c hc
          omega
    rw [hfrom, List.append_assoc]

/-- Tokens may be read from where the first of them starts. -/
lemma Covers.tokensFrom_start {source : Source} {x : Nat} {t : Token} {ts : List Token}
    {rest : List SourceChar} (ho : Ordered source.chars)
    (h : Covers (source.charsFrom x) (t :: ts) rest) :
    tokensFrom source x = tokensFrom source t.start := by
  obtain ⟨blanks, hc, hb⟩ := Covers.charsFrom_start ho h
  show Lexer.lexAll .plain (source.charsFrom x) = Lexer.lexAll .plain (source.charsFrom t.start)
  rw [hc, Lexer.lexAll_append_of_allBlank hb]

/-- The cells of a document between two bytes, with those around them. -/
lemma cells_split (d : Document) (ranges : List Span) {x width : Nat}
    (h : x + width ≤ d.bytes.length) :
    ∃ u w r, d.cells (Source.effectiveRanges ranges) = u ++ w ++ r ∧
      w = ((d.cells (Source.effectiveRanges ranges)).drop x).take width ∧ u.length = x ∧
      w.length = width := by
  refine ⟨(d.cells (Source.effectiveRanges ranges)).take x, _,
    ((d.cells (Source.effectiveRanges ranges)).drop x).drop width, ?_, rfl, ?_, ?_⟩
  · rw [List.append_assoc, List.take_append_drop, List.take_append_drop]
  · rw [List.length_take, Document.length_cells]
    omega
  · rw [List.length_take, List.length_drop, Document.length_cells]
    omega

/-- The last token of an item that may stand at the top of a document is a character at which the
document is parted by what closes statements. -/
lemma exists_closer {x : Nat} {i : Item} {rest : List SourceChar} (hx : PartedAt d x)
    (hc : Covers ((Source.ofDocument d ranges).charsFrom x) i.tokens rest) (hi : i.Is .topLevel) :
    ∃ (ts : List Token) (t : Token), i.tokens = ts ++ [t] ∧ t.kind.isCloser = true ∧
      endOf x i.tokens = t.stop ∧ t.stop ≤ (Source.ofDocument d ranges).endOfInput ∧
      ∃ (a ds : List Decoded) (e : Decoded) (b : List Decoded),
        d.decode = a ++ (ds ++ e :: b) ∧ widthOf a = x ∧ IsCloser e.char ∧
        x + (widthOf ds + e.width) = t.stop := by
  obtain ⟨ts, t, ht, hk⟩ := hi.closer
  refine ⟨ts, t, ht, hk, by rw [ht, endOf_append, endOf_cons, endOf_nil], ?_⟩
  rw [ht] at hc
  obtain ⟨mid, h1, h2⟩ := hc.split
  obtain ⟨v, hv⟩ := h1.suffix
  cases h2 with
  | @cons blanks piece cs _ _ _ hb hs hrest =>
    obtain ⟨c, rfl, hchar⟩ := hs.closer hk
    have hstop : c.stop = t.stop := by simpa using hs.stop
    have hfrom : c ∈ (Source.ofDocument d ranges).charsFrom x := by
      rw [hv]
      simp
    have hmem : c ∈ (Source.ofDocument d ranges).chars := by
      obtain ⟨u, hu, -⟩ := (Source.ofDocument d ranges).exists_charsFrom x
      rw [hu]
      exact List.mem_append_right u hfrom
    obtain ⟨a', e, b, hd, ha', hwidth, hechar⟩ := Source.exists_decode_of_mem_chars hmem
    obtain ⟨a, b', hd', ha⟩ := hx
    have hle := Source.le_byte_of_mem_charsFrom (Source.ordered_chars d ranges) hfrom
    have hpos : ∀ e ∈ a, 0 < e.width := fun e he =>
      Document.width_pos (d := d) (by rw [hd']; exact List.mem_append_left b' he)
    obtain ⟨ds, rfl, rfl⟩ := Source.exists_of_widthOf_le hpos (hd'.symm.trans hd) (by omega)
    refine ⟨?_, a, ds, e, b, hd', ha, ?_, ?_⟩
    · rw [← hstop]
      exact Source.stop_le_endOfInput (Source.ordered_chars d ranges) hmem
    · rw [hechar]
      exact hchar
    · rw [widthOf_append] at ha'
      rw [← hstop, SourceChar.stop]
      omega

/-- The characters of cells, moved back from where the cells begin. -/
lemma map_shift_back (encoding : Encoding) (x : Nat) (w : List Cell) :
    ((Source.ofCells encoding w).map (SourceChar.shift x)).map
      (fun c => { c with byte := c.byte - x }) = Source.ofCells encoding w := by
  rw [List.map_map]
  refine (List.map_congr_left fun c _ => ?_).trans (List.map_id _)
  show SourceChar.mk c.char (x + c.byte - x) c.width c.range = c
  rw [Nat.add_sub_cancel_left]

/-- The words of tokens that stand further on are the same once the tokens are moved back. -/
lemma words_back {x : Nat} {ts us : List Token}
    (h : (us.map (Lexer.moved x)).map Token.word = ts.map Token.word) :
    (ts.map (Token.back x)).map Token.word = us.map Token.word := by
  have hword : ∀ v : Token, ((Lexer.moved x v).word.1, (Lexer.moved x v).word.2.1 - x,
      (Lexer.moved x v).word.2.2 - x) = v.word := fun v => by
    show (v.word.1, x + v.word.2.1 - x, x + v.word.2.2 - x) = v.word
    rw [Nat.add_sub_cancel_left, Nat.add_sub_cancel_left]
  have hmap := congrArg (List.map fun q : Symbol × Nat × Nat => (q.1, q.2.1 - x, q.2.2 - x)) h
  rw [List.map_map, List.map_map, List.map_map] at hmap
  rw [List.map_map]
  exact hmap.symm.trans (List.map_congr_left fun v _ => hword v)

/-- The tokens of an item that ends a statement are read in the same way where the document goes on
after its cells, and where it does not. -/
lemma words_of_lexed {source : Source} {encoding : Encoding} {x : Nat} {w : List Cell} {i : Item}
    {ts : List Token} {t : Token} (ho : Ordered source.chars)
    (hchars : source.charsFrom x =
      (Source.ofCells encoding w).map (SourceChar.shift x) ++ source.charsFrom (x + w.length))
    (hc : Covers ((Source.ofCells encoding w).map (SourceChar.shift x)) i.tokens [])
    (hc' : Covers (source.charsFrom x) i.tokens (source.charsFrom (x + w.length)))
    (ht : i.tokens = ts ++ [t]) (hk : t.kind.isCloser = true) (hl : i.Lexed source) :
    (i.tokens.map (Token.back x)).map Token.word =
      (Lexer.lexAll .plain (Source.ofCells encoding w)).map Token.word := by
  obtain ⟨t₀, more, hmore⟩ : ∃ t₀ more, i.tokens = t₀ :: more := by
    rw [ht]
    cases ts with
    | nil => exact ⟨t, [], rfl⟩
    | cons t₀ ts => exact ⟨t₀, ts ++ [t], rfl⟩
  obtain ⟨us, hus⟩ := hl t₀ (by rw [hmore]; rfl)
  have hfrom : Lexer.lexAll .plain ((Source.ofCells encoding w).map (SourceChar.shift x) ++
      source.charsFrom (x + w.length)) = ts ++ t :: us := by
    rw [← hchars]
    rw [hmore] at hc'
    have hstart := Covers.tokensFrom_start ho hc'
    rw [hus, ht, List.append_assoc] at hstart
    exact hstart
  have horder : Ordered ((Source.ofCells encoding w).map (SourceChar.shift x) ++
      source.charsFrom (x + w.length)) := by
    obtain ⟨v, hv, -⟩ := source.exists_charsFrom x
    rw [hv, hchars] at ho
    exact ho.append.2
  rw [ht] at hc
  obtain ⟨ts', hts', hwords⟩ := Lexer.lexAll_append horder hfrom hc hk []
  have hnone : Lexer.lexAll .plain [] = [] := Lexer.lexAll_of_none rfl
  rw [List.append_nil, Lexer.lexAll_shift, hnone, List.append_nil] at hts'
  rw [← hts', ← ht] at hwords
  exact words_back hwords

/-- An item whose tokens cut up characters of a document stands on the cells of these characters. -/
theorem regular_of_covers {x : Nat} {i : Item} {rest : List SourceChar} (hx : PartedAt d x)
    (hc : Covers ((Source.ofDocument d ranges).charsFrom x) i.tokens rest) (hi : i.Is .topLevel)
    (hw : i.Whole) (hl : strict → i.Lexed (Source.ofDocument d ranges)) :
    x ≤ endOf x i.tokens ∧ endOf x i.tokens ≤ (Source.ofDocument d ranges).endOfInput ∧
    Regular strict d.encoding
      (((d.cells (Source.effectiveRanges ranges)).drop x).take (endOf x i.tokens - x))
      (i.map (Token.back x)) := by
  obtain ⟨ts, t, ht, hk, hend, hin, a, ds, e, b, hd, ha, he, hwidth⟩ := exists_closer hx hc hi
  have hsize := Source.endOfInput_le_size d ranges
  have hle : x ≤ t.stop := by omega
  obtain ⟨u, w, r, hcells, hslice, hu, hwlen⟩ :=
    @cells_split d ranges x (t.stop - x) (by omega)
  rw [hend, ← hslice]
  subst hu
  have hclosed : Closed d.encoding w := Closed.of_split hcells hd ha (by omega) he
  have hchars := (Source.charsFrom_slice hclosed hcells hd ha).2
  obtain ⟨-, rfl⟩ := hc.parted hx
  rw [hend, show t.stop = u.length + w.length by omega] at hc
  have hcover : Covers ((Source.ofCells d.encoding w).map (SourceChar.shift u.length)) i.tokens [] :=
    (hchars ▸ hc).of_append rfl
  refine ⟨hle, hin, hclosed, ?_, ?_, @Is.map (Token.back u.length) (fun _ => rfl) _ _ hi, hw.map,
    fun hs => ?_⟩
  · have hmap := @Covers.map _ _ _ hcover (· - u.length)
      (fun c : SourceChar => { c with byte := c.byte - u.length }) (Token.back u.length)
      (fun c hc => ⟨rfl, rfl, rfl, ?_⟩) fun _ => ⟨rfl, rfl, rfl⟩
    · rw [map_shift_back] at hmap
      rwa [tokens_map]
    · obtain ⟨c', -, rfl⟩ := List.mem_map.1 hc
      show u.length + c'.byte - u.length + c'.width = u.length + c'.byte + c'.width - u.length
      omega
  · rw [tokens_map, ht, List.map_append, endOf_append]
    show t.stop - u.length = _
    exact hwlen.symm
  · rw [tokens_map]
    exact words_of_lexed (Source.ordered_chars d ranges) hchars hcover hc ht hk (hl hs)

/-- No two rules have the same symbol. -/
lemma Rule.symbol_injective {a b : Rule} (h : a.symbol = b.symbol) : a = b := by
  cases a <;> cases b <;> first | rfl | cases h

/-- A node that is built of an item of a document is known by the cells that it stands on. -/
theorem regrown_of_built {x : Nat} {f : Option Field} {rule : Rule} {parts : List Item} {g : Green}
    {rest : List SourceChar} (hd : d.bytes.length ≤ limit) (hx : PartedAt d x)
    (hc : Covers ((Source.ofDocument d ranges).charsFrom x) (Item.node none rule parts).tokens rest)
    (hw : (Item.node none rule parts).Whole)
    (hp : rule ∈ reusableAtTop →
      (Item.node none rule parts).Proper strict (Source.ofDocument d ranges))
    (hg : g.bare = (built (Source.ofDocument d ranges).positionAt
      ((Source.ofDocument d ranges).positionAt x) (.node f rule parts)).1.node) :
    Regrown strict d.encoding (((d.cells (Source.effectiveRanges ranges)).drop x).take
      (endOf x (Item.node none rule parts).tokens - x)) g := by
  intro he rule' hr hs
  have hlabel := congrArg Green.label hg
  rw [Green.label_bare] at hlabel
  obtain rfl : rule = rule' := by
    have hsymbol : g.label.symbol = rule.symbol := congrArg Label.symbol hlabel
    exact Rule.symbol_injective (hsymbol.symm.trans hs)
  have herror : (Item.node none rule parts).hasError = false := by
    have h := congrArg Label.hasError hlabel
    rw [hasError_built] at h
    exact h.symm.trans he
  obtain ⟨his, hlexed⟩ := hp hr herror
  obtain ⟨hle, hin, hreg⟩ := @regular_of_covers d ranges strict x _ rest hx hc his hw hlexed
  have hsize := Source.endOfInput_le_size d ranges
  obtain ⟨u, w, r, hcells, hslice, hu, hwlen⟩ :=
    @cells_split d ranges x (endOf x (Item.node none rule parts).tokens - x) (by omega)
  rw [← hslice] at hreg ⊢
  refine ⟨mapAll (Token.back x) parts, hreg, ?_⟩
  subst hu
  have hbuilt := @built_slice d ranges u w r _ (Lexer.moved u.length) hd hcells hx hreg.closed
    hreg.whole hreg.inOrder fun _ => ⟨rfl, rfl, rfl⟩
  -- what is moved back and forth stays where it is
  have horder := hc.inOrder_charsFrom (Nat.le_trans hle hin)
  have hid : ((Item.node none rule parts).map (Token.back u.length)).map (Lexer.moved u.length) =
      .node none rule parts := by
    rw [map_map]
    refine map_of_id fun t ht => ?_
    have hstart : u.length ≤ t.start ∧ t.start < t.stop := by
      obtain ⟨a, b, hab⟩ := List.append_of_mem ht
      have ho : InOrder u.length (a ++ t :: b) _ := hab ▸ horder
      rw [inOrder_append] at ho
      have h1 := ho.1.le
      have h2 := ho.2.1
      have h3 := ho.2.2.1
      omega
    show Token.mk t.kind (u.length + (t.start - u.length)) (u.length + (t.stop - u.length))
      t.lookahead = t
    rw [Nat.add_sub_cancel' hstart.1, Nat.add_sub_cancel' (by omega)]
  rw [hid] at hbuilt
  rw [hg]
  exact (congrArg (fun q : Child Green × Length => q.1.node) hbuilt).symm

/-! ## From cells to a document -/

/-- Whether an item is what a subtree that is taken over stands for, from a byte of a source on. -/
structure StandsFor (strict : Prop) (source : Source) (x : Nat) (g : Green) (i : Item) : Prop where
  is : i.Is .topLevel
  whole : i.Whole
  covers : Covers (source.charsFrom x) i.tokens (source.charsFrom (x + g.width))
  stop : endOf x i.tokens = x + g.width
  built : built source.positionAt (source.positionAt x) i =
    built source.positionAt (source.positionAt x) (.reused g)
  lexed : strict → tokensFrom source x = i.tokens ++ tokensFrom source (x + g.width)
  ahead : ∀ t ∈ i.tokens, t.lookahead = Lexer.widthAhead (source.charsFrom t.stop)

/-- A token `x` bytes further on in a source. -/
def Token.graft (source : Source) (x : Nat) (t : Token) : Token :=
  ⟨t.kind, x + t.start, x + t.stop, Lexer.widthAhead (source.charsFrom (x + t.stop))⟩

/-- What tokens cut up depends on what they say. -/
lemma Covers.of_words {cs rest : List SourceChar} {ts : List Token} (h : Covers cs ts rest) :
    ∀ {us : List Token}, us.map Token.word = ts.map Token.word → Covers cs us rest := by
  induction h with
  | nil =>
    intro us hus
    obtain rfl := List.map_eq_nil_iff.1 hus
    exact .nil
  | @cons blanks piece cs t ts rest hb hs _ ih =>
    intro us hus
    cases us with
    | nil => cases hus
    | cons u us =>
      obtain ⟨hw, hrest⟩ := List.cons.inj hus
      obtain ⟨hk, hstart, hstop⟩ := Token.word_eq_iff.1 hw
      refine .cons hb ⟨?_, ?_, hs.range, ?_⟩ (ih hrest)
      · rw [hstart]
        exact hs.start
      · rw [hstop]
        exact hs.stop
      · rw [hk]
        exact hs.closer

/-- Tokens that are those of some cells by themselves are those that are read where the cells stand. -/
lemma tokensFrom_graft {u w r : List Cell} {i : Item}
    (hcells : d.cells (Source.effectiveRanges ranges) = u ++ w ++ r) (hu : PartedAt d u.length)
    (hi : Regular strict d.encoding w i) (hs : strict) :
    tokensFrom (.ofDocument d ranges) u.length =
      i.tokens.map (Token.graft (.ofDocument d ranges) u.length) ++
        tokensFrom (.ofDocument d ranges) (u.length + w.length) := by
  have ho := Source.ordered_chars d ranges
  obtain ⟨a, b, hab, ha⟩ := hu
  have hchars := (Source.charsFrom_slice hi.closed hcells hab ha).2
  -- the tokens of the cells by themselves, moved to where the cells stand
  have halone : Lexer.lexAll .plain ((Source.ofCells d.encoding w).map (SourceChar.shift u.length) ++ []) =
      (Lexer.lexAll .plain (Source.ofCells d.encoding w)).map (Lexer.moved u.length) := by
    rw [List.append_nil, Lexer.lexAll_shift]
  have hwords : ((Lexer.lexAll .plain (Source.ofCells d.encoding w)).map
      (Lexer.moved u.length)).map Token.word =
      (i.tokens.map (Token.graft (.ofDocument d ranges) u.length)).map Token.word := by
    have h := congrArg (List.map fun q : Symbol × Nat × Nat =>
      (q.1, u.length + q.2.1, u.length + q.2.2)) (hi.lexed hs)
    rw [List.map_map, List.map_map] at h
    rw [List.map_map, List.map_map]
    exact h.symm
  have hcover : Covers ((Source.ofCells d.encoding w).map (SourceChar.shift u.length))
      (i.tokens.map (Token.graft (.ofDocument d ranges) u.length)) [] :=
    @Covers.map _ _ _ hi.covers (u.length + ·) (SourceChar.shift u.length)
      (Token.graft (Source.ofDocument d ranges) u.length)
      (fun c _ => ⟨rfl, rfl, rfl, Nat.add_assoc ..⟩) fun t => ⟨rfl, rfl, rfl⟩
  have hcover := hcover.of_words hwords
  obtain ⟨ts, t, ht, hk⟩ := hi.is.closer
  generalize (Lexer.lexAll .plain (Source.ofCells d.encoding w)).map (Lexer.moved u.length) = us
    at halone hwords hcover
  obtain ⟨us, v, rfl, hv⟩ : ∃ (us' : List Token) (v : Token), us = us' ++ [v] ∧ v.kind = t.kind := by
    rw [ht, List.map_append, List.map_append] at hwords
    obtain ⟨us', vs, rfl, -, hvs⟩ := List.map_eq_append_iff.1 hwords
    obtain ⟨v, vs', rfl, hv, hnil⟩ := List.map_eq_cons_iff.1 hvs
    obtain rfl := List.map_eq_nil_iff.1 hnil
    exact ⟨us', v, rfl, (Token.word_eq_iff.1 hv).1⟩
  have horder : Ordered ((Source.ofCells d.encoding w).map (SourceChar.shift u.length) ++ []) := by
    obtain ⟨v, hv, -⟩ := (Source.ofDocument d ranges).exists_charsFrom u.length
    rw [hv, hchars] at ho
    rw [List.append_nil]
    exact ho.append.2.append.1
  obtain ⟨ts', hts', hw'⟩ := Lexer.lexAll_append horder halone hcover (by rw [hv]; exact hk)
    ((Source.ofDocument d ranges).charsFrom (u.length + w.length))
  have hfrom : tokensFrom (.ofDocument d ranges) u.length =
      ts' ++ tokensFrom (.ofDocument d ranges) (u.length + w.length) := by
    show Lexer.lexAll .plain ((Source.ofDocument d ranges).charsFrom u.length) = _
    rw [hchars]
    exact hts'
  have heq : ts' = i.tokens.map (Token.graft (.ofDocument d ranges) u.length) := by
    refine eq_of_words (hw'.trans hwords) fun t ht v hv hstop => ?_
    obtain ⟨v', -, rfl⟩ := List.mem_map.1 hv
    have hmem : t ∈ tokensFrom (.ofDocument d ranges) u.length := by
      rw [hfrom]
      exact List.mem_append_left _ ht
    rw [lookahead_of_mem_tokensFrom ho hmem, hstop]
    rfl
  rw [hfrom, heq]

/-- A node that was parsed from some cells stands for an item where the cells stand again. -/
theorem Regrown.graft {x : Nat} {g : Green} {rule : Rule} (hd : d.bytes.length ≤ limit)
    (hx : PartedAt d x) (hfit : x + g.width ≤ d.bytes.length)
    (h : Regrown strict d.encoding (((d.cells (Source.effectiveRanges ranges)).drop x).take g.width) g)
    (he : g.label.hasError = false) (hr : rule ∈ reusableAtTop)
    (hs : g.label.symbol = rule.symbol) :
    ∃ parts, StandsFor strict (Source.ofDocument d ranges) x g (.node none rule parts) := by
  obtain ⟨parts, hreg, hg⟩ := h he rule hr hs
  obtain ⟨u, w, r, hcells, hslice, hu, hw⟩ := @cells_split d ranges x g.width hfit
  rw [← hslice] at hreg hg
  subst hu
  obtain ⟨a, b, hab, ha⟩ := id hx
  have hchars := (Source.charsFrom_slice hreg.closed hcells hab ha).2
  have hbuilt := @built_slice d ranges u w r _ (Token.graft (Source.ofDocument d ranges) u.length) hd
    hcells hx hreg.closed hreg.whole hreg.inOrder fun t => ⟨rfl, rfl, rfl⟩
  have hcovers : Covers ((Source.ofDocument d ranges).charsFrom u.length)
      ((Item.node none rule parts).map (Token.graft (Source.ofDocument d ranges) u.length)).tokens
      ((Source.ofDocument d ranges).charsFrom (u.length + g.width)) := by
    have hmap := @Covers.map _ _ _ hreg.covers (u.length + ·) (SourceChar.shift u.length)
      (Token.graft (Source.ofDocument d ranges) u.length)
      (fun c _ => ⟨rfl, rfl, rfl, Nat.add_assoc ..⟩) fun t => ⟨rfl, rfl, rfl⟩
    rw [hchars, tokens_map, ← hw]
    exact hmap.append_right _
  have hstop : endOf u.length ((Item.node none rule parts).map
      (Token.graft (Source.ofDocument d ranges) u.length)).tokens = u.length + g.width := by
    obtain ⟨ts, t, ht, -⟩ := hreg.is.closer
    have h := hreg.stop
    rw [ht, endOf_append, endOf_cons, endOf_nil] at h
    rw [tokens_map, ht, List.map_append, endOf_append]
    show u.length + t.stop = _
    rw [h, hw]
  have hkind : ∀ t, (Token.graft (Source.ofDocument d ranges) u.length t).kind = t.kind := fun _ => rfl
  have hwhole : ((Item.node none rule parts).map
      (Token.graft (Source.ofDocument d ranges) u.length)).Whole := hreg.whole.map
  refine ⟨mapAll (Token.graft (Source.ofDocument d ranges) u.length) parts, hreg.is.map hkind,
    hwhole, hcovers, hstop, ?_, fun hstrict => ?_, fun t ht => ?_⟩
  · have horder := Item.Moves.inOrder (f := Token.graft (Source.ofDocument d ranges) u.length)
      (fun t => ⟨rfl, rfl, rfl⟩) hreg.inOrder
    rw [← tokens_map, Nat.add_zero, hw] at horder
    obtain ⟨⟨a', hlaid⟩, -⟩ := laid_built (Source.coherent_positionAt d ranges) hwhole horder
      (by omega)
    rw [hstop, hbuilt, hg] at hlaid
    have htotal := hlaid.add_total (Source.coherent_positionAt d ranges) (by omega)
    rw [Green.total_bare] at htotal
    refine hbuilt.trans ?_
    rw [hreg.stop, hw, ← htotal, built, ← hg]
    rfl
  · have h := tokensFrom_graft hcells hx hreg hstrict
    rw [hw, ← tokens_map] at h
    exact h
  · have hmem : t ∈ ((Item.node none rule parts).map
        (Token.graft (Source.ofDocument d ranges) u.length)).tokens := ht
    rw [tokens_map] at hmem
    obtain ⟨t, -, rfl⟩ := List.mem_map.1 hmem
    rfl

end

end Reparse.C
