import Reparse.Proofs.Layout
import Reparse.Proofs.Slices
import Reparse.Tree.Reuse

/-!
# Editing

Edits of a text, of its cells and of its tree go together. Where an edit turns one text into another
(`Edit.Turns`), the ranges that move along with it hold the same bytes outside the replaced stretch
(`cells_turns`), and the nodes of the tree that the edit leaves without a mark stand where the cells
that they were built from now are (`Green.Holds.edit`). So what held of such a node and its cells
when it was built holds of the nodes that a search finds (`holds_of_mem_candidatesAt`).
-/

namespace Reparse

/-- Whether an edit turns `w` into `w'`, by its bytes: what lies between the start and the old end is
replaced by as much as reaches to the new end. -/
structure Edit.Turns {α : Type} (e : Edit) (w w' : List α) : Prop where
  start_le : e.start.bytes ≤ e.oldEnd.bytes
  oldEnd_le : e.oldEnd.bytes ≤ w.length
  le_newEnd : e.start.bytes ≤ e.newEnd.bytes
  text : ∃ mid, mid.length = e.newEnd.bytes - e.start.bytes ∧
    w' = w.take e.start.bytes ++ mid ++ w.drop e.oldEnd.bytes

namespace Edit.Turns

variable {α : Type} {e : Edit} {w w' : List α}

/-- An edit changes the length by what it puts in and takes out. -/
lemma length (h : e.Turns w w') :
    w'.length = e.newEnd.bytes + (w.length - e.oldEnd.bytes) := by
  obtain ⟨mid, hm, rfl⟩ := h.text
  have h1 := h.start_le
  have h2 := h.oldEnd_le
  have h3 := h.le_newEnd
  simp only [List.length_append, List.length_take, List.length_drop]
  omega

/-- Before the start, nothing changes. -/
lemma take (h : e.Turns w w') {k : Nat} (hk : k ≤ e.start.bytes) : w'.take k = w.take k := by
  obtain ⟨mid, -, rfl⟩ := h.text
  have h1 := h.start_le
  have h2 := h.oldEnd_le
  rw [List.append_assoc, List.take_append_of_le_length (by rw [List.length_take]; omega),
    List.take_take, Nat.min_eq_left hk]

/-- After the old end, nothing changes. -/
lemma drop (h : e.Turns w w') {k : Nat} (hk : e.oldEnd.bytes ≤ k) :
    w'.drop (e.newEnd.bytes + (k - e.oldEnd.bytes)) = w.drop k := by
  obtain ⟨mid, hm, rfl⟩ := h.text
  have h1 := h.start_le
  have h2 := h.oldEnd_le
  have h3 := h.le_newEnd
  have hl : (w.take e.start.bytes ++ mid).length = e.newEnd.bytes := by
    rw [List.length_append, List.length_take]
    omega
  rw [← hl, List.drop_length_add_append, List.drop_drop]
  congr 1
  omega

/-- The same from a place on that is not after the start. -/
lemma relativeTo (h : e.Turns w w') {left : Length} (hl : left.bytes ≤ e.start.bytes) :
    (e.relativeTo left).Turns (w.drop left.bytes) (w'.drop left.bytes) := by
  obtain ⟨mid, hm, hw⟩ := h.text
  have h1 := h.start_le
  have h2 := h.oldEnd_le
  have h3 := h.le_newEnd
  refine ⟨?_, ?_, ?_, mid, ?_, ?_⟩
  · simp only [Edit.relativeTo, Length.bytes_beyond]
    omega
  · simp only [Edit.relativeTo, Length.bytes_beyond, List.length_drop]
    omega
  · simp only [Edit.relativeTo, Length.bytes_beyond]
    omega
  · simp only [Edit.relativeTo, Length.bytes_beyond]
    omega
  · simp only [Edit.relativeTo, Length.bytes_beyond, hw]
    rw [List.append_assoc, List.drop_append_of_le_length (by rw [List.length_take]; omega),
      List.drop_take, List.drop_drop, ← List.append_assoc]
    congr 2
    omega

/-- An edit that changes nothing. -/
lemma void {α : Type} {e : Edit} {w : List α} (hs : e.oldEnd.bytes = e.start.bytes)
    (hn : e.newEnd.bytes = e.start.bytes) (hl : e.start.bytes ≤ w.length) : e.Turns w w := by
  refine ⟨by omega, by omega, by omega, [], by simp [hn], ?_⟩
  rw [List.append_nil, hs, List.take_append_drop]

/-- An edit that takes away the first part. -/
lemma dropped {α : Type} {e : Edit} {w w' : List α} (hs : e.start.bytes = 0)
    (hn : e.newEnd.bytes = 0) (hl : e.oldEnd.bytes ≤ w.length) (h : w' = w.drop e.oldEnd.bytes) :
    e.Turns w w' := by
  refine ⟨by omega, hl, by omega, [], by simp [hn], ?_⟩
  rw [hs, h]
  rfl

/-- From a place inside what an edit takes away, it takes away the first part. -/
lemma dropped_relativeTo {α : Type} {e : Edit} {left : Length} {w w' : List α}
    (he : e.newEnd = e.start) (hs : e.start.bytes ≤ left.bytes) (hl : left.bytes ≤ e.oldEnd.bytes)
    (ho : e.oldEnd.bytes ≤ w.length) (h : w' = w.drop e.oldEnd.bytes) :
    (e.relativeTo left).Turns (w.drop left.bytes) w' := by
  have hold : (e.relativeTo left).oldEnd.bytes = e.oldEnd.bytes - left.bytes :=
    Length.bytes_beyond ..
  refine .dropped ?_ ?_ ?_ ?_
  · simp only [Edit.relativeTo, Length.bytes_beyond]
    omega
  · simp only [Edit.relativeTo, Length.bytes_beyond, he]
    omega
  · rw [hold, List.length_drop]
    omega
  · rw [hold, List.drop_drop, Nat.add_sub_cancel' hl, h]

end Edit.Turns

/-! ## Ranges -/

/-- Ranges hold a byte before the start of an edit if they do so after it. -/
lemma Span.shift_before {e : Edit} (r : Span) {x : Nat} (h1 : e.start.bytes ≤ e.oldEnd.bytes)
    (h2 : e.start.bytes ≤ e.newEnd.bytes) (hx : x < e.start.bytes) (hlimit : x < limit) :
    ((r.shift e).start.bytes ≤ x ↔ r.start.bytes ≤ x) ∧
      ((r.shift e).stop.bytes ≤ x ↔ r.stop.bytes ≤ x) := by
  unfold Span.shift
  split
  · exact ⟨Iff.rfl, Iff.rfl⟩
  have hcarry : ∀ p : Length, (e.carry p).bytes = min (e.newEnd.bytes + (p.bytes - e.oldEnd.bytes)) limit :=
    fun _ => rfl
  constructor
  · show (Span.shiftStart e r.start).bytes ≤ _ ↔ _
    unfold Span.shiftStart
    split
    · rw [hcarry]
      omega
    · split <;> omega
  · show (Span.shiftStop e r.stop).bytes ≤ _ ↔ _
    unfold Span.shiftStop
    split
    · split
      · exact Iff.rfl
      · rw [hcarry]
        omega
    · split <;> omega

/-- Ranges hold a byte after the old end of an edit if they hold the byte that it becomes. -/
lemma Span.shift_after {e : Edit} (r : Span) {k : Nat} (h1 : e.start.bytes ≤ e.oldEnd.bytes)
    (h2 : e.start.bytes ≤ e.newEnd.bytes) (hk : e.oldEnd.bytes + k < limit)
    (hk' : e.newEnd.bytes + k < limit) :
    ((r.shift e).start.bytes ≤ e.newEnd.bytes + k ↔ r.start.bytes ≤ e.oldEnd.bytes + k) ∧
      ((r.shift e).stop.bytes ≤ e.newEnd.bytes + k ↔ r.stop.bytes ≤ e.oldEnd.bytes + k) := by
  unfold Span.shift
  split
  · rename_i hr
    have hstart : r.start.bytes = 0 := congrArg (fun s : Span => s.start.bytes) hr
    have hstop : r.stop.bytes = limit := congrArg (fun s : Span => s.stop.bytes) hr
    omega
  have hcarry : ∀ p : Length, (e.carry p).bytes = min (e.newEnd.bytes + (p.bytes - e.oldEnd.bytes)) limit :=
    fun _ => rfl
  constructor
  · show (Span.shiftStart e r.start).bytes ≤ _ ↔ _
    unfold Span.shiftStart
    split
    · rw [hcarry]
      omega
    · split <;> omega
  · show (Span.shiftStop e r.stop).bytes ≤ _ ↔ _
    unfold Span.shiftStop
    split
    · split
      · omega
      · rw [hcarry]
        omega
    · split <;> omega

namespace Source

/-- Where changed ranges hold one byte as the ranges hold another, it is the same range. -/
lemma rangeAt_map {f : Span → Span} {ranges : List Span} {x y : Nat}
    (h : ∀ r ∈ ranges, ((f r).start.bytes ≤ y ↔ r.start.bytes ≤ x) ∧
      ((f r).stop.bytes ≤ y ↔ r.stop.bytes ≤ x)) :
    rangeAt (ranges.map f) y = rangeAt ranges x := by
  have htake : ranges.takeWhile ((fun r : Span => decide (r.stop.bytes ≤ y)) ∘ f) =
      ranges.takeWhile fun r => decide (r.stop.bytes ≤ x) := by
    induction ranges with
    | nil => rfl
    | cons r ranges ih =>
      have hr := (h r (List.mem_cons_self ..)).2
      have ih := ih fun s hs => h s (List.mem_cons_of_mem r hs)
      simp only [List.takeWhile_cons, Function.comp_apply, hr, ih]
  unfold rangeAt
  rw [List.takeWhile_map, List.length_map, htake]
  dsimp only
  rw [← List.map_drop, List.head?_map]
  cases hd : (ranges.drop (ranges.takeWhile fun r => decide (r.stop.bytes ≤ x)).length).head? with
  | none => rfl
  | some r =>
    obtain ⟨h1, h2⟩ := h r (List.mem_of_mem_drop (List.mem_of_mem_head? hd))
    have hc : (f r).containsByte y = r.containsByte x := by
      simp only [Span.containsByte, h1, ← Nat.not_le, h2]
    simp only [Option.map_some, Option.bind_some, hc]

/-- Ranges that are moved have the same effect as effective ranges that are. -/
lemma effectiveRanges_map (e : Edit) (ranges : List Span) :
    effectiveRanges (ranges.map (Span.shift e)) = (effectiveRanges ranges).map (Span.shift e) := by
  cases ranges <;> rfl

end Source

/-- Whether an edit turns the bytes of one document into those of another one of the same encoding. -/
structure Edit.Rewrites (e : Edit) (d d' : Document) : Prop where
  turns : e.Turns d.bytes d'.bytes
  encoding : d'.encoding = d.encoding

/-- The cells of a text turn as its bytes do, if the ranges move along with the edit. -/
theorem cells_turns {d d' : Document} {e : Edit} (ranges : List Span)
    (h : e.Turns d.bytes d'.bytes) (hd : d.bytes.length ≤ limit) (hd' : d'.bytes.length ≤ limit) :
    e.Turns (d.cells ranges) (d'.cells (ranges.map (Span.shift e))) := by
  have h1 := h.start_le
  have h2 := h.oldEnd_le
  have h3 := h.le_newEnd
  have hl := h.length
  have htake : (d'.cells (ranges.map (Span.shift e))).take e.start.bytes =
      (d.cells ranges).take e.start.bytes := by
    refine List.ext_getElem? fun x => ?_
    rw [List.getElem?_take, List.getElem?_take]
    split
    · rename_i hx
      have hb : d'.bytes[x]? = d.bytes[x]? := by
        rw [← List.getElem?_take_of_lt hx, h.take (Nat.le_refl _), List.getElem?_take_of_lt hx]
      have hr := Source.rangeAt_map fun r (_ : r ∈ ranges) =>
        Span.shift_before r h1 h3 hx (show x < limit by omega)
      rw [Document.cells, Document.cells, List.getElem?_mapIdx, List.getElem?_mapIdx, hb, hr]
    · rfl
  have hdrop : (d'.cells (ranges.map (Span.shift e))).drop e.newEnd.bytes =
      (d.cells ranges).drop e.oldEnd.bytes := by
    refine List.ext_getElem? fun k => ?_
    have hb : d'.bytes[e.newEnd.bytes + k]? = d.bytes[e.oldEnd.bytes + k]? := by
      have := h.drop (Nat.le_refl e.oldEnd.bytes)
      rw [Nat.sub_self, Nat.add_zero] at this
      rw [← List.getElem?_drop, this, List.getElem?_drop]
    rw [List.getElem?_drop, List.getElem?_drop, Document.cells, Document.cells,
      List.getElem?_mapIdx, List.getElem?_mapIdx, hb]
    cases hg : d.bytes[e.oldEnd.bytes + k]? with
    | none => rfl
    | some b =>
      obtain ⟨hlt, -⟩ := List.getElem?_eq_some_iff.1 hg
      have hr := Source.rangeAt_map fun r (_ : r ∈ ranges) =>
        Span.shift_after (e := e) r h1 h3 (k := k) (by omega) (by omega)
      rw [Option.map_some, Option.map_some, hr]
  refine ⟨h1, by rw [Document.length_cells]; exact h2, h3,
    ((d'.cells (ranges.map (Span.shift e))).drop e.start.bytes).take
      (e.newEnd.bytes - e.start.bytes), ?_, ?_⟩
  · rw [List.length_take, List.length_drop, Document.length_cells]
    omega
  · rw [← htake, ← hdrop, List.append_assoc, ← List.take_append_drop e.start.bytes
      (d'.cells (ranges.map (Span.shift e)))]
    congr 1
    · rw [List.take_append_drop]
    · rw [List.take_append_drop]
      conv => lhs; rw [← List.take_append_drop (e.newEnd.bytes - e.start.bytes)
        ((d'.cells (ranges.map (Span.shift e))).drop e.start.bytes)]
      rw [List.drop_drop, Nat.add_sub_cancel' h3]

/-! ## Trees over cells -/

namespace Green

variable {α : Type}

mutual

/-- Whether a tree stands on cells, from where its padding begins: it reaches no further than they do,
its children take no more than it does itself, the first of them from where it begins, and `P` holds
of every node without a mark and the cells of that node. -/
def Holds (P : List α → Green → Prop) (w : List α) : Green → Prop
  | node l cs =>
    l.padding.bytes + l.size.bytes ≤ w.length ∧ widthOf cs ≤ l.padding.bytes + l.size.bytes ∧
    (∀ c ∈ cs.head?, c.node.label.padding.bytes = l.padding.bytes) ∧
    (l.hasChanges = false → P (w.take (l.padding.bytes + l.size.bytes)) (node l cs)) ∧
    HoldsAll P w cs

/-- The same of trees that follow one another. -/
def HoldsAll (P : List α → Green → Prop) (w : List α) : List (Child Green) → Prop
  | [] => True
  | c :: rest => c.node.Holds P w ∧ HoldsAll P (w.drop c.node.width) rest

end

variable {P : List α → Green → Prop}

/-- A tree is no wider than the cells that it stands on. -/
lemma Holds.width_le {w : List α} {g : Green} (h : g.Holds P w) : g.width ≤ w.length := by
  cases g
  exact h.1

mutual

/-- What a tree stands on are its own cells, not those after it. -/
lemma Holds.of_take : ∀ {g : Green} {w w' : List α}, g.Holds P w →
    w'.take g.width = w.take g.width → g.width ≤ w'.length → g.Holds P w'
  | node l cs, w, w', ⟨_, hc, hp, hP, hs⟩, ht, hw => by
    refine ⟨hw, hc, hp, fun hl => ?_, HoldsAll.of_take hs ?_ (Nat.le_trans hc hw)⟩
    · rw [show w'.take (l.padding.bytes + l.size.bytes) = w.take (l.padding.bytes + l.size.bytes)
        from ht]
      exact hP hl
    · have hmin : min (widthOf cs) (node l cs).width = widthOf cs := Nat.min_eq_left hc
      have := congrArg (List.take (widthOf cs)) ht
      rwa [List.take_take, List.take_take, hmin] at this

/-- What trees stand on are their own cells, not those after them. -/
lemma HoldsAll.of_take : ∀ {cs : List (Child Green)} {w w' : List α}, HoldsAll P w cs →
    w'.take (widthOf cs) = w.take (widthOf cs) → widthOf cs ≤ w'.length → HoldsAll P w' cs
  | [], _, _, _, _, _ => trivial
  | c :: rest, w, w', ⟨hc, hr⟩, ht, hw => by
    rw [widthOf] at ht hw
    refine ⟨hc.of_take ?_ (by omega), HoldsAll.of_take hr ?_ ?_⟩
    · have := congrArg (List.take c.node.width) ht
      rwa [List.take_take, List.take_take, Nat.min_eq_left (Nat.le_add_right _ _)] at this
    · have := congrArg (List.drop c.node.width) ht
      rwa [List.drop_take, List.drop_take, Nat.add_sub_cancel_left] at this
    · rw [List.length_drop]
      omega

end

end Green

/-! ## The extents of an edited node -/

/-- The number of bytes up to the end of `width` bytes after an edit. -/
def Edit.widthAfter (e : Edit) (width : Nat) : Nat :=
  if e.start.bytes < width ∨ (e.start.bytes = width ∧ e.oldEnd.bytes = e.start.bytes) then
    e.newEnd.bytes + (width - e.oldEnd.bytes)
  else width

/-- Where an edit moves a byte, and so how many bytes it makes of a padding. -/
def Edit.shiftByte (e : Edit) (x : Nat) : Nat :=
  if e.oldEnd.bytes ≤ x then e.newEnd.bytes + (x - e.oldEnd.bytes)
  else if e.start.bytes < x then e.newEnd.bytes
  else x

/-- Where the first of some bytes are taken away, the others are left. -/
lemma Edit.widthAfter_dropped {e : Edit} {left : Length} {width : Nat} (he : e.newEnd = e.start)
    (hs : e.start.bytes ≤ left.bytes) :
    (e.relativeTo left).widthAfter width = width - (e.oldEnd.bytes - left.bytes) := by
  simp only [Edit.widthAfter, Edit.relativeTo, Length.bytes_beyond, he]
  split <;> omega

/-- Some bytes that take in the new text end where their last byte does after the edit. -/
lemma Edit.widthAfter_relativeTo {e : Edit} {left : Length} {width : Nat}
    (h1 : e.start.bytes ≤ e.oldEnd.bytes) (h2 : e.start.bytes ≤ e.newEnd.bytes)
    (hl : left.bytes ≤ e.start.bytes) (h : e.start.bytes < left.bytes + width ∨
      (left.bytes + width = e.start.bytes ∧ e.oldEnd.bytes = e.start.bytes)) :
    left.bytes + (e.relativeTo left).widthAfter width =
      e.newEnd.bytes + (left.bytes + width - e.oldEnd.bytes) := by
  simp only [Edit.widthAfter, Edit.relativeTo, Length.bytes_beyond]
  rw [if_pos (by omega)]
  omega

/-- Bytes within a text end within the edited one. -/
lemma Edit.Turns.widthAfter_le {α : Type} {e : Edit} {w w' : List α} (h : e.Turns w w') {width : Nat}
    (hle : width ≤ w.length) : e.widthAfter width ≤ w'.length := by
  have hl := h.length
  have hn := h.le_newEnd
  unfold Edit.widthAfter
  split <;> omega

/-- Whether so many trees that take the `width` bytes from `left` on take `width'` bytes after an edit:
they lie before it, or their last byte is where the edit moves it. -/
def Edit.Resizes (e : Edit) (left count width width' : Nat) : Prop :=
  (left + width ≤ e.start.bytes ∧
      (left + width ≠ e.start.bytes ∨ count = 0 ∨ e.oldEnd.bytes ≠ e.start.bytes) ∧ width' = width) ∨
  ((e.start.bytes < left + width ∨ e.start.bytes = left + width ∧ e.oldEnd.bytes = e.start.bytes) ∧
    left + width' = e.newEnd.bytes + (left + width - e.oldEnd.bytes))

namespace Edit.Resizes

variable {e : Edit} {left count first width width' : Nat}

/-- A tree that an edit leaves as it is may come before the others. -/
lemma cons (h : e.Resizes (left + first) count width width')
    (hne : left + first = e.start.bytes → e.oldEnd.bytes ≠ e.start.bytes) (hnone : count = 0 → width = 0) :
    e.Resizes left (count + 1) (first + width) (first + width') := by
  unfold Edit.Resizes at h ⊢
  rw [← Nat.add_assoc, ← Nat.add_assoc]
  rcases h with ⟨hle', hends, rfl⟩ | ⟨hlt, hmoved⟩
  · refine .inl ⟨hle', ?_, rfl⟩
    rcases hends with hends | hends | hends
    · exact .inl hends
    · -- with no trees after it, the first one ends where all of them do
      by_cases hend : left + first = e.start.bytes
      · exact .inr (.inr (hne hend))
      · exact .inl (by rwa [hnone hends])
    · exact .inr (.inr hends)
  · exact .inr ⟨hlt, hmoved⟩

/-- Trees take no more of an edited text than what they are inside of. -/
lemma le_widthAfter {whole : Nat} (h : e.Resizes 0 count width width') (hle : width ≤ whole)
    (h2 : e.start.bytes ≤ e.newEnd.bytes) : width' ≤ e.widthAfter whole := by
  unfold Edit.Resizes at h
  rw [Nat.zero_add, Nat.zero_add] at h
  rw [Edit.widthAfter]
  rcases h with ⟨hstart, -, rfl⟩ | ⟨hend, hmoved⟩
  · split <;> omega
  · rw [if_pos (by omega)]
    omega

/-- Where there are trees, all of them end where their last byte is moved. -/
lemma eq_widthAfter (h : e.Resizes 0 count width width') (hne : count ≠ 0) :
    width' = e.widthAfter width := by
  unfold Edit.Resizes at h
  rw [Nat.zero_add, Nat.zero_add] at h
  rw [Edit.widthAfter]
  rcases h with ⟨hle, hends, rfl⟩ | ⟨hend, hmoved⟩
  · rw [if_neg (by omega)]
  · rw [if_pos (by omega)]
    exact hmoved

end Edit.Resizes

/-- An edit that changes nothing leaves all extents. -/
lemma Edit.after_of_void {e : Edit} (hs : e.oldEnd.bytes = e.start.bytes)
    (hn : e.newEnd.bytes = e.start.bytes) (count : Nat) :
    e.widthAfter count = count ∧ e.shiftByte count = count := by
  unfold Edit.widthAfter Edit.shiftByte
  constructor
  · split <;> omega
  · split
    · omega
    · split <;> omega

/-- The extents of a label after an edit, where no count grows beyond its domain. -/
lemma Label.bytes_reshape {e : Edit} {l : Label} (h1 : e.start.bytes ≤ e.oldEnd.bytes)
    (h2 : e.start.bytes ≤ e.newEnd.bytes) (hl : l.padding.bytes + l.size.bytes ≤ limit)
    (hn : e.newEnd.bytes + (l.padding.bytes + l.size.bytes - e.oldEnd.bytes) ≤ limit) :
    (l.reshape e).1.bytes = e.shiftByte l.padding.bytes ∧
      (l.reshape e).1.bytes + (l.reshape e).2.bytes =
        e.widthAfter (l.padding.bytes + l.size.bytes) := by
  have htotal : l.total.bytes = l.padding.bytes + l.size.bytes := by
    simp only [Label.total, Length.bytes_add, addCounts]
    omega
  unfold Label.reshape Edit.shiftByte Edit.widthAfter
  simp only [htotal, Edit.isInsertion, beq_iff_eq]
  split
  · simp only [Length.bytes_add, Length.bytes_sub, addCounts]
    rw [if_pos (by omega)]
    omega
  split
  · simp only [Length.bytes_beyond, Length.bytes_sub]
    rw [if_pos (by omega)]
    exact ⟨trivial, by omega⟩
  split
  · omega
  split
  · simp only [Length.bytes_add, Length.bytes_beyond, Length.bytes_sub, addCounts]
    exact ⟨trivial, by omega⟩
  · exact ⟨rfl, rfl⟩

/-- A node that an edit does not touch is as wide as before. -/
lemma Label.widthAfter_of_isUntouchedBy {e : Edit} {l : Label}
    (hl : l.padding.bytes + l.size.bytes ≤ limit) (h1 : e.start.bytes ≤ e.oldEnd.bytes)
    (h : l.isUntouchedBy e = true) : l.padding.bytes + l.size.bytes ≤ e.start.bytes ∧
      e.widthAfter (l.padding.bytes + l.size.bytes) = l.padding.bytes + l.size.bytes ∧
      e.shiftByte l.padding.bytes = l.padding.bytes := by
  have htotal : l.padding.bytes + l.size.bytes ≤ l.lookaheadEnd := by
    simp only [Label.lookaheadEnd, Label.total, Length.bytes_add, addCounts]
    omega
  simp only [Label.isUntouchedBy, Edit.isVoid, Edit.isInsertion, Bool.or_eq_true, Bool.and_eq_true,
    decide_eq_true_eq, beq_iff_eq] at h
  unfold Edit.widthAfter Edit.shiftByte
  refine ⟨by omega, ?_, ?_⟩
  · split <;> omega
  · split
    · omega
    · split <;> omega

/-! ## Edits of trees -/

namespace Green

variable {α : Type} {P : List α → Green → Prop}

/-- Whether edits of a tree go along with those of the cells that it stands on. -/
def Follows (P : List α → Green → Prop) (g : Green) : Prop :=
  ∀ {generation : Nat} {place : List Nat} {e : Edit} {w w' : List α}, e.Turns w w' →
    w.length ≤ limit → w'.length ≤ limit → g.Holds P w →
    (g.edit generation place e).Holds P w' ∧
      (g.edit generation place e).width = e.widthAfter g.width ∧
      (g.edit generation place e).label.padding.bytes = e.shiftByte g.label.padding.bytes

/-- Where the next sibling begins. -/
lemma bytes_add_total {left : Length} {g : Green} {bound : Nat} (h : left.bytes + g.width ≤ bound)
    (hb : bound ≤ limit) : (left + g.total).bytes = left.bytes + g.width := by
  have hw : g.label.padding.bytes + g.label.size.bytes = g.width := rfl
  simp only [Length.bytes_add, total, addCounts]
  omega

/-- A sibling that lies before an edit keeps its cells, whether it is marked or not. -/
lemma Follows.collapsed {g : Green} (h : g.Follows P) {generation : Nat} {place : List Nat} {e : Edit}
    {w w' : List α} (hw : w.length ≤ limit) (hg : g.Holds P w) (hsw : e.start.bytes ≤ w.length)
    (ht : w'.take g.width = w.take g.width) (hw' : g.width ≤ w'.length) :
    (g.edit generation place e.collapsed).Holds P w' ∧
      (g.edit generation place e.collapsed).width = g.width ∧
      (g.edit generation place e.collapsed).label.padding.bytes = g.label.padding.bytes := by
  obtain ⟨hholds, hwidth, hpadding⟩ := @h generation place e.collapsed w w (.void rfl rfl hsw) hw hw hg
  rw [(Edit.after_of_void rfl rfl _).1] at hwidth
  rw [(Edit.after_of_void rfl rfl _).2] at hpadding
  exact ⟨hholds.of_take (by rw [hwidth]; exact ht) (by rw [hwidth]; exact hw'), hwidth, hpadding⟩

/-- A tree stands on the cells from a place on, with others from where it ends. -/
lemma HoldsAll.cons_of_width {c : Child Green} {rest : List (Child Green)} {w : List α}
    {left right : Nat} (hc : c.node.Holds P (w.drop left)) (hr : left + c.node.width = right)
    (hrest : HoldsAll P (w.drop right) rest) : HoldsAll P (w.drop left) (c :: rest) := by
  refine ⟨hc, ?_⟩
  rwa [List.drop_drop, hr]

/-- After the sibling that takes in the new text, the other ones lose what was taken away of them and
move along. -/
lemma HoldsAll.absorbed {cs : List (Child Green)} (ih : ∀ c ∈ cs, Follows P c.node)
    {generation : Nat} {place : List Nat} {e : Edit} {index newEnd : Nat} {left : Length}
    {w w' : List α} (he : e.newEnd = e.start) (hso : e.start.bytes ≤ e.oldEnd.bytes)
    (ho : e.oldEnd.bytes ≤ w.length)
    (hdrop : ∀ k, e.oldEnd.bytes ≤ k → w'.drop (newEnd + (k - e.oldEnd.bytes)) = w.drop k)
    (hw : w.length ≤ limit) (hw' : w'.length ≤ limit) (hindex : 0 < index)
    (hleft : e.start.bytes ≤ left.bytes) (hfit : left.bytes + widthOf cs ≤ w.length)
    (h : HoldsAll P (w.drop left.bytes) cs) :
    HoldsAll P (w'.drop (newEnd + (left.bytes - e.oldEnd.bytes)))
        (editChildren generation place e false index left cs) ∧
      newEnd + (left.bytes - e.oldEnd.bytes) +
          widthOf (editChildren generation place e false index left cs) =
        newEnd + (left.bytes + widthOf cs - e.oldEnd.bytes) := by
  induction cs generalizing index left with
  | nil => exact ⟨trivial, rfl⟩
  | cons c rest ihrest =>
    obtain ⟨hc, hrest⟩ := h
    rw [widthOf] at hfit
    have hright := @bytes_add_total left c.node w.length (by omega) hw
    have habsorbed : e.absorbed = e := by
      cases e
      simp only at he
      simp only [Edit.absorbed, he]
    obtain ⟨hothers, hmoved⟩ := @ihrest (fun d hd => ih d (List.mem_cons_of_mem c hd)) (index + 1)
      (left + c.node.total) (by omega) (by omega) (by omega)
      (by rwa [hright, ← List.drop_drop])
    rw [hright] at hothers hmoved
    unfold editChildren
    simp only [hright, habsorbed]
    split
    · rename_i hskip
      simp only [addCounts] at hskip
      omega
    split
    · -- everything that was taken away lies before
      rename_i hstop
      rw [hdrop left.bytes (by omega)]
      refine ⟨⟨hc, hrest⟩, ?_⟩
      omega
    rename_i hstop
    split
    · have hlo : left.bytes ≤ e.oldEnd.bytes := by omega
      have hstart : newEnd + (left.bytes - e.oldEnd.bytes) = newEnd := by omega
      have hd := hdrop e.oldEnd.bytes (Nat.le_refl _)
      rw [Nat.sub_self, Nat.add_zero] at hd
      rw [hstart]
      obtain ⟨hholds, hwidth, -⟩ := @ih c (List.mem_cons_self ..) generation (index :: place) _ _ _
        (.dropped_relativeTo he hleft hlo ho hd) (by rw [List.length_drop]; omega)
        (by rw [List.length_drop]; omega) hc
      rw [Edit.widthAfter_dropped he hleft] at hwidth
      have hend := hwidth.trans (Nat.sub_sub_right c.node.width hlo)
      rw [Nat.add_comm c.node.width] at hend
      refine ⟨.cons_of_width hholds (congrArg (newEnd + ·) hend) hothers, ?_⟩
      rw [widthOf, hend, widthOf, ← Nat.add_assoc, hmoved, Nat.add_assoc]
    · -- a sibling without extent at the very end of what was taken away
      rename_i htake
      have hzero : c.node.width = 0 := by omega
      obtain ⟨hholds, hwidth, -⟩ := @Follows.collapsed α P c.node (ih c (List.mem_cons_self ..))
        generation (index :: place) (e.relativeTo left) _
        (w'.drop (newEnd + (left.bytes - e.oldEnd.bytes))) (by rw [List.length_drop]; omega) hc
        (by simp only [Edit.relativeTo, Length.bytes_beyond]; omega)
        (by rw [hzero, List.take_zero, List.take_zero]) (by omega)
      rw [hzero] at hwidth hothers hmoved
      refine ⟨.cons_of_width hholds ?_ hothers, ?_⟩
      · exact congrArg (newEnd + (left.bytes - e.oldEnd.bytes) + ·) hwidth
      · rw [widthOf, hwidth, widthOf, hzero, Nat.zero_add, Nat.zero_add]
        exact hmoved

/-- The siblings up to the one that takes in the new text stay where they are, and those after it move
along. -/
lemma HoldsAll.edit {cs : List (Child Green)} (ih : ∀ c ∈ cs, Follows P c.node)
    {generation : Nat} {place : List Nat} {e : Edit} {index : Nat} {left : Length}
    {w w' : List α} (ht : e.Turns w w') (hw : w.length ≤ limit) (hw' : w'.length ≤ limit)
    (hleft : left.bytes ≤ e.start.bytes) (hindex : left.bytes = e.oldEnd.bytes → index = 0)
    (hfit : left.bytes + widthOf cs ≤ w.length) (h : HoldsAll P (w.drop left.bytes) cs) :
    HoldsAll P (w'.drop left.bytes)
        (editChildren generation place e e.isInsertion index left cs) ∧
      e.Resizes left.bytes cs.length (widthOf cs)
        (widthOf (editChildren generation place e e.isInsertion index left cs)) := by
  have h1 := ht.start_le
  have h2 := ht.oldEnd_le
  have h3 := ht.le_newEnd
  have hl := ht.length
  induction cs generalizing index left with
  | nil => exact ⟨trivial, .inl ⟨hleft, .inr (.inl rfl), rfl⟩⟩
  | cons c rest ihrest =>
    obtain ⟨hc, hrest⟩ := h
    rw [widthOf] at hfit
    have hright := @bytes_add_total left c.node w.length (by omega) hw
    have hnil : rest.length = 0 → widthOf rest = 0 := fun hn => by
      rw [List.length_eq_zero_iff.1 hn]
      rfl
    have hbefore : left.bytes + c.node.width ≤ e.start.bytes →
        (w'.drop left.bytes).take c.node.width = (w.drop left.bytes).take c.node.width := fun hle => by
      have := congrArg (List.drop left.bytes) (ht.take hle)
      rwa [List.drop_take, List.drop_take, Nat.add_sub_cancel_left] at this
    have ihrest : left.bytes + c.node.width ≤ e.start.bytes →
        (left.bytes + c.node.width = e.oldEnd.bytes → index + 1 = 0) → _ := fun hle hne =>
      @ihrest (fun d hd => ih d (List.mem_cons_of_mem c hd)) (index + 1)
        (left + c.node.total) (by omega) (by rwa [hright]) (by omega)
        (by rwa [hright, ← List.drop_drop])
    rw [hright] at ihrest
    unfold editChildren
    simp only [hright]
    split
    · rename_i hskip
      simp only [addCounts] at hskip
      obtain ⟨hothers, hcases⟩ := ihrest (by omega) (by omega)
      refine ⟨.cons_of_width ?_ rfl hothers, ?_⟩
      · exact hc.of_take (hbefore (by omega)) (by rw [List.length_drop]; omega)
      · exact hcases.cons (by omega) hnil
    split
    · rename_i hstop
      omega
    rename_i hstop
    simp only [Edit.isInsertion, beq_iff_eq]
    split
    · -- this sibling takes in the new text
      rename_i htake
      obtain ⟨hholds, hwidth, -⟩ := @ih c (List.mem_cons_self ..) generation (index :: place) _ _ _
        (ht.relativeTo hleft) (by rw [List.length_drop]; omega) (by rw [List.length_drop]; omega) hc
      have hend := Edit.widthAfter_relativeTo h1 h3 hleft htake
      rw [← hwidth] at hend
      obtain ⟨hothers, hmoved⟩ := @HoldsAll.absorbed α P rest
        (fun d hd => ih d (List.mem_cons_of_mem c hd)) generation place e.absorbed (index + 1)
        e.newEnd.bytes (left + c.node.total) w w' rfl h1 h2 (fun k hk => ht.drop hk) hw hw'
        (Nat.succ_pos _) (by rw [hright]; show e.start.bytes ≤ _; omega) (by omega)
        (by rwa [hright, ← List.drop_drop])
      rw [hright, show e.absorbed.oldEnd = e.oldEnd from rfl] at hothers hmoved
      refine ⟨.cons_of_width hholds hend hothers, .inr ⟨?_, ?_⟩⟩
      · rw [widthOf]
        omega
      · rw [widthOf, widthOf, ← Nat.add_assoc, hend, hmoved, Nat.add_assoc]
    · rename_i htake
      have hle : left.bytes + c.node.width ≤ e.start.bytes := by omega
      obtain ⟨hothers, hcases⟩ := ihrest hle (by omega)
      obtain ⟨hholds, hwidth, -⟩ := @Follows.collapsed α P c.node (ih c (List.mem_cons_self ..))
        generation (index :: place) (e.relativeTo left) _ (w'.drop left.bytes)
        (by rw [List.length_drop]; omega) hc
        (by simp only [Edit.relativeTo, Length.bytes_beyond, List.length_drop]; omega)
        (hbefore hle) (by rw [List.length_drop]; omega)
      refine ⟨.cons_of_width hholds (by rw [hwidth]) hothers, ?_⟩
      rw [widthOf, widthOf, hwidth]
      exact hcases.cons (by omega) hnil

/-- The first child keeps the padding of its parent. -/
lemma padding_editChildren {c : Child Green} {rest : List (Child Green)} (ih : Follows P c.node)
    {generation : Nat} {place : List Nat} {e : Edit} {w w' : List α} (ht : e.Turns w w')
    (hw : w.length ≤ limit) (hw' : w'.length ≤ limit) (h : c.node.Holds P w) :
    ∀ d ∈ (editChildren generation place e e.isInsertion 0 .zero (c :: rest)).head?,
      d.node.label.padding.bytes = e.shiftByte c.node.label.padding.bytes := by
  have h1 := ht.start_le
  have h2 := ht.oldEnd_le
  have h3 := ht.le_newEnd
  have hle := h.width_le
  have hpad : c.node.label.padding.bytes ≤ c.node.width := Nat.le_add_right _ _
  have hzero : (Length.zero).bytes = 0 := rfl
  have hright := @bytes_add_total .zero c.node w.length (by rw [hzero]; omega) hw
  rw [hzero, Nat.zero_add] at hright
  intro d hd
  unfold editChildren at hd
  simp only [hright, hzero, Nat.not_lt_zero, and_false, or_false, if_false, Nat.lt_irrefl] at hd
  split at hd
  · rename_i hskip
    simp only [List.head?_cons, Option.mem_some_iff] at hd
    simp only [addCounts] at hskip
    rw [← hd, Edit.shiftByte, if_neg (by omega), if_neg (by omega)]
  split at hd
  · simp only [List.head?_cons, Option.mem_some_iff] at hd
    have hturns := @Edit.Turns.relativeTo _ e w w' ht .zero (Nat.zero_le _)
    obtain ⟨-, -, hp⟩ := @ih generation (0 :: place) _ _ _ hturns (by rw [List.length_drop]; omega)
      (by rw [List.length_drop]; omega) h
    simp only [Edit.shiftByte, Edit.relativeTo, Length.bytes_beyond, hzero, Nat.sub_zero] at hp ⊢
    rw [← hd]
    exact hp
  · rename_i htake
    simp only [List.head?_cons, Option.mem_some_iff] at hd
    simp only [Edit.isInsertion, beq_iff_eq] at htake
    obtain ⟨-, -, hp⟩ := @Follows.collapsed α P c.node ih generation (0 :: place)
      (e.relativeTo .zero) w w hw h (by simp only [Edit.relativeTo, Length.bytes_beyond]; omega) rfl hle
    rw [← hd]
    refine hp.trans ?_
    rw [Edit.shiftByte, if_neg (by omega), if_neg (by omega)]

/-- Edits of a tree go along with those of the cells that it stands on. -/
theorem follows (P : List α → Green → Prop) (g : Green) : Follows P g := by
  induction g using Green.induct with
  | node l cs ih =>
    intro generation place e w w' ht hw hw' h
    have h1 := ht.start_le
    have h2 := ht.oldEnd_le
    have h3 := ht.le_newEnd
    have hl := ht.length
    have hwidth : (node l cs).width = l.padding.bytes + l.size.bytes := rfl
    have hle := h.width_le
    rw [hwidth] at hle
    rw [edit]
    split
    · -- the node and all below it lie before the edit
      rename_i hun
      obtain ⟨hbefore, hsame, hpad⟩ := Label.widthAfter_of_isUntouchedBy (by omega) h1 hun
      refine ⟨h.of_take (ht.take hbefore) (by rw [hwidth]; omega), ?_, hpad.symm⟩
      rw [hwidth, hsame]
    · obtain ⟨-, hc, hp, -, hs⟩ := h
      obtain ⟨hpadding, hafter⟩ := @Label.bytes_reshape e l h1 h3 (by omega) (by omega)
      have hzero : (Length.zero).bytes = 0 := rfl
      obtain ⟨hall, hcases⟩ := @HoldsAll.edit α P cs ih generation place e 0 .zero w w' ht hw hw'
        (Nat.zero_le _) (fun _ => rfl) (by rw [hzero]; omega) hs
      refine ⟨⟨?_, ?_, fun d hd => ?_, fun hm => ?_, hall⟩, hafter, hpadding⟩
      · show (l.reshape e).1.bytes + (l.reshape e).2.bytes ≤ _
        rw [hafter]
        exact ht.widthAfter_le hle
      · show _ ≤ (l.reshape e).1.bytes + (l.reshape e).2.bytes
        rw [hafter]
        exact hcases.le_widthAfter hc h3
      · show _ = (l.reshape e).1.bytes
        rw [hpadding]
        cases cs with
        | nil => cases hd
        | cons c rest =>
          rw [← hp c rfl]
          exact padding_editChildren (ih c (List.mem_cons_self ..)) ht hw hw' hs.1 d hd
      · cases hm

/-- What holds of the unmarked nodes of a tree and their cells still holds after an edit. -/
theorem Holds.edit {g : Green} {e : Edit} {w w' : List α} (h : g.Holds P w) (generation : Nat)
    (place : List Nat) (ht : e.Turns w w') (hw : w.length ≤ limit) (hw' : w'.length ≤ limit) :
    (g.edit generation place e).Holds P w' :=
  (follows P g ht hw hw' h).1

end Green

/-! ## Nodes that are found -/

variable {α : Type} {P : List α → Green → Prop} {w : List α}

/-- Whether a node stands where its cells do. -/
def Node.Stands (P : List α → Green → Prop) (w : List α) (n : Node) : Prop :=
  ∃ x, x ≤ w.length ∧ n.start.bytes = x + n.green.label.padding.bytes ∧ n.green.Holds P (w.drop x)

/-- Siblings stand one after the other. -/
lemma Green.stands_layOutAfter (t : Tree) {cs : List (Child Green)} {stop : Length} {x : Nat}
    (hw : w.length ≤ limit) (hstop : stop.bytes = x) (hfit : x + widthOf cs ≤ w.length)
    (h : HoldsAll P (w.drop x) cs) :
    ∀ e ∈ layOutAfter stop cs, (Node.mk t e.1.node e.2).Stands P w := by
  induction cs generalizing stop x with
  | nil => exact fun _ h => absurd h List.not_mem_nil
  | cons c cs ih =>
    obtain ⟨hc, hcs⟩ := h
    have hwidth : c.node.width = c.node.label.padding.bytes + c.node.label.size.bytes := rfl
    rw [widthOf] at hfit
    have hstart : (stop + c.node.label.padding).bytes = x + c.node.label.padding.bytes := by
      simp only [Length.bytes_add, addCounts]
      omega
    have hend : (stop + c.node.label.padding + c.node.label.size).bytes = x + c.node.width := by
      rw [Length.bytes_add, hstart]
      simp only [addCounts]
      omega
    intro e he
    rcases List.mem_cons.1 he with rfl | he
    · exact ⟨x, by omega, hstart, hc⟩
    · exact ih hend (by omega) (by rwa [← List.drop_drop]) e he

/-- The children of a node stand where their cells do if the node does. -/
lemma Node.Stands.children {n : Node} (h : n.Stands P w) (hw : w.length ≤ limit) :
    ∀ c ∈ n.children, c.Stands P w := by
  obtain ⟨t, ⟨l, cs⟩, start⟩ := n
  obtain ⟨x, hx, hstart, hle, hc, hp, -, hs⟩ := h
  dsimp only [Green.label] at hstart
  rw [List.length_drop] at hle
  intro m hm
  obtain ⟨e, he, rfl⟩ := List.mem_map.1 hm
  obtain ⟨⟨c, s⟩, hcs, rfl⟩ := List.mem_map.1 he
  cases cs with
  | nil => cases hcs
  | cons c₁ cs =>
    obtain ⟨hc₁, hcs₁⟩ := hs
    have hpad : c₁.node.label.padding.bytes = l.padding.bytes := hp c₁ rfl
    have hwidth : c₁.node.width = c₁.node.label.padding.bytes + c₁.node.label.size.bytes := rfl
    rw [Green.widthOf] at hc
    rcases List.mem_cons.1 hcs with heq | hcs
    · cases heq
      exact ⟨x, hx, by rw [hpad]; exact hstart, hc₁⟩
    · have hend : (start + c₁.node.label.size).bytes = x + c₁.node.width := by
        simp only [Length.bytes_add, addCounts]
        omega
      exact Green.stands_layOutAfter t hw hend (by omega) (by rwa [← List.drop_drop]) (c, s) hcs

namespace Reuse

variable {Q : Node → Prop}

/-- A node that is taken from a chain is intact and has its padding where the chain was asked for.
What children inherit holds of it too. -/
lemma of_mem_chain (hQ : ∀ n, Q n → ∀ c ∈ n.children, Q c) {byte levels : Nat} {n m : Node}
    (h : Q n) (hm : m ∈ chain byte levels n) :
    Q m ∧ m.totalStart = byte ∧ isIntact m = true := by
  induction levels generalizing n with
  | zero => cases hm
  | succ levels ih =>
    unfold chain at hm
    split at hm
    · rename_i hb
      rcases List.mem_append.1 hm with hm | hm
      · split at hm
        · rename_i hi
          rw [List.mem_singleton.1 hm]
          exact ⟨h, hb, hi⟩
        · cases hm
      · cases hc : n.child? 0 with
        | none => simp [hc] at hm
        | some c =>
          simp only [hc, Option.map_some, Option.getD_some] at hm
          exact ih (hQ n h c (List.mem_of_getElem? hc)) hm
    · cases hm

/-- So are the nodes that a search finds. -/
lemma of_mem_candidatesBelow (hQ : ∀ n, Q n → ∀ c ∈ n.children, Q c) {byte levels : Nat}
    {n m : Node} (h : ∀ c ∈ n.children, Q c) (hm : m ∈ candidatesBelow byte levels n) :
    Q m ∧ m.totalStart = byte ∧ isIntact m = true := by
  induction levels generalizing n with
  | zero => cases hm
  | succ levels ih =>
    unfold candidatesBelow at hm
    split at hm
    · cases hm
    · rename_i c hc
      have hq := h c (List.mem_of_find?_eq_some hc)
      split at hm
      · exact of_mem_chain hQ hq hm
      · exact ih (hQ c hq) hm
      · cases hm

end Reuse

/-- What held of nodes and their cells holds of every node that may be taken over, whose cells are
those from the byte on that was searched for. -/
theorem holds_of_mem_candidatesAt {t : Tree} {byte : Nat} {n : Node} (h : t.root.Holds P w)
    (hw : w.length ≤ limit) (hn : n ∈ t.candidatesAt byte) :
    n.hasError = false ∧ byte + n.green.width ≤ w.length ∧
      n.startByte = byte + n.green.label.padding.bytes ∧ n.stopByte = byte + n.green.width ∧
      n.green.Holds P (w.drop byte) ∧ P ((w.drop byte).take n.green.width) n.green := by
  have hroot : t.rootNode.Stands P w := ⟨0, Nat.zero_le _, (Nat.zero_add _).symm, h⟩
  obtain ⟨⟨x, hx, hstart, hholds⟩, htotal, hintact⟩ :=
    Reuse.of_mem_candidatesBelow (fun _ h => h.children hw) (hroot.children hw) hn
  simp only [Reuse.isIntact, Bool.and_eq_true, Bool.not_eq_true'] at hintact
  obtain rfl : x = byte := by
    rw [Node.totalStart, hstart] at htotal
    omega
  obtain ⟨t', ⟨l, cs⟩, start⟩ := n
  have hall : (Green.node l cs).Holds P (w.drop x) := hholds
  obtain ⟨hle, -, -, hP, -⟩ := hholds
  rw [List.length_drop] at hle
  have hwidth : (Green.node l cs).width = l.padding.bytes + l.size.bytes := rfl
  dsimp only [Green.label] at hstart
  refine ⟨hintact.2, by dsimp only; omega, hstart, ?_, hall, hP hintact.1⟩
  show (start + l.size).bytes = _
  dsimp only
  rw [hwidth, Length.bytes_add, hstart, addCounts_of_le (by omega), Nat.add_assoc]

end Reparse
