import Reparse.Parser.Basic
import Reparse.Proofs.Editing

/-!
# Included ranges

A parser can be restricted to ranges that are in order (`Parser.allows_iff`). They move along with the
edits of a tree: each byte that stays in the text stays in the range of the same number, and the ranges
stay in order (`Tree.Turned.keeps_ranges`). They do not where text is put in at the start of a document
and the last of several ranges is the whole document: that range is not moved, while those before it are.
-/

namespace Reparse

namespace Span

/-- Whether no span is inverted, and none starts before the stop of one before it. -/
structure InOrder (ranges : List Span) : Prop where
  start_le : ∀ r ∈ ranges, r.start.bytes ≤ r.stop.bytes
  apart : ranges.Pairwise fun r s => r.stop.bytes ≤ s.start.bytes

/-- Whether spans stop at counts of which at most the last one is `limit`: no other span is open. -/
structure OpenAtEnd (ranges : List Span) : Prop where
  le_limit : ∀ r ∈ ranges, r.stop.bytes ≤ limit
  lt_limit : ∀ r ∈ ranges.dropLast, r.stop.bytes < limit

variable {r : Span} {ranges : List Span}

/-- A range may come first if it is not inverted and all others start after it. -/
lemma inOrder_cons : InOrder (r :: ranges) ↔
    r.start.bytes ≤ r.stop.bytes ∧ (∀ s ∈ ranges, r.stop.bytes ≤ s.start.bytes) ∧ InOrder ranges := by
  constructor
  · intro h
    obtain ⟨hr, hranges⟩ := List.pairwise_cons.1 h.apart
    exact ⟨h.start_le r (List.mem_cons_self ..), hr,
      ⟨fun s hs => h.start_le s (List.mem_cons_of_mem r hs), hranges⟩⟩
  · rintro ⟨hle, hr, hranges⟩
    refine ⟨fun s hs => ?_, List.pairwise_cons.2 ⟨hr, hranges.apart⟩⟩
    rcases List.mem_cons.1 hs with rfl | hs
    · exact hle
    · exact hranges.start_le s hs

/-- An open span is the last one. -/
lemma OpenAtEnd.getLast? (h : OpenAtEnd ranges) (hr : r ∈ ranges) (hopen : r.stop.bytes = limit) :
    ranges.getLast? = some r := by
  have hne : ranges ≠ [] := List.ne_nil_of_mem hr
  rw [← List.dropLast_append_getLast hne, List.mem_append, List.mem_singleton] at hr
  rcases hr with hr | hr
  · exact absurd hopen (Nat.ne_of_lt (h.lt_limit r hr))
  · rw [hr, List.getLast?_eq_getLast_of_ne_nil hne]

/-- The spans after the first. -/
lemma OpenAtEnd.tail (h : OpenAtEnd (r :: ranges)) : OpenAtEnd ranges := by
  refine ⟨fun s hs => h.le_limit s (List.mem_cons_of_mem r hs), fun s hs => h.lt_limit s ?_⟩
  cases ranges with
  | nil => cases hs
  | cons s' ranges => exact List.mem_cons_of_mem r hs

end Span

/-! ## Ranges that are accepted -/

namespace Parser

variable {σ : Type}

/-- Whether a parser can be restricted to some ranges. -/
def Allows (p : Parser σ) (ranges : List Span) : Prop := ∃ q, p.setIncludedRanges ranges = .ok q

/-- No range is refused if and only if the ranges are in order, from `previous` on. -/
lemma firstInvalid?_eq_none {previous index : Nat} {ranges : List Span} :
    firstInvalid? previous index ranges = none ↔
      (∀ r ∈ ranges, previous ≤ r.start.bytes) ∧ Span.InOrder ranges := by
  induction ranges generalizing previous index with
  | nil => exact ⟨fun _ => ⟨nofun, nofun, .nil⟩, fun _ => rfl⟩
  | cons r ranges ih =>
    rw [firstInvalid?, Span.inOrder_cons]
    constructor
    · intro h
      split at h
      · cases h
      · rename_i hvalid
        obtain ⟨hrest, hranges⟩ := ih.1 h
        refine ⟨fun s hs => ?_, by omega, hrest, hranges⟩
        rcases List.mem_cons.1 hs with rfl | hs
        · omega
        · have := hrest s hs
          omega
    · rintro ⟨hprevious, hle, hrest, hranges⟩
      have hr := hprevious r (List.mem_cons_self ..)
      rw [if_neg (by omega)]
      exact ih.2 ⟨hrest, hranges⟩

/-- A parser can be restricted to the ranges that are in order. -/
theorem allows_iff {p : Parser σ} {ranges : List Span} : p.Allows ranges ↔ Span.InOrder ranges := by
  have hnone := @firstInvalid?_eq_none 0 0 ranges
  rw [Allows, setIncludedRanges]
  cases h : firstInvalid? 0 0 ranges with
  | none => exact ⟨fun _ => (hnone.1 h).2, fun _ => ⟨_, rfl⟩⟩
  | some index =>
    rw [h] at hnone
    constructor
    · rintro ⟨q, hq⟩
      cases hq
    · intro ho
      cases hnone.2 ⟨fun r _ => Nat.zero_le _, ho⟩

end Parser

/-! ## Ranges and edits -/

namespace Edit

/-- Whether an edit says that some bytes became others, where all its ends are counts. -/
structure Proper (e : Edit) : Prop where
  start_le : e.start.bytes ≤ e.oldEnd.bytes
  le_newEnd : e.start.bytes ≤ e.newEnd.bytes
  oldEnd_le : e.oldEnd.bytes ≤ limit
  newEnd_le : e.newEnd.bytes ≤ limit

/-- Whether text is put in at the start of a document, of which the last of several ranges is the
whole. -/
def Displaces (e : Edit) (ranges : List Span) : Prop :=
  e.oldEnd.bytes = 0 ∧ 0 < e.newEnd.bytes ∧ ranges.getLast? = some .document ∧ 1 < ranges.length

/-- Where a byte goes that stays in the text; none if it is replaced, or moved beyond all counts. -/
def follow? (e : Edit) (b : Nat) : Option Nat :=
  if (b < e.start.bytes ∨ e.oldEnd.bytes ≤ b) ∧ e.shiftByte b < limit then some (e.shiftByte b)
  else none

/-- A byte outside of what an edit replaces is moved with it, as long as it stays below the limit. -/
lemma follow?_eq_some {e : Edit} {b b' : Nat} : e.follow? b = some b' ↔
    (b < e.start.bytes ∨ e.oldEnd.bytes ≤ b) ∧ e.shiftByte b < limit ∧ e.shiftByte b = b' := by
  rw [follow?]
  constructor
  · intro h
    split at h
    · rename_i hstays
      exact ⟨hstays.1, hstays.2, Option.some.inj h⟩
    · cases h
  · rintro ⟨hstays, hlt, rfl⟩
    rw [if_pos ⟨hstays, hlt⟩]

end Edit

namespace Span

variable {e : Edit} {r s : Span} {ranges : List Span}

/-- A position behind an edit is moved by as many bytes as its end is. -/
lemma bytes_carry (e : Edit) (p : Length) :
    (e.carry p).bytes = min (e.newEnd.bytes + (p.bytes - e.oldEnd.bytes)) limit := rfl

/-- A span that is moved is not inverted. -/
lemma shift_start_le (he : e.Proper) (h : r.start.bytes ≤ r.stop.bytes) (hr : r.stop.bytes ≤ limit) :
    (r.shift e).start.bytes ≤ (r.shift e).stop.bytes := by
  obtain ⟨h1, h2, h3, h4⟩ := he
  have hstart := bytes_carry e r.start
  have hstop := bytes_carry e r.stop
  unfold shift
  split
  · exact h
  · show (shiftStart e r.start).bytes ≤ (shiftStop e r.stop).bytes
    unfold shiftStart shiftStop
    split_ifs <;> omega

/-- A span stays behind one before it, if it is moved at all. -/
lemma shift_stop_le (he : e.Proper) (h : r.stop.bytes ≤ s.start.bytes) (hr : r.stop.bytes < limit)
    (hs : s = document → 0 < e.oldEnd.bytes ∨ e.newEnd.bytes = 0) :
    (r.shift e).stop.bytes ≤ (s.shift e).start.bytes := by
  obtain ⟨h1, h2, h3, h4⟩ := he
  have hstart := bytes_carry e s.start
  have hstop := bytes_carry e r.stop
  have hdocument : document.stop.bytes = limit := rfl
  have hr' : r ≠ document := by
    rintro rfl
    omega
  rw [shift, if_neg hr']
  by_cases hs' : s = document
  · -- the whole document starts at 0, so the other span is void there
    have hmoved := hs hs'
    have hzero : s.start.bytes = 0 := by rw [hs']; rfl
    rw [shift, if_pos hs']
    show (shiftStop e r.stop).bytes ≤ s.start.bytes
    unfold shiftStop
    split_ifs <;> omega
  · rw [shift, if_neg hs']
    show (shiftStop e r.stop).bytes ≤ (shiftStart e s.start).bytes
    unfold shiftStart shiftStop
    split_ifs <;> omega

/-- Spans that are moved stay in order, if the whole document is not among them or stays first. -/
lemma InOrder.shift (he : e.Proper) (h : InOrder ranges) (ho : OpenAtEnd ranges)
    (hd : ¬ e.Displaces ranges) : InOrder (ranges.map (Span.shift e)) := by
  induction ranges with
  | nil => exact h
  | cons r ranges ih =>
    obtain ⟨hle, hrest, hranges⟩ := inOrder_cons.1 h
    have hr := ho.le_limit r (List.mem_cons_self ..)
    refine inOrder_cons.2 ⟨shift_start_le he hle hr, ?_, ih hranges ho.tail ?_⟩
    · intro s' hs'
      obtain ⟨s, hs, rfl⟩ := List.mem_map.1 hs'
      have hlt : r.stop.bytes < limit := by
        apply ho.lt_limit
        cases ranges with
        | nil => cases hs
        | cons s' ranges => exact List.mem_cons_self ..
      refine shift_stop_le he (hrest s hs) hlt fun hdocument => ?_
      have hlast := ho.getLast? (List.mem_cons_of_mem r hs) (by rw [hdocument]; rfl)
      have hlength := List.length_pos_of_mem hs
      rw [hdocument] at hlast
      have hmoves : ¬ (e.oldEnd.bytes = 0 ∧ 0 < e.newEnd.bytes) := fun hm =>
        hd ⟨hm.1, hm.2, hlast, Nat.succ_lt_succ hlength⟩
      omega
    · rintro ⟨hold, hnew, hlast, hlength⟩
      refine hd ⟨hold, hnew, ?_, Nat.lt_succ_of_lt hlength⟩
      rw [List.getLast?_cons, hlast]
      rfl

/-- Where the whole document comes last of several spans and text is put in before it, the span before it
is moved behind its start. -/
lemma not_inOrder_shift (he : e.Proper) (h : InOrder ranges) (hd : e.Displaces ranges) :
    ¬ InOrder (ranges.map (Span.shift e)) := by
  obtain ⟨hold, hnew, hlast, hlength⟩ := hd
  obtain ⟨front, rfl⟩ := List.getLast?_eq_some_iff.1 hlast
  obtain ⟨r, hr⟩ : ∃ r, r ∈ front := by
    apply List.exists_mem_of_length_pos
    rw [List.length_append, List.length_singleton] at hlength
    omega
  have hbefore : r.stop.bytes ≤ document.start.bytes :=
    (List.pairwise_append.1 h.apart).2.2 r hr document (List.mem_singleton_self _)
  have hzero : r.stop.bytes = 0 := Nat.le_zero.1 hbefore
  have hdocument : r ≠ document := by
    rintro rfl
    cases hzero
  intro ho
  rw [List.map_append] at ho
  have hmoved : (r.shift e).stop.bytes ≤ (document.shift e).start.bytes :=
    (List.pairwise_append.1 ho.apart).2.2 _ (List.mem_map_of_mem hr) _
      (List.mem_map_of_mem (List.mem_singleton_self _))
  rw [shift, if_neg hdocument, shift, if_pos rfl] at hmoved
  have hle : (shiftStop e r.stop).bytes ≤ 0 := hmoved
  have hopen : ¬ r.stop.bytes = limit := by
    rw [hzero]
    decide
  rw [shiftStop, if_pos (by omega), if_neg hopen, bytes_carry] at hle
  have hnewEnd := he.newEnd_le
  omega

/-- Moved spans are in order but for one case. -/
theorem inOrder_shift_iff (he : e.Proper) (h : InOrder ranges) (ho : OpenAtEnd ranges) :
    InOrder (ranges.map (Span.shift e)) ↔ ¬ e.Displaces ranges :=
  ⟨fun hi hd => not_inOrder_shift he h hd hi, h.shift he ho⟩

/-- A byte that stays in a text is in a moved span if it was in the span. -/
lemma containsByte_shift (he : e.Proper) (r : Span) {b b' : Nat} (hb : b < limit)
    (h : b' ∈ e.follow? b) : (r.shift e).containsByte b' = r.containsByte b := by
  obtain ⟨h1, h2, -, -⟩ := he
  obtain ⟨hstays, hlt, rfl⟩ := Edit.follow?_eq_some.1 h
  have hsame : ((r.shift e).start.bytes ≤ e.shiftByte b ↔ r.start.bytes ≤ b) ∧
      ((r.shift e).stop.bytes ≤ e.shiftByte b ↔ r.stop.bytes ≤ b) := by
    rcases hstays with hbefore | hafter
    · have hbyte : e.shiftByte b = b := by
        rw [Edit.shiftByte, if_neg (by omega), if_neg (by omega)]
      rw [hbyte]
      exact shift_before r h1 h2 hbefore hb
    · obtain ⟨k, rfl⟩ := Nat.exists_eq_add_of_le hafter
      have hbyte : e.shiftByte (e.oldEnd.bytes + k) = e.newEnd.bytes + k := by
        rw [Edit.shiftByte, if_pos hafter, Nat.add_sub_cancel_left]
      rw [hbyte] at hlt ⊢
      exact shift_after r h1 h2 hb hlt
  rw [Bool.eq_iff_iff, containsByte_iff, containsByte_iff]
  omega

end Span

namespace Tree

/-- Whether edits, in their order, turn one tree into another, where before each edit at most the last
included range is open, and no edit puts text in before the whole document after other ranges. -/
inductive Turned (t : Tree) : List Edit → Tree → Prop where
  | nil : Turned t [] t
  | append {edits t' e} (generation : Nat) :
    Turned t edits t' → e.Proper → Span.OpenAtEnd t'.includedRanges →
    ¬ e.Displaces t'.includedRanges → Turned t (edits ++ [e]) (t'.edit generation e)

variable {t t' : Tree} {e : Edit} {edits : List Edit}

/-- An edit of a tree moves its ranges. -/
lemma includedRanges_edit (generation : Nat) (e : Edit) (t : Tree) :
    (t.edit generation e).includedRanges = t.includedRanges.map (Span.shift e) := rfl

/-- A parser accepts the included ranges of a tree after an edit but for one case. -/
lemma allows_edit_iff {σ : Type} {p : Parser σ} (hp : p.Allows t.includedRanges) (he : e.Proper)
    (ho : Span.OpenAtEnd t.includedRanges) (generation : Nat) :
    p.Allows (t.edit generation e).includedRanges ↔ ¬ e.Displaces t.includedRanges := by
  rw [Parser.allows_iff] at hp ⊢
  rw [includedRanges_edit]
  exact Span.inOrder_shift_iff he hp ho

/-- Included ranges that move along with an edit hold a byte that stays in the text as before. -/
lemma map_containsByte_edit (he : e.Proper) {b b' : Nat} (hb : b < limit) (h : b' ∈ e.follow? b)
    (generation i : Nat) : ((t.edit generation e).includedRanges[i]?).map (·.containsByte b') =
      (t.includedRanges[i]?).map (·.containsByte b) := by
  rw [includedRanges_edit, List.getElem?_map, Option.map_map]
  congr 1
  funext r
  exact Span.containsByte_shift he r hb h

/-- Edits keep the included ranges such that a parser accepts them. -/
lemma Turned.allows {σ : Type} {p : Parser σ} (h : t.Turned edits t')
    (hp : p.Allows t.includedRanges) : p.Allows t'.includedRanges := by
  induction h with
  | nil => exact hp
  | append generation _ he ho hd ih => exact (allows_edit_iff ih he ho generation).2 hd

/-- Edits keep each byte that stays in the text in the included range of the same number. -/
lemma Turned.map_containsByte (h : t.Turned edits t') {b b' : Nat} (hb : b < limit)
    (hb' : b' ∈ edits.foldlM (fun b e => Edit.follow? e b) b) : b' < limit ∧ ∀ i : Nat,
    (t'.includedRanges[i]?).map (·.containsByte b') =
      (t.includedRanges[i]?).map (·.containsByte b) := by
  induction h generalizing b' with
  | nil =>
    obtain rfl := Option.some.inj hb'
    exact ⟨hb, fun i => rfl⟩
  | append generation _ he _ _ ih =>
    rw [List.foldlM_append] at hb'
    obtain ⟨b₁, hb₁, hfollow⟩ := Option.bind_eq_some_iff.1 hb'
    simp only [List.foldlM_cons, List.foldlM_nil, bind_pure] at hfollow
    obtain ⟨hlt, hsame⟩ := ih hb₁
    have hlt' := (Edit.follow?_eq_some.1 hfollow).2.1
    refine ⟨(Edit.follow?_eq_some.1 hfollow).2.2 ▸ hlt', fun i => ?_⟩
    rw [map_containsByte_edit he hlt hfollow generation i, hsame i]

/-- Edits keep the included ranges of a tree such that a parser accepts them, and every byte that stays in
the text through all of them stays in the range of the same number. So it is with any edit after them, but
that a parser refuses the ranges if and only if the edit puts text in at the start of the document and the
last of several ranges is the whole document. -/
theorem Turned.keeps_ranges {σ : Type} {p : Parser σ} (h : t.Turned edits t')
    (hp : p.Allows t.includedRanges) : p.Allows t'.includedRanges ∧
      (∀ b < limit, ∀ b' ∈ edits.foldlM (fun b e => Edit.follow? e b) b, ∀ i : Nat,
        (t'.includedRanges[i]?).map (·.containsByte b') =
          (t.includedRanges[i]?).map (·.containsByte b)) ∧
      ∀ (e : Edit) (generation : Nat), e.Proper → Span.OpenAtEnd t'.includedRanges →
        (p.Allows (t'.edit generation e).includedRanges ↔ ¬ e.Displaces t'.includedRanges) ∧
          ∀ b < limit, ∀ b' ∈ e.follow? b, ∀ i : Nat,
            ((t'.edit generation e).includedRanges[i]?).map (·.containsByte b') =
              (t'.includedRanges[i]?).map (·.containsByte b) := by
  have hallows : p.Allows t'.includedRanges := h.allows hp
  refine ⟨hallows, fun b hb b' hb' => (h.map_containsByte hb hb').2, fun e generation he ho => ⟨?_, ?_⟩⟩
  · exact allows_edit_iff hallows he ho generation
  · exact fun b hb b' hb' i => map_containsByte_edit he hb hb' generation i

/-- Two ranges, the second of which is open, of which an edit cuts off the ends that face each other, and
text that is then put in before both. -/
theorem Turned.keeps_ranges_cut : ∃ t t', (Builder.new C.grammar 0).finish .zero
      [⟨⟨2, ⟨0, 2⟩⟩, ⟨6, ⟨0, 6⟩⟩⟩, ⟨⟨8, ⟨0, 8⟩⟩, .farthest⟩] = .ok t ∧
    t.Turned [⟨⟨4, ⟨0, 4⟩⟩, ⟨9, ⟨0, 9⟩⟩, ⟨5, ⟨0, 5⟩⟩⟩, ⟨.zero, .zero, ⟨3, ⟨0, 3⟩⟩⟩] t' ∧
    t'.includedRanges = [⟨⟨5, ⟨0, 5⟩⟩, ⟨7, ⟨0, 7⟩⟩⟩, ⟨⟨7, ⟨0, 7⟩⟩, .farthest⟩] ∧
    (Parser.new : Parser Unit).Allows t'.includedRanges ∧
    (t'.includedRanges[0]?).map (·.containsByte 6) = some true ∧
    (t'.includedRanges[1]?).map (·.containsByte 8) = some true := by
  obtain ⟨t, hfinish, hranges⟩ : ∃ t : Tree, (Builder.new C.grammar 0).finish .zero
      [⟨⟨2, ⟨0, 2⟩⟩, ⟨6, ⟨0, 6⟩⟩⟩, ⟨⟨8, ⟨0, 8⟩⟩, .farthest⟩] = .ok t ∧
      t.includedRanges = [⟨⟨2, ⟨0, 2⟩⟩, ⟨6, ⟨0, 6⟩⟩⟩, ⟨⟨8, ⟨0, 8⟩⟩, .farthest⟩] := ⟨_, rfl, rfl⟩
  obtain ⟨t', hedit, hranges'⟩ : ∃ t', t.edit 1 ⟨⟨4, ⟨0, 4⟩⟩, ⟨9, ⟨0, 9⟩⟩, ⟨5, ⟨0, 5⟩⟩⟩ = t' ∧
      t'.includedRanges = [⟨⟨2, ⟨0, 2⟩⟩, ⟨4, ⟨0, 4⟩⟩⟩, ⟨⟨4, ⟨0, 4⟩⟩, .farthest⟩] :=
    ⟨_, rfl, by rw [includedRanges_edit, hranges]; decide⟩
  have hranges'' : (t'.edit 2 ⟨.zero, .zero, ⟨3, ⟨0, 3⟩⟩⟩).includedRanges =
      [⟨⟨5, ⟨0, 5⟩⟩, ⟨7, ⟨0, 7⟩⟩⟩, ⟨⟨7, ⟨0, 7⟩⟩, .farthest⟩] := by
    rw [includedRanges_edit, hranges']
    decide
  have hcut : t.Turned [⟨⟨4, ⟨0, 4⟩⟩, ⟨9, ⟨0, 9⟩⟩, ⟨5, ⟨0, 5⟩⟩⟩] t' := by
    refine hedit ▸ .append 1 .nil ⟨by decide, by decide, by decide, by decide⟩ ?_ ?_
    · rw [hranges]
      exact ⟨by decide, by decide⟩
    · exact fun hd => absurd hd.1 (by decide)
  have hturned := hcut.append (e := ⟨.zero, .zero, ⟨3, ⟨0, 3⟩⟩⟩) 2
    ⟨by decide, by decide, by decide, by decide⟩ (by rw [hranges']; exact ⟨by decide, by decide⟩)
    (by rw [hranges']; exact fun hd => absurd hd.2.2.1 (by decide))
  have hallowed : (Parser.new : Parser Unit).Allows t.includedRanges := by
    rw [hranges]
    exact ⟨_, rfl⟩
  obtain ⟨hallows, hbytes, -⟩ := hturned.keeps_ranges hallowed
  rw [hranges] at hbytes
  refine ⟨t, _, hfinish, hturned, hranges'', hallows, ?_, ?_⟩
  · exact hbytes 3 (by decide) 6 (by decide) 0
  · exact hbytes 9 (by decide) 8 (by decide) 1

/-- Where an empty range comes before the whole document, text that is put in at the start leaves ranges
that no parser accepts. -/
theorem exists_displaced : ∃ t, (Builder.new C.grammar 0).finish .zero [⟨.zero, .zero⟩, .document] = .ok t ∧
    (Parser.new : Parser Unit).Allows t.includedRanges ∧ Span.OpenAtEnd t.includedRanges ∧
    Edit.Proper ⟨.zero, .zero, ⟨2, ⟨0, 2⟩⟩⟩ ∧
    ¬ (Parser.new : Parser Unit).Allows
      (t.edit 1 ⟨.zero, .zero, ⟨2, ⟨0, 2⟩⟩⟩).includedRanges := by
  refine ⟨_, rfl, ⟨_, rfl⟩, ⟨by decide, by decide⟩, ⟨by decide, by decide, by decide, by decide⟩, ?_⟩
  rintro ⟨q, hq⟩
  cases hq

end Tree

end Reparse
