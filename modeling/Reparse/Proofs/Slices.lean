import Reparse.Proofs.Lexing

/-!
# Slices

A document as a parser sees it is a list of cells: its bytes, each with the number of the range that
holds it (`Document.cells`). The characters of the document are those of its cells
(`Source.chars_eq`). A slice of cells that ends with a character that closes statements has the same
characters wherever it stands (`Source.charsFrom_slice`), and so do the cells of a document between
two places where its characters are parted (`Closed.of_split`).
-/

namespace Reparse

open Decode (widthOf widthOf_nil widthOf_cons widthOf_append IsCloser)

/-- A byte of a document and the number of the range that holds it, if there is one. -/
abbrev Cell : Type := UInt8 × Option Nat

/-- A character `x` bytes further on. -/
def SourceChar.shift (x : Nat) (c : SourceChar) : SourceChar := { c with byte := x + c.byte }

namespace Source

/-- The number of the range that holds a byte: the first one that does not end before the byte, if it
does not start after it. -/
def rangeAt (ranges : List Span) (byte : Nat) : Option Nat :=
  let passed := (ranges.takeWhile fun r => r.stop.bytes ≤ byte).length
  (ranges.drop passed).head?.bind fun r => if r.containsByte byte then some passed else none

/-- The characters of a text that lie in a range, where the text starts at `byte`. -/
def charsIn (rangeOf : Nat → Option Nat) (byte : Nat) : List Decoded → List SourceChar
  | [] => []
  | d :: ds =>
    ((rangeOf byte).map fun r => ⟨d.char, byte, d.width, r⟩).toList ++
      charsIn rangeOf (byte + d.width) ds

/-- Ranges that end before a byte may be left behind. -/
lemma rangeAt_drop (ranges : List Span) {byte x : Nat} (h : byte ≤ x) :
    (rangeAt (ranges.drop (ranges.takeWhile fun r => r.stop.bytes ≤ byte).length) x).map
        ((ranges.takeWhile fun r => r.stop.bytes ≤ byte).length + ·) = rangeAt ranges x := by
  have hsplit : ranges = ranges.takeWhile (fun r => r.stop.bytes ≤ byte) ++
      ranges.dropWhile fun r => r.stop.bytes ≤ byte := List.takeWhile_append_dropWhile.symm
  have hpassed : ∀ r ∈ ranges.takeWhile (fun r => r.stop.bytes ≤ byte),
      decide (r.stop.bytes ≤ x) = true := fun r hr => by
    have := @List.mem_takeWhile_imp _ (fun r : Span => decide (r.stop.bytes ≤ byte)) _ _ hr
    simp only [decide_eq_true_eq] at this ⊢
    omega
  generalize ranges.takeWhile (fun r => r.stop.bytes ≤ byte) = a at hsplit hpassed ⊢
  generalize ranges.dropWhile (fun r => decide (r.stop.bytes ≤ byte)) = b at hsplit
  subst hsplit
  have htake : (a ++ b).takeWhile (fun r => decide (r.stop.bytes ≤ x)) =
      a ++ b.takeWhile fun r => decide (r.stop.bytes ≤ x) := List.takeWhile_append_of_pos hpassed
  simp only [rangeAt, List.drop_left, htake, List.length_append]
  rw [List.drop_length_add_append]
  cases (b.drop (b.takeWhile fun r => decide (r.stop.bytes ≤ x)).length).head? with
  | none => rfl
  | some r =>
    simp only [Option.bind_some]
    split <;> rfl

/-- Characters depend only on the ranges at the places where they stand. -/
lemma charsIn_congr {f g : Nat → Option Nat} {byte : Nat} {ds : List Decoded}
    (hw : ∀ d ∈ ds, 0 < d.width) (h : ∀ x, byte ≤ x → x < byte + widthOf ds → f x = g x) :
    charsIn f byte ds = charsIn g byte ds := by
  induction ds generalizing byte with
  | nil => rfl
  | cons d ds ih =>
    have hd := hw d (List.mem_cons_self ..)
    rw [widthOf_cons] at h
    rw [charsIn, charsIn, h byte (Nat.le_refl _) (by omega),
      ih (fun c hc => hw c (List.mem_cons_of_mem d hc)) fun x hx hlt => h x (by omega) (by omega)]

/-- The included characters of a text in two parts are those of both. -/
lemma charsIn_append (f : Nat → Option Nat) (byte : Nat) (a b : List Decoded) :
    charsIn f byte (a ++ b) = charsIn f byte a ++ charsIn f (byte + widthOf a) b := by
  induction a generalizing byte with
  | nil => rfl
  | cons d a ih => simp [charsIn, ih, Nat.add_assoc]

/-- The characters of a text that starts `x` bytes further on. -/
lemma charsIn_add (f : Nat → Option Nat) (x byte : Nat) (ds : List Decoded) :
    charsIn f (x + byte) ds = (charsIn (fun y => f (x + y)) byte ds).map (SourceChar.shift x) := by
  induction ds generalizing byte with
  | nil => rfl
  | cons d ds ih =>
    rw [charsIn, charsIn, List.map_append, Nat.add_assoc, ih]
    cases f (x + byte) <;> rfl

/-- A character stands at a place where the text is parted. -/
lemma exists_of_mem_charsIn {f : Nat → Option Nat} {byte : Nat} {ds : List Decoded} {c : SourceChar}
    (h : c ∈ charsIn f byte ds) : ∃ (a : List Decoded) (d : Decoded) (b : List Decoded),
      ds = a ++ d :: b ∧ c.byte = byte + widthOf a ∧ c.width = d.width ∧ c.char = d.char ∧
      f c.byte = some c.range := by
  induction ds generalizing byte with
  | nil => cases h
  | cons d ds ih =>
    rw [charsIn, List.mem_append] at h
    rcases h with h | h
    · cases hf : f byte with
      | none => simp [hf] at h
      | some r =>
        obtain rfl : c = ⟨d.char, byte, d.width, r⟩ := by simpa [hf] using h
        exact ⟨[], d, ds, rfl, rfl, rfl, rfl, hf⟩
    · obtain ⟨a, e, b, rfl, hb, hw, hc, hr⟩ := ih h
      exact ⟨d :: a, e, b, rfl, by rw [hb, widthOf_cons]; omega, hw, hc, hr⟩

/-- Characters stand inside their text. -/
lemma le_byte_of_mem_charsIn {f : Nat → Option Nat} {byte : Nat} {ds : List Decoded} {c : SourceChar}
    (hw : ∀ d ∈ ds, 0 < d.width) (h : c ∈ charsIn f byte ds) :
    byte ≤ c.byte ∧ 0 < c.width ∧ c.stop ≤ byte + widthOf ds := by
  obtain ⟨a, d, b, rfl, hb, hwidth, -⟩ := exists_of_mem_charsIn h
  have hd := hw d (List.mem_append_right a (List.mem_cons_self ..))
  rw [widthOf_append, widthOf_cons, SourceChar.stop]
  omega

/-- Characters stand in order. -/
lemma ordered_charsIn (f : Nat → Option Nat) {byte : Nat} {ds : List Decoded}
    (hw : ∀ d ∈ ds, 0 < d.width) : Ordered (charsIn f byte ds) := by
  refine ⟨?_, fun c hc => (le_byte_of_mem_charsIn hw hc).2.1⟩
  induction ds generalizing byte with
  | nil => exact List.Pairwise.nil
  | cons d ds ih =>
    have hds : ∀ c ∈ ds, 0 < c.width := fun c hc => hw c (List.mem_cons_of_mem d hc)
    rw [charsIn]
    cases f byte with
    | none => exact ih hds
    | some r =>
      exact List.pairwise_cons.2 ⟨fun c hc => (le_byte_of_mem_charsIn hds hc).1, ih hds⟩

/-- The kept characters are those whose places lie in a range. -/
lemma keepIncluded_eq {ds : List Decoded} (hw : ∀ d ∈ ds, 0 < d.width) (byte index : Nat)
    (ranges : List Span) : keepIncluded byte index ranges ds =
      charsIn (fun x => (rangeAt ranges x).map (index + ·)) byte ds := by
  induction ds generalizing byte index ranges with
  | nil => rfl
  | cons d ds ih =>
    have hds : ∀ c ∈ ds, 0 < c.width := fun c hc => hw c (List.mem_cons_of_mem d hc)
    have hmove : ∀ x, byte + d.width ≤ x →
        (rangeAt (ranges.drop (ranges.takeWhile fun r => r.stop.bytes ≤ byte).length) x).map
          (index + (ranges.takeWhile fun r => r.stop.bytes ≤ byte).length + ·) =
        (rangeAt ranges x).map (index + ·) := fun x hx => by
      rw [← rangeAt_drop ranges (show byte ≤ x by omega), Option.map_map]
      congr 1
      funext k
      exact Nat.add_assoc ..
    have hrest := ih hds (byte + d.width)
      (index + (ranges.takeWhile fun r => r.stop.bytes ≤ byte).length)
      (ranges.drop (ranges.takeWhile fun r => r.stop.bytes ≤ byte).length)
    rw [charsIn_congr hds fun x hx _ => hmove x hx] at hrest
    have hhere : rangeAt ranges byte =
        (ranges.drop (ranges.takeWhile fun r => r.stop.bytes ≤ byte).length).head?.bind fun r =>
          if r.containsByte byte then
            some (ranges.takeWhile fun r => r.stop.bytes ≤ byte).length else none := rfl
    rw [charsIn, hhere]
    unfold keepIncluded
    dsimp only
    generalize ranges.drop (ranges.takeWhile fun r => r.stop.bytes ≤ byte).length = rs at hrest ⊢
    cases rs with
    | nil =>
      have hempty : keepIncluded (byte + d.width)
          (index + (ranges.takeWhile fun r => r.stop.bytes ≤ byte).length) [] ds = [] := by
        cases ds <;> rfl
      rw [hempty] at hrest
      simpa using hrest
    | cons r later =>
      simp only [List.head?_cons, Option.bind_some]
      split
      · rw [hrest]
        rfl
      · rw [hrest]
        rfl

/-- The included characters of a document, by the ranges that hold them. -/
theorem chars_eq (d : Document) (ranges : List Span) :
    (ofDocument d ranges).chars = charsIn (rangeAt (effectiveRanges ranges)) 0 d.decode := by
  have h := keepIncluded_eq (fun _ h => Document.width_pos (d := d) h) 0 0 (effectiveRanges ranges)
  have hzero : ∀ x, (rangeAt (effectiveRanges ranges) x).map (0 + ·) =
      rangeAt (effectiveRanges ranges) x := fun x => by
    simp
  rw [charsIn_congr (fun _ h => Document.width_pos (d := d) h) fun x _ _ => hzero x] at h
  exact h

/-- The characters of a document from a place on where it is parted. -/
lemma charsFrom_widthOf {d : Document} (ranges : List Span) {a b : List Decoded}
    (h : d.decode = a ++ b) : (ofDocument d ranges).charsFrom (widthOf a) =
      charsIn (rangeAt (effectiveRanges ranges)) (widthOf a) b := by
  have hw : ∀ c ∈ a ++ b, 0 < c.width := fun c hc => Document.width_pos (d := d) (by rwa [h])
  have hchars := chars_eq d ranges
  rw [h, charsIn_append, Nat.zero_add] at hchars
  refine charsFrom_eq hchars (fun c hc => ?_) fun c hc => ?_
  · have := le_byte_of_mem_charsIn (fun d hd => hw d (List.mem_append_left b hd)) hc
    rw [SourceChar.stop] at this
    omega
  · exact (le_byte_of_mem_charsIn (fun d hd => hw d (List.mem_append_right a hd)) hc).1

/-- Of two places where a text is parted, the first one parts what stands before the second. -/
lemma exists_of_widthOf_le {a b a' b' : List Decoded} (hw : ∀ d ∈ a, 0 < d.width)
    (h : a ++ b = a' ++ b') (hle : widthOf a ≤ widthOf a') : ∃ m, a' = a ++ m ∧ b = m ++ b' := by
  rcases List.append_eq_append_iff.1 h with ⟨m, rfl, rfl⟩ | ⟨m, rfl, rfl⟩
  · exact ⟨m, rfl, rfl⟩
  · rw [widthOf_append] at hle
    cases m with
    | nil => exact ⟨[], by simp, rfl⟩
    | cons d m =>
      have := hw d (List.mem_append_right a' (List.mem_cons_self ..))
      rw [widthOf_cons] at hle
      omega

/-- An included character stops where the document is parted. -/
lemma exists_decode_of_mem_chars {d : Document} {ranges : List Span} {c : SourceChar}
    (h : c ∈ (ofDocument d ranges).chars) : ∃ (a : List Decoded) (e : Decoded) (b : List Decoded),
      d.decode = a ++ e :: b ∧ widthOf a = c.byte ∧ e.width = c.width ∧ e.char = c.char := by
  rw [chars_eq] at h
  obtain ⟨a, e, b, hd, hb, hw, hc, -⟩ := exists_of_mem_charsIn h
  exact ⟨a, e, b, hd, by omega, hw.symm, hc.symm⟩

end Source

/-! ## Cells -/

/-- The cells of a document. -/
def Document.cells (d : Document) (ranges : List Span) : List Cell :=
  d.bytes.mapIdx fun x b => (b, Source.rangeAt ranges x)

/-- A document has as many cells as bytes. -/
@[simp]
lemma Document.length_cells (d : Document) (ranges : List Span) :
    (d.cells ranges).length = d.bytes.length := by
  simp [cells]

/-- The cells of a document hold its bytes. -/
@[simp]
lemma Document.map_fst_cells (d : Document) (ranges : List Span) :
    (d.cells ranges).map (·.1) = d.bytes := by
  refine List.ext_getElem? fun x => ?_
  rw [List.getElem?_map, cells, List.getElem?_mapIdx]
  cases d.bytes[x]? <;> rfl

/-- The characters of some cells. -/
def Source.ofCells (e : Encoding) (w : List Cell) : List SourceChar :=
  charsIn (fun x => w[x]?.bind (·.2)) 0 (Document.mk (w.map (·.1)) e).decode

/-- Whether cells end with a character that closes statements, so that where they end does not
depend on what follows. -/
def Closed (e : Encoding) (w : List Cell) : Prop :=
  ∃ (ds : List Decoded) (d : Decoded), (Document.mk (w.map (·.1)) e).decode = ds ++ [d] ∧
    widthOf ds + d.width = w.length ∧ IsCloser d.char

section

variable {d : Document} {ranges : List Span} {u w r : List Cell}

/-- The bytes after some cells are those of the cells that follow. -/
lemma Document.drop_bytes (h : d.cells (Source.effectiveRanges ranges) = u ++ w ++ r) :
    d.bytes.drop u.length = w.map (·.1) ++ r.map (·.1) := by
  rw [← d.map_fst_cells (Source.effectiveRanges ranges), h, List.append_assoc, List.map_append,
    List.drop_left' (List.length_map ..), List.map_append]

/-- The cells of a document between two places where it is parted, the second one after a character
that closes statements. -/
theorem Closed.of_split {a ds b : List Decoded} {e : Decoded}
    (h : d.cells (Source.effectiveRanges ranges) = u ++ w ++ r) (hd : d.decode = a ++ (ds ++ e :: b))
    (ha : widthOf a = u.length) (hw : widthOf ds + e.width = w.length) (he : IsCloser e.char) :
    Closed d.encoding w := by
  have hdrop := Document.decode_drop (e := d.encoding) hd
  rw [ha, Document.drop_bytes h] at hdrop
  have hall := Document.decode_append hdrop (by simpa using hw) he []
  have hnil : (Document.mk [] d.encoding).decode = [] := by
    cases d.encoding <;> rfl
  rw [List.append_nil, hnil] at hall
  exact ⟨ds, e, hall, hw, he⟩

/-- A closed slice of a document has the same characters wherever it stands. -/
theorem Source.charsFrom_slice {a b : List Decoded} (hw : Closed d.encoding w)
    (h : d.cells (effectiveRanges ranges) = u ++ w ++ r) (hd : d.decode = a ++ b)
    (ha : widthOf a = u.length) :
    (∃ c, b = (Document.mk (w.map (·.1)) d.encoding).decode ++ c) ∧
    (ofDocument d ranges).charsFrom u.length =
      (ofCells d.encoding w).map (SourceChar.shift u.length) ++
        (ofDocument d ranges).charsFrom (u.length + w.length) := by
  obtain ⟨ds, e, hds, hwidth, hc⟩ := hw
  have hdrop := Document.decode_drop (e := d.encoding) hd
  rw [ha, Document.drop_bytes h] at hdrop
  have hall := Document.decode_append (r := []) (by rw [List.append_nil]; exact hds)
    (by simpa using hwidth) hc (r.map (·.1))
  have hb : b = (Document.mk (w.map (·.1)) d.encoding).decode ++
      (Document.mk (r.map (·.1)) d.encoding).decode := by
    rw [← hdrop, hall, hds, List.append_assoc]
    rfl
  have hwd : widthOf (Document.mk (w.map (·.1)) d.encoding).decode = w.length := by
    rw [hds, widthOf_append, widthOf_cons, widthOf_nil]
    exact hwidth
  refine ⟨⟨_, hb⟩, ?_⟩
  have hfar := charsFrom_widthOf ranges (show d.decode =
    (a ++ (Document.mk (w.map (·.1)) d.encoding).decode) ++ _ by rw [hd, hb, List.append_assoc])
  rw [widthOf_append, ha, hwd] at hfar
  rw [hfar, ← ha, charsFrom_widthOf ranges hd, hb, charsIn_append, hwd, ha]
  congr 1
  rw [← Nat.add_zero u.length, charsIn_add, Nat.add_zero, ofCells]
  congr 1
  refine charsIn_congr (fun _ h => Document.width_pos h) fun x _ hx => ?_
  rw [Nat.zero_add, hwd] at hx
  have hcell : (d.cells (effectiveRanges ranges))[u.length + x]? = w[x]? := by
    rw [h, List.append_assoc, List.getElem?_append_right (by omega), Nat.add_sub_cancel_left,
      List.getElem?_append_left hx]
  have hlen : u.length + x < d.bytes.length := by
    rw [← d.length_cells (effectiveRanges ranges), h, List.length_append, List.length_append]
    omega
  rw [← hcell, Document.cells, List.getElem?_mapIdx, List.getElem?_eq_getElem hlen]
  rfl

end

end Reparse
