import Reparse.Proofs.Places

/-!
# Extents

The extent of a text (`Length.of`) and the position of a byte in it (`Length.upTo`), as the original
text says: rows are counted by line breaks, columns from the last one. Extents add up as texts do, and
the positions that a source of UTF-8 gives to bytes are these (`Source.positionAt_utf8`).
-/

namespace Reparse

/-! ## Extents of texts -/

/-- The extent of a text, which is also the position of its end. -/
def Length.of (w : List UInt8) : Length := ⟨w.length, .ofByte w w.length⟩

namespace Length

variable {a b w : List UInt8}

/-- The extent of a text counts its bytes. -/
@[simp]
lemma bytes_of (w : List UInt8) : (of w).bytes = w.length := rfl

/-- A text without bytes has no extent. -/
@[simp]
lemma of_nil : of [] = zero := rfl

/-- The number of bytes after the last line break of a text. -/
def lastLine (w : List UInt8) : Nat := (w.reverse.takeWhile (· != 10)).length

/-- The extent of a text is the number of its bytes and newlines, and how many bytes its last line has. -/
lemma of_eq (w : List UInt8) : of w = ⟨w.length, ⟨w.count 10, lastLine w⟩⟩ := by
  simp [of, Point.ofByte, lastLine]

/-- The last line has no more bytes than the text. -/
lemma lastLine_le (w : List UInt8) : lastLine w ≤ w.length := by
  rw [← List.length_reverse]
  exact (List.takeWhile_sublist _).length_le

/-- Of two texts, the last line is that of the second, if it has a line break. -/
lemma lastLine_append (a b : List UInt8) :
    lastLine (a ++ b) = if 0 < b.count 10 then lastLine b else lastLine a + b.length := by
  have hall : (b.reverse.takeWhile (· != 10)).length = b.reverse.length ↔ b.count 10 = 0 := by
    rw [List.count_eq_zero, ← List.mem_reverse]
    generalize b.reverse = r
    induction r with
    | nil => simp
    | cons x r ih =>
      by_cases hx : x = 10
      · simp [hx]
      · simp only [List.takeWhile_cons, bne_iff_ne, ne_eq, hx, not_false_eq_true, if_true,
          List.length_cons, Nat.add_right_cancel_iff, ih, List.mem_cons, not_or]
        simp [Ne.symm hx]
  unfold lastLine
  rw [List.reverse_append, List.takeWhile_append]
  by_cases hb : b.count 10 = 0
  · rw [if_pos (hall.2 hb), if_neg (by omega), List.length_append, List.length_reverse, Nat.add_comm]
  · rw [if_neg (mt hall.1 hb), if_pos (by omega)]

/-- A text without line breaks is all one line. -/
lemma lastLine_of_count {w : List UInt8} (h : w.count 10 = 0) : lastLine w = w.length := by
  have hl := lastLine_append [] w
  rwa [if_neg (by omega), List.nil_append, show lastLine [] = 0 from rfl, Nat.zero_add] at hl

/-- The extent of two texts is the extent of the one after that of the other. -/
lemma of_append (h : (a ++ b).length ≤ limit) : of (a ++ b) = of a + of b := by
  rw [List.length_append] at h
  have ha := lastLine_le a
  have hca : a.count 10 ≤ a.length := List.count_le_length
  have hcb : b.count 10 ≤ b.length := List.count_le_length
  rw [of_eq, of_eq, of_eq, lastLine_append, List.count_append, List.length_append]
  show _ = (⟨addCounts a.length b.length, Point.add _ _⟩ : Length)
  unfold Point.add
  dsimp only
  rw [addCounts_of_le h]
  by_cases hb : 0 < b.count 10
  · rw [if_pos hb, if_pos hb, addCounts_of_le (by omega)]
  · have hzero : b.count 10 = 0 := by omega
    rw [if_neg hb, if_neg hb, lastLine_of_count hzero, addCounts_of_le (by omega), hzero,
      Nat.add_zero]

/-- What a text has after its first part. -/
lemma of_append_sub (a b : List UInt8) : of (a ++ b) - of a = of b := by
  rw [of_eq, of_eq, of_eq, lastLine_append, List.count_append, List.length_append]
  show (⟨a.length + b.length - a.length, Point.sub _ _⟩ : Length) = _
  unfold Point.sub
  dsimp only
  rw [Nat.add_sub_cancel_left]
  by_cases hb : 0 < b.count 10
  · rw [if_pos (by omega), if_pos hb, Nat.add_sub_cancel_left]
  · have hzero : b.count 10 = 0 := by omega
    rw [if_neg (by omega), if_neg hb, Nat.add_sub_cancel_left, lastLine_of_count hzero, hzero]

/-- The position of a byte of a text. -/
def upTo (w : List UInt8) (x : Nat) : Length := of (w.take x)

/-- The extent up to a byte of a text counts as many bytes. -/
lemma bytes_upTo {x : Nat} (h : x ≤ w.length) : (upTo w x).bytes = x := by
  rw [upTo, bytes_of, List.length_take, Nat.min_eq_left h]

/-- At the beginning there is no extent. -/
@[simp]
lemma upTo_zero (w : List UInt8) : upTo w 0 = zero := rfl

/-- A position is that of an earlier byte and the extent from there. -/
lemma upTo_add (h : w.length ≤ limit) (x y : Nat) : upTo w x + upTo (w.drop x) y = upTo w (x + y) := by
  rw [upTo, upTo, upTo, List.take_add, of_append]
  rw [← List.take_add, List.length_take]
  omega

/-- From one position to a later one leads the extent between them. -/
lemma upTo_sub (w : List UInt8) {x y : Nat} (h : x ≤ y) :
    upTo w y - upTo w x = upTo (w.drop x) (y - x) := by
  obtain ⟨k, rfl⟩ := Nat.exists_eq_add_of_le h
  rw [upTo, upTo, upTo, List.take_add, of_append_sub, Nat.add_sub_cancel_left]

/-- The same where the other position may not be later. -/
lemma upTo_beyond (w : List UInt8) (x y : Nat) :
    (upTo w y).beyond (upTo w x) = upTo (w.drop x) (y - x) := by
  unfold beyond
  simp only [upTo, bytes_of, List.length_take]
  split
  · rename_i hlt
    exact upTo_sub w (by omega)
  · rename_i hle
    by_cases hxy : y ≤ x
    · rw [Nat.sub_eq_zero_of_le hxy]
      rfl
    · rw [List.drop_of_length_le (by omega), List.take_nil]
      rfl

/-- A position is that of its own byte, also where the text ends before. -/
@[simp]
lemma upTo_bytes (w : List UInt8) (x : Nat) : upTo w (upTo w x).bytes = upTo w x := by
  simp only [upTo, bytes_of, List.length_take]
  rw [← List.take_take, List.take_length]

/-- A position is told by the text before it. -/
lemma upTo_congr {v w : List UInt8} {k x : Nat} (h : v.take k = w.take k) (hx : x ≤ k) :
    upTo v x = upTo w x := by
  have := congrArg (List.take x) h
  rw [List.take_take, List.take_take, Nat.min_eq_left hx] at this
  rw [upTo, upTo, this]

end Length

/-! ## Lines of UTF-8 -/

open Decode (sequence? scalar? continuation? replacement utf8From)
open Source (laterLines)

/-- Beyond ASCII there is no newline. -/
lemma ofNat_ne_newline {n : Nat} (h : 0x80 ≤ n) (hv : n.isValidChar) : Char.ofNat n ≠ '\n' := by
  have ht := Decode.toNat_ofNat hv
  intro hc
  rw [hc] at ht
  exact absurd (ht ▸ h) (by decide)

/-- A byte that goes on with a character is no line break. -/
lemma exists_of_continuation {rest : List UInt8} {i n : Nat}
    (h : rest[i]? >>= continuation? = some n) : ∃ b, rest[i]? = some b ∧ b ≠ 10 := by
  obtain ⟨b, hb, hn⟩ := Option.bind_eq_some_iff.1 h
  refine ⟨b, hb, ?_⟩
  rintro rfl
  cases hn

/-- Where the next bytes are no newlines, there is none among them. -/
lemma ne_of_mem_take {rest : List UInt8} {n : Nat}
    (h : ∀ i < n, ∃ b, rest[i]? = some b ∧ b ≠ 10) : ∀ b ∈ rest.take n, b ≠ 10 := by
  intro b hb
  obtain ⟨i, hi⟩ := List.getElem?_of_mem hb
  rw [List.getElem?_take] at hi
  split at hi
  · rename_i hlt
    obtain ⟨c, hc, hne⟩ := h i hlt
    rw [hc] at hi
    cases hi
    exact hne
  · cases hi

/-- A character of several bytes is no line break. -/
lemma scalar?_newline {least code width : Nat} {a : UInt8} {d : Decoded} (ha : a ≠ 10)
    (hl : 0x80 ≤ least) (h : scalar? least code width = some d) :
    (d.char = '\n' ↔ a = 10) ∧ d.width = width := by
  unfold scalar? at h
  split at h
  · rename_i hv
    cases h
    exact ⟨iff_of_false (ofNat_ne_newline (Nat.le_trans hl hv.1) hv.2) ha, rfl⟩
  · cases h

/-- A line break is a byte of its own, and no other character has such a byte. -/
lemma sequence?_newline {a : UInt8} {rest : List UInt8} {d : Decoded}
    (h : sequence? a rest = some d) :
    (d.char = '\n' ↔ a = 10) ∧ ∀ b ∈ rest.take (d.width - 1), b ≠ 10 := by
  unfold sequence? at h
  split at h
  · rename_i ha
    cases h
    refine ⟨⟨fun hc => ?_, fun ha => by rw [ha]; rfl⟩, fun b hb => by cases hb⟩
    have hlt := UInt8.lt_iff_toNat_lt.1 ha
    have hv : a.toNat.isValidChar := Or.inl (by
      have : (0x80 : UInt8).toNat = 128 := rfl
      omega)
    have ht := Decode.toNat_ofNat hv
    rw [show Char.ofNat a.toNat = '\n' from hc] at ht
    exact UInt8.toNat_inj.1 ht.symm
  rename_i ha
  have hne : a ≠ 10 := by
    rintro rfl
    exact ha (by decide)
  split at h
  · cases h
  obtain ⟨b, hb, h⟩ := Option.bind_eq_some_iff.1 h
  have h0 := exists_of_continuation hb
  split at h
  · obtain ⟨hc, hw⟩ := scalar?_newline hne (by decide) h
    rw [hw]
    exact ⟨hc, ne_of_mem_take fun i hi => by
      obtain rfl : i = 0 := by omega
      exact h0⟩
  obtain ⟨c, hc, h⟩ := Option.bind_eq_some_iff.1 h
  have h1 := exists_of_continuation hc
  split at h
  · obtain ⟨hc, hw⟩ := scalar?_newline hne (by decide) h
    rw [hw]
    exact ⟨hc, ne_of_mem_take fun i hi => by
      obtain rfl | rfl : i = 0 ∨ i = 1 := by omega
      · exact h0
      · exact h1⟩
  obtain ⟨d', hd, h⟩ := Option.bind_eq_some_iff.1 h
  obtain ⟨hc, hw⟩ := scalar?_newline hne (by decide) h
  rw [hw]
  exact ⟨hc, ne_of_mem_take fun i hi => by
    obtain rfl | rfl | rfl : i = 0 ∨ i = 1 ∨ i = 2 := by omega
    · exact h0
    · exact h1
    · exact exists_of_continuation hd⟩

/-- The bytes after the line breaks of a text that starts at `byte`. -/
def lineEnds (byte : Nat) : List UInt8 → List Nat
  | [] => []
  | b :: rest => if b = 10 then (byte + 1) :: lineEnds (byte + 1) rest else lineEnds (byte + 1) rest

/-- The lines of a text that is read as UTF-8 start after its line breaks. -/
lemma laterLines_utf8From {skip byte : Nat} {w : List UInt8} (h : ∀ b ∈ w.take skip, b ≠ 10) :
    laterLines (byte + skip) (utf8From skip w) = lineEnds byte w := by
  induction w generalizing skip byte with
  | nil => cases skip <;> rfl
  | cons a w ih =>
    cases skip with
    | succ skip =>
      have ha : a ≠ 10 := h a (by simp)
      rw [utf8From, lineEnds, if_neg ha, ← ih fun b hb => h b (List.mem_cons_of_mem a hb)]
      congr 1
      omega
    | zero =>
      have hd : ∃ d, d = (sequence? a w).getD ⟨replacement, 1⟩ ∧ 0 < d.width ∧
          (d.char = '\n' ↔ a = 10) ∧ (a = 10 → d.width = 1) ∧ ∀ b ∈ w.take (d.width - 1), b ≠ 10 := by
        refine ⟨_, rfl, ?_⟩
        cases hs : sequence? a w with
        | none =>
          refine ⟨Nat.one_pos, ⟨fun hc => absurd hc (by decide), ?_⟩, fun _ => rfl,
            fun b hb => by cases hb⟩
          rintro rfl
          cases hs
        | some d =>
          obtain ⟨hc, ht⟩ := sequence?_newline hs
          refine ⟨(Decode.width_of_sequence? hs).1, hc, ?_, ht⟩
          rintro rfl
          cases hs
          rfl
      obtain ⟨d, hd, hpos, hc, h1, ht⟩ := hd
      have hnext : byte + 0 + d.width = byte + 1 + (d.width - 1) := by omega
      rw [utf8From, ← hd, laterLines, lineEnds, hnext]
      simp only [hc, ih ht]
      split
      · rename_i ha
        rw [h1 ha]
      · rfl

/-- Lines end after where they begin. -/
lemma lt_of_mem_lineEnds {byte l : Nat} {w : List UInt8} (h : l ∈ lineEnds byte w) : byte < l := by
  induction w generalizing byte with
  | nil => cases h
  | cons a w ih =>
    rw [lineEnds] at h
    split at h
    · rcases List.mem_cons.1 h with rfl | h
      · omega
      · have := ih h
        omega
    · have := ih h
      omega

/-- The lines that start up to a byte are those of the text before it. -/
lemma takeWhile_lineEnds (byte x : Nat) (w : List UInt8) :
    (lineEnds byte w).takeWhile (· ≤ byte + x) = lineEnds byte (w.take x) := by
  induction w generalizing byte x with
  | nil => rw [List.take_nil]; rfl
  | cons a w ih =>
    cases x with
    | zero =>
      rw [List.take_zero, lineEnds]
      cases hl : lineEnds byte (a :: w) with
      | nil => rfl
      | cons l ls =>
        have hlt := lt_of_mem_lineEnds (hl ▸ List.mem_cons_self .. : l ∈ lineEnds byte (a :: w))
        exact List.takeWhile_cons_of_neg (by simpa using hlt)
    | succ x =>
      have ih := ih (byte + 1) x
      rw [show byte + 1 + x = byte + (x + 1) by omega] at ih
      rw [List.take_succ_cons, lineEnds, lineEnds]
      split
      · rw [List.takeWhile_cons_of_pos (by simp), ih]
      · exact ih

/-- A text has as many line ends as newlines. -/
lemma length_lineEnds (byte : Nat) (w : List UInt8) : (lineEnds byte w).length = w.count 10 := by
  induction w generalizing byte with
  | nil => rfl
  | cons a w ih =>
    rw [lineEnds, List.count_cons]
    split
    · rename_i ha
      simp [ih, ha]
    · rename_i ha
      simp [ih, ha]

/-- The last of the lines starts as far before the end as the last line is long. -/
lemma getLast_lineEnds (byte : Nat) (w : List UInt8) :
    (lineEnds byte w).getLast?.getD byte + Length.lastLine w = byte + w.length := by
  induction w generalizing byte with
  | nil => rfl
  | cons a w ih =>
    have ih := ih (byte + 1)
    have happend := Length.lastLine_append [a] w
    have hcount := length_lineEnds (byte + 1) w
    rw [List.singleton_append] at happend
    rw [lineEnds, happend, List.length_cons]
    split
    · rename_i ha
      subst ha
      have h1 : Length.lastLine [10] = 0 := rfl
      rw [List.getLast?_cons, Option.getD_some]
      split
      · omega
      · have := Length.lastLine_of_count (w := w) (by omega)
        omega
    · rename_i ha
      have h1 : Length.lastLine [a] = 1 := by simp [Length.lastLine, ha]
      cases hl : (lineEnds (byte + 1) w).getLast? with
      | none =>
        rw [List.getLast?_eq_none_iff.1 hl, List.length_nil] at hcount
        rw [if_neg (by omega), h1]
        simp only [Option.getD_none]
        omega
      | some l =>
        have hpos := List.length_pos_of_mem (List.mem_of_getLast? hl)
        rw [hl] at ih
        rw [if_pos (by omega)]
        simp only [Option.getD_some] at ih ⊢
        omega

/-- A source of UTF-8 gives to a byte the extent of the text before it. -/
theorem Source.positionAt_utf8 (bytes : List UInt8) (ranges : List Span) {x : Nat}
    (hx : x ≤ bytes.length) :
    (ofDocument ⟨bytes, .utf8⟩ ranges).positionAt x = .upTo bytes x := by
  have hlines : (ofDocument ⟨bytes, .utf8⟩ ranges).lineStarts = 0 :: lineEnds 0 bytes :=
    congrArg (0 :: ·) (@laterLines_utf8From 0 0 bytes fun b hb => by cases hb)
  have htake := takeWhile_lineEnds 0 x bytes
  have hlast := getLast_lineEnds 0 (bytes.take x)
  rw [Nat.zero_add] at htake hlast
  rw [Length.upTo, Length.of_eq, positionAt, pointAt, hlines, List.takeWhile_cons_of_pos (by simp),
    htake, List.getLast?_cons, List.length_cons, Nat.add_sub_cancel, length_lineEnds]
  rw [List.length_take, Nat.min_eq_left hx] at hlast ⊢
  congr 2
  rw [Option.getD_some]
  omega

end Reparse
