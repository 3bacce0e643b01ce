import Reparse.Proofs.Starts

/-!
# Replacements

The edit that is made for a replacement in a text (`Edit.ofReplacement?`) has the rows and columns of
both texts, and it takes the positions of bytes of the one to the positions of the same bytes in the
other, wherever the line breaks stand (`Edit.shift_ofReplacement`). This rests on points of texts adding
up as the texts do (`Point.ofByte_append`).
-/

namespace Reparse

/-- The point where a text ends is the sum of the points where its parts end. -/
lemma Point.ofByte_append {a b : List UInt8} (h : (a ++ b).length ≤ limit) :
    ofByte (a ++ b) (a ++ b).length = ofByte a a.length + ofByte b b.length :=
  congrArg Length.extent (Length.of_append h)

/-- The position of a byte of a text is the byte with its row and column. -/
lemma Length.upTo_eq {w : List UInt8} {x : Nat} (h : x ≤ w.length) : upTo w x = ⟨x, .ofByte w x⟩ := by
  have hpoint : (upTo w x).extent = .ofByte w x := by
    simp only [upTo, of, Point.ofByte, List.take_length]
  calc upTo w x = ⟨(upTo w x).bytes, (upTo w x).extent⟩ := rfl
    _ = ⟨x, .ofByte w x⟩ := by rw [bytes_upTo h, hpoint]

namespace Edit

variable {text replacement : List UInt8} {start stop : Nat}

/-- A replacement has its length and that of what it leaves. -/
lemma length_applyTo (hstart : start ≤ stop) (hstop : stop ≤ text.length) :
    (applyTo text start stop replacement).length =
      start + replacement.length + (text.length - stop) := by
  simp only [applyTo, List.length_append, List.length_take, List.length_drop]
  omega

/-- Texts that are no longer than positions can tell have an edit for each replacement. -/
lemma exists_ofReplacement (hstart : start ≤ stop) (hstop : stop ≤ text.length)
    (hl : (applyTo text start stop replacement).length ≤ limit) :
    ∃ e, ofReplacement? text start stop replacement = some e := by
  rw [length_applyTo hstart hstop] at hl
  have hoffset : start + replacement.length < offsets :=
    Nat.lt_of_le_of_lt (by omega) (show limit < offsets by decide)
  exact ⟨_, if_pos hoffset⟩

/-- For a replacement in a text there is an edit that has the positions of both texts. It takes the
position of each byte that stays to the position of that byte in the new text, and the position of each
byte inside the replaced part to the end of the replacement. Points add up as texts do. -/
theorem shift_ofReplacement (hstart : start ≤ stop) (hstop : stop ≤ text.length)
    (hl : text.length ≤ limit) (hl' : (applyTo text start stop replacement).length ≤ limit) :
    ∃ e, ofReplacement? text start stop replacement = some e ∧
      e.start = ⟨start, .ofByte text start⟩ ∧
      e.oldEnd = ⟨stop, .ofByte text stop⟩ ∧
      e.newEnd = ⟨start + replacement.length,
        .ofByte (applyTo text start stop replacement) (start + replacement.length)⟩ ∧
      (∀ p ≤ text.length, stop ≤ p → e.shift ⟨p, .ofByte text p⟩ =
        ⟨p - stop + start + replacement.length,
          .ofByte (applyTo text start stop replacement) (p - stop + start + replacement.length)⟩) ∧
      (∀ p ≤ start, p < stop → e.shift ⟨p, .ofByte text p⟩ =
        ⟨p, .ofByte (applyTo text start stop replacement) p⟩) ∧
      (∀ p, start < p → p < stop → e.shift ⟨p, .ofByte text p⟩ = e.newEnd) ∧
      ∀ a b : List UInt8, (a ++ b).length ≤ limit →
        Point.ofByte (a ++ b) (a ++ b).length = .ofByte a a.length + .ofByte b b.length := by
  obtain ⟨e, he⟩ := exists_ofReplacement hstart hstop hl'
  obtain ⟨-, h1, h2, h3⟩ := turns_applyTo hstart hstop hl hl' he
  have hlength := @length_applyTo text replacement start stop hstart hstop
  have hmoves := moves_applyTo hstart hstop hl hl' he
  have hmoved : ∀ p ≤ text.length, e.shift ⟨p, .ofByte text p⟩ =
      .upTo (applyTo text start stop replacement) (e.shiftByte p) := by
    intro p hp
    rw [← Length.upTo_eq hp, shift_upTo hmoves hl' hp]
  have hnew : e.newEnd = .upTo (applyTo text start stop replacement) (start + replacement.length) := by
    rw [hmoves.newEnd trivial, h3]
  refine ⟨e, he, ?start, ?oldEnd, ?newEnd, ?after, ?before, ?inside, fun a b => Point.ofByte_append⟩
  case start =>
    rw [hmoves.start trivial, h1, Length.upTo_eq (Nat.le_trans hstart hstop)]
  case oldEnd =>
    rw [hmoves.oldEnd trivial, h2, Length.upTo_eq hstop]
  case newEnd =>
    rw [hnew, Length.upTo_eq (by omega)]
  case after =>
    intro p hp hle
    have hbyte : e.shiftByte p = p - stop + start + replacement.length := by
      rw [shiftByte, if_pos (by omega)]
      omega
    rw [hmoved p hp, hbyte, Length.upTo_eq (by omega)]
  case before =>
    intro p hp hlt
    have hbyte : e.shiftByte p = p := by rw [shiftByte, if_neg (by omega), if_neg (by omega)]
    rw [hmoved p (by omega), hbyte, Length.upTo_eq (by omega)]
  case inside =>
    intro p hlt hlt'
    have hbyte : e.shiftByte p = start + replacement.length := by
      rw [shiftByte, if_neg (by omega), if_pos (by omega), h3]
    rw [hmoved p (by omega), hbyte, hnew]

/-- In a text of two lines, the line break and a byte on each side of it are replaced by two line
breaks. -/
theorem shift_ofReplacement_lines :
    ∃ e, ofReplacement? [97, 98, 10, 99, 100] 1 4 [10, 10, 101] = some e ∧
      e.newEnd = ⟨4, ⟨2, 1⟩⟩ ∧ e.shift ⟨5, ⟨1, 2⟩⟩ = ⟨5, ⟨2, 2⟩⟩ ∧ e.shift ⟨3, ⟨1, 0⟩⟩ = ⟨4, ⟨2, 1⟩⟩ := by
  obtain ⟨e, he, -, -, hnew, hafter, -, hinside, -⟩ :=
    @shift_ofReplacement [97, 98, 10, 99, 100] [10, 10, 101] 1 4 (by decide) (by decide) (by decide)
      (by decide)
  have hend : e.newEnd = ⟨4, ⟨2, 1⟩⟩ := hnew
  refine ⟨e, he, hend, hafter 5 (by decide) (by decide), ?_⟩
  exact (hinside 3 (by decide) (by decide)).trans hend

end Edit

end Reparse
