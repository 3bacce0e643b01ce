import Mathlib.Algebra.GroupWithZero.Nat
import Mathlib.Tactic.Lemma
import Reparse.Source.Decode

/-!
# Decoding in pieces

Decoding takes one character after the other, in both encodings (`decode_eq`). So the characters
after some of them are those of the bytes after them (`decode_drop`), and a stretch of bytes whose
characters end with a semicolon or a brace has these characters whatever bytes follow
(`decode_append`).
-/

namespace Reparse

namespace Decode

/-- The number of bytes that some characters take. -/
def widthOf (ds : List Decoded) : Nat := (ds.map (·.width)).sum

/-- No characters take no bytes. -/
@[simp]
lemma widthOf_nil : widthOf [] = 0 := rfl

/-- The bytes of a character are followed by those of the others. -/
@[simp]
lemma widthOf_cons (d : Decoded) (ds : List Decoded) : widthOf (d :: ds) = d.width + widthOf ds := by
  simp [widthOf]

/-- The bytes of characters in two parts add up. -/
@[simp]
lemma widthOf_append (a b : List Decoded) : widthOf (a ++ b) = widthOf a + widthOf b := by
  simp [widthOf]

/-- The first character of some bytes. -/
def first? : Encoding → List UInt8 → Option Decoded
  | .utf8, [] => none
  | .utf8, a :: rest => some ((sequence? a rest).getD ⟨replacement, 1⟩)
  | .utf16, a :: b :: c :: d :: _ =>
    some (match pair? (a.toNat + b.toNat * 0x100) (c.toNat + d.toNat * 0x100) with
      | some char => ⟨char, 4⟩
      | none => ⟨single (a.toNat + b.toNat * 0x100), 2⟩)
  | .utf16, a :: b :: _ => some ⟨single (a.toNat + b.toNat * 0x100), 2⟩
  | .utf16, _ => none

/-- A valid character takes at least one byte, and no more than there are. -/
lemma width_of_sequence? {a : UInt8} {rest : List UInt8} {d : Decoded}
    (h : sequence? a rest = some d) : 0 < d.width ∧ d.width ≤ rest.length + 1 := by
  have hscalar : ∀ {least code width}, scalar? least code width = some d → d.width = width := by
    intro least code width h
    unfold scalar? at h
    split at h
    · cases h
      rfl
    · cases h
  unfold sequence? at h
  split at h
  · cases h
    exact ⟨Nat.one_pos, Nat.le_add_left ..⟩
  split at h
  · cases h
  cases rest with
  | nil => cases h
  | cons b rest =>
    obtain ⟨b', -, h⟩ := Option.bind_eq_some_iff.1 h
    split at h
    · have := hscalar h
      simp only [List.length_cons]
      omega
    cases rest with
    | nil => cases h
    | cons c rest =>
      obtain ⟨c', -, h⟩ := Option.bind_eq_some_iff.1 h
      split at h
      · have := hscalar h
        simp only [List.length_cons]
        omega
      cases rest with
      | nil => cases h
      | cons d' rest =>
        obtain ⟨d'', -, h⟩ := Option.bind_eq_some_iff.1 h
        have := hscalar h
        simp only [List.length_cons]
        omega

/-- A character takes at least one byte, and no more than there are. -/
lemma width_of_first? {e : Encoding} {bytes : List UInt8} {d : Decoded}
    (h : first? e bytes = some d) : 0 < d.width ∧ d.width ≤ bytes.length := by
  unfold first? at h
  split at h
  · cases h
  · rename_i a rest
    cases hs : sequence? a rest with
    | none =>
      rw [hs] at h
      cases h
      exact ⟨Nat.one_pos, Nat.le_add_left ..⟩
    | some d' =>
      rw [hs] at h
      cases h
      exact width_of_sequence? hs
  · cases h
    simp only [List.length_cons]
    split <;> dsimp only <;> omega
  · cases h
    simp only [List.length_cons]
    omega
  · cases h

/-- In UTF-16 a character has two bytes at least. -/
lemma two_le_width {bytes : List UInt8} {d : Decoded} (h : first? .utf16 bytes = some d) :
    2 ≤ d.width := by
  match bytes with
  | [] => cases h
  | [_] => cases h
  | [_, _] =>
    cases h
    exact Nat.le_refl 2
  | [_, _, _] =>
    cases h
    exact Nat.le_refl 2
  | a :: b :: c :: d' :: _ =>
    cases h
    split
    · exact Nat.le_add_left 2 2
    · exact Nat.le_refl 2

/-- To skip bytes is to decode what is left without them. -/
lemma utf8From_eq (skip : Nat) (bytes : List UInt8) : utf8From skip bytes = utf8 (bytes.drop skip) := by
  induction skip generalizing bytes with
  | zero => rfl
  | succ skip ih =>
    cases bytes with
    | nil => rfl
    | cons b bytes => exact ih bytes

end Decode

namespace Document

open Decode

/-- The characters of a document are its first one and those of the bytes after it. -/
lemma decode_eq (bytes : List UInt8) (e : Encoding) :
    (Document.mk bytes e).decode = match first? e bytes with
      | none => []
      | some d => d :: (Document.mk (bytes.drop d.width) e).decode := by
  cases e with
  | utf8 =>
    cases bytes with
    | nil => rfl
    | cons a rest =>
      have hw := (@width_of_first? .utf8 (a :: rest) _ rfl).1
      simp only [decode, first?, utf8, utf8From]
      rw [utf8From_eq]
      obtain ⟨n, hn⟩ := Nat.exists_eq_succ_of_ne_zero (Nat.ne_of_gt hw)
      rw [hn]
      rfl
  | utf16 =>
    match bytes with
    | [] => rfl
    | [_] => rfl
    | [_, _] => rfl
    | [a, b, c] => rfl
    | a :: b :: c :: d :: rest =>
      simp only [decode, first?, utf16, units, ofUnits]
      cases pair? (a.toNat + b.toNat * 256) (c.toNat + d.toNat * 256) with
      | some c => rfl
      | none => rfl

/-- Every character takes at least one byte. -/
lemma width_pos {d : Document} {c : Decoded} (h : c ∈ d.decode) : 0 < c.width := by
  obtain ⟨bytes, e⟩ := d
  induction hn : bytes.length using Nat.strongRecOn generalizing bytes with
  | _ n ih =>
    rw [decode_eq] at h
    cases hf : first? e bytes with
    | none => simp [hf] at h
    | some d =>
      have hw := width_of_first? hf
      simp only [hf, List.mem_cons] at h
      rcases h with rfl | h
      · exact hw.1
      · exact ih _ (by simp only [List.length_drop]; omega) _ h rfl

/-- The characters of a document take no more bytes than it has. -/
lemma widthOf_decode_le (d : Document) : widthOf d.decode ≤ d.bytes.length := by
  obtain ⟨bytes, e⟩ := d
  induction hn : bytes.length using Nat.strongRecOn generalizing bytes with
  | _ n ih =>
    rw [decode_eq]
    cases hf : first? e bytes with
    | none => exact Nat.zero_le _
    | some d =>
      have hw := width_of_first? hf
      have hr := ih (bytes.drop d.width).length (by simp only [List.length_drop]; omega) _ rfl
      simp only [List.length_drop, widthOf_cons] at hr ⊢
      omega

/-- The first of the characters of a document, and the characters of the bytes after it. -/
lemma decode_eq_cons {bytes : List UInt8} {e : Encoding} {d : Decoded} {ds : List Decoded}
    (h : (Document.mk bytes e).decode = d :: ds) :
    first? e bytes = some d ∧ (Document.mk (bytes.drop d.width) e).decode = ds := by
  rw [decode_eq] at h
  cases hf : first? e bytes with
  | none => simp [hf] at h
  | some d' =>
    simp only [hf, List.cons.injEq] at h
    obtain ⟨rfl, h⟩ := h
    exact ⟨rfl, h⟩

/-- A text is its first character and what follows it. -/
lemma decode_of_first? {bytes : List UInt8} {e : Encoding} {d : Decoded}
    (h : first? e bytes = some d) : (Document.mk bytes e).decode =
      d :: (Document.mk (bytes.drop d.width) e).decode := by
  rw [decode_eq, h]

/-- The characters after some of the characters of a document are those of the bytes after them. -/
theorem decode_drop {bytes : List UInt8} {e : Encoding} {a b : List Decoded}
    (h : (Document.mk bytes e).decode = a ++ b) :
    (Document.mk (bytes.drop (widthOf a)) e).decode = b := by
  induction a generalizing bytes with
  | nil => exact h
  | cons d a ih =>
    have hr := ih (decode_eq_cons h).2
    rwa [List.drop_drop] at hr

end Document

/-! ## Stretches that end a statement -/

namespace Decode

/-- Whether a character is a semicolon or a closing brace. -/
def IsCloser (c : Char) : Prop := c = ';' ∨ c = '\x7d'

/-- The bytes of a character that takes one unit of less than 128. -/
def unit : Encoding → UInt8 → List UInt8
  | .utf8, b => [b]
  | .utf16, b => [b, 0]

/-- A scalar value is that of its character. -/
lemma toNat_ofNat {n : Nat} (hv : n.isValidChar) : (Char.ofNat n).toNat = n := by
  rw [Char.ofNat, dif_pos hv]
  rfl

/-- Beyond ASCII there is no character that closes statements. -/
lemma ofNat_ne_closer {n : Nat} (h : 0x80 ≤ n) (hv : n.isValidChar) : ¬ IsCloser (.ofNat n) := by
  have ht := toNat_ofNat hv
  rintro (hc | hc)
  · rw [hc] at ht
    exact absurd (ht ▸ h) (by decide)
  · rw [hc] at ht
    exact absurd (ht ▸ h) (by decide)

/-- Bytes that cannot be decoded close no statement. -/
lemma not_isCloser_replacement : ¬ IsCloser replacement := by
  rintro (h | h) <;> exact absurd h (by decide)

/-- A semicolon or a brace comes from a single byte of UTF-8. -/
lemma sequence?_isCloser {a : UInt8} {rest : List UInt8} {d : Decoded}
    (h : sequence? a rest = some d) (hc : IsCloser d.char) : a < 0x80 ∧ d = ⟨.ofNat a.toNat, 1⟩ := by
  have hscalar : ∀ {least code width}, 0x80 ≤ least → scalar? least code width = some d → False := by
    intro least code width hl h
    unfold scalar? at h
    split at h
    · rename_i hv
      cases h
      exact ofNat_ne_closer (Nat.le_trans hl hv.1) hv.2 hc
    · cases h
  unfold sequence? at h
  split at h
  · rename_i ha
    cases h
    exact ⟨ha, rfl⟩
  split at h
  · cases h
  obtain ⟨b', -, h⟩ := Option.bind_eq_some_iff.1 h
  split at h
  · exact (hscalar (by decide) h).elim
  obtain ⟨c', -, h⟩ := Option.bind_eq_some_iff.1 h
  split at h
  · exact (hscalar (by decide) h).elim
  obtain ⟨d', -, h⟩ := Option.bind_eq_some_iff.1 h
  exact (hscalar (by decide) h).elim

/-- A character of two units closes no statement. -/
lemma pair?_ne_closer {high low : Nat} {c : Char} (h : pair? high low = some c) : ¬ IsCloser c := by
  unfold pair? at h
  split at h
  · rename_i hu
    obtain ⟨n, hn⟩ : ∃ n, n = 0x10000 + (high - 0xD800) * 0x400 + (low - 0xDC00) := ⟨_, rfl⟩
    rw [← hn] at h
    cases h
    have hv : n.isValidChar := Or.inr (by omega)
    exact ofNat_ne_closer (by omega) hv
  · cases h

/-- A unit that closes statements is an ASCII byte followed by zero. -/
lemma single_isCloser {a b : UInt8} (h : IsCloser (single (a.toNat + b.toNat * 0x100))) :
    a < 0x80 ∧ b = 0 := by
  unfold single at h
  split at h
  · rename_i hv
    have hlt : a.toNat + b.toNat * 0x100 < 0x80 :=
      Nat.lt_of_not_le fun hle => ofNat_ne_closer hle hv h
    exact ⟨UInt8.lt_iff_toNat_lt.2 (by simpa using show a.toNat < 128 by omega),
      UInt8.toNat_inj.1 (by simpa using show b.toNat = 0 by omega)⟩
  · exact (not_isCloser_replacement h).elim

/-- A unit of less than 128 is a character by itself. -/
lemma first?_unit {a : UInt8} (ha : a < 0x80) (rest : List UInt8) :
    first? .utf16 (unit .utf16 a ++ rest) = some ⟨single (a.toNat + (0 : UInt8).toNat * 0x100), 2⟩ := by
  have hlt : a.toNat < 128 := by simpa using UInt8.lt_iff_toNat_lt.1 ha
  have hnone : ∀ low, pair? (a.toNat + (0 : UInt8).toNat * 0x100) low = none := fun low =>
    if_neg fun hp => by
      simp at hp
      omega
  match rest with
  | [] => rfl
  | [x] => rfl
  | x :: y :: more => simp only [unit, List.cons_append, List.nil_append, first?, hnone]

/-- A semicolon or a brace takes one unit, and is found whatever bytes follow. -/
lemma first?_isCloser {e : Encoding} {bytes : List UInt8} {d : Decoded}
    (h : first? e bytes = some d) (hc : IsCloser d.char) :
    ∃ b rest, b < 0x80 ∧ bytes = unit e b ++ rest ∧ d.width = (unit e b).length ∧
      ∀ rest', first? e (unit e b ++ rest') = some d := by
  unfold first? at h
  split at h
  · cases h
  · rename_i a rest
    cases hs : sequence? a rest with
    | none =>
      rw [hs] at h
      cases h
      exact (not_isCloser_replacement hc).elim
    | some d' =>
      rw [hs] at h
      cases h
      obtain ⟨ha, rfl⟩ := sequence?_isCloser hs hc
      exact ⟨a, rest, ha, rfl, rfl, fun rest' => by simp [unit, first?, sequence?, ha]⟩
  · rename_i a b c d' rest
    cases hp : pair? (a.toNat + b.toNat * 0x100) (c.toNat + d'.toNat * 0x100) with
    | some char =>
      rw [hp] at h
      cases h
      exact (pair?_ne_closer hp hc).elim
    | none =>
      rw [hp] at h
      cases h
      obtain ⟨ha, rfl⟩ := single_isCloser hc
      exact ⟨a, c :: d' :: rest, ha, rfl, rfl, first?_unit ha⟩
  · rename_i a b rest _
    cases h
    obtain ⟨ha, rfl⟩ := single_isCloser hc
    exact ⟨a, rest, ha, rfl, rfl, first?_unit ha⟩
  · cases h

/-- The first character of a stretch that ends with a unit of less than 128 is found whatever bytes
follow. -/
lemma first?_append {e : Encoding} {v : List UInt8} {b : UInt8} {r : List UInt8} {d : Decoded}
    (hb : b < 0x80) (h : first? e (v ++ (unit e b ++ r)) = some d) (hw : d.width ≤ v.length)
    (r' : List UInt8) : first? e (v ++ (unit e b ++ r')) = some d := by
  have hpos := (width_of_first? h).1
  cases e with
  | utf8 =>
    have hnone : continuation? b = none := if_neg fun hc => by
      have h1 := UInt8.lt_iff_toNat_lt.1 hb
      have h2 := UInt8.le_iff_toNat_le.1 hc.1
      simp at h1 h2
      omega
    match v with
    | [] =>
      simp only [List.length_nil] at hw
      omega
    | [a] =>
      rw [← h]
      simp [first?, unit, sequence?, hnone]
    | [a, x] =>
      rw [← h]
      simp [first?, unit, sequence?, hnone]
    | [a, x, y] =>
      rw [← h]
      simp [first?, unit, sequence?, hnone]
    | a :: x :: y :: z :: more =>
      rw [← h]
      simp [first?, sequence?]
  | utf16 =>
    match v with
    | [] =>
      simp only [List.length_nil] at hw
      omega
    | [a] =>
      have htwo := two_le_width h
      simp only [List.length_cons, List.length_nil] at hw
      omega
    | [a, x] =>
      rw [← h]
      rfl
    | [a, x, y] =>
      rw [← h]
      rfl
    | a :: x :: y :: z :: more =>
      rw [← h]
      rfl

end Decode

namespace Document

open Decode

/-- A stretch whose characters end with a semicolon or a brace ends with the unit of it. -/
lemma exists_unit {e : Encoding} {w r : List UInt8} {ds more : List Decoded} {d : Decoded}
    (h : (Document.mk (w ++ r) e).decode = ds ++ d :: more)
    (hw : widthOf ds + d.width = w.length) (hc : IsCloser d.char) :
    ∃ v b, b < 0x80 ∧ w = v ++ unit e b ∧ v.length = widthOf ds ∧
      ∀ r', first? e (unit e b ++ r') = some d := by
  have hd := decode_drop h
  obtain ⟨b, rest, hb, heq, hwd, hf⟩ := first?_isCloser (decode_eq_cons hd).1 hc
  have hle : widthOf ds ≤ w.length := by omega
  refine ⟨w.take (widthOf ds), b, hb, ?_, List.length_take_of_le hle, hf⟩
  rw [List.drop_append_of_le_length hle] at heq
  have hlen : (w.drop (widthOf ds)).length = (unit e b).length := by
    rw [List.length_drop]
    omega
  rw [← (List.append_inj heq hlen).1, List.take_append_drop]

/-- A stretch whose characters end with a semicolon or a brace has these characters whatever bytes
follow. -/
theorem decode_append {e : Encoding} {w r : List UInt8} {ds more : List Decoded} {d : Decoded}
    (h : (Document.mk (w ++ r) e).decode = ds ++ d :: more)
    (hw : widthOf ds + d.width = w.length) (hc : IsCloser d.char) (r' : List UInt8) :
    (Document.mk (w ++ r') e).decode = ds ++ d :: (Document.mk r' e).decode := by
  induction ds generalizing w with
  | nil =>
    obtain ⟨v, b, -, rfl, hv, hf⟩ := exists_unit h hw hc
    obtain rfl : v = [] := List.eq_nil_of_length_eq_zero hv
    have hlen : d.width = (unit e b).length := by simpa using hw
    rw [List.nil_append, decode_of_first? (hf r'), hlen, List.drop_left]
    rfl
  | cons d' ds ih =>
    obtain ⟨v, b, hb, rfl, hv, -⟩ := exists_unit h hw hc
    obtain ⟨hfirst, hrest⟩ := decode_eq_cons h
    rw [widthOf_cons] at hv hw
    have hle : d'.width ≤ v.length := by omega
    rw [List.append_assoc] at hfirst
    have hfirst' := first?_append hb hfirst hle r'
    have hle' : d'.width ≤ (v ++ unit e b).length := by
      rw [List.length_append]
      omega
    rw [List.drop_append_of_le_length hle'] at hrest
    have hr := ih hrest (by rw [List.length_drop]; omega)
    rw [← List.append_assoc] at hfirst'
    rw [decode_of_first? hfirst', List.drop_append_of_le_length hle', hr]
    rfl

end Document

end Reparse
