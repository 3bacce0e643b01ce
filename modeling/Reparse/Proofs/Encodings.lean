import Mathlib.Tactic.Lemma
import Reparse.Proofs.Decoding
import Reparse.Source.Encode

/-!
# Encodings

Decoding undoes encoding: the characters of an encoded text are those of the text, each as wide as its
bytes (`decode_ofChars`).
-/

namespace Reparse

namespace Decode

open Encoding

/-! ## UTF-8 -/

/-- A small number is that of its byte. -/
lemma toNat_byte {n : Nat} (h : n < 0x100) : (UInt8.ofNat n).toNat = n := by
  rw [UInt8.toNat_ofNat']
  exact Nat.mod_eq_of_lt h

/-- Bytes are ordered as their numbers. -/
lemma byte_lt_iff {n m : Nat} (hn : n < 0x100) (hm : m < 0x100) :
    UInt8.ofNat n < UInt8.ofNat m ↔ n < m := by
  rw [UInt8.lt_iff_toNat_lt, toNat_byte hn, toNat_byte hm]

/-- Six bits make a byte that continues a sequence. -/
lemma continuation?_byte {n : Nat} (h : n < 0x40) : continuation? (.ofNat (n + 0x80)) = some n := by
  have hn : (UInt8.ofNat (n + 0x80)).toNat = n + 0x80 := toNat_byte (by omega)
  have h1 : (0x80 : UInt8) ≤ .ofNat (n + 0x80) := by
    rw [UInt8.le_iff_toNat_le, hn]
    exact Nat.le_add_left ..
  have h2 : UInt8.ofNat (n + 0x80) ≤ 0xBF := by
    rw [UInt8.le_iff_toNat_le, hn]
    show n + 0x80 ≤ 0xBF
    omega
  rw [continuation?, if_pos ⟨h1, h2⟩, hn, Nat.add_sub_cancel]

/-- A scalar value is read as the character that has it. -/
lemma scalar?_of_eq {least code width : Nat} {c : Char} (h : least ≤ c.toNat) (hc : code = c.toNat) :
    scalar? least code width = some ⟨c, width⟩ := by
  rw [hc, scalar?, if_pos ⟨h, c.valid⟩, Char.ofNat_toNat]

/-- A byte that begins a sequence of several bytes. -/
lemma sequence?_lead {n : Nat} (h1 : 0xC0 ≤ n) (h2 : n < 0x100) (rest : List UInt8) :
    sequence? (.ofNat n) rest = (rest[0]? >>= continuation?).bind fun b =>
      if n < 0xE0 then scalar? 0x80 ((n - 0xC0) * 0x40 + b) 2
      else (rest[1]? >>= continuation?).bind fun c =>
        if n < 0xF0 then scalar? 0x800 (((n - 0xE0) * 0x40 + b) * 0x40 + c) 3
        else (rest[2]? >>= continuation?).bind fun d =>
          scalar? 0x10000 ((((n - 0xF0) * 0x40 + b) * 0x40 + c) * 0x40 + d) 4 := by
  have hlt : ∀ m, m < 0x100 → (UInt8.ofNat n < UInt8.ofNat m ↔ n < m) := fun m => byte_lt_iff h2
  have h80 := hlt 0x80 (by omega)
  have hC0 := hlt 0xC0 (by omega)
  have hE0 := hlt 0xE0 (by omega)
  have hF0 := hlt 0xF0 (by omega)
  rw [sequence?, if_neg (by rw [show (0x80 : UInt8) = .ofNat 0x80 from rfl, h80]; omega),
    if_neg (by rw [show (0xC0 : UInt8) = .ofNat 0xC0 from rfl, hC0]; omega), toNat_byte h2]
  simp only [show (0xE0 : UInt8) = .ofNat 0xE0 from rfl, show (0xF0 : UInt8) = .ofNat 0xF0 from rfl,
    hE0, hF0]
  rfl

/-- The first character of bytes that begin with those of a character. -/
lemma first?_utf8 (c : Char) (rest : List UInt8) :
    first? .utf8 (String.utf8EncodeChar c ++ rest) =
      some ⟨c, (String.utf8EncodeChar c).length⟩ := by
  have hvalid : c.toNat < 0xD800 ∨ 0xDFFF < c.toNat ∧ c.toNat < 0x110000 := c.valid
  have hsome : ∀ {a more d}, sequence? a (more ++ rest) = some d →
      first? .utf8 (a :: more ++ rest) = some d := by
    intro a more d h
    rw [List.cons_append, first?, h, Option.getD_some]
  rw [String.utf8EncodeChar]
  simp only [show c.val.toNat = c.toNat from rfl]
  split
  · refine hsome ?_
    have hlt : UInt8.ofNat c.toNat < .ofNat 0x80 := (byte_lt_iff (by omega) (by omega)).2 (by omega)
    rw [sequence?, show (0x80 : UInt8) = .ofNat 0x80 from rfl, if_pos hlt, toNat_byte (by omega),
      Char.ofNat_toNat]
    rfl
  split
  · refine hsome ?_
    rw [sequence?_lead (by omega) (by omega)]
    simp only [List.cons_append, List.getElem?_cons_zero, Option.bind_eq_bind, Option.bind_some,
      continuation?_byte (show c.toNat % 64 < 0x40 by omega)]
    rw [if_pos (by omega)]
    exact scalar?_of_eq (by omega) (by omega)
  split
  · refine hsome ?_
    rw [sequence?_lead (by omega) (by omega)]
    simp only [List.cons_append, List.getElem?_cons_zero, List.getElem?_cons_succ,
      Option.bind_eq_bind, Option.bind_some,
      continuation?_byte (show c.toNat / 64 % 64 < 0x40 by omega),
      continuation?_byte (show c.toNat % 64 < 0x40 by omega)]
    rw [if_neg (by omega), if_pos (by omega)]
    exact scalar?_of_eq (by omega) (by omega)
  · refine hsome ?_
    rw [sequence?_lead (by omega) (by omega)]
    simp only [List.cons_append, List.getElem?_cons_zero, List.getElem?_cons_succ,
      Option.bind_eq_bind, Option.bind_some,
      continuation?_byte (show c.toNat / 4096 % 64 < 0x40 by omega),
      continuation?_byte (show c.toNat / 64 % 64 < 0x40 by omega),
      continuation?_byte (show c.toNat % 64 < 0x40 by omega)]
    rw [if_neg (by omega), if_neg (by omega)]
    exact scalar?_of_eq (by omega) (by omega)

/-! ## UTF-16 -/

/-- The two bytes of a unit make it up. -/
lemma toNat_unit {u : Nat} (h : u < 0x10000) :
    (UInt8.ofNat (u % 0x100)).toNat + (UInt8.ofNat (u / 0x100)).toNat * 0x100 = u := by
  rw [toNat_byte (by omega), toNat_byte (by omega)]
  omega

/-- The first character of bytes that begin with those of a character. -/
lemma first?_utf16 (c : Char) (rest : List UInt8) :
    first? .utf16 (Encoding.utf16.bytesOf c ++ rest) =
      some ⟨c, (Encoding.utf16.bytesOf c).length⟩ := by
  have hvalid : c.toNat < 0xD800 ∨ 0xDFFF < c.toNat ∧ c.toNat < 0x110000 := c.valid
  rw [bytesOf, unitsOf]
  split
  · rename_i hlt
    have hunit := toNat_unit hlt
    have hsingle : single c.toNat = c := by
      rw [single, if_pos (show c.toNat.isValidChar from c.valid), Char.ofNat_toNat]
    -- a unit that is no surrogate stands alone, whatever follows
    have hpair : ∀ low, pair? c.toNat low = none := fun low => if_neg (by omega)
    simp only [List.flatMap_cons, List.flatMap_nil, List.cons_append, List.nil_append]
    match rest with
    | [] | [_] | _ :: _ :: _ => simp only [first?, hunit, hsingle, hpair, List.length_cons, List.length_nil]
  · rename_i hge
    have hhigh := toNat_unit (show 0xD800 + (c.toNat - 0x10000) / 0x400 < 0x10000 by omega)
    have hlow := toNat_unit (show 0xDC00 + (c.toNat - 0x10000) % 0x400 < 0x10000 by omega)
    have hpair : pair? (0xD800 + (c.toNat - 0x10000) / 0x400) (0xDC00 + (c.toNat - 0x10000) % 0x400) =
        some c := by
      have hcode : 0x10000 + (0xD800 + (c.toNat - 0x10000) / 0x400 - 0xD800) * 0x400 +
          (0xDC00 + (c.toNat - 0x10000) % 0x400 - 0xDC00) = c.toNat := by omega
      rw [pair?, if_pos (by omega), hcode, Char.ofNat_toNat]
    simp only [List.flatMap_cons, List.flatMap_nil, List.cons_append, List.nil_append, List.append_nil,
      first?, hhigh, hlow, hpair]
    rfl

/-- The first character of bytes that begin with those of a character. -/
lemma first?_bytesOf (e : Encoding) (c : Char) (rest : List UInt8) :
    first? e (e.bytesOf c ++ rest) = some ⟨c, (e.bytesOf c).length⟩ := by
  cases e with
  | utf8 => exact first?_utf8 c rest
  | utf16 => exact first?_utf16 c rest

end Decode

/-- The characters of an encoded text are those of the text. -/
theorem Document.decode_ofChars (e : Encoding) (text : List Char) :
    (Document.ofChars e text).decode = text.map fun c => ⟨c, (e.bytesOf c).length⟩ := by
  induction text with
  | nil =>
    rw [ofChars, decode_eq]
    cases e <;> rfl
  | cons c text ih =>
    rw [ofChars, List.flatMap_cons, decode_of_first? (Decode.first?_bytesOf e c _),
      List.drop_left, List.map_cons, ← ih]
    rfl

end Reparse
