import Reparse.Proofs.IncludedRanges
import Reparse.Proofs.Lines
import Reparse.Proofs.Recoding
import Reparse.Proofs.Replacements
import Reparse.Proofs.Spanning

/-!
# Sources and their documents

A source says of a document what its bytes say. Its characters are read one after the other, each from
where the one before it ends (`Document.reads_decode`); those are kept that begin in an included range, with
the number of that range (`Parser.source_included`); and its rows and columns are those of the bytes
(`Source.pointAt_agrees`). The searches that find a character or a line find the only place that parts
those up to a byte from the others (`lt_length_takeWhile`).
-/

namespace Reparse

open Decode (widthOf widthOf_cons replacement first?)

/-! ## Bytes that are read -/

/-- Whether characters are what some bytes say: each begins where the one before it ends, and takes the
bytes that encode it. A unit with which no character begins is read as the replacement character, and what
is left over at the end is less than a unit. -/
inductive Reads (e : Encoding) : List UInt8 → List Decoded → Prop where
  | nil {bytes} : bytes.length < e.unitSize → Reads e bytes []
  | char {bytes ds} (c : Char) :
    Reads e bytes ds → Reads e (e.bytesOf c ++ bytes) (⟨c, (e.bytesOf c).length⟩ :: ds)
  | offending {unit bytes ds} : unit.length = e.unitSize → (∀ c, ¬ e.bytesOf c <+: unit ++ bytes) →
    Reads e bytes ds → Reads e (unit ++ bytes) (⟨replacement, e.unitSize⟩ :: ds)

namespace Decode

open Encoding

/-- Whether a character is what some bytes begin with: they begin with the bytes that encode it, or it
stands for their first unit, with which no character begins. -/
inductive Begins (e : Encoding) (bytes : List UInt8) : Decoded → Prop where
  | char (c : Char) : e.bytesOf c <+: bytes → Begins e bytes ⟨c, (e.bytesOf c).length⟩
  | offending : e.unitSize ≤ bytes.length → (∀ c, ¬ e.bytesOf c <+: bytes) →
    Begins e bytes ⟨replacement, e.unitSize⟩

section

variable {c : Char} {x y z w : Nat}

/-- An ASCII character has one byte. -/
lemma utf8EncodeChar_one (h : c.toNat < 0x80) : String.utf8EncodeChar c = [.ofNat c.toNat] := by
  rw [String.utf8EncodeChar]
  exact if_pos (show c.toNat ≤ 127 by omega)

/-- A character of eleven bits has two bytes. -/
lemma utf8EncodeChar_two (h : 0x80 ≤ c.toNat) (hc : c.toNat = x * 0x40 + y) (hx : x < 0x20)
    (hy : y < 0x40) : String.utf8EncodeChar c = [.ofNat (x + 0xC0), .ofNat (y + 0x80)] := by
  rw [String.utf8EncodeChar]
  simp only [show c.val.toNat = c.toNat from rfl, hc]
  rw [if_neg (by omega), if_pos (by omega), show (x * 0x40 + y) / 64 % 32 = x by omega,
    show (x * 0x40 + y) % 64 = y by omega]

/-- A character of sixteen bits has three bytes. -/
lemma utf8EncodeChar_three (h : 0x800 ≤ c.toNat) (hc : c.toNat = (x * 0x40 + y) * 0x40 + z)
    (hx : x < 0x10) (hy : y < 0x40) (hz : z < 0x40) :
    String.utf8EncodeChar c = [.ofNat (x + 0xE0), .ofNat (y + 0x80), .ofNat (z + 0x80)] := by
  rw [String.utf8EncodeChar]
  simp only [show c.val.toNat = c.toNat from rfl, hc]
  rw [if_neg (by omega), if_neg (by omega), if_pos (by omega),
    show ((x * 0x40 + y) * 0x40 + z) / 4096 % 16 = x by omega,
    show ((x * 0x40 + y) * 0x40 + z) / 64 % 64 = y by omega,
    show ((x * 0x40 + y) * 0x40 + z) % 64 = z by omega]

/-- A character of more bits has four bytes. -/
lemma utf8EncodeChar_four (h : 0x10000 ≤ c.toNat)
    (hc : c.toNat = ((x * 0x40 + y) * 0x40 + z) * 0x40 + w) (hy : y < 0x40) (hz : z < 0x40)
    (hw : w < 0x40) : String.utf8EncodeChar c =
      [.ofNat (x + 0xF0), .ofNat (y + 0x80), .ofNat (z + 0x80), .ofNat (w + 0x80)] := by
  have hvalid : c.toNat < 0xD800 ∨ 0xDFFF < c.toNat ∧ c.toNat < 0x110000 := c.valid
  rw [hc] at hvalid
  rw [String.utf8EncodeChar]
  simp only [show c.val.toNat = c.toNat from rfl, hc]
  rw [if_neg (by omega), if_neg (by omega), if_neg (by omega),
    show (((x * 0x40 + y) * 0x40 + z) * 0x40 + w) / 262144 % 8 = x by omega,
    show (((x * 0x40 + y) * 0x40 + z) * 0x40 + w) / 4096 % 64 = y by omega,
    show (((x * 0x40 + y) * 0x40 + z) * 0x40 + w) / 64 % 64 = z by omega,
    show (((x * 0x40 + y) * 0x40 + z) * 0x40 + w) % 64 = w by omega]

end

/-- A byte is the one of its number. -/
lemma eq_byte {a : UInt8} {n : Nat} (h : n = a.toNat) : .ofNat n = a := by
  rw [h, UInt8.ofNat_toNat]

/-- Bytes are ordered as small numbers. -/
lemma lt_byte_iff {a : UInt8} {n : Nat} (hn : n < 0x100) : a < .ofNat n ↔ a.toNat < n := by
  rw [UInt8.lt_iff_toNat_lt, toNat_byte hn]

/-- A byte that continues a sequence. -/
lemma exists_of_continuation? {rest : List UInt8} {n : Nat} (h : rest[0]? >>= continuation? = some n) :
    n < 0x40 ∧ ∃ more, rest = .ofNat (n + 0x80) :: more := by
  cases rest with
  | nil => cases h
  | cons b more =>
    have h : continuation? b = some n := h
    unfold continuation? at h
    split at h
    · rename_i hb
      have hlow : 0x80 ≤ b.toNat := UInt8.le_iff_toNat_le.1 hb.1
      have hhigh : b.toNat ≤ 0xBF := UInt8.le_iff_toNat_le.1 hb.2
      have hn : b.toNat - 0x80 = n := Option.some.inj h
      exact ⟨by omega, more, by rw [eq_byte (a := b) (by omega)]⟩
    · cases h

/-- A scalar has its code and width, and is not too small. -/
lemma eq_of_scalar? {least code width : Nat} {d : Decoded} (h : scalar? least code width = some d) :
    least ≤ d.char.toNat ∧ d.char.toNat = code ∧ d.width = width := by
  unfold scalar? at h
  split at h
  · rename_i hcode
    cases h
    have hchar : (Char.ofNat code).toNat = code := toNat_ofNat hcode.2
    exact ⟨by rw [hchar]; exact hcode.1, hchar, rfl⟩
  · cases h

/-- A valid sequence is the bytes of its character. -/
lemma bytesOf_of_sequence? {a : UInt8} {rest : List UInt8} {d : Decoded} (h : sequence? a rest = some d) :
    d.width = (String.utf8EncodeChar d.char).length ∧ String.utf8EncodeChar d.char <+: a :: rest := by
  have hbyte : a.toNat < 0x100 := a.toNat_lt
  unfold sequence? at h
  split at h
  · rename_i ha
    have ha : a.toNat < 0x80 := (lt_byte_iff (by decide)).1 ha
    cases h
    have hchar : (Char.ofNat a.toNat).toNat = a.toNat := toNat_ofNat (.inl (by omega))
    rw [utf8EncodeChar_one (hchar.trans_lt ha), hchar, UInt8.ofNat_toNat]
    exact ⟨rfl, rest, rfl⟩
  split at h
  · cases h
  rename_i ha
  have ha : ¬ a.toNat < 0xC0 := fun hlt => ha ((lt_byte_iff (by decide)).2 hlt)
  obtain ⟨y, hcontinues, h⟩ := Option.bind_eq_some_iff.1 h
  obtain ⟨hy, rest, rfl⟩ := exists_of_continuation? hcontinues
  split at h
  · rename_i hE
    have hE : a.toNat < 0xE0 := (lt_byte_iff (by decide)).1 hE
    obtain ⟨hleast, hcode, hwidth⟩ := eq_of_scalar? h
    rw [utf8EncodeChar_two hleast hcode (by omega) hy, eq_byte (a := a) (by omega)]
    exact ⟨hwidth, rest, rfl⟩
  rename_i hE
  have hE : ¬ a.toNat < 0xE0 := fun hlt => hE ((lt_byte_iff (by decide)).2 hlt)
  obtain ⟨z, hcontinues, h⟩ := Option.bind_eq_some_iff.1 h
  obtain ⟨hz, rest, rfl⟩ := exists_of_continuation? hcontinues
  split at h
  · rename_i hF
    have hF : a.toNat < 0xF0 := (lt_byte_iff (by decide)).1 hF
    obtain ⟨hleast, hcode, hwidth⟩ := eq_of_scalar? h
    rw [utf8EncodeChar_three hleast hcode (by omega) hy hz, eq_byte (a := a) (by omega)]
    exact ⟨hwidth, rest, rfl⟩
  rename_i hF
  have hF : ¬ a.toNat < 0xF0 := fun hlt => hF ((lt_byte_iff (by decide)).2 hlt)
  obtain ⟨w, hcontinues, hscalar⟩ := Option.bind_eq_some_iff.1 h
  obtain ⟨hw, rest, rfl⟩ := exists_of_continuation? hcontinues
  obtain ⟨hleast, hcode, hwidth⟩ := eq_of_scalar? hscalar
  rw [utf8EncodeChar_four hleast hcode hy hz hw, eq_byte (a := a) (by omega)]
  exact ⟨hwidth, rest, rfl⟩

/-- The bytes of a unit of 16 bits. -/
lemma bytes_unit (a b : UInt8) : [UInt8.ofNat ((a.toNat + b.toNat * 0x100) % 0x100),
    UInt8.ofNat ((a.toNat + b.toNat * 0x100) / 0x100)] = [a, b] := by
  have ha : a.toNat < 0x100 := a.toNat_lt
  rw [eq_byte (a := a) (by omega), eq_byte (a := b) (by omega)]

/-- A pair of units is the bytes of its character. -/
lemma bytesOf_of_pair? {a b c d : UInt8} {char : Char}
    (h : pair? (a.toNat + b.toNat * 0x100) (c.toNat + d.toNat * 0x100) = some char) :
    Encoding.utf16.bytesOf char = [a, b, c, d] := by
  have hu := bytes_unit a b
  have hv := bytes_unit c d
  generalize a.toNat + b.toNat * 0x100 = u at h hu
  generalize c.toNat + d.toNat * 0x100 = v at h hv
  unfold pair? at h
  split at h
  · rename_i hpair
    have hcode : char.toNat = 0x10000 + (u - 0xD800) * 0x400 + (v - 0xDC00) := by
      rw [← Option.some.inj h]
      exact toNat_ofNat (.inr (by omega))
    rw [bytesOf, unitsOf, if_neg (by omega), List.flatMap_cons, List.flatMap_singleton,
      show 0xD800 + (char.toNat - 0x10000) / 0x400 = u by omega,
      show 0xDC00 + (char.toNat - 0x10000) % 0x400 = v by omega, hu, hv]
    rfl
  · cases h

/-- A unit by itself is the bytes of its character, or no character has it. -/
lemma single_cases (a b : UInt8) : Encoding.utf16.bytesOf (single (a.toNat + b.toNat * 0x100)) = [a, b] ∨
    single (a.toNat + b.toNat * 0x100) = replacement ∧ [a, b] ≠ Encoding.utf16.bytesOf replacement := by
  have ha : a.toNat < 0x100 := a.toNat_lt
  have hb : b.toNat < 0x100 := b.toNat_lt
  have hbytes := bytes_unit a b
  rw [single]
  split
  · rename_i hvalid
    have hcode := toNat_ofNat hvalid
    refine .inl ?_
    rw [bytesOf, unitsOf, if_pos (by omega), List.flatMap_singleton, hcode, hbytes]
  · rename_i hvalid
    refine .inr ⟨rfl, fun heq => hvalid ?_⟩
    have hFD : a = 0xFD := (List.cons.inj heq).1
    have hFF : b = 0xFF := (List.cons.inj (List.cons.inj heq).2).1
    rw [hFD, hFF]
    exact .inr (by decide)

/-- With bytes whose first unit is read as the replacement character, no character begins, if not that
character itself does. -/
lemma not_prefix_bytesOf {e : Encoding} {bytes : List UInt8}
    (h : first? e bytes = some ⟨replacement, e.unitSize⟩)
    (hr : (e.bytesOf replacement).length = e.unitSize → ¬ e.bytesOf replacement <+: bytes) (c : Char) :
    ¬ e.bytesOf c <+: bytes := by
  rintro ⟨more, rfl⟩
  rw [first?_bytesOf] at h
  obtain ⟨rfl, hlength⟩ := Decoded.mk.inj (Option.some.inj h)
  exact hr hlength ⟨more, rfl⟩

/-- A sequence of bytes begins with the character that it encodes. -/
lemma begins_of_sequence? {a : UInt8} {rest : List UInt8} {d : Decoded} (h : sequence? a rest = some d) :
    Begins .utf8 (a :: rest) d := by
  obtain ⟨hwidth, hprefix⟩ := bytesOf_of_sequence? h
  have hbegins : Begins .utf8 (a :: rest) _ := .char d.char hprefix
  rwa [show (Encoding.utf8.bytesOf d.char).length = d.width from hwidth.symm] at hbegins

/-- A unit that is read by itself. -/
lemma begins_single {a b : UInt8} {rest : List UInt8}
    (h : first? .utf16 (a :: b :: rest) = some ⟨single (a.toNat + b.toNat * 0x100), 2⟩) :
    Begins .utf16 (a :: b :: rest) ⟨single (a.toNat + b.toNat * 0x100), 2⟩ := by
  rcases single_cases a b with hbytes | ⟨hsingle, hne⟩
  · have hprefix : [a, b] <+: a :: b :: rest := ⟨rest, rfl⟩
    rw [← hbytes] at hprefix
    have hbegins := Begins.char _ hprefix
    rwa [hbytes] at hbegins
  · rw [hsingle] at h ⊢
    refine .offending (Nat.le_add_left ..) (not_prefix_bytesOf h ?_)
    rintro - ⟨more, heq⟩
    have hpair : [0xFD, 0xFF] ++ more = [a, b] ++ rest := heq
    exact hne (List.append_inj hpair rfl).1.symm

/-- The first character of some bytes is what they begin with. -/
lemma begins_of_first? {e : Encoding} {bytes : List UInt8} {d : Decoded} (h : first? e bytes = some d) :
    Begins e bytes d := by
  cases e with
  | utf8 =>
    cases bytes with
    | nil => cases h
    | cons a rest =>
      cases hs : sequence? a rest with
      | none =>
        have hfirst : first? .utf8 (a :: rest) = some ⟨replacement, 1⟩ := by rw [first?, hs]; rfl
        obtain rfl : ⟨replacement, 1⟩ = d := Option.some.inj (hfirst.symm.trans h)
        refine .offending (Nat.le_add_left ..) (not_prefix_bytesOf hfirst ?_)
        exact fun hlength => absurd hlength (by decide)
      | some d' =>
        rw [first?, hs] at h
        obtain rfl : d' = d := Option.some.inj h
        exact begins_of_sequence? hs
  | utf16 =>
    rcases bytes with _ | ⟨a, _ | ⟨b, _ | ⟨c, _ | ⟨d', rest⟩⟩⟩⟩
    · cases h
    · cases h
    · obtain rfl : _ = d := Option.some.inj h
      exact begins_single rfl
    · obtain rfl : _ = d := Option.some.inj h
      exact begins_single rfl
    · cases hpair : pair? (a.toNat + b.toNat * 0x100) (c.toNat + d'.toNat * 0x100) with
      | none =>
        have hfirst : first? .utf16 (a :: b :: c :: d' :: rest) =
            some ⟨single (a.toNat + b.toNat * 0x100), 2⟩ := by rw [first?, hpair]
        obtain rfl : _ = d := Option.some.inj (hfirst.symm.trans h)
        exact begins_single hfirst
      | some char =>
        rw [first?, hpair] at h
        obtain rfl : _ = d := Option.some.inj h
        have hbytes := bytesOf_of_pair? hpair
        have hprefix : [a, b, c, d'] <+: a :: b :: c :: d' :: rest := ⟨rest, rfl⟩
        rw [← hbytes] at hprefix
        have hbegins := Begins.char char hprefix
        rwa [hbytes] at hbegins

/-- There is no first character if and only if there is less than a unit. -/
lemma first?_eq_none_iff {e : Encoding} {bytes : List UInt8} :
    first? e bytes = none ↔ bytes.length < e.unitSize := by
  cases e with
  | utf8 =>
    cases bytes with
    | nil => exact ⟨fun _ => Nat.one_pos, fun _ => rfl⟩
    | cons a rest => exact ⟨nofun, fun h => absurd h (Nat.not_lt.2 (Nat.le_add_left ..))⟩
  | utf16 =>
    match bytes with
    | [] => exact ⟨fun _ => Nat.two_pos, fun _ => rfl⟩
    | [_] => exact ⟨fun _ => Nat.one_lt_two, fun _ => rfl⟩
    | [_, _] | [_, _, _] | _ :: _ :: _ :: _ :: _ =>
      exact ⟨nofun, fun h => absurd h (Nat.not_lt.2 (Nat.le_add_left ..))⟩

end Decode

namespace Encoding

/-- The bytes of a character are whole units. -/
lemma unitSize_dvd (e : Encoding) (c : Char) : e.unitSize ∣ (e.bytesOf c).length := by
  cases e with
  | utf8 => exact Nat.one_dvd _
  | utf16 =>
    rw [bytesOf, unitsOf]
    split
    · exact ⟨1, rfl⟩
    · exact ⟨2, rfl⟩

end Encoding

namespace Reads

variable {e : Encoding} {bytes : List UInt8} {ds : List Decoded}

/-- Nothing but less than a unit is left over. -/
lemma widthOf_add (h : Reads e bytes ds) : widthOf ds + bytes.length % e.unitSize = bytes.length := by
  induction h with
  | nil hlt =>
    rw [Decode.widthOf_nil, Nat.zero_add]
    exact Nat.mod_eq_of_lt hlt
  | char c _ ih =>
    obtain ⟨k, hk⟩ := e.unitSize_dvd c
    rw [widthOf_cons, List.length_append, Nat.add_assoc]
    dsimp only
    rw [hk, Nat.mul_add_mod, ih]
  | offending hunit _ _ ih =>
    rw [widthOf_cons, List.length_append, Nat.add_assoc, hunit, Nat.add_mod_left, ih]

end Reads

namespace Document

variable {e : Encoding} {bytes : List UInt8} {ds : List Decoded}

/-- The characters of a document are what its bytes say. -/
theorem reads_decode (d : Document) : Reads d.encoding d.bytes d.decode := by
  obtain ⟨bytes, e⟩ := d
  induction hn : bytes.length using Nat.strongRecOn generalizing bytes with
  | _ n ih =>
    rw [decode_eq]
    cases hf : first? e bytes with
    | none => exact .nil (Decode.first?_eq_none_iff.1 hf)
    | some c =>
      obtain ⟨hpos, hle⟩ := Decode.width_of_first? hf
      have hrest := ih (bytes.drop c.width).length (by rw [List.length_drop]; omega) _ rfl
      dsimp only at hrest ⊢
      cases Decode.begins_of_first? hf with
      | char c hprefix =>
        obtain ⟨more, rfl⟩ := hprefix
        dsimp only at hrest ⊢
        rw [List.drop_left] at hrest ⊢
        exact .char c hrest
      | offending hunit hnone =>
        have htake : (bytes.take e.unitSize).length = e.unitSize := by
          rw [List.length_take, Nat.min_eq_left hunit]
        rw [← List.take_append_drop e.unitSize bytes] at hnone
        have hreads := Reads.offending htake hnone hrest
        rwa [List.take_append_drop] at hreads

/-- The characters of a document are the only ones that its bytes say. -/
theorem reads_iff : Reads e bytes ds ↔ (Document.mk bytes e).decode = ds := by
  constructor
  · intro h
    induction h with
    | nil hlt => rw [decode_eq, Decode.first?_eq_none_iff.2 hlt]
    | char c _ ih => rw [decode_of_first? (Decode.first?_bytesOf e c _), List.drop_left, ih]
    | @offending unit bytes ds hunit hnone _ ih =>
      cases hf : first? e (unit ++ bytes) with
      | none =>
        have hlt := Decode.first?_eq_none_iff.1 hf
        rw [List.length_append] at hlt
        omega
      | some d =>
        cases Decode.begins_of_first? hf with
        | char c hprefix => exact absurd hprefix (hnone c)
        | offending =>
          rw [decode_of_first? hf]
          dsimp only
          rw [List.drop_left' hunit, ih]
  · rintro rfl
    exact reads_decode ⟨bytes, e⟩

end Document

/-! ## Searches that part a list -/

section

variable {α : Type} {p : α → Bool} {l : List α}

/-- If what is asked of a member holds of all before it, then those are taken of which it holds. -/
lemma takeWhile_eq_filter (h : l.Pairwise fun a b => p b = true → p a = true) :
    l.takeWhile p = l.filter p := by
  induction l with
  | nil => rfl
  | cons a l ih =>
    obtain ⟨ha, hl⟩ := List.pairwise_cons.1 h
    by_cases hp : p a = true
    · rw [List.takeWhile_cons_of_pos hp, List.filter_cons_of_pos hp, ih hl]
    · rw [List.takeWhile_cons_of_neg hp, List.filter_cons_of_neg hp]
      exact (List.filter_eq_nil_iff.2 fun b hb hpb => hp (ha b hb hpb)).symm

/-- The number of members that are taken is the only place that parts the members of which something
holds from the others. -/
lemma lt_length_takeWhile (h : l.Pairwise fun a b => p b = true → p a = true) {i : Nat} {a : α}
    (hi : l[i]? = some a) : i < (l.takeWhile p).length ↔ p a = true := by
  induction l generalizing i with
  | nil => cases hi
  | cons b l ih =>
    obtain ⟨hb, hl⟩ := List.pairwise_cons.1 h
    by_cases hp : p b = true
    · rw [List.takeWhile_cons_of_pos hp]
      cases i with
      | zero =>
        obtain rfl := Option.some.inj hi
        exact ⟨fun _ => hp, fun _ => Nat.succ_pos _⟩
      | succ i => exact Nat.succ_lt_succ_iff.trans (ih hl hi)
    · rw [List.takeWhile_cons_of_neg hp]
      refine ⟨nofun, fun ha => absurd ?_ hp⟩
      cases i with
      | zero =>
        obtain rfl := Option.some.inj hi
        exact ha
      | succ i => exact hb a (List.mem_of_getElem? hi) ha

end

/-! ## Characters in ranges -/

namespace Source

open Reparse.Span (InOrder inOrder_cons)

/-- A byte is in the first range, or in a later one if that has ended before. -/
lemma rangeAt_cons (r : Span) (ranges : List Span) (x : Nat) : rangeAt (r :: ranges) x =
    if r.stop.bytes ≤ x then (rangeAt ranges x).map (· + 1)
    else if r.containsByte x then some 0 else none := by
  unfold rangeAt
  by_cases h : r.stop.bytes ≤ x
  · rw [List.takeWhile_cons_of_pos (by simpa using h), if_pos h]
    simp only [List.length_cons, List.drop_succ_cons]
    cases (ranges.drop (ranges.takeWhile fun r => decide (r.stop.bytes ≤ x)).length).head? with
    | none => rfl
    | some s =>
      simp only [Option.bind_some]
      split <;> rfl
  · rw [List.takeWhile_cons_of_neg (by simpa using h), if_neg h]
    rfl

/-- Of ranges that are in order, the range of a byte is the first that holds it. -/
lemma rangeAt_eq_findIdx? {ranges : List Span} (h : InOrder ranges) (x : Nat) :
    rangeAt ranges x = ranges.findIdx? (·.containsByte x) := by
  induction ranges with
  | nil => rfl
  | cons r ranges ih =>
    obtain ⟨hle, hrest, hranges⟩ := inOrder_cons.1 h
    rw [rangeAt_cons, List.findIdx?_cons]
    by_cases hstop : r.stop.bytes ≤ x
    · have hout : ¬ r.containsByte x = true := by
        rw [Span.containsByte_iff]
        omega
      rw [if_pos hstop, if_neg hout, ih hranges]
    · rw [if_neg hstop]
      by_cases hin : r.containsByte x = true
      · rw [if_pos hin, if_pos hin]
      · -- the byte stands before the range, and the later ranges start after it
        have hnone : ranges.findIdx? (·.containsByte x) = none := by
          refine List.findIdx?_eq_none_iff.2 fun s hs => ?_
          have hafter := hrest s hs
          rw [Span.containsByte_iff] at hin
          rw [← Bool.not_eq_true, Span.containsByte_iff]
          omega
        rw [if_neg hin, if_neg hin, hnone]
        rfl

/-- No byte lies in two ranges that are in order. -/
lemma containsByte_unique {ranges : List Span} (h : InOrder ranges) {x i j : Nat} {r s : Span}
    (hi : ranges[i]? = some r) (hj : ranges[j]? = some s) (hr : r.containsByte x = true)
    (hs : s.containsByte x = true) : i = j := by
  rw [Span.containsByte_iff] at hr hs
  exact eq_of_pairwise h.apart hi hj (by omega) (by omega)

/-- The kept characters are those that have a range, with its number. -/
lemma charsIn_eq_filterMap (f : Nat → Option Nat) (byte : Nat) (ds : List Decoded) :
    charsIn f byte ds =
      (placed byte ds).filterMap fun c => (f c.byte).map fun i => { c with range := i } := by
  induction ds generalizing byte with
  | nil => rfl
  | cons d ds ih =>
    rw [charsIn, placed, List.filterMap_cons, ih]
    cases f byte with
    | none => rfl
    | some i => rfl

/-- As many characters as are before a byte, of those that are kept. -/
lemma charIndexAt_eq_countP (d : Document) (ranges : List Span) (b : Nat) :
    (ofDocument d ranges).charIndexAt b = (ofDocument d ranges).chars.countP (·.byte < b) := by
  rw [charIndexAt, takeWhile_eq_filter, List.countP_eq_length_filter]
  refine (ordered_chars d ranges).apart.imp fun {a c} hac hc => ?_
  have hlt : c.byte < b := of_decide_eq_true hc
  have hstop : a.byte + a.width ≤ c.byte := hac
  exact decide_eq_true (by omega)

end Source

/-- Ranges that a parser took are in order, and none are added to them. -/
lemma Parser.inOrder_of_setIncludedRanges {σ : Type} {p q : Parser σ} {ranges : List Span}
    (h : p.setIncludedRanges ranges = .ok q) : Span.InOrder q.includedRanges ∧
      Source.effectiveRanges q.includedRanges = q.includedRanges := by
  have horder : Span.InOrder ranges := allows_iff.1 ⟨q, h⟩
  have hq : q.includedRanges = Source.effectiveRanges ranges := by
    unfold setIncludedRanges at h
    split at h
    · cases h
    · cases h
      rfl
  rw [hq]
  refine ⟨?_, C.Source.effectiveRanges_idem ranges⟩
  cases ranges with
  | nil => exact Span.inOrder_cons.2 ⟨Nat.zero_le _, nofun, horder⟩
  | cons r ranges => exact horder

/-- A document has the characters that its bytes say, one after the other up to the last whole unit. A
source of the ranges that a parser accepted keeps those that begin in a range, with the number of the only
range that holds their first byte, and the search for a byte finds how many of them begin before it. What is
stored of the number is what 32 bits hold of it, which is the number itself if there are no more than 2 ^ 32
ranges. -/
theorem Parser.source_included {σ : Type} {p q : Parser σ} {ranges : List Span}
    (h : p.setIncludedRanges ranges = .ok q) (d : Document) :
    let s := Source.ofDocument d q.includedRanges
    (∀ ds, Reads d.encoding d.bytes ds ↔ d.decode = ds) ∧
    widthOf d.decode + d.bytes.length % d.encoding.unitSize = d.bytes.length ∧
    (∀ text, d = .ofChars d.encoding text → d.decode.map (·.char) = text) ∧
    s.chars = (Source.placed 0 d.decode).filterMap (fun c =>
      (q.includedRanges.findIdx? (·.containsByte c.byte)).map fun i => { c with range := i }) ∧
    (∀ b i j : Nat, ∀ r ∈ q.includedRanges[i]?, ∀ r' ∈ q.includedRanges[j]?,
      r.containsByte b = true → r'.containsByte b = true → i = j) ∧
    (∀ c ∈ s.chars, ∃ i, ∃ r ∈ q.includedRanges[i]?, r.containsByte c.byte = true ∧
      c.tag = i % 2 ^ 32 ∧ (q.includedRanges.length ≤ 2 ^ 32 → c.tag = i)) ∧
    ∀ b, s.charIndexAt b = s.chars.countP (·.byte < b) := by
  intro s
  obtain ⟨horder, hranges⟩ := inOrder_of_setIncludedRanges h
  refine ⟨fun ds => Document.reads_iff, d.reads_decode.widthOf_add, fun text htext => ?_, ?_, ?_,
    fun c hc => ?_, fun b => ?_⟩
  · rw [htext, Document.decode_ofChars, List.map_map]
    exact List.map_id text
  · rw [Source.chars_eq, hranges, Source.charsIn_eq_filterMap]
    simp only [Source.rangeAt_eq_findIdx? horder]
  · intro b i j r hr r' hr' hb hb'
    exact Source.containsByte_unique horder hr hr' hb hb'
  · obtain ⟨r, hr, hin⟩ := Source.exists_range hc
    rw [show s.ranges = q.includedRanges from hranges] at hr
    exact ⟨c.range, r, hr, hin, rfl, fun hlength => Source.tag_eq hc hlength⟩
  · exact Source.charIndexAt_eq_countP d q.includedRanges b

/-- Of a text with a stray byte, in ranges that part its characters. -/
theorem Parser.source_included_stray : ∃ q : Parser Unit,
    Parser.new.setIncludedRanges
      [⟨⟨1, ⟨0, 1⟩⟩, ⟨2, ⟨0, 2⟩⟩⟩, ⟨⟨2, ⟨0, 2⟩⟩, ⟨2, ⟨0, 2⟩⟩⟩, ⟨⟨2, ⟨0, 2⟩⟩, ⟨5, ⟨1, 0⟩⟩⟩] = .ok q ∧
    Reads .utf8 [97, 0xC3, 0xA9, 0xFF, 10, 98] [⟨'a', 1⟩, ⟨'é', 2⟩, ⟨replacement, 1⟩, ⟨'\n', 1⟩, ⟨'b', 1⟩] ∧
    (Source.ofDocument ⟨[97, 0xC3, 0xA9, 0xFF, 10, 98], .utf8⟩ q.includedRanges).chars =
      [⟨'é', 1, 2, 0⟩, ⟨replacement, 3, 1, 2⟩, ⟨'\n', 4, 1, 2⟩] ∧
    (∀ c ∈ (Source.ofDocument ⟨[97, 0xC3, 0xA9, 0xFF, 10, 98], .utf8⟩ q.includedRanges).chars,
      ∃ i, ∃ r ∈ q.includedRanges[i]?, r.containsByte c.byte = true ∧ c.tag = i) ∧
    (Source.ofDocument ⟨[97, 0xC3, 0xA9, 0xFF, 10, 98], .utf8⟩ q.includedRanges).charIndexAt 4 = 2 := by
  refine ⟨_, rfl, ?_⟩
  obtain ⟨hreads, -, -, hchars, -, htags, hcount⟩ := @Parser.source_included Unit .new _
    [⟨⟨1, ⟨0, 1⟩⟩, ⟨2, ⟨0, 2⟩⟩⟩, ⟨⟨2, ⟨0, 2⟩⟩, ⟨2, ⟨0, 2⟩⟩⟩, ⟨⟨2, ⟨0, 2⟩⟩, ⟨5, ⟨1, 0⟩⟩⟩] rfl
    ⟨[97, 0xC3, 0xA9, 0xFF, 10, 98], .utf8⟩
  have hdecode : (Document.mk [97, 0xC3, 0xA9, 0xFF, 10, 98] .utf8).decode =
    [⟨'a', 1⟩, ⟨'é', 2⟩, ⟨replacement, 1⟩, ⟨'\n', 1⟩, ⟨'b', 1⟩] := by decide
  rw [hdecode] at hchars
  refine ⟨(hreads _).2 hdecode, hchars.trans (by decide), fun c hc => ?_, ?_⟩
  · obtain ⟨i, r, hr, hin, -, htag⟩ := htags c hc
    exact ⟨i, r, hr, hin, htag (by decide)⟩
  rw [hcount, hchars]
  decide

/-! ## Rows and columns -/

namespace Source

/-- The lines of a source are those of its document. -/
lemma areLines_lineStarts (d : Document) (ranges : List Span) :
    Places.AreLines (ofDocument d ranges).lineStarts :=
  Places.areLines_linesOf fun _ h => Document.width_pos h

/-- The row of a byte is that of a line that starts at or before it, and the column leads from there to the
byte. -/
lemma exists_lineStart (d : Document) (ranges : List Span) (b : Nat) :
    ∃ start, (ofDocument d ranges).lineStarts[((ofDocument d ranges).pointAt b).row]? = some start ∧
      start ≤ b ∧ start + ((ofDocument d ranges).pointAt b).column = b := by
  obtain ⟨start, hlast, hle⟩ := Places.exists_line (areLines_lineStarts d ranges) b
  have hcolumn : ((ofDocument d ranges).pointAt b).column = b - start := by
    rw [pointAt]
    dsimp only
    rw [hlast, Option.getD_some]
  refine ⟨start, ?_, hle, by omega⟩
  rw [List.getLast?_eq_getElem?] at hlast
  obtain ⟨later, hlater⟩ := List.takeWhile_prefix (l := (ofDocument d ranges).lineStarts) fun l => l ≤ b
  rw [← hlater]
  exact (List.getElem?_append_left (List.getElem?_eq_some_iff.1 hlast).1).trans hlast

/-- A line starts at or before a byte if and only if its row is no later than that of the byte. -/
lemma lineStart_le_iff {d : Document} {ranges : List Span} {b i l : Nat}
    (h : (ofDocument d ranges).lineStarts[i]? = some l) :
    l ≤ b ↔ i ≤ ((ofDocument d ranges).pointAt b).row := by
  obtain ⟨start, hstart, hle, -⟩ := exists_lineStart d ranges b
  have hparts : (ofDocument d ranges).lineStarts.Pairwise fun l m =>
      decide (m ≤ b) = true → decide (l ≤ b) = true :=
    (areLines_lineStarts d ranges).sorted.imp fun {l m} hlt hm =>
      decide_eq_true (Nat.le_trans (Nat.le_of_lt hlt) (of_decide_eq_true hm))
  have hrow := (lt_length_takeWhile hparts hstart).2 (decide_eq_true hle)
  have hline := lt_length_takeWhile hparts h
  rw [decide_eq_true_eq] at hline
  have hlength : ((ofDocument d ranges).pointAt b).row =
      ((ofDocument d ranges).lineStarts.takeWhile (· ≤ b)).length - 1 := rfl
  rw [← hline]
  omega

/-- In UTF-8, the row and column that a source gives to a byte are those of the bytes before it, whatever
the included ranges. In both encodings they are in the order of the bytes, and they lead to the byte: the
row is that of the last line that starts at or before it, and the column counts from there. -/
theorem pointAt_agrees (d : Document) (ranges : List Span) :
    let s := ofDocument d ranges
    (d.encoding = .utf8 → ∀ b ≤ d.bytes.length, s.pointAt b = .ofByte d.bytes b) ∧
    (∀ x y, s.pointAt x < s.pointAt y ↔ x < y) ∧
    ∀ b, ∃ start, s.lineStarts[(s.pointAt b).row]? = some start ∧ start ≤ b ∧
      start + (s.pointAt b).column = b ∧
      ∀ i l, s.lineStarts[i]? = some l → (l ≤ b ↔ i ≤ (s.pointAt b).row) := by
  intro s
  refine ⟨fun hutf8 b hb => ?_, fun x y => pointAt_lt_iff rfl, fun b => ?_⟩
  · have hplace := Source.plots d ranges hutf8 b hb
    rw [Length.upTo_eq hb] at hplace
    exact congrArg Length.extent hplace
  · obtain ⟨start, hstart, hle, hcolumn⟩ := exists_lineStart d ranges b
    exact ⟨start, hstart, hle, hcolumn, fun i l hl => lineStart_le_iff hl⟩

/-- After a line break, and inside a character behind it. -/
theorem pointAt_agrees_lines :
    (ofDocument ⟨[97, 10, 0xC3, 0xA9], .utf8⟩ []).pointAt 3 = ⟨1, 1⟩ ∧
      (ofDocument ⟨[97, 10, 0xC3, 0xA9], .utf8⟩ []).pointAt 1 <
        (ofDocument ⟨[97, 10, 0xC3, 0xA9], .utf8⟩ []).pointAt 2 := by
  obtain ⟨hbytes, horder, -⟩ := pointAt_agrees ⟨[97, 10, 0xC3, 0xA9], .utf8⟩ []
  exact ⟨hbytes rfl 3 (by decide), (horder 1 2).2 (by decide)⟩

end Source

end Reparse
