import Reparse.Proofs.Starts

/-!
# Lines

For every document there is a text of UTF-8 that is as long and has the same lines
(`Document.lined`): the document itself, if it is UTF-8, and for UTF-16 the line breaks alone, all other
bytes left blank. What is known of the rows and columns of UTF-8 is so known of all documents. In
particular a tree that was edited along with a document, by edits with the positions of its bytes, has the
extents of the document that they end with (`Tree.Spans.revised`).
-/

namespace Reparse

/-! ## Lines of documents -/

/-- Little-endian units of 16 bits of which only the line breaks are kept, each in its last byte. -/
def lineMarks : List UInt8 → List UInt8
  | a :: b :: rest => 0 :: (if a = 10 ∧ b = 0 then 10 else 0) :: lineMarks rest
  | rest => rest.map fun _ => 0

/-- The text that stands for a document by its lines is as long as it. -/
lemma length_lineMarks (w : List UInt8) : (lineMarks w).length = w.length := by
  induction w using lineMarks.induct with
  | case1 a b rest ih => rw [lineMarks, List.length_cons, List.length_cons, ih]; rfl
  | case2 rest h =>
    rw [lineMarks, List.length_map]
    exact h

/-- Whole units are read by themselves. -/
lemma lineMarks_append {u : List UInt8} (v : List UInt8) (h : 2 ∣ u.length) :
    lineMarks (u ++ v) = lineMarks u ++ lineMarks v := by
  induction u using lineMarks.induct with
  | case1 a b rest ih =>
    rw [List.cons_append, List.cons_append, lineMarks, lineMarks, List.cons_append, List.cons_append, ih]
    rw [List.length_cons, List.length_cons] at h
    omega
  | case2 rest hrest =>
    rcases rest with _ | ⟨a, _ | ⟨b, rest⟩⟩
    · rfl
    · rw [List.length_singleton] at h
      omega
    · exact (hrest a b rest rfl).elim

/-- The text of lines may be parted between units. -/
lemma lineMarks_take {w : List UInt8} {n : Nat} (h : 2 ∣ n) (hn : n ≤ w.length) :
    lineMarks (w.take n) = (lineMarks w).take n ∧ lineMarks (w.drop n) = (lineMarks w).drop n := by
  have hlength : (w.take n).length = n := by
    rw [List.length_take]
    omega
  have happend := lineMarks_append (w.drop n) (hlength.symm ▸ h : 2 ∣ (w.take n).length)
  rw [List.take_append_drop] at happend
  have hmarks : (lineMarks (w.take n)).length = n := by rw [length_lineMarks, hlength]
  rw [happend]
  exact ⟨(List.take_left' hmarks).symm, (List.drop_left' hmarks).symm⟩

/-- The number of bytes of the smallest parts that a text consists of. -/
def Encoding.unitSize : Encoding → Nat
  | .utf8 => 1
  | .utf16 => 2

namespace Document

/-- A text of UTF-8 that is as long as a document and has the same lines. -/
def lined (d : Document) : Document :=
  match d.encoding with
  | .utf8 => ⟨d.bytes, .utf8⟩
  | .utf16 => ⟨lineMarks d.bytes, .utf8⟩

/-- A document after some of its bytes were replaced. -/
def replace (d : Document) (start stop : Nat) (replacement : List UInt8) : Document :=
  ⟨Edit.applyTo d.bytes start stop replacement, d.encoding⟩

/-- The text of lines is in UTF-8. -/
lemma encoding_lined (d : Document) : d.lined.encoding = .utf8 := by
  unfold lined
  split <;> rfl

/-- A document has as many bytes as the text of its lines. -/
lemma length_lined (d : Document) : d.lined.bytes.length = d.bytes.length := by
  unfold lined
  split
  · rfl
  · exact length_lineMarks d.bytes

/-- A replacement of whole units is one of their lines. -/
lemma exists_lined_replace {d : Document} {start stop : Nat} {replacement : List UInt8}
    (hstart : start ≤ stop) (hstop : stop ≤ d.bytes.length) (h₁ : d.encoding.unitSize ∣ start)
    (h₂ : d.encoding.unitSize ∣ stop) (h₃ : d.encoding.unitSize ∣ replacement.length) :
    ∃ lines : List UInt8, lines.length = replacement.length ∧
      (d.replace start stop replacement).lined.bytes =
        d.lined.bytes.take start ++ lines ++ d.lined.bytes.drop stop := by
  obtain ⟨bytes, encoding⟩ := d
  cases encoding with
  | utf8 => exact ⟨replacement, rfl, rfl⟩
  | utf16 =>
    refine ⟨lineMarks replacement, length_lineMarks replacement, ?_⟩
    have htake : (bytes.take start).length = start := by
      rw [List.length_take]
      exact Nat.min_eq_left (Nat.le_trans hstart hstop)
    show lineMarks (bytes.take start ++ replacement ++ bytes.drop stop) = _
    rw [List.append_assoc, lineMarks_append _ (htake.symm ▸ h₁), lineMarks_append _ h₃,
      (lineMarks_take h₁ (Nat.le_trans hstart hstop)).1, (lineMarks_take h₂ hstop).2, List.append_assoc]
    rfl

end Document

/-! ## Positions -/

open Source Decode

/-- A unit by itself is a line break only if it is the one of UTF-16. -/
lemma single_eq_newline (u : Nat) : single u = '\n' ↔ u = 10 := by
  unfold single
  split
  · rename_i h
    rw [← Char.toNat_inj, toNat_ofNat h]
    exact Iff.rfl
  · rename_i h
    refine ⟨fun hc => absurd hc (by decide), fun hu => ?_⟩
    subst hu
    exact absurd (by decide) h

/-- Of two units that stand for one character neither is a line break, nor is the character. -/
lemma pair?_newline {u v : Nat} {c : Char} (h : pair? u v = some c) : u ≠ 10 ∧ v ≠ 10 ∧ c ≠ '\n' := by
  unfold pair? at h
  split at h
  · rename_i hr
    obtain rfl := Option.some.inj h
    refine ⟨by omega, by omega, fun hc => ?_⟩
    have hvalid : (0x10000 + (u - 0xD800) * 0x400 + (v - 0xDC00)).isValidChar := by
      right
      omega
    rw [← Char.toNat_inj, toNat_ofNat hvalid] at hc
    have hten : '\n'.toNat = 10 := rfl
    omega
  · cases h

/-- The bytes after the line breaks of units that start at `byte`. -/
def unitLines (byte : Nat) : List Nat → List Nat
  | [] => []
  | u :: rest =>
    if u = 10 then (byte + 2) :: unitLines (byte + 2) rest else unitLines (byte + 2) rest

/-- The lines of some units start after their line breaks. -/
lemma laterLines_ofUnits (byte : Nat) (us : List Nat) :
    laterLines byte (ofUnits us) = unitLines byte us := by
  induction us using ofUnits.induct generalizing byte with
  | case1 => rfl
  | case2 u =>
    rw [ofUnits, laterLines, unitLines, laterLines, unitLines]
    simp only [single_eq_newline]
  | case3 u v rest c hpair ih =>
    obtain ⟨hu, hv, hc⟩ := pair?_newline hpair
    rw [ofUnits, hpair, laterLines, unitLines, unitLines, if_neg hu, if_neg hv]
    dsimp only
    rw [if_neg hc, ih]
  | case4 u v rest hpair ih =>
    rw [ofUnits, hpair, laterLines, unitLines]
    simp only [single_eq_newline, ih]

/-- The line breaks of units are the newlines of the text of lines. -/
lemma unitLines_units (byte : Nat) (w : List UInt8) :
    unitLines byte (units w) = lineEnds byte (lineMarks w) := by
  induction w using lineMarks.induct generalizing byte with
  | case1 a b rest ih =>
    have hunit : a.toNat + b.toNat * 0x100 = 10 ↔ a = 10 ∧ b = 0 := by
      have ha := a.toNat_lt
      rw [← UInt8.toNat_inj, ← UInt8.toNat_inj]
      show _ ↔ a.toNat = 10 ∧ b.toNat = 0
      omega
    have hzero : ¬ (0 : UInt8) = 10 := by decide
    rw [units, unitLines, lineMarks, lineEnds, if_neg hzero, lineEnds, ih]
    by_cases h : a = 10 ∧ b = 0
    · rw [if_pos (hunit.2 h), if_pos h, if_pos rfl]
    · rw [if_neg (mt hunit.1 h), if_neg h, if_neg hzero]
  | case2 rest hrest =>
    rcases rest with _ | ⟨a, _ | ⟨b, rest⟩⟩
    · rfl
    · rfl
    · exact (hrest a b rest rfl).elim

/-- The lines of a document are those of the text that has its lines. -/
lemma Document.laterLines_lined (d : Document) : laterLines 0 d.lined.decode = laterLines 0 d.decode := by
  obtain ⟨bytes, encoding⟩ := d
  cases encoding with
  | utf8 => rfl
  | utf16 =>
    have h : laterLines 0 (utf8From 0 (lineMarks bytes)) = lineEnds 0 (lineMarks bytes) :=
      @laterLines_utf8From 0 0 (lineMarks bytes) fun b hb => by cases hb
    have h' := laterLines_ofUnits 0 (units bytes)
    rw [unitLines_units] at h'
    exact h.trans h'.symm

/-- So are the positions of its bytes. -/
lemma Source.positionAt_lined (d : Document) (ranges : List Span) :
    (ofDocument d.lined ranges).positionAt = (ofDocument d ranges).positionAt := by
  have hlines : (ofDocument d.lined ranges).lineStarts = (ofDocument d ranges).lineStarts :=
    congrArg (0 :: ·) d.laterLines_lined
  funext x
  rw [positionAt, positionAt, pointAt, pointAt, hlines]

/-- A position in a document is the extent of the text of its lines up to there. -/
lemma Source.positionAt_eq_upTo {d : Document} {x : Nat} (ranges : List Span)
    (hx : x ≤ d.bytes.length) : (ofDocument d ranges).positionAt x = .upTo d.lined.bytes x := by
  rw [← positionAt_lined]
  exact Source.plots d.lined ranges d.encoding_lined x (by rw [d.length_lined]; exact hx)

/-! ## Trees that are edited along with documents -/

/-- Whether an edit says that in a document some whole units were replaced: its ends have the positions
that the document gives them, before the replacement and after it. -/
structure Edit.Describes (e : Edit) (d : Document) (x y : Nat) (replacement : List UInt8) : Prop where
  ordered : x ≤ y ∧ y ≤ d.bytes.length
  units : d.encoding.unitSize ∣ x ∧ d.encoding.unitSize ∣ y ∧ d.encoding.unitSize ∣ replacement.length
  start : e.start = (Source.ofDocument d []).positionAt x
  oldEnd : e.oldEnd = (Source.ofDocument d []).positionAt y
  newEnd : e.newEnd =
    (Source.ofDocument (d.replace x y replacement) []).positionAt (x + replacement.length)

/-- Whether an edit describes a replacement that makes the one document the other. -/
def Edit.Revises (e : Edit) (d d' : Document) : Prop :=
  ∃ start stop replacement, e.Describes d start stop replacement ∧ d' = d.replace start stop replacement

/-- Whether replacements turn a document and a tree into others, each with an edit that describes it. -/
abbrev Revised := Rewritten Edit.Revises

namespace Edit.Describes

variable {e : Edit} {d : Document} {start stop : Nat} {replacement : List UInt8}

/-- The replacement ends within the new text. -/
lemma le_length_replace (h : e.Describes d start stop replacement) :
    start + replacement.length ≤ (d.replace start stop replacement).bytes.length := by
  obtain ⟨h1, h2⟩ := h.ordered
  simp only [Document.replace, applyTo, List.length_append, List.length_take]
  omega

/-- An edit that describes a replacement turns one document into the other. -/
lemma turns (h : e.Describes d start stop replacement) :
    e.Turns d.bytes (d.replace start stop replacement).bytes := by
  obtain ⟨⟨h1, h2⟩, -, hstart, holdEnd, hnewEnd⟩ := h
  have h3 : e.start.bytes = start := congrArg Length.bytes hstart
  have h4 : e.oldEnd.bytes = stop := congrArg Length.bytes holdEnd
  have h5 : e.newEnd.bytes = start + replacement.length := congrArg Length.bytes hnewEnd
  refine ⟨by omega, by omega, by omega, replacement, by omega, ?_⟩
  rw [h3, h4]
  rfl

/-- It moves the lines of one document to those of the other. -/
lemma moves (h : e.Describes d start stop replacement) :
    e.Moves True d.lined.bytes (d.replace start stop replacement).lined.bytes := by
  have hle := h.le_length_replace
  obtain ⟨⟨h1, h2⟩, ⟨hu, hv, hw⟩, hstart, holdEnd, hnewEnd⟩ := h
  have h3 : e.start.bytes = start := congrArg Length.bytes hstart
  have h4 : e.oldEnd.bytes = stop := congrArg Length.bytes holdEnd
  have h5 : e.newEnd.bytes = start + replacement.length := congrArg Length.bytes hnewEnd
  obtain ⟨lines, hlines, hbytes⟩ := Document.exists_lined_replace h1 h2 hu hv hw
  have hlength := d.length_lined
  refine ⟨⟨by omega, by omega, by omega, lines, by omega, ?_⟩, fun _ => ?_, fun _ => ?_, fun _ => ?_⟩
  · rw [h3, h4]
    exact hbytes
  · rw [h3, hstart]
    exact Source.positionAt_eq_upTo [] (Nat.le_trans h1 h2)
  · rw [h4, holdEnd]
    exact Source.positionAt_eq_upTo [] h2
  · rw [h5, hnewEnd]
    exact Source.positionAt_eq_upTo [] hle

/-- In UTF-8 the edit that is made for a replacement describes it. -/
lemma of_ofReplacement? (hutf8 : d.encoding = .utf8) (hstart : start ≤ stop)
    (hstop : stop ≤ d.bytes.length) (hd : d.bytes.length ≤ limit)
    (hl : (applyTo d.bytes start stop replacement).length ≤ limit)
    (he : ofReplacement? d.bytes start stop replacement = some e) :
    e.Describes d start stop replacement := by
  obtain ⟨bytes, encoding⟩ := d
  obtain rfl : encoding = .utf8 := hutf8
  obtain ⟨-, h3, h4, h5⟩ := turns_applyTo hstart hstop hd hl he
  obtain ⟨-, hstart', holdEnd, hnewEnd⟩ := moves_applyTo hstart hstop hd hl he
  have hle : start + replacement.length ≤ (applyTo bytes start stop replacement).length := by
    dsimp only at hstop
    simp only [applyTo, List.length_append, List.length_take]
    omega
  refine ⟨⟨hstart, hstop⟩, ⟨Nat.one_dvd _, Nat.one_dvd _, Nat.one_dvd _⟩, ?_, ?_, ?_⟩
  · rw [hstart' trivial, h3]
    exact (Source.positionAt_eq_upTo [] (Nat.le_trans hstart hstop)).symm
  · rw [holdEnd trivial, h4]
    exact (Source.positionAt_eq_upTo [] hstop).symm
  · rw [hnewEnd trivial, h5]
    exact (@Source.positionAt_eq_upTo ⟨applyTo bytes start stop replacement, .utf8⟩ _ [] hle).symm

end Edit.Describes

/-- So in UTF-8 replacements with the edits that are made for them are described by these. -/
lemma Replaced.revised {d₀ d : Document} {t₀ t : Tree} (h : Replaced d₀ t₀ d t)
    (hutf8 : d₀.encoding = .utf8) (hd : d₀.bytes.length ≤ limit) : Revised d₀ t₀ d t := by
  refine (Rewritten.of_allowed (P := fun d => d.encoding = .utf8 ∧ d.bytes.length ≤ limit) h ⟨hutf8, hd⟩
    fun hd he hl => ?_).2
  obtain ⟨start, stop, replacement, hstart, hstop, he, rfl⟩ := he
  exact ⟨⟨hd.1, hl⟩, start, stop, replacement, .of_ofReplacement? hd.1 hstart hstop hd.2 hl he, rfl⟩

/-- The edits that describe replacements match. -/
lemma Revised.editedAlong {d₀ d : Document} {t₀ t : Tree} (h : Revised d₀ t₀ d t) :
    EditedAlong d₀ t₀ d t := by
  refine (Rewritten.of_allowed (P := fun _ => True) h trivial fun _ he _ => ⟨trivial, ?_⟩).2
  obtain ⟨start, stop, replacement, he, rfl⟩ := he
  exact ⟨he.turns, rfl⟩

/-- A tree that was edited along with a document still has its extents. -/
theorem Tree.Spans.revised {d₀ d : Document} {t₀ t : Tree} (h : t₀.Spans d₀.lined)
    (hd : d₀.bytes.length ≤ limit) (hr : Revised d₀ t₀ d t) :
    d.bytes.length ≤ limit ∧ t.Spans d.lined := by
  induction hr with
  | refl => exact ⟨hd, h⟩
  | tail generation _ he hl ih =>
    obtain ⟨hlength, hspans⟩ := ih
    obtain ⟨start, stop, replacement, he, rfl⟩ := he
    refine ⟨hl, hspans.edit generation he.moves ?_ ?_ ?_⟩
    · rw [Document.encoding_lined, Document.encoding_lined]
    · rw [Document.length_lined]
      exact hlength
    · rw [Document.length_lined]
      exact hl

namespace C

/-- The tree that is built of a document has its extents, in every encoding. -/
lemma Builds.spans_lined {strict : Prop} {d : Document} {ranges : List Span} {e : State}
    {items : List Item} {t : Tree} (h : Builds strict (.ofDocument d ranges) e items t)
    (hd : d.bytes.length ≤ limit) : t.Spans d.lined :=
  h.spans_of_positionAt hd d.length_lined (Source.positionAt_lined d ranges)

end C

end Reparse
