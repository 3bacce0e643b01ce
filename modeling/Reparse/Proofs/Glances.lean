import Reparse.Proofs.Losslessness
import Reparse.Proofs.Tokenizing

/-!
# Glances

What the tokenizer looks at: a token depends on its own characters and on the one after it, which it
reports as its lookahead (`Tokenizer.lex_glances`). The proof runs two tokenizers side by side. As long
as the characters before which they stand look the same, they take the same steps; so they are kept
abreast by every loop that has not gone past the characters that look the same.
-/

namespace Reparse.C

/-- How a character looks to the tokenizer: what it is, how many bytes it has, and whether it is of the
same included range as the character before it. -/
structure Glyph where
  char : Char
  width : Nat
  joined : Bool
deriving DecidableEq, Repr

/-- How a character looks among some characters, the first of which has none before it. -/
def glyph? (cs : List SourceChar) (i : Nat) : Option Glyph :=
  cs[i]?.map fun c => ⟨c.char, c.width, i != 0 && cs[i - 1]?.map (·.range) == some c.range⟩

/-- Whether the first characters look the same, or both end among them. -/
def LookAlike (n : Nat) (cs cs' : List SourceChar) : Prop := ∀ i < n, glyph? cs i = glyph? cs' i

instance (n : Nat) (cs cs' : List SourceChar) : Decidable (LookAlike n cs cs') :=
  inferInstanceAs (Decidable (∀ i < n, glyph? cs i = glyph? cs' i))

section

variable {n : Nat} {cs cs' : List SourceChar}

/-- What is computed from how the first characters look is the same. -/
lemma LookAlike.map {α : Type} (h : LookAlike n cs cs') {i : Nat} (hi : i < n) (f : Char → Nat → α) :
    cs[i]?.map (fun c => f c.char c.width) = cs'[i]?.map fun c => f c.char c.width := by
  have hglyph := congrArg (Option.map fun g : Glyph => f g.char g.width) (h i hi)
  rwa [glyph?, glyph?, Option.map_map, Option.map_map] at hglyph

/-- Characters look the same wherever one begins to look. -/
lemma LookAlike.drop (h : LookAlike n cs cs') (m : Nat) : LookAlike (n - m) (cs.drop m) (cs'.drop m) := by
  intro i hi
  have hglyph : ∀ ds : List SourceChar, glyph? (ds.drop m) i =
      (glyph? ds (m + i)).map fun g => { g with joined := i != 0 && g.joined } := by
    intro ds
    simp only [glyph?, List.getElem?_drop, Option.map_map]
    refine Option.map_congr fun c _ => ?_
    cases i with
    | zero => rfl
    | succ i =>
      have hpos : (m + (i + 1) != 0) = true := bne_iff_ne.2 (Nat.succ_ne_zero _)
      simp only [Function.comp, hpos, Bool.true_and]
      rfl
  rw [hglyph, hglyph, h (m + i) (by omega)]

/-- As many blanks stand in front of characters that look the same. -/
lemma LookAlike.blanks (h : LookAlike n cs cs')
    (hn : (cs.takeWhile fun c => Text.isBlank c.char).length < n) :
    (cs'.takeWhile fun c => Text.isBlank c.char).length =
      (cs.takeWhile fun c => Text.isBlank c.char).length := by
  induction cs generalizing n cs' with
  | nil =>
    have hnone := h.map hn fun c _ => c
    cases cs' with
    | nil => rfl
    | cons c' cs' => cases hnone
  | cons c cs ih =>
    have hhead := h.map (Nat.zero_lt_of_lt hn) fun c _ => c
    cases cs' with
    | nil => cases hhead
    | cons c' cs' =>
      have hchar : c.char = c'.char := Option.some.inj hhead
      have htail : LookAlike (n - 1) cs cs' := h.drop 1
      rw [List.takeWhile_cons] at hn
      rw [List.takeWhile_cons, List.takeWhile_cons, ← hchar]
      split
      · rename_i hb
        rw [if_pos hb, List.length_cons] at hn
        rw [List.length_cons, List.length_cons, ih htail (by omega)]
      · rfl

/-- Where one run of characters goes on, so does the other, in the same range as before or not. -/
lemma LookAlike.exists_getElem? (h : LookAlike n cs cs') {i : Nat} (hi : i < n) {c : SourceChar}
    (hc : cs[i]? = some c) : ∃ c', cs'[i]? = some c' ∧ c'.char = c.char ∧
      ∀ j e e', i = j + 1 → cs[j]? = some e → cs'[j]? = some e' →
        (e'.range = c'.range ↔ e.range = c.range) := by
  have hglyph := h i hi
  rw [glyph?, hc, Option.map_some] at hglyph
  obtain ⟨c', hc', hsame⟩ := Option.map_eq_some_iff.1 hglyph.symm
  obtain ⟨hchar, -, hjoined⟩ := Glyph.mk.inj hsame
  refine ⟨c', hc', hchar, ?_⟩
  rintro j e e' rfl he he'
  rw [Nat.add_sub_cancel, he, he'] at hjoined
  simpa using hjoined

/-! ## Ranges -/

/-- Whether the characters of each range stand next to each other. -/
def Grouped (cs : List SourceChar) : Prop := ∀ (x y z : Nat) (c e f : SourceChar), x ≤ y → y ≤ z →
  cs[x]? = some c → cs[y]? = some e → cs[z]? = some f → c.range = f.range → c.range = e.range

/-- Later characters are grouped if all are. -/
lemma Grouped.drop (h : Grouped cs) (m : Nat) : Grouped (cs.drop m) := by
  intro x y z c e f hxy hyz hc he hf
  rw [List.getElem?_drop] at hc he hf
  exact h (m + x) (m + y) (m + z) c e f (Nat.add_le_add_left hxy m) (Nat.add_le_add_left hyz m) hc he hf

/-- The characters of a document stand next to those of their range. -/
lemma grouped_chars (d : Document) (ranges : List Span) : Grouped (Source.ofDocument d ranges).chars := by
  intro x y z c e f hxy hyz hc he hf hrange
  have hat : ∀ g ∈ (Source.ofDocument d ranges).chars,
      Source.rangeAt (Source.effectiveRanges ranges) g.byte = some g.range := by
    intro g hg
    rw [Source.chars_eq] at hg
    obtain ⟨-, -, -, -, -, -, -, hr⟩ := Source.exists_of_mem_charsIn hg
    exact hr
  have hbyte : ∀ {x y : Nat} {c e : SourceChar}, x ≤ y → (Source.ofDocument d ranges).chars[x]? = some c →
      (Source.ofDocument d ranges).chars[y]? = some e → c.byte ≤ e.byte := by
    intro x y c e hxy hc he
    obtain ⟨hx, rfl⟩ := List.getElem?_eq_some_iff.1 hc
    obtain ⟨hy, rfl⟩ := List.getElem?_eq_some_iff.1 he
    rcases Nat.lt_or_eq_of_le hxy with hlt | rfl
    · have hapart := List.pairwise_iff_getElem.1 (Source.ordered_chars d ranges).apart x y hx hy hlt
      exact Nat.le_trans (Nat.le_add_right ..) hapart
    · exact Nat.le_refl _
  have hr := Source.rangeAt_convex (hat c (List.mem_of_getElem? hc))
    (hrange ▸ hat f (List.mem_of_getElem? hf)) (hbyte hxy hc he) (hbyte hyz he hf)
  exact Option.some.inj (hr.symm.trans (hat e (List.mem_of_getElem? he)))

/-- Characters that look the same are of the range of the first one, or of another, together. -/
lemma LookAlike.range_iff (h : LookAlike n cs cs') (hg : Grouped cs) (hg' : Grouped cs') {f f' : SourceChar}
    (hf : cs[0]? = some f) (hf' : cs'[0]? = some f') {i : Nat} (hi : i < n) {c c' : SourceChar}
    (hc : cs[i]? = some c) (hc' : cs'[i]? = some c') : f.range = c.range ↔ f'.range = c'.range := by
  induction i generalizing c c' with
  | zero =>
    obtain rfl := Option.some.inj (hf.symm.trans hc)
    obtain rfl := Option.some.inj (hf'.symm.trans hc')
    exact iff_of_true rfl rfl
  | succ i ih =>
    obtain ⟨e, he⟩ : ∃ e, cs[i]? = some e :=
      ⟨_, List.getElem?_eq_getElem (Nat.lt_of_succ_lt (List.getElem?_eq_some_iff.1 hc).1)⟩
    obtain ⟨e', he', -⟩ := h.exists_getElem? (Nat.lt_of_succ_lt hi) he
    obtain ⟨c₀, hc₀, -, hjoined⟩ := h.exists_getElem? hi hc
    obtain rfl := Option.some.inj (hc'.symm.trans hc₀)
    -- a character is of the first range if its neighbour is and they are of one range
    have hstep : ∀ {ds : List SourceChar} {f e c : SourceChar}, Grouped ds → ds[0]? = some f →
        ds[i]? = some e → ds[i + 1]? = some c →
        (f.range = c.range ↔ f.range = e.range ∧ e.range = c.range) := by
      intro ds f e c hg hf he hc
      constructor
      · intro hrange
        have hfe := hg 0 i (i + 1) f e c (Nat.zero_le i) (Nat.le_succ i) hf he hc hrange
        exact ⟨hfe, hfe.symm.trans hrange⟩
      · exact fun hrange => hrange.1.trans hrange.2
    rw [hstep hg hf he hc, hstep hg' hf' he' hc', ih (Nat.lt_of_succ_lt hi) he he', hjoined i e e' rfl he he']

end

/-! ## Two scanners -/

namespace Scanner

variable {n : Nat} {a b : Scanner}

/-- Whether two scanners have taken as many characters of their tokens, whose first `n` characters are the
same, as far as they are of the range of the token. -/
structure Abreast (n : Nat) (a b : Scanner) : Prop where
  le : a.tokenStart ≤ a.index
  le' : b.tokenStart ≤ b.index
  length : a.tokenLength = b.tokenLength
  chars : ∀ i < n, (a.source.chars[a.tokenStart + i]?).map (·.char) =
    (b.source.chars[b.tokenStart + i]?).map (·.char)
  seen : ∀ i < n, a.charAt? (a.tokenStart + i) = b.charAt? (b.tokenStart + i)

/-- A scanner at the start of a token sees the characters of the range of the first one. -/
lemma charAt?_add {s : Scanner} {f : SourceChar} (hf : s.rest[0]? = some f) (i : Nat) :
    s.startToken.charAt? (s.index + i) = (s.rest[i]?.filter fun c => f.range == c.range).map (·.char) := by
  have hrest : ∀ i, s.source.chars[s.index + i]? = s.rest[i]? := fun i => List.getElem?_drop.symm
  have hfirst : s.source.chars[s.index]? = some f := hf ▸ hrest 0
  simp only [charAt?, startToken, hrest, hfirst, Option.map_some]
  cases hc : s.rest[i]? with
  | none => rfl
  | some c =>
    have hsame : (s.index + i == s.index || some f.range == some c.range) = (f.range == c.range) := by
      cases i with
      | zero =>
        obtain rfl := Option.some.inj (hf.symm.trans hc)
        simp
      | succ i =>
        have hne : (s.index + (i + 1) == s.index) = false := beq_eq_false_iff_ne.2 (by omega)
        rw [hne, Bool.false_or]
        rfl
    simp only [Option.filter_some, hsame]

/-- Scanners that begin tokens before characters that look the same are abreast. -/
lemma abreast_startToken (ha : Grouped a.source.chars) (hb : Grouped b.source.chars)
    (h : LookAlike n a.rest b.rest) : Abreast n a.startToken b.startToken := by
  have hrest : ∀ (s : Scanner) i, s.source.chars[s.index + i]? = s.rest[i]? :=
    fun s i => List.getElem?_drop.symm
  refine ⟨Nat.le_refl _, Nat.le_refl _, ?_, fun i hi => ?_, fun i hi => ?_⟩
  · simp only [tokenLength, startToken, Nat.sub_self]
  · have hchar := h.map hi fun c _ => c
    simpa only [startToken, hrest] using hchar
  · cases hf : a.rest[0]? with
    | none =>
      have hnil : a.rest = [] := List.head?_eq_none_iff.1 (by rw [List.head?_eq_getElem?, hf])
      have hnil' : b.rest = [] := by
        have hfirst := h.map (Nat.zero_lt_of_lt hi) fun c _ => c
        rw [hnil, List.getElem?_nil, Option.map_none, eq_comm, Option.map_eq_none_iff] at hfirst
        exact List.head?_eq_none_iff.1 (by rw [List.head?_eq_getElem?, hfirst])
      simp only [charAt?, startToken, hrest, hnil, hnil', List.getElem?_nil, Option.filter_none,
        Option.map_none]
    | some f =>
      obtain ⟨f', hf', -⟩ := h.exists_getElem? (Nat.zero_lt_of_lt hi) hf
      refine (charAt?_add hf i).trans (Eq.trans ?_ (charAt?_add hf' i).symm)
      cases hc : a.rest[i]? with
      | none =>
        have hnone := h.map hi fun c _ => c
        rw [hc, Option.map_none, eq_comm, Option.map_eq_none_iff] at hnone
        rw [hnone]
        rfl
      | some c =>
        obtain ⟨c', hc', hchar, -⟩ := h.exists_getElem? hi hc
        have hrange : (f.range == c.range) = (f'.range == c'.range) := by
          rw [Bool.eq_iff_iff, beq_iff_eq, beq_iff_eq]
          exact h.range_iff (ha.drop a.index) (hb.drop b.index) hf hf' hi hc hc'
        simp only [hc', Option.filter_some, hrange]
        split
        · exact congrArg some hchar.symm
        · rfl

namespace Abreast

variable {c : SourceChar} (h : Abreast n a b)

include h

/-- Scanners that are abreast skip characters abreast. -/
lemma skip (k : Nat) : Abreast n (a.skip k) (b.skip k) := by
  have hlength := h.length
  have hle := h.le
  have hle' := h.le'
  refine ⟨Nat.le_trans hle (Nat.le_add_right ..), Nat.le_trans hle' (Nat.le_add_right ..), ?_, h.chars,
    h.seen⟩
  simp only [tokenLength, Scanner.skip] at hlength ⊢
  omega

/-- Scanners that are abreast see the same. -/
lemma charAt? (hn : a.tokenLength < n) : a.charAt? a.index = b.charAt? b.index := by
  have ha : a.tokenStart + a.tokenLength = a.index := Nat.add_sub_cancel' h.le
  have hb : b.tokenStart + b.tokenLength = b.index := Nat.add_sub_cancel' h.le'
  rw [← ha, ← hb, ← h.length]
  exact h.seen a.tokenLength hn

/-- Scanners that are abreast end together. -/
lemma isEnd (hn : a.tokenLength < n) : b.isEnd = a.isEnd := by
  rw [Scanner.isEnd, Scanner.isEnd, h.charAt? hn]

/-- Scanners that are abreast look at the same character. -/
lemma peek (hn : a.tokenLength < n) : b.peek = a.peek := by
  rw [Scanner.peek, Scanner.peek, h.charAt? hn]

/-- Scanners that are abreast take the same character, and are abreast after it. -/
lemma advance (hn : a.tokenLength < n) : b.advance.1 = a.advance.1 ∧ Abreast n a.advance.2 b.advance.2 := by
  have hchar := h.charAt? hn
  cases hx : a.charAt? a.index with
  | none =>
    rw [Scanner.advance, Scanner.advance, ← hchar, hx]
    exact ⟨rfl, h⟩
  | some x =>
    rw [Scanner.advance, Scanner.advance, ← hchar, hx]
    exact ⟨rfl, h.skip 1⟩

end Abreast

/-! ## Loops -/

/-- A scanner that has taken characters has read no less of its token. -/
lemma tokenLength_le_skip (s : Scanner) (k : Nat) : s.tokenLength ≤ (s.skip k).tokenLength :=
  Nat.sub_le_sub_right (Nat.le_add_right ..) _

/-- To go on shortens no token. -/
lemma tokenLength_le_advance (s : Scanner) : s.tokenLength ≤ s.advance.2.tokenLength := by
  unfold advance
  split
  · exact s.tokenLength_le_skip 1
  · exact Nat.le_refl _

/-- To go on leaves the start of the token. -/
lemma tokenStart_advance (s : Scanner) : s.advance.2.tokenStart = s.tokenStart := by
  unfold advance
  split <;> rfl

/-- To go on leaves the first character of the token. -/
lemma advance_first {c : SourceChar} (hc : a.source.chars[a.tokenStart]? = some c) :
    a.advance.2.source.chars[a.advance.2.tokenStart]? = some c := by
  unfold advance
  split <;> exact hc

/-! The loops of two scanners that are abreast go on equally long, if the first one stops among the
characters that look the same. -/

section

variable {c : SourceChar} (hc : a.source.chars[a.tokenStart]? = some c)

include hc

/-- Scanners that are abreast skip the same run of characters. -/
lemma Abreast.advanceWhile {p : Char → Bool} (h : Abreast n a b) (hn : (a.advanceWhile p).tokenLength < n) :
    Abreast n (a.advanceWhile p) (b.advanceWhile p) := by
  fun_induction Scanner.advanceWhile p a generalizing b with
  | case1 a hgo ih =>
    have hc' := advance_first hc
    have hlt : a.tokenLength < n := by
      rw [advanceWhile_eq hc'] at hn
      exact Nat.lt_of_le_of_lt (Nat.le_trans a.tokenLength_le_advance (tokenLength_le_skip _ _)) hn
    have hgo' : b.isEnd = false ∧ p b.peek = true := by
      rw [h.isEnd hlt, h.peek hlt]
      exact hgo
    rw [Scanner.advanceWhile.eq_1 p b, dif_pos hgo']
    exact ih hc' (h.advance hlt).2 hn
  | case2 a hstop =>
    have hstop' : ¬ (b.isEnd = false ∧ p b.peek = true) := by
      rw [h.isEnd hn, h.peek hn]
      exact hstop
    rw [Scanner.advanceWhile, dif_neg hstop']
    exact h

/-- Scanners that are abreast close a comment at the same place. -/
lemma Abreast.closeComment (h : Abreast n a b) (hn : a.closeComment.tokenLength < n) :
    Abreast n a.closeComment b.closeComment := by
  fun_induction Scanner.closeComment a generalizing b with
  | case1 a hgo hclose =>
    have hlt' : a.advance.2.tokenLength < n := Nat.lt_of_le_of_lt (tokenLength_le_advance _) hn
    have hlt : a.tokenLength < n := Nat.lt_of_le_of_lt a.tokenLength_le_advance hlt'
    obtain ⟨hchar, h'⟩ := h.advance hlt
    rw [Scanner.closeComment, dif_pos ((h.isEnd hlt).trans hgo), hchar, h'.peek hlt', if_pos hclose]
    exact (h'.advance hlt').2
  | case2 a hgo hclose ih =>
    have hc' := advance_first hc
    have hlt' : a.advance.2.tokenLength < n := by
      rw [closeComment_eq hc'] at hn
      exact Nat.lt_of_le_of_lt (tokenLength_le_skip _ _) hn
    have hlt : a.tokenLength < n := Nat.lt_of_le_of_lt a.tokenLength_le_advance hlt'
    obtain ⟨hchar, h'⟩ := h.advance hlt
    rw [Scanner.closeComment.eq_1 b, dif_pos ((h.isEnd hlt).trans hgo), hchar, h'.peek hlt', if_neg hclose]
    exact ih hc' h' hn
  | case3 a hstop =>
    rw [Scanner.closeComment, dif_neg ((h.isEnd hn).symm ▸ hstop)]
    exact h

/-- Scanners that are abreast find the end of a text at the same place. -/
lemma Abreast.stringText (h : Abreast n a b) (hn : a.stringText.tokenLength < n) :
    Abreast n a.stringText b.stringText := by
  -- what is left after a character or two lies before where the first scanner stops
  have hgrows : ∀ {s : Scanner}, s.source.chars[s.tokenStart]? = some c →
      s.tokenLength ≤ s.stringText.tokenLength := fun hc => by
    rw [stringText_eq hc]
    exact tokenLength_le_skip _ _
  fun_induction Scanner.stringText a generalizing b with
  | case1 a hgo hstop =>
    rw [Scanner.stringText, dif_pos ((h.isEnd hn).trans hgo), h.peek hn, if_pos hstop]
    exact h
  | case2 a hgo hstop hescape hnext ih =>
    have hlt₂ : a.advance.2.advance.2.tokenLength < n :=
      Nat.lt_of_le_of_lt (hgrows (advance_first (advance_first hc))) hn
    have hlt₁ : a.advance.2.tokenLength < n := Nat.lt_of_le_of_lt (tokenLength_le_advance _) hlt₂
    have hlt : a.tokenLength < n := Nat.lt_of_le_of_lt a.tokenLength_le_advance hlt₁
    obtain ⟨-, h'⟩ := h.advance hlt
    rw [Scanner.stringText.eq_1 b, dif_pos ((h.isEnd hlt).trans hgo), h.peek hlt, if_neg hstop,
      if_pos hescape, h'.isEnd hlt₁, h'.peek hlt₁, if_pos hnext]
    exact ih (advance_first (advance_first hc)) (h'.advance hlt₁).2 hn
  | case3 a hgo hstop hescape hnext ih =>
    have hlt₁ : a.advance.2.tokenLength < n := Nat.lt_of_le_of_lt (hgrows (advance_first hc)) hn
    have hlt : a.tokenLength < n := Nat.lt_of_le_of_lt a.tokenLength_le_advance hlt₁
    obtain ⟨-, h'⟩ := h.advance hlt
    rw [Scanner.stringText.eq_1 b, dif_pos ((h.isEnd hlt).trans hgo), h.peek hlt, if_neg hstop,
      if_pos hescape, h'.isEnd hlt₁, h'.peek hlt₁, if_neg hnext]
    exact ih (advance_first hc) h' hn
  | case4 a hgo hstop hescape ih =>
    have hlt₁ : a.advance.2.tokenLength < n := Nat.lt_of_le_of_lt (hgrows (advance_first hc)) hn
    have hlt : a.tokenLength < n := Nat.lt_of_le_of_lt a.tokenLength_le_advance hlt₁
    obtain ⟨-, h'⟩ := h.advance hlt
    rw [Scanner.stringText.eq_1 b, dif_pos ((h.isEnd hlt).trans hgo), h.peek hlt, if_neg hstop,
      if_neg hescape]
    exact ih (advance_first hc) h' hn
  | case5 a hstop =>
    rw [Scanner.stringText, dif_neg ((h.isEnd hn).symm ▸ hstop)]
    exact h

end

/-! ## Words -/

/-- Scanners that are abreast have read the same characters. -/
lemma Abreast.tokenChars (h : Abreast n a b) (hn : a.tokenLength < n) : b.tokenChars = a.tokenChars := by
  have hchar : ∀ (s : Scanner) i, s.tokenChars[i]? =
      if i < s.tokenLength then (s.source.chars[s.tokenStart + i]?).map (·.char) else none := by
    intro s i
    rw [Scanner.tokenChars, List.getElem?_map, List.getElem?_take]
    split
    · rw [List.getElem?_drop]
    · rfl
  refine List.ext_getElem? fun i => ?_
  rw [hchar, hchar, ← h.length]
  split
  · rename_i hi
    exact (h.chars i (Nat.lt_trans hi hn)).symm
  · rfl

/-- Scanners that are abreast read the same word. -/
lemma Abreast.keywordOrIdentifier (h : Abreast n a b) (hn : a.tokenLength < n) :
    b.keywordOrIdentifier = a.keywordOrIdentifier := by
  rw [Scanner.keywordOrIdentifier, Scanner.keywordOrIdentifier, h.tokenChars hn, h.length]

end Scanner

/-! ## Two tokenizers -/

namespace Tokenizer

open Lexer Scanner

variable {n : Nat} {t t' : Tokenizer}

/-- Whether two tokenizers read in the same mode, with scanners that are abreast. -/
structure Abreast (n : Nat) (t t' : Tokenizer) : Prop where
  scanner : t.scanner.Abreast n t'.scanner
  mode : t'.mode = t.mode

/-- A scanner that does not stand at the end stands before a character. -/
lemma exists_begins {s : Scanner} (hs : s.tokenStart = s.index) (hend : s.isEnd = false) :
    ∃ c cs, s.Begins c cs := by
  cases hr : s.rest with
  | nil =>
    rw [isEnd_of_nil hr] at hend
    cases hend
  | cons c cs => exact ⟨c, cs, hs, hr⟩

/-- A token is read by taking characters. -/
lemma exists_skip_kind (hs : t.scanner.tokenStart = t.scanner.index) :
    ∃ k, t.kind.2.scanner = t.scanner.skip k := by
  cases hend : t.scanner.isEnd with
  | true => exact ⟨0, by rw [kind, if_pos hend]; rfl⟩
  | false =>
    obtain ⟨c, cs, hbegins⟩ := exists_begins hs hend
    exact ⟨(scan c cs).2, by rw [kind_eq hbegins]⟩

/-- Tokenizers that are abreast and start a token give it the same kind. -/
lemma Abreast.kind (h : Abreast n t t') (hs : t.scanner.tokenStart = t.scanner.index)
    (hn : t.kind.2.scanner.tokenLength < n) : t'.kind.1 = t.kind.1 ∧ Abreast n t.kind.2 t'.kind.2 := by
  cases hend : t.scanner.isEnd with
  | true =>
    have hkind : t.kind = (none, t) := if_pos hend
    rw [hkind] at hn ⊢
    rw [Tokenizer.kind, if_pos ((h.scanner.isEnd hn).trans hend)]
    exact ⟨rfl, h⟩
  | false =>
    obtain ⟨c, cs, hbegins⟩ := exists_begins hs hend
    have hc := hbegins.first
    have hlt₁ : t.scanner.advance.2.tokenLength < n := by
      rw [(look_cons hc hbegins.rest rfl).2.2, hbegins.tokenLength_skip]
      rw [kind_eq hbegins, hbegins.tokenLength_skip] at hn
      exact Nat.lt_of_le_of_lt (isToken_scan c cs).pos hn
    have hlt : t.scanner.tokenLength < n := Nat.lt_of_le_of_lt t.scanner.tokenLength_le_advance hlt₁
    obtain ⟨hchar, h'⟩ := h.scanner.advance hlt
    have hc' := advance_first hc
    have hend' : ¬ t'.scanner.isEnd = true := by simp [h.scanner.isEnd hlt, hend]
    revert hn
    rw [Tokenizer.kind, Tokenizer.kind, if_neg hend', if_neg (by simp [hend]), hchar]
    dsimp only
    generalize t.scanner.advance.1 = x
    split
    case h_11 =>
      rw [h'.peek hlt₁]
      generalize t.scanner.advance.2.peek = y
      split
      · exact fun hn => ⟨rfl, h'.advanceWhile hc' hn, h.mode⟩
      · exact fun hn => ⟨rfl, (h'.advance hlt₁).2.closeComment (advance_first hc') hn, h.mode⟩
      · exact fun _ => ⟨rfl, h', h.mode⟩
    case h_12 => exact fun _ => ⟨rfl, h', rfl⟩
    case h_13 =>
      split
      · exact fun hn => ⟨rfl, h'.advanceWhile hc' hn, h.mode⟩
      · split
        · intro hn
          have hwhile := h'.advanceWhile hc' hn
          exact ⟨congrArg some (hwhile.keywordOrIdentifier hn), hwhile, h.mode⟩
        · exact fun _ => ⟨rfl, h', h.mode⟩
    all_goals exact fun _ => ⟨rfl, h', h.mode⟩

/-- Whether two tokenizers, whose scanners stood at two indices, have taken as many characters and read the
same token of them. -/
structure Alike (i i' : Nat) (r r' : Lexeme × Tokenizer) : Prop where
  kind : r'.1.kind = r.1.kind
  mode : r'.2.mode = r.2.mode
  length : r'.2.scanner.tokenLength = r.2.scanner.tokenLength
  taken : ∃ k, r.2.scanner.index = i + k ∧ r'.2.scanner.index = i' + k

/-- Scanners that are abreast have taken as many characters since their tokens started. -/
lemma Alike.of_abreast {u u' : Scanner} {i i' : Nat} (h : u.Abreast n u') (hs : u.tokenStart = i)
    (hs' : u'.tokenStart = i') {kind : Option Terminal} {mode : Mode} :
    Alike i i' (u.lexeme kind, ⟨u, mode⟩) (u'.lexeme kind, ⟨u', mode⟩) := by
  refine ⟨rfl, rfl, h.length.symm, u.tokenLength, ?_, ?_⟩
  · rw [← hs]
    exact (Nat.add_sub_cancel' h.le).symm
  · rw [← hs', h.length]
    exact (Nat.add_sub_cancel' h.le').symm

/-- Outside of strings the next tokens are alike if the characters up to the end of the first look alike. -/
lemma alike_lexPlain (hg : Grouped t.scanner.source.chars) (hg' : Grouped t'.scanner.source.chars)
    (h : LookAlike n t.scanner.rest t'.scanner.rest) (hm : t'.mode = t.mode)
    (hn : t.lexPlain.2.scanner.index < t.scanner.index + n) :
    Alike t.scanner.index t'.scanner.index t.lexPlain t'.lexPlain := by
  obtain ⟨m, hblanks⟩ : ∃ m, (t.scanner.rest.takeWhile fun c => Text.isBlank c.char).length = m := ⟨_, rfl⟩
  have hskip := t.scanner.skipBlanks_eq
  rw [hblanks] at hskip
  obtain ⟨k, hk⟩ := @exists_skip_kind { t with scanner := (t.scanner.skip m).startToken } rfl
  have hindex : t.lexPlain.2.scanner.index = t.scanner.index + m + k := by
    rw [lexPlain, hskip, hk]
    rfl
  have hskip' := t'.scanner.skipBlanks_eq
  rw [h.blanks (by omega), hblanks] at hskip'
  -- after the blanks, the scanners are abreast
  have habreast : Abreast (n - m) { t with scanner := (t.scanner.skip m).startToken }
      { t' with scanner := (t'.scanner.skip m).startToken } := by
    refine ⟨abreast_startToken hg hg' ?_, hm⟩
    rw [rest_skip, rest_skip]
    exact h.drop m
  have hlength : (kind { t with scanner := (t.scanner.skip m).startToken }).2.scanner.tokenLength = k := by
    rw [hk]
    exact Nat.add_sub_cancel_left ..
  obtain ⟨hkind, hresult⟩ := habreast.kind rfl (by rw [hlength]; omega)
  obtain ⟨k', hk'⟩ := @exists_skip_kind { t' with scanner := (t'.scanner.skip m).startToken } rfl
  have hkk : k' = k := by
    have hsame := hresult.scanner.length
    rw [hlength, hk'] at hsame
    exact (hsame.trans (Nat.add_sub_cancel_left ..)).symm
  refine ⟨?_, ?_, ?_, m + k, ?_, ?_⟩
  · rw [lexPlain, lexPlain, hskip, hskip']
    exact hkind
  · rw [lexPlain, lexPlain, hskip, hskip']
    exact hresult.mode
  · rw [lexPlain, lexPlain, hskip, hskip']
    exact hresult.scanner.length.symm
  · rw [hindex, Nat.add_assoc]
  · rw [lexPlain, hskip', hk', hkk, ← Nat.add_assoc]
    rfl

/-- The next tokens are alike if the characters up to the end of the first look alike. -/
lemma alike_lex (hg : Grouped t.scanner.source.chars) (hg' : Grouped t'.scanner.source.chars)
    (h : LookAlike n t.scanner.rest t'.scanner.rest) (hm : t'.mode = t.mode)
    (hn : t.lex.2.scanner.index < t.scanner.index + n) :
    Alike t.scanner.index t'.scanner.index t.lex t'.lex := by
  have hpos : 0 < n := by
    obtain ⟨hle, hle', -⟩ := t.le_tokenStart_lex
    omega
  cases hmode : t.mode with
  | plain =>
    have hlex : t.lex = t.lexPlain := by rw [lex, hmode]
    have hlex' : t'.lex = t'.lexPlain := by rw [lex, hm, hmode]
    rw [hlex] at hn ⊢
    rw [hlex']
    exact alike_lexPlain hg hg' h hm hn
  | inString =>
    have habreast : t.scanner.startToken.Abreast n t'.scanner.startToken := abreast_startToken hg hg' h
    have hzero : t.scanner.startToken.tokenLength < n := by
      rwa [tokenLength, startToken, Nat.sub_self]
    rw [lex_inString (hm.trans hmode)]
    rw [lex_inString hmode] at hn ⊢
    dsimp only at hn ⊢
    rw [habreast.isEnd hzero, habreast.peek hzero]
    by_cases hstop : t.scanner.startToken.isEnd ∨ t.scanner.startToken.peek = '\n'
    · -- the string is left, and what follows is read outside of it
      rw [if_pos hstop] at hn ⊢
      rw [if_pos hstop]
      exact @alike_lexPlain n ⟨t.scanner.startToken, .plain⟩ ⟨t'.scanner.startToken, .plain⟩ hg hg' h rfl hn
    rw [if_neg hstop] at hn ⊢
    rw [if_neg hstop]
    split at hn
    · rename_i hq
      rw [if_pos hq, if_pos hq]
      exact .of_abreast (habreast.advance hzero).2 (tokenStart_advance _) (tokenStart_advance _)
    · rename_i hq
      rw [if_neg hq, if_neg hq]
      have hgo : t.scanner.startToken.isEnd = false := by simpa using fun h => hstop (.inl h)
      have htext : ∀ {s : Scanner}, s.startToken.isEnd = false →
          ∃ k, s.startToken.stringText = s.startToken.skip k := by
        intro s hend
        obtain ⟨c, cs, hbegins⟩ := exists_begins (s := s.startToken) rfl hend
        exact ⟨_, stringText_eq hbegins.first⟩
      obtain ⟨c, cs, hbegins⟩ := exists_begins (s := t.scanner.startToken) rfl hgo
      obtain ⟨k, hk⟩ := htext hgo
      obtain ⟨k', hk'⟩ := htext ((habreast.isEnd hzero).trans hgo)
      have hlength : t.scanner.startToken.stringText.tokenLength < n := by
        rw [hk] at hn ⊢
        simp only [skip, startToken, tokenLength] at hn ⊢
        omega
      exact .of_abreast (habreast.stringText hbegins.first hlength) (by rw [hk]; rfl) (by rw [hk']; rfl)

/-! ## Bytes -/

/-- A token has the bytes of its characters. -/
lemma stop_lex {d : Document} {ranges : List Span} (hs : t.scanner.source = .ofDocument d ranges) :
    t.lex.1.stop = t.lex.1.start +
      (((t.lex.2.scanner.source.chars.drop t.lex.2.scanner.tokenStart).take
        t.lex.2.scanner.tokenLength).map (·.width)).sum := by
  have hagrees := t.agrees_lex
  generalize t.lex = r at hagrees ⊢
  generalize Lexer.lex t.mode t.scanner.rest = o at hagrees
  cases hagrees with
  | @token s c cs kind size mode hsource _ hbegins htoken hsize =>
    obtain ⟨k, rfl⟩ := Nat.exists_eq_add_of_le' htoken.pos
    have htaken : ((s.skip (k + 1)).source.chars.drop (s.skip (k + 1)).tokenStart).take
        (s.skip (k + 1)).tokenLength = c :: cs.take k := by
      rw [hbegins.tokenLength_skip, skip, hbegins.start]
      exact congrArg (List.take (k + 1)) hbegins.rest
    have hchars : (Source.ofDocument d ranges).chars =
        s.source.chars.take s.index ++ (c :: cs.take k) ++ cs.drop k := by
      rw [List.append_assoc, List.cons_append, List.take_append_drop, ← hbegins.rest, ← hs, ← hsource]
      exact (List.take_append_drop ..).symm
    obtain ⟨last, hlast, hstop⟩ := Option.map_eq_some_iff.1 htoken.spans.stop
    have hspanned := Source.spanned_of_chars hchars (fun e he => by
      rcases List.mem_cons.1 he with rfl | he
      · rfl
      · exact htoken.range e he) hlast
    rw [hbegins.lexeme_skip htoken.pos hsize, htaken]
    exact hstop.symm.trans hspanned.eq_add
  | @done s _ _ hstart =>
    have hlength : s.tokenLength = 0 := by rw [tokenLength, hstart, Nat.sub_self]
    have hstop : s.stopByte = s.startByte := if_neg (by rw [hstart]; exact Nat.lt_irrefl _)
    rw [hlength]
    exact hstop

/-! ## The same token -/

/-- The number of characters that the tokenizer takes, with the blanks in front of the token. -/
def taken (t : Tokenizer) : Nat := t.lex.2.scanner.index - t.scanner.index

/-- Whether two tokenizers, which may stand elsewhere, take the same token. -/
structure SameToken (t t' : Tokenizer) : Prop where
  kind : t'.lex.1.kind = t.lex.1.kind
  taken : t'.taken = t.taken
  length : t'.lex.2.scanner.tokenLength = t.lex.2.scanner.tokenLength
  width : ∃ w, t.lex.1.stop = t.lex.1.start + w ∧ t'.lex.1.stop = t'.lex.1.start + w
  lookahead : t'.lex.1.lookahead = t.lex.1.lookahead
  mode : t'.lex.2.mode = t.lex.2.mode

/-- A token depends on its text and one character of lookahead: where the characters look the same up to the
one after the token, or both end there, another tokenizer in the same mode takes the same token. A token has
at least one character. -/
theorem lex_glances {d d' : Document} {ranges ranges' : List Span}
    (hs : t.scanner.source = .ofDocument d ranges) (hs' : t'.scanner.source = .ofDocument d' ranges')
    (hm : t'.mode = t.mode) (h : LookAlike (t.taken + 1) t.scanner.rest t'.scanner.rest) :
    SameToken t t' ∧
      (t.lex.1.kind ≠ none → 0 < t.lex.2.scanner.tokenLength ∧ t.lex.2.scanner.tokenLength ≤ t.taken) := by
  obtain ⟨hle, hle', hpos⟩ := t.le_tokenStart_lex
  obtain ⟨hlo, hlo', -⟩ := t'.le_tokenStart_lex
  have hg := hs ▸ grouped_chars d ranges
  have hg' := hs' ▸ grouped_chars d' ranges'
  obtain ⟨hkind, hmode, hlength, k, hk, hk'⟩ := alike_lex hg hg' h hm (by rw [taken]; omega)
  have htaken : t.taken = k := by rw [taken, hk, Nat.add_sub_cancel_left]
  have htaken' : t'.taken = k := by rw [taken, hk', Nat.add_sub_cancel_left]
  have hchar : ∀ (u : Tokenizer) i, u.lex.2.scanner.source.chars[u.scanner.index + i]? = u.scanner.rest[i]? :=
    fun u i => by rw [u.source_lex]; exact List.getElem?_drop.symm
  refine ⟨⟨hkind, htaken'.trans htaken.symm, hlength, ⟨_, stop_lex hs, ?_⟩, ?_, hmode⟩, fun h => ?_⟩
  · -- the characters of the tokens stand equally far after the tokenizers
    have hslice : ∀ (u : Tokenizer) i, u.scanner.index ≤ u.lex.2.scanner.tokenStart →
        (((u.lex.2.scanner.source.chars.drop u.lex.2.scanner.tokenStart).take
          u.lex.2.scanner.tokenLength).map (·.width))[i]? =
        if i < u.lex.2.scanner.tokenLength then
          (u.scanner.rest[u.lex.2.scanner.tokenStart - u.scanner.index + i]?).map (·.width) else none := by
      intro u i hu
      rw [List.getElem?_map, List.getElem?_take]
      split
      · rw [List.getElem?_drop, ← hchar, ← Nat.add_assoc, Nat.add_sub_cancel' hu]
      · rfl
    have hoffset : t'.lex.2.scanner.tokenStart - t'.scanner.index =
        t.lex.2.scanner.tokenStart - t.scanner.index := by
      simp only [tokenLength] at hlength
      omega
    have hwidths : ((t'.lex.2.scanner.source.chars.drop t'.lex.2.scanner.tokenStart).take
          t'.lex.2.scanner.tokenLength).map (·.width) =
        ((t.lex.2.scanner.source.chars.drop t.lex.2.scanner.tokenStart).take
          t.lex.2.scanner.tokenLength).map (·.width) := by
      refine List.ext_getElem? fun i => ?_
      rw [hslice t i hle, hslice t' i hlo, hlength, hoffset]
      split
      · rename_i hi
        simp only [tokenLength] at hi
        exact (h.map (by omega) fun _ w => w).symm
      · rfl
    rw [stop_lex hs', hwidths]
  · obtain ⟨_, hlexeme⟩ := t.exists_lexeme
    obtain ⟨_, hlexeme'⟩ := t'.exists_lexeme
    have hwidth := h.map (i := k) (by omega) fun _ w => w
    rw [hlexeme, hlexeme']
    simp only [lexeme, lookahead, hk, hk', hchar]
    exact congrArg (Option.getD · 0) hwidth.symm
  · have := hpos h
    simp only [tokenLength, taken]
    omega

/-- The comment that is open at the end of its range in `x /*a;` is the one in ` /*a;;`, which stands
elsewhere and goes on differently after one more character. -/
theorem lex_glances_comment :
    let t : Tokenizer := ⟨⟨.ofDocument ⟨[120, 32, 47, 42, 97, 59], .utf8⟩
      [.ofBytes [120, 32, 47, 42, 97, 59] 0 5, .ofBytes [120, 32, 47, 42, 97, 59] 5 6], 1, 0⟩, .plain⟩
    let t' : Tokenizer := ⟨⟨.ofDocument ⟨[32, 47, 42, 97, 59, 59], .utf8⟩
      [.ofBytes [32, 47, 42, 97, 59, 59] 0 4, .ofBytes [32, 47, 42, 97, 59, 59] 4 6], 0, 0⟩, .plain⟩
    t.lex.1 = ⟨some .comment, 2, 5, 1⟩ ∧ LookAlike (t.taken + 1) t.scanner.rest t'.scanner.rest ∧
      SameToken t t' ∧
      (t.lex.1.kind ≠ none → 0 < t.lex.2.scanner.tokenLength ∧ t.lex.2.scanner.tokenLength ≤ t.taken) := by
  intro t t'
  have h : LookAlike (t.taken + 1) t.scanner.rest t'.scanner.rest := by decide +kernel
  exact ⟨by decide +kernel, h, lex_glances rfl rfl rfl h⟩

end Tokenizer

end Reparse.C
