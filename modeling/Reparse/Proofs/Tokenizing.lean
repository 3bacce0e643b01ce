import Reparse.C.Tokenizer
import Reparse.Proofs.Lexing

/-!
# Tokenizing

The tokenizer, which moves over the characters of a source one at a time, gives the tokens that the
lexer finds in the characters after it (`Tokenizer.lex_eq`).
-/

namespace Reparse.C

open Lexer

/-- What comes after the first elements that satisfy `p` is what is left when they are dropped. -/
lemma drop_length_takeWhile {α : Type} (p : α → Bool) (l : List α) :
    l.drop (l.takeWhile p).length = l.dropWhile p := by
  calc l.drop (l.takeWhile p).length = (l.takeWhile p ++ l.dropWhile p).drop (l.takeWhile p).length := by
        rw [List.takeWhile_append_dropWhile]
    _ = l.dropWhile p := List.drop_left

/-- A token as the tokenizer gives it. -/
def Lexeme.ofToken (t : Token) : Lexeme := ⟨some t.kind, t.start, t.stop, t.lookahead⟩

/-- The next character is the first one, if it is of the range. -/
lemma Lexer.next?_eq_some {range : Nat} {cs : List SourceChar} {x : Char} : next? range cs = some x ↔
    ∃ e es, cs = e :: es ∧ e.range = range ∧ e.char = x := by
  cases cs with
  | nil => simp [next?]
  | cons e es => by_cases he : e.range = range <;> simp [next?, Option.filter, he]

section

variable {range : Nat} {e : SourceChar} {es : List SourceChar}

/-- The text of a string stops at its quote, at a newline and where its range does. -/
lemma Lexer.stringText_stop (h : e.range ≠ range ∨ e.char = '"' ∨ e.char = '\n') :
    stringText range (e :: es) = 0 := by
  cases es <;> rw [stringText, if_pos h]

/-- An escaped character is part of the text of a string. -/
lemma Lexer.stringText_escape {d : SourceChar} {ds : List SourceChar}
    (h : ¬ (e.range ≠ range ∨ e.char = '"' ∨ e.char = '\n')) (he : e.char = '\\')
    (hd : d.range = range) (hn : d.char ≠ '\n') :
    stringText range (e :: d :: ds) = stringText range ds + 2 := by
  rw [stringText, if_neg h, if_pos ⟨he, hd, hn⟩]

/-- Any other character is part of the text of a string. -/
lemma Lexer.stringText_step (h : ¬ (e.range ≠ range ∨ e.char = '"' ∨ e.char = '\n'))
    (he : e.char = '\\' → ∀ d ds, es = d :: ds → d.range = range → d.char = '\n') :
    stringText range (e :: es) = stringText range es + 1 := by
  cases es with
  | nil => simp only [stringText, if_neg h]
  | cons d ds =>
    have hnot : ¬ (e.char = '\\' ∧ d.range = range ∧ d.char ≠ '\n') := fun hd =>
      hd.2.2 (he hd.1 d ds rfl hd.2.1)
    rw [stringText, if_neg h, if_neg hnot]

/-- A comment has no more characters than there are. -/
lemma Lexer.blockComment_le (cs : List SourceChar) : blockComment range cs ≤ cs.length := by
  induction cs with
  | nil => exact Nat.le_refl 0
  | cons e es ih =>
    rw [blockComment, List.length_cons]
    split
    · exact Nat.zero_le _
    · split
      · rename_i hclose
        obtain ⟨d, ds, rfl, -⟩ := next?_eq_some.1 hclose.2
        rw [List.length_cons]
        omega
      · exact Nat.succ_le_succ ih

/-- The text of a string has no more characters than there are. -/
lemma Lexer.stringText_le (cs : List SourceChar) : stringText range cs ≤ cs.length := by
  induction cs using stringText.induct range with
  | case1 => exact Nat.le_refl 0
  | case2 e h => exact stringText_stop h ▸ Nat.zero_le _
  | case3 e h => simp only [stringText, if_neg h, List.length_singleton, Nat.le_refl]
  | case4 e d ds h => exact stringText_stop h ▸ Nat.zero_le _
  | case5 e d ds h hd ih =>
    rw [stringText_escape h hd.1 hd.2.1 hd.2.2]
    exact Nat.succ_le_succ (Nat.succ_le_succ ih)
  | case6 e d ds h hd ih =>
    rw [stringText, if_neg h, if_neg hd]
    exact Nat.succ_le_succ ih

/-- A token has no more characters than there are. -/
lemma Lexer.scan_le (e : SourceChar) (cs : List SourceChar) : (scan e cs).2 ≤ cs.length + 1 := by
  have hrun : ∀ p, (run e.range p cs).length ≤ cs.length := fun p => (List.takeWhile_prefix _).length_le
  unfold scan
  split
  case h_12 =>
    split
    · exact Nat.succ_le_succ (hrun _)
    · rename_i h
      obtain ⟨d, ds, rfl, -⟩ := next?_eq_some.1 h
      exact Nat.succ_le_succ (Nat.succ_le_succ (blockComment_le ds))
    · exact Nat.le_add_left ..
  case h_13 =>
    split
    · exact Nat.succ_le_succ (hrun _)
    · split
      · exact Nat.succ_le_succ (hrun _)
      · exact Nat.le_add_left ..
  all_goals exact Nat.le_add_left ..

end

namespace Scanner

variable {s : Scanner} {c e : SourceChar} {es : List SourceChar}

/-- The characters after a scanner. -/
def rest (s : Scanner) : List SourceChar := s.source.chars.drop s.index

/-- The scanner some characters further on. -/
def skip (count : Nat) (s : Scanner) : Scanner := { s with index := s.index + count }

/-- To skip nothing changes nothing. -/
@[simp]
lemma skip_zero : s.skip 0 = s := rfl

/-- Characters are skipped in two parts. -/
@[simp]
lemma skip_skip (m n : Nat) : (s.skip m).skip n = s.skip (m + n) :=
  congrArg (Scanner.mk s.source · s.tokenStart) (Nat.add_assoc ..)

/-- What is left after some characters are skipped is what is left of the others. -/
@[simp]
lemma rest_skip (n : Nat) : (s.skip n).rest = s.rest.drop n := List.drop_drop.symm

/-! ## One character -/

/-- The character at a scanner is the first of those that are left. -/
lemma rest_eq_cons (h : s.source.chars[s.index]? = some c) : s.rest = c :: (s.skip 1).rest := by
  obtain ⟨hlt, rfl⟩ := List.getElem?_eq_some_iff.1 h
  exact List.drop_eq_getElem_cons hlt

/-- Where nothing is left, a scanner is at the end. -/
lemma isEnd_of_nil (h : s.rest = []) : s.isEnd = true := by
  have hnone : s.source.chars[s.index]? = none := List.getElem?_eq_none_iff.2 (List.drop_eq_nil_iff.1 h)
  simp only [isEnd, charAt?, hnone, Option.filter_none, Option.map_none, Option.isNone_none]

section

variable (hc : s.source.chars[s.tokenStart]? = some c)

include hc

/-- A scanner sees the next character if it is of the range of the token's first one. -/
lemma charAt?_index : s.charAt? s.index = next? c.range s.rest := by
  have hhead : s.rest.head? = s.source.chars[s.index]? := List.head?_drop
  rw [charAt?, next?, hhead, hc]
  cases he : s.source.chars[s.index]? with
  | none => rfl
  | some e =>
    have hsame : (s.index == s.tokenStart || some c.range == some e.range) = (e.range == c.range) := by
      by_cases hi : s.index = s.tokenStart
      · obtain rfl : c = e := Option.some.inj (by rw [← hc, ← he, hi])
        simp
      · rw [beq_eq_false_iff_ne.2 hi, Bool.false_or]
        exact Bool.beq_comm
    simp only [Option.map_some, Option.filter_some, hsame]

/-- A scanner sees the next character of its range and goes on past it. -/
lemma look_cons (hr : s.rest = e :: es) (he : e.range = c.range) :
    s.isEnd = false ∧ s.peek = e.char ∧ s.advance = (e.char, s.skip 1) := by
  have hchar : s.charAt? s.index = some e.char := by
    rw [charAt?_index hc, next?_eq_some]
    exact ⟨e, es, hr, he, rfl⟩
  refine ⟨?_, ?_, ?_⟩
  · rw [isEnd, hchar, Option.isNone_some]
  · rw [peek, hchar, Option.getD_some]
  · simp only [advance, hchar, skip]

/-- Before the end, the next character is seen and taken. -/
lemma exists_of_isEnd (h : s.isEnd = false) : ∃ e es, s.rest = e :: es ∧ e.range = c.range ∧
    s.peek = e.char ∧ s.advance = (e.char, s.skip 1) := by
  rw [isEnd, charAt?_index hc, Option.isNone_eq_false_iff, Option.isSome_iff_exists] at h
  obtain ⟨x, hx⟩ := h
  obtain ⟨e, es, hr, he, -⟩ := next?_eq_some.1 hx
  exact ⟨e, es, hr, he, (look_cons hc hr he).2⟩

/-- At the end, no character of the range is left. -/
lemma range_ne_of_isEnd (h : s.isEnd = true) (hr : s.rest = e :: es) : e.range ≠ c.range := fun he => by
  rw [(look_cons hc hr he).1] at h
  cases h

/-- What is seen of the next character is what the lexer sees. -/
lemma peek_eq_iff {x : Char} (hx : x ≠ endChar) : s.peek = x ↔ next? c.range s.rest = some x := by
  rw [peek, charAt?_index hc]
  cases next? c.range s.rest with
  | none => simpa using hx.symm
  | some y => simp

/-! ## Many characters -/

/-- A scanner skips a run of characters. -/
lemma advanceWhile_eq (p : Char → Bool) :
    s.advanceWhile p = s.skip (run c.range p s.rest).length := by
  fun_induction advanceWhile p s with
  | case1 s h ih =>
    obtain ⟨e, es, hr, he, hpeek, hadvance⟩ := exists_of_isEnd hc h.1
    rw [hadvance] at ih
    have hrun : run c.range p (e :: es) = e :: run c.range p es := by
      rw [run, List.takeWhile_cons_of_pos]
      · rfl
      · rw [he, beq_self_eq_true, Bool.true_and, ← hpeek, h.2]
    rw [hadvance, ih hc, rest_skip, hr, List.drop_one, List.tail_cons, skip_skip, hrun,
      List.length_cons, Nat.add_comm]
  | case2 s h =>
    have hrun : run c.range p s.rest = [] := by
      cases hr : s.rest with
      | nil => rfl
      | cons e es =>
        rw [run, List.takeWhile_cons_of_neg]
        intro hp
        rw [Bool.and_eq_true, beq_iff_eq] at hp
        obtain ⟨hend, hpeek, -⟩ := look_cons hc hr hp.1
        exact h ⟨hend, by rw [hpeek, hp.2]⟩
    rw [hrun, List.length_nil, skip_zero]

/-- A scanner skips what is left of a comment. -/
lemma closeComment_eq : s.closeComment = s.skip (Lexer.blockComment c.range s.rest) := by
  fun_induction closeComment s with
  | case1 s h hclose =>
    obtain ⟨e, es, hr, he, -, hadvance⟩ := exists_of_isEnd hc h
    rw [hadvance] at hclose ⊢
    have hslash : next? c.range es = some '/' := by
      have := (@peek_eq_iff (s.skip 1) c hc '/' (by decide)).1 hclose.2
      rwa [rest_skip, hr] at this
    -- the slash is taken too
    obtain ⟨d, ds, rfl, hd, -⟩ := next?_eq_some.1 hslash
    have hrest : (s.skip 1).rest = d :: ds := by rw [rest_skip, hr]; rfl
    rw [(look_cons (s := s.skip 1) hc hrest hd).2.2, hr, Lexer.blockComment, if_neg (not_not_intro he),
      if_pos ⟨hclose.1, hslash⟩, skip_skip]
  | case2 s h hclose ih =>
    obtain ⟨e, es, hr, he, -, hadvance⟩ := exists_of_isEnd hc h
    rw [hadvance] at hclose ih ⊢
    have hslash : ¬ (e.char = '*' ∧ next? c.range es = some '/') := fun hs => hclose ⟨hs.1, by
      rw [@peek_eq_iff (s.skip 1) c hc '/' (by decide), rest_skip, hr]
      exact hs.2⟩
    rw [ih hc, rest_skip, hr, Lexer.blockComment, if_neg (not_not_intro he), if_neg hslash, skip_skip,
      Nat.add_comm]
    rfl
  | case3 s h =>
    have hnone : Lexer.blockComment c.range s.rest = 0 := by
      cases hr : s.rest with
      | nil => rfl
      | cons e es =>
        rw [Lexer.blockComment, if_pos (range_ne_of_isEnd hc ((Bool.not_eq_false _).mp h) hr)]
    rw [hnone, skip_zero]

/-- A scanner skips the text of a string. -/
lemma stringText_eq : s.stringText = s.skip (Lexer.stringText c.range s.rest) := by
  fun_induction stringText s with
  | case1 s h hstop =>
    obtain ⟨e, es, hr, he, hpeek, -⟩ := exists_of_isEnd hc h
    rw [hpeek] at hstop
    rw [hr, stringText_stop (.inr hstop), skip_zero]
  | case2 s h hstop hescape hnext ih =>
    obtain ⟨e, es, hr, he, hpeek, hadvance⟩ := exists_of_isEnd hc h
    rw [hadvance] at hnext ih ⊢
    rw [hpeek] at hstop hescape
    obtain ⟨d, ds, hr', hd, hpeek', hadvance'⟩ := exists_of_isEnd (s := s.skip 1) hc hnext.1
    rw [hadvance'] at ih ⊢
    rw [hpeek'] at hnext
    obtain rfl : es = d :: ds := by
      rw [rest_skip, hr] at hr'
      exact hr'
    have hrest : ((s.skip 1).skip 1).rest = ds := by rw [rest_skip, hr']; rfl
    rw [ih hc, hr, stringText_escape (by simpa [he] using hstop) hescape hd hnext.2, hrest, skip_skip,
      skip_skip]
    exact congrArg (skip · s) (by omega)
  | case3 s h hstop hescape hnext ih =>
    obtain ⟨e, es, hr, he, hpeek, hadvance⟩ := exists_of_isEnd hc h
    rw [hadvance] at hnext ih ⊢
    rw [hpeek] at hstop hescape
    have hrest : (s.skip 1).rest = es := by rw [rest_skip, hr]; rfl
    rw [ih hc, hr, stringText_step (by simpa [he] using hstop), skip_skip, hrest, Nat.add_comm]
    rintro - d ds rfl hd
    obtain ⟨hend, hpeek', -⟩ := look_cons (s := s.skip 1) hc hrest hd
    rw [← hpeek']
    exact by_contra fun hn => hnext ⟨hend, hn⟩
  | case4 s h hstop hescape ih =>
    obtain ⟨e, es, hr, he, hpeek, hadvance⟩ := exists_of_isEnd hc h
    rw [hadvance] at ih ⊢
    rw [hpeek] at hstop hescape
    have hrest : (s.skip 1).rest = es := by rw [rest_skip, hr]; rfl
    rw [ih hc, hr, stringText_step (by simpa [he] using hstop) fun h => absurd h hescape, skip_skip,
      hrest, Nat.add_comm]
  | case5 s h =>
    have hnone : Lexer.stringText c.range s.rest = 0 := by
      cases hr : s.rest with
      | nil => rfl
      | cons e es =>
        exact stringText_stop (.inl (range_ne_of_isEnd hc ((Bool.not_eq_false _).mp h) hr))
    rw [hnone, skip_zero]

end

/-- The scanner goes past the blanks in front of it. -/
lemma skipBlanks_eq :
    s.skipBlanks = s.skip (s.rest.takeWhile fun c => Text.isBlank c.char).length := by
  fun_induction skipBlanks s with
  | case1 s c hc hb ih =>
    have hskip : (s.skip 1).skipBlanks =
        (s.skip 1).skip ((s.skip 1).rest.takeWhile fun c => Text.isBlank c.char).length := ih
    rw [rest_eq_cons hc, List.takeWhile_cons_of_pos (by exact hb), List.length_cons]
    exact hskip.trans (by rw [skip_skip, Nat.add_comm])
  | case2 s c hc hb =>
    rw [rest_eq_cons hc, List.takeWhile_cons_of_neg (by exact hb), List.length_nil, skip_zero]
  | case3 s hc =>
    have hr : s.rest = [] := List.drop_eq_nil_iff.2 (List.getElem?_eq_none_iff.1 hc)
    rw [hr, List.takeWhile_nil, List.length_nil, skip_zero]

/-- A scanner skips blanks. -/
lemma rest_skipBlanks : s.skipBlanks.rest = s.rest.dropWhile fun c => Text.isBlank c.char := by
  rw [skipBlanks_eq, rest_skip, drop_length_takeWhile]

/-! ## The token -/

/-- Whether a scanner is about to take a token, at the character `c` followed by `cs`. -/
structure Begins (s : Scanner) (c : SourceChar) (cs : List SourceChar) : Prop where
  start : s.tokenStart = s.index
  rest : s.rest = c :: cs

variable {cs : List SourceChar}

/-- A scanner that begins a token has its first character. -/
lemma Begins.first (h : s.Begins c cs) : s.source.chars[s.tokenStart]? = some c := by
  rw [h.start, ← List.head?_drop]
  exact congrArg List.head? h.rest

/-- A scanner that has taken a token tells where it lies. -/
lemma Begins.lexeme_skip (h : s.Begins c cs) {size : Nat} (hpos : 1 ≤ size) (hsize : size ≤ cs.length + 1)
    (kind : Terminal) : (s.skip size).lexeme (some kind) = .ofToken (token kind size c cs) := by
  have hchar : ∀ i, s.source.chars[s.index + i]? = (c :: cs)[i]? := fun i => by
    rw [← h.rest, Scanner.rest, List.getElem?_drop]
  have hlast : (c :: cs)[size - 1]? = some ((cs.take (size - 1)).getLast?.getD c) := by
    have htake : c :: cs.take (size - 1) = (c :: cs).take size := by
      obtain ⟨n, rfl⟩ := Nat.exists_eq_add_of_le' hpos
      rfl
    rw [← List.getLast?_cons, htake, List.getLast?_eq_getElem?, List.length_take,
      List.getElem?_take_of_lt (by rw [List.length_cons]; omega), List.length_cons,
      Nat.min_eq_left hsize]
  have hstart : (s.skip size).startByte = c.byte := by
    have hc : (s.skip size).source.chars[(s.skip size).tokenStart]? = some c := h.first
    rw [startByte, hc]
    rfl
  have hstop : (s.skip size).stopByte = ((cs.take (size - 1)).getLast?.getD c).stop := by
    have hlt : (s.skip size).tokenStart < (s.skip size).index := by
      rw [skip, h.start]
      exact Nat.lt_add_of_pos_right hpos
    have hindex : (s.skip size).index - 1 = s.index + (size - 1) := Nat.add_sub_assoc hpos s.index
    have hsource : (s.skip size).source = s.source := rfl
    rw [stopByte, if_pos hlt, hindex, hsource, hchar, hlast]
    rfl
  have hahead : (s.skip size).lookahead = ((cs.drop (size - 1)).head?.map (·.width)).getD 0 := by
    obtain ⟨n, rfl⟩ := Nat.exists_eq_add_of_le' hpos
    rw [List.head?_drop, ← List.getElem?_cons_succ (a := c), ← hchar]
    rfl
  rw [lexeme, hstart, hstop, hahead]
  rfl

/-- A word with more than eight characters is no keyword. -/
lemma wordKind_of_lt {word : List Char} (h : 8 < word.length) : wordKind word = .identifier := by
  have hlong : ∀ text : String, text.length ≤ 8 → String.ofList word ≠ text := by
    rintro _ hle rfl
    rw [String.length_ofList] at hle
    omega
  have hreturn : String.ofList word ≠ "return" := hlong _ (by decide)
  have htypes : String.ofList word ∉ primitiveTypes := fun hmem =>
    hlong _ ((by decide : ∀ text ∈ primitiveTypes, text.length ≤ 8) _ hmem) rfl
  rw [wordKind, if_neg hreturn, if_neg htypes]

/-- No word is a quote. -/
lemma wordKind_ne_quote (word : List Char) : wordKind word ≠ .quote := fun h => by
  have := isPlain_wordKind word
  rw [h] at this
  cases this

/-- The kind of a word does not depend on the shortcut for long words. -/
lemma keywordOrIdentifier_eq (h : s.tokenChars.length = s.tokenLength) :
    s.keywordOrIdentifier = wordKind s.tokenChars := by
  unfold keywordOrIdentifier
  split
  · rename_i hlong
    rw [wordKind_of_lt (by rwa [h])]
  · rfl

/-- A token has as many characters as were skipped. -/
lemma Begins.tokenLength_skip (h : s.Begins c cs) (n : Nat) : (s.skip n).tokenLength = n := by
  rw [tokenLength, skip, h.start, Nat.add_sub_cancel_left]

/-- A token has the characters that were skipped. -/
lemma Begins.tokenChars_skip (h : s.Begins c cs) (n : Nat) :
    (s.skip (n + 1)).tokenChars = c.char :: (cs.take n).map (·.char) := by
  have hdrop : (s.skip (n + 1)).source.chars.drop (s.skip (n + 1)).tokenStart = c :: cs := by
    rw [skip, h.start]
    exact h.rest
  rw [tokenChars, h.tokenLength_skip, hdrop]
  rfl

end Scanner

/-! ## The tokenizer -/

namespace Tokenizer

open Scanner

variable {t : Tokenizer} {s₀ : Scanner} {c : SourceChar} {cs : List SourceChar}

/-- The mode after a token that was read outside of strings. -/
lemma kind_eq (h : t.scanner.Begins c cs) : t.kind = (some (scan c cs).1,
    ⟨t.scanner.skip (scan c cs).2, if (scan c cs).1 = .quote then .inString else t.mode⟩) := by
  have hc := h.first
  obtain ⟨hend, -, hadvance⟩ := look_cons hc h.rest rfl
  have hrest : (t.scanner.skip 1).rest = cs := by rw [rest_skip, h.rest]; rfl
  have hrun : ∀ p, (t.scanner.skip 1).advanceWhile p = t.scanner.skip ((run c.range p cs).length + 1) :=
    fun p => by rw [@advanceWhile_eq (t.scanner.skip 1) c hc, hrest, skip_skip, Nat.add_comm]
  have hgive : ∀ {k n}, scan c cs = (k, n) → k ≠ .quote →
      (some k, { t with scanner := t.scanner.skip n }) = (some (scan c cs).1,
        Tokenizer.mk (t.scanner.skip (scan c cs).2)
          (if (scan c cs).1 = .quote then .inString else t.mode)) := by
    intro k n hscan hk
    rw [hscan, if_neg hk]
  unfold kind
  rw [hend, hadvance, if_neg Bool.false_ne_true]
  dsimp only
  split
  case h_11 hslash =>
    have hpeek : ∀ x, x ≠ endChar → ((t.scanner.skip 1).peek = x ↔ next? c.range cs = some x) :=
      fun x hx => by rw [@peek_eq_iff (t.scanner.skip 1) c hc x hx, hrest]
    split
    · rename_i h1
      rw [hpeek _ (by decide)] at h1
      rw [hrun]
      exact hgive (by simp only [scan, hslash, h1]) (by decide)
    · rename_i h2
      rw [hpeek _ (by decide)] at h2
      obtain ⟨d, ds, rfl, hd, -⟩ := next?_eq_some.1 h2
      have hadvance' := (look_cons (s := t.scanner.skip 1) hc hrest hd).2.2
      have hrest' : (t.scanner.skip (1 + 1)).rest = ds := by rw [rest_skip, h.rest]; rfl
      rw [Scanner.blockComment, hadvance', skip_skip, @closeComment_eq (t.scanner.skip (1 + 1)) c hc,
        hrest', skip_skip, Nat.add_comm]
      exact hgive (by simp only [scan, hslash, h2, List.tail_cons]) (by decide)
    · rename_i h1 h2
      rw [hpeek _ (by decide)] at h1 h2
      refine hgive ?_ (by decide)
      simp only [scan, hslash]
  case h_12 hquote =>
    have hscan : scan c cs = (.quote, 1) := by simp only [scan, hquote]
    rw [hscan]
    rfl
  case h_13 =>
    have hscan : scan c cs = if c.char.isDigit then (.numberLiteral, (run c.range isNumberPart cs).length + 1)
        else if isWordStart c.char then
          (wordKind (c.char :: (run c.range isWordPart cs).map (·.char)),
            (run c.range isWordPart cs).length + 1)
        else (.unknown, 1) := by
      unfold scan
      split <;> first | rfl | contradiction
    split
    · rename_i hdigit
      rw [hrun]
      exact hgive (by rw [hscan, if_pos hdigit]) (by decide)
    rename_i hdigit
    split
    · rename_i hword
      have hchars : (t.scanner.skip ((run c.range isWordPart cs).length + 1)).tokenChars =
          c.char :: (run c.range isWordPart cs).map (·.char) := by
        rw [h.tokenChars_skip, take_length_run]
      rw [hrun, keywordOrIdentifier_eq, hchars]
      · exact hgive (by rw [hscan, if_neg hdigit, if_pos hword]) (wordKind_ne_quote _)
      · rw [hchars, h.tokenLength_skip, List.length_cons, List.length_map]
    · rename_i hword
      exact hgive (by rw [hscan, if_neg hdigit, if_neg hword]) (by decide)
  all_goals
    rename_i hchar
    exact hgive (by simp only [scan, hchar]) (by decide)

/-- Whether the tokenizer, with its scanner at `s₀`, and the lexer give the same: a token whose characters
the scanner takes one after the other, or nothing at the end of the input, where no string is open. -/
inductive Agrees (s₀ : Scanner) :
    Lexeme × Tokenizer → Option (Token × Mode × List SourceChar) → Prop where
  | token {s : Scanner} {c cs kind size mode} : s.source = s₀.source → s₀.index ≤ s.index → s.Begins c cs →
    IsToken c cs kind size → size ≤ cs.length + 1 →
    Agrees s₀ ((s.skip size).lexeme (some kind), ⟨s.skip size, mode⟩)
      (some (Lexer.token kind size c cs, mode, cs.drop (size - 1)))
  | done {s : Scanner} : s.source = s₀.source → s₀.index ≤ s.index → s.tokenStart = s.index → s.rest = [] →
    Agrees s₀ (s.lexeme none, ⟨s, .plain⟩) none

/-- Where a token starts does not matter to what comes before it. -/
lemma Agrees.of_startToken {r o} (h : Agrees s₀.startToken r o) : Agrees s₀ r o := by
  cases h with
  | token hsource hle hbegins htoken hsize => exact .token hsource hle hbegins htoken hsize
  | done hsource hle hstart hrest => exact .done hsource hle hstart hrest

/-- Outside of strings a tokenizer and the lexer give the same. -/
lemma agrees_lexPlain (h : t.mode = .plain) :
    Agrees t.scanner t.lexPlain (Lexer.lexPlain t.scanner.rest) := by
  let s := t.scanner.skipBlanks.startToken
  have hs : s = (t.scanner.skip
      (t.scanner.rest.takeWhile fun c => Text.isBlank c.char).length).startToken := by
    rw [← skipBlanks_eq]
  have hsource : s.source = t.scanner.source := by rw [hs]; rfl
  have hle : t.scanner.index ≤ s.index := by rw [hs]; exact Nat.le_add_right ..
  have hrest : s.rest = t.scanner.rest.dropWhile fun c => Text.isBlank c.char := rest_skipBlanks
  rw [Lexer.lexPlain, ← hrest]
  cases hr : s.rest with
  | nil =>
    have hkind : kind { t with scanner := s } = (none, ⟨s, .plain⟩) := by
      rw [kind, if_pos (isEnd_of_nil hr), h]
    rw [lexPlain, show t.scanner.skipBlanks.startToken = s from rfl, hkind]
    exact .done hsource hle rfl hr
  | cons c cs =>
    have hbegins : s.Begins c cs := ⟨rfl, hr⟩
    have hkind := @kind_eq { t with scanner := s } c cs hbegins
    rw [lexPlain, show t.scanner.skipBlanks.startToken = s from rfl, hkind, h]
    exact .token hsource hle hbegins (isToken_scan c cs) (scan_le c cs)

/-- Inside a string, there is text, the closing quote, or the end of the string. -/
lemma lex_inString (h : t.mode = .inString) : t.lex =
    let s := t.scanner.startToken
    if s.isEnd ∨ s.peek = '\n' then lexPlain ⟨s, .plain⟩
    else if s.peek = '"' then (s.advance.2.lexeme (some .quote), ⟨s.advance.2, .plain⟩)
    else (s.stringText.lexeme (some .stringContent), ⟨s.stringText, .inString⟩) := by
  rw [lex, h]
  dsimp only [stringToken]
  by_cases hstop : t.scanner.startToken.isEnd ∨ t.scanner.startToken.peek = '\n'
  · rw [if_pos hstop, if_pos hstop]
  · rw [if_neg hstop, if_neg hstop]
    by_cases hq : t.scanner.startToken.peek = '"'
    · rw [if_pos hq, if_pos hq]
    · rw [if_neg hq, if_neg hq, h]

/-- The tokenizer gives what the lexer finds in the characters after its scanner. -/
theorem agrees_lex (t : Tokenizer) : Agrees t.scanner t.lex (Lexer.lex t.mode t.scanner.rest) := by
  cases hmode : t.mode with
  | plain =>
    have hlexer : Lexer.lex .plain t.scanner.rest = Lexer.lexPlain t.scanner.rest := rfl
    rw [lex, hmode, hlexer]
    exact agrees_lexPlain hmode
  | inString =>
    have hplain := (@agrees_lexPlain ⟨t.scanner.startToken, .plain⟩ rfl).of_startToken
    rw [lex_inString hmode]
    dsimp only
    cases hr : t.scanner.rest with
    | nil =>
      have hnil : t.scanner.startToken.rest = [] := hr
      rw [if_pos (.inl (isEnd_of_nil hnil))]
      rw [hnil] at hplain
      exact hplain
    | cons c cs =>
      have hbegins : t.scanner.startToken.Begins c cs := ⟨rfl, hr⟩
      have hc := hbegins.first
      obtain ⟨hend, hpeek, hadvance⟩ := look_cons hc hbegins.rest rfl
      rw [hbegins.rest] at hplain
      rw [Lexer.lex, hend, hpeek, hadvance, stringText_eq hc, hbegins.rest]
      by_cases hnl : c.char = '\n'
      · rw [if_pos (.inr hnl), if_pos hnl]
        exact hplain
      rw [if_neg (by simpa using hnl), if_neg hnl]
      by_cases hq : c.char = '"'
      · rw [if_pos hq, if_pos hq]
        exact .token rfl (Nat.le_refl _) hbegins (.single fun hk => by cases hk) (Nat.le_add_left ..)
      · rw [if_neg hq, if_neg hq]
        exact .token rfl (Nat.le_refl _) hbegins (isToken_stringText hq hnl) (stringText_le (c :: cs))

/-- A token starts after the tokenizer, and has at least one character. -/
lemma le_tokenStart_lex (t : Tokenizer) : t.scanner.index ≤ t.lex.2.scanner.tokenStart ∧
    t.lex.2.scanner.tokenStart ≤ t.lex.2.scanner.index ∧
    (t.lex.1.kind ≠ none → t.lex.2.scanner.tokenStart < t.lex.2.scanner.index) := by
  have hagrees := t.agrees_lex
  generalize t.lex = r at hagrees ⊢
  generalize Lexer.lex t.mode t.scanner.rest = o at hagrees
  cases hagrees with
  | @token s c cs kind size mode _ hle hbegins htoken =>
    have hlt : s.tokenStart < s.index + size := hbegins.start ▸ Nat.lt_add_of_pos_right htoken.pos
    exact ⟨hbegins.start ▸ hle, Nat.le_of_lt hlt, fun _ => hlt⟩
  | done _ hle hstart => exact ⟨hstart ▸ hle, Nat.le_of_eq hstart, fun h => absurd rfl h⟩

/-- A tokenizer keeps its source. -/
lemma source_lex (t : Tokenizer) : t.lex.2.scanner.source = t.scanner.source := by
  have hagrees := t.agrees_lex
  generalize t.lex = r at hagrees ⊢
  generalize Lexer.lex t.mode t.scanner.rest = o at hagrees
  cases hagrees with
  | token hsource => exact hsource
  | done hsource => exact hsource

/-- What the tokenizer gives is what its scanner has read. -/
lemma exists_lexeme (t : Tokenizer) : ∃ kind, t.lex.1 = t.lex.2.scanner.lexeme kind := by
  have hagrees := t.agrees_lex
  generalize t.lex = r at hagrees ⊢
  generalize Lexer.lex t.mode t.scanner.rest = o at hagrees
  cases hagrees with
  | @token s c cs kind => exact ⟨some kind, rfl⟩
  | done => exact ⟨none, rfl⟩

/-! ## Many tokens -/

/-- The first tokens of a tokenizer before the end of the input, at most `count` of them. -/
def lexemesUpTo : Nat → Tokenizer → List Lexeme
  | 0, _ => []
  | count + 1, t => if t.lex.1.kind = none then [] else t.lex.1 :: lexemesUpTo count t.lex.2

/-- A tokenizer gives the tokens of the lexer one after the other. -/
lemma lexemesUpTo_eq (count : Nat) (t : Tokenizer) : t.lexemesUpTo count =
    (tokensUpTo count t.mode t.scanner.rest).map .ofToken := by
  induction count generalizing t with
  | zero => rfl
  | succ count ih =>
    have hagrees := t.agrees_lex
    rw [lexemesUpTo, tokensUpTo]
    generalize t.lex = r at hagrees ⊢
    generalize Lexer.lex t.mode t.scanner.rest = o at hagrees ⊢
    cases hagrees with
    | @token s c cs kind size mode _ _ hbegins htoken hsize =>
      have hrest : (s.skip size).rest = cs.drop (size - 1) := by
        obtain ⟨k, rfl⟩ := Nat.exists_eq_add_of_le' htoken.pos
        rw [rest_skip, hbegins.rest]
        rfl
      have hkind : ((s.skip size).lexeme (some kind)).kind ≠ none := Option.some_ne_none kind
      dsimp only
      rw [if_neg hkind, ih, hrest, hbegins.lexeme_skip htoken.pos hsize]
      rfl
    | done => rfl

/-- From the first character at or after a byte, the tokenizer gives the tokens that are parsed. -/
theorem lexemesUpTo_reset (s : Source) (byte : Nat) :
    (reset s byte).lexemesUpTo s.chars.length = (tokensFrom s byte).map .ofToken := by
  have hindex : s.charIndexAt byte ≤ s.chars.length := (List.takeWhile_prefix _).length_le
  have hrest : (reset s byte).scanner.rest = s.charsFrom byte := by
    simp only [reset, Scanner.rest, Nat.min_eq_left hindex]
    exact drop_length_takeWhile _ s.chars
  have hlength : (s.charsFrom byte).length ≤ s.chars.length := (List.dropWhile_suffix _).length_le
  rw [lexemesUpTo_eq, hrest]
  exact congrArg (List.map Lexeme.ofToken) (tokensUpTo_of_le hlength)

end Tokenizer

end Reparse.C
