import Mathlib.Data.List.TakeWhile
import Mathlib.Tactic.Lemma
import Reparse.C.Lexer
import Reparse.Proofs.Decoding

/-!
# Lexing

The tokens of a source cut up its included characters: every token is a stretch of characters of
one range, and what lies between the tokens is blank (`covers_lexAll`). As the characters of a source
stand in order (`Source.sorted_chars`), a token says with its stop where the characters after it
begin (`charsFrom_stop`), and outside strings nothing else is needed to go on lexing
(`tokens_of_append_cons`).
-/

namespace Reparse.C

/-- Whether tokens of a kind leave the reader outside of strings, in whatever mode they were read. -/
def Terminal.isPlain (k : Terminal) : Bool := k != .quote && k != .stringContent

/-- Whether a kind is one that ends statements. -/
def Terminal.isCloser (k : Terminal) : Bool := k == .semicolon || k == .rightBrace

/-- Whether a token is the stretch of the given characters, which are in one range. A token that
ends a statement is a semicolon or a brace. -/
structure Token.Spans (t : Token) (piece : List SourceChar) : Prop where
  start : piece.head?.map (·.byte) = some t.start
  stop : piece.getLast?.map (·.stop) = some t.stop
  range : ∀ c ∈ piece, ∀ d ∈ piece, c.range = d.range
  closer : t.kind.isCloser = true → ∃ c, piece = [c] ∧ (c.char = ';' ∨ c.char = '}')

/-- Whether some characters are blank. -/
def AllBlank (cs : List SourceChar) : Prop := ∀ c ∈ cs, Text.isBlank c.char = true

/-- Whether tokens cut up the characters `cs` as far as `rest`, with blanks between them. -/
inductive Covers : List SourceChar → List Token → List SourceChar → Prop where
  | nil {cs} : Covers cs [] cs
  | cons {blanks piece cs t ts rest} :
    AllBlank blanks → t.Spans piece → Covers cs ts rest →
    Covers (blanks ++ piece ++ cs) (t :: ts) rest

/-- A token has characters. -/
lemma Token.Spans.ne_nil {t : Token} {piece} (h : t.Spans piece) : piece ≠ [] := by
  rintro rfl
  cases h.start

/-- No tokens cut up nothing. -/
lemma Covers.eq_of_nil {cs rest} (h : Covers cs [] rest) : rest = cs := by
  cases h
  rfl

/-- Tokens that cut up characters one after the other cut them up together. -/
lemma Covers.append {cs ts mid us rest} (h : Covers cs ts mid) (h' : Covers mid us rest) :
    Covers cs (ts ++ us) rest := by
  induction h with
  | nil => exact h'
  | cons hb hs _ ih => exact .cons hb hs (ih h')

/-- The characters after some tokens are what is left of the characters. -/
lemma Covers.suffix {cs ts rest} (h : Covers cs ts rest) : ∃ u, cs = u ++ rest := by
  induction h with
  | @nil cs => exact ⟨[], rfl⟩
  | @cons blanks piece cs t ts rest _ _ _ ih =>
    obtain ⟨u, rfl⟩ := ih
    exact ⟨blanks ++ piece ++ u, by simp⟩

/-- Tokens that cut up characters in two groups do so one group after the other. -/
lemma Covers.split {cs ts us rest} (h : Covers cs (ts ++ us) rest) :
    ∃ mid, Covers cs ts mid ∧ Covers mid us rest := by
  induction ts generalizing cs with
  | nil => exact ⟨cs, .nil, h⟩
  | cons t ts ih =>
    cases h with
    | cons hb hs h =>
      obtain ⟨mid, h1, h2⟩ := ih h
      exact ⟨mid, .cons hb hs h1, h2⟩

/-- Blanks before tokens belong to the space before the first of them. -/
lemma Covers.blank {blanks cs ts rest} (hb : AllBlank blanks) (h : Covers cs ts rest) :
    ∃ blanks', Covers (blanks ++ cs) ts (blanks' ++ rest) ∧ AllBlank blanks' ∧
      (ts ≠ [] → blanks' = []) := by
  cases h with
  | nil => exact ⟨blanks, .nil, hb, fun h => absurd rfl h⟩
  | @cons blanks₁ piece cs t ts _ hb₁ hs h =>
    refine ⟨[], ?_, fun _ h => absurd h List.not_mem_nil, fun _ => rfl⟩
    have hall : AllBlank (blanks ++ blanks₁) := fun c hc => by
      rcases List.mem_append.1 hc with hc | hc
      · exact hb c hc
      · exact hb₁ c hc
    have hc := Covers.cons hall hs h
    simpa using hc

/-- What follows the characters does not matter for the tokens that cut them up. -/
lemma Covers.append_right {cs ts rest} (h : Covers cs ts rest) (more : List SourceChar) :
    Covers (cs ++ more) ts (rest ++ more) := by
  induction h with
  | nil => exact .nil
  | cons hb hs _ ih =>
    rw [List.append_assoc]
    exact .cons hb hs ih

/-- What follows the characters may be left out. -/
lemma Covers.of_append {cs ts rest} (h : Covers cs ts rest) :
    ∀ {u}, cs = u ++ rest → Covers u ts [] := by
  induction h with
  | @nil cs =>
    intro u hu
    obtain rfl : u = [] := by simpa using hu
    exact .nil
  | @cons blanks piece cs t ts rest hb hs h ih =>
    intro u hu
    obtain ⟨v, rfl⟩ := h.suffix
    obtain rfl : blanks ++ piece ++ v = u := by
      rw [← List.append_assoc] at hu
      exact List.append_cancel_right hu
    exact .cons hb hs (ih rfl)

/-- Tokens and characters may be moved together. -/
lemma Covers.map {cs ts rest} (h : Covers cs ts rest) {δ : Nat → Nat} {φ : SourceChar → SourceChar}
    {f : Token → Token}
    (hφ : ∀ c ∈ cs, (φ c).char = c.char ∧ (φ c).range = c.range ∧ (φ c).byte = δ c.byte ∧
      (φ c).stop = δ c.stop)
    (hf : ∀ t, (f t).kind = t.kind ∧ (f t).start = δ t.start ∧ (f t).stop = δ t.stop) :
    Covers (cs.map φ) (ts.map f) (rest.map φ) := by
  induction h with
  | nil => exact .nil
  | @cons blanks piece cs t ts rest hb hs _ ih =>
    have hblanks : AllBlank (blanks.map φ) := by
      intro c hc
      obtain ⟨b, hb', rfl⟩ := List.mem_map.1 hc
      rw [(hφ b (by simp [hb'])).1]
      exact hb b hb'
    have hpiece : ∀ c ∈ piece, (φ c).char = c.char ∧ (φ c).range = c.range ∧
        (φ c).byte = δ c.byte ∧ (φ c).stop = δ c.stop := fun c hc => hφ c (by simp [hc])
    obtain ⟨hkind, hstart, hstop⟩ := hf t
    have hspans : (f t).Spans (piece.map φ) := by
      refine ⟨?_, ?_, ?_, fun hk => ?_⟩
      · obtain ⟨c, hc, hcs⟩ := Option.map_eq_some_iff.1 hs.start
        rw [List.head?_map, hc, hstart, ← hcs, Option.map_some, Option.map_some,
          (hpiece c (List.mem_of_mem_head? hc)).2.2.1]
      · obtain ⟨c, hc, hcs⟩ := Option.map_eq_some_iff.1 hs.stop
        rw [List.getLast?_map, hc, hstop, ← hcs, Option.map_some, Option.map_some,
          (hpiece c (List.mem_of_getLast? hc)).2.2.2]
      · intro c hc d hd
        obtain ⟨c', hc', rfl⟩ := List.mem_map.1 hc
        obtain ⟨d', hd', rfl⟩ := List.mem_map.1 hd
        rw [(hpiece c' hc').2.1, (hpiece d' hd').2.1]
        exact hs.range c' hc' d' hd'
      · rw [hkind] at hk
        obtain ⟨c, rfl, hc⟩ := hs.closer hk
        refine ⟨φ c, rfl, ?_⟩
        rw [(hpiece c (List.mem_singleton_self c)).1]
        exact hc
    rw [List.map_append, List.map_append, List.map_cons]
    exact .cons hblanks hspans (ih fun c hc => hφ c (List.mem_append_right _ hc))

/-! ## One token -/

namespace Lexer

/-- As many characters as a run has are the run itself. -/
lemma take_length_run (range : Nat) (p : Char → Bool) (cs : List SourceChar) :
    cs.take (run range p cs).length = run range p cs :=
  (List.prefix_iff_eq_take.1 (List.takeWhile_prefix _)).symm

/-- A run stays in its range. -/
lemma range_of_mem_run {range : Nat} {p : Char → Bool} {cs : List SourceChar} {d : SourceChar}
    (h : d ∈ run range p cs) : d.range = range := by
  have hd := List.mem_takeWhile_imp h
  rw [Bool.and_eq_true] at hd
  exact eq_of_beq hd.1

/-- A block comment stays in its range. -/
lemma range_of_mem_blockComment {range : Nat} {cs : List SourceChar} {d : SourceChar}
    (h : d ∈ cs.take (blockComment range cs)) : d.range = range := by
  induction cs with
  | nil => cases h
  | cons c cs ih =>
    unfold blockComment at h
    split at h
    · cases h
    rename_i hc
    split at h
    · rename_i hclose
      cases cs with
      | nil => simp [next?] at hclose
      | cons e cs =>
        have he : e.range = range := by
          have := hclose.2
          simp only [next?, List.head?_cons, Option.filter] at this
          split at this
          · rename_i he
            exact eq_of_beq he
          · cases this
        simp only [List.take_succ_cons, List.take_zero, List.mem_cons, List.not_mem_nil,
          or_false] at h
        rcases h with rfl | rfl
        · exact Decidable.not_not.1 hc
        · exact he
    · rw [List.take_succ_cons, List.mem_cons] at h
      rcases h with rfl | h
      · exact Decidable.not_not.1 hc
      · exact ih h

/-- The text of a string stays in its range. -/
lemma range_of_mem_stringText {range : Nat} {cs : List SourceChar} {d : SourceChar}
    (h : d ∈ cs.take (stringText range cs)) : d.range = range := by
  induction cs using stringText.induct range with
  | case1 => cases h
  | case2 c hc =>
    rw [stringText, if_pos hc] at h
    cases h
  | case3 c hc =>
    rw [stringText, if_neg hc] at h
    obtain rfl : d = c := by simpa using h
    exact Decidable.not_not.1 fun hr => hc (.inl hr)
  | case4 c e cs hc =>
    rw [stringText, if_pos hc] at h
    cases h
  | case5 c e cs hc hp ih =>
    rw [stringText, if_neg hc, if_pos hp] at h
    simp only [List.take_succ_cons, List.mem_cons] at h
    rcases h with rfl | rfl | h
    · exact Decidable.not_not.1 fun hr => hc (.inl hr)
    · exact hp.2.1
    · exact ih h
  | case6 c e cs hc hp ih =>
    rw [stringText, if_neg hc, if_neg hp] at h
    simp only [List.take_succ_cons, List.mem_cons] at h
    rcases h with rfl | h
    · exact Decidable.not_not.1 fun hr => hc (.inl hr)
    · exact ih h

/-- Whether `size` characters from `c` on, followed by `cs`, may be a token of some kind. -/
structure IsToken (c : SourceChar) (cs : List SourceChar) (kind : Terminal) (size : Nat) : Prop where
  pos : 1 ≤ size
  range : ∀ d ∈ cs.take (size - 1), d.range = c.range
  closer : kind.isCloser = true → size = 1 ∧ (c.char = ';' ∨ c.char = '}')

/-- One character may be a token. -/
lemma IsToken.single {c : SourceChar} {cs : List SourceChar} {kind : Terminal}
    (h : kind.isCloser = true → c.char = ';' ∨ c.char = '}') : IsToken c cs kind 1 :=
  ⟨Nat.le_refl 1, fun _ hd => absurd hd List.not_mem_nil, fun hk => ⟨rfl, h hk⟩⟩

/-- A character and the run after it may be a token. -/
lemma isToken_run {c : SourceChar} {cs : List SourceChar} {kind : Terminal} (p : Char → Bool)
    (h : kind.isCloser = false) : IsToken c cs kind ((run c.range p cs).length + 1) := by
  refine ⟨Nat.le_add_left .., fun d hd => ?_, fun hk => ?_⟩
  · rw [Nat.add_sub_cancel, take_length_run] at hd
    exact range_of_mem_run hd
  · rw [h] at hk
    cases hk

/-- No word closes a statement. -/
lemma isCloser_wordKind (word : List Char) : (wordKind word).isCloser = false := by
  unfold wordKind
  dsimp only
  split
  · rfl
  · split <;> rfl

/-- A block comment is a token. -/
lemma isToken_blockComment {c : SourceChar} {cs : List SourceChar}
    (h : next? c.range cs = some '*') :
    IsToken c cs .comment (blockComment c.range cs.tail + 2) := by
  refine ⟨Nat.le_add_left .., fun d hd => ?_, fun hk => by cases hk⟩
  cases cs with
  | nil => cases h
  | cons e cs =>
    rw [show blockComment c.range (e :: cs).tail + 2 - 1 = blockComment c.range cs + 1 from rfl,
      List.take_succ_cons, List.mem_cons] at hd
    rcases hd with rfl | hd
    · simp only [next?, List.head?_cons, Option.filter] at h
      split at h
      · rename_i he
        exact eq_of_beq he
      · cases h
    · exact range_of_mem_blockComment hd

/-- What is found outside of strings is a token. -/
lemma isToken_scan (c : SourceChar) (cs : List SourceChar) :
    IsToken c cs (scan c cs).1 (scan c cs).2 := by
  unfold scan
  split
  case h_1 h => exact .single fun _ => .inl h
  case h_7 h => exact .single fun _ => .inr h
  case h_12 =>
    split
    · exact isToken_run _ rfl
    · rename_i h
      exact isToken_blockComment h
    · exact .single fun hk => by cases hk
  case h_13 =>
    split
    · exact isToken_run _ rfl
    · split
      · exact isToken_run _ (isCloser_wordKind _)
      · exact .single fun hk => by cases hk
  all_goals exact .single fun hk => by cases hk

/-- Every word is a plain token. -/
lemma isPlain_wordKind (word : List Char) : (wordKind word).isPlain = true := by
  unfold wordKind
  dsimp only
  split
  · rfl
  · split <;> rfl

/-- Outside of strings, the only kind that is not plain is that of a quote. -/
lemma scan_eq_quote {c : SourceChar} {cs : List SourceChar} (h : (scan c cs).1.isPlain = false) :
    (scan c cs).1 = .quote := by
  revert h
  unfold scan
  split
  case h_11 => exact fun _ => rfl
  case h_12 => split <;> exact fun h => by cases h
  case h_13 =>
    split
    · exact fun h => by cases h
    · split
      · intro h
        dsimp only at h
        rw [isPlain_wordKind] at h
        cases h
      · exact fun h => by cases h
  all_goals exact fun h => by cases h

/-- A token is the stretch of its characters. -/
lemma IsToken.spans {c : SourceChar} {cs : List SourceChar} {kind : Terminal} {size : Nat}
    (h : IsToken c cs kind size) : (token kind size c cs).Spans (c :: cs.take (size - 1)) := by
  refine ⟨rfl, ?_, ?_, fun hk => ⟨c, ?_, (h.closer hk).2⟩⟩
  · rw [List.getLast?_cons]
    rfl
  · have hr : ∀ d ∈ c :: cs.take (size - 1), d.range = c.range := by
      intro d hd
      rcases List.mem_cons.1 hd with rfl | hd
      · rfl
      · exact h.range d hd
    exact fun d hd e he => (hr d hd).trans (hr e he).symm
  · rw [(h.closer hk).1]
    rfl

/-- The width of the first of some characters, 0 if there is none. -/
def widthAhead (cs : List SourceChar) : Nat := (cs.head?.map (·.width)).getD 0

/-- What one call of the lexer does: it passes over blanks, takes the characters of a token, looks
at the character after it, and is outside of strings unless the token is a part of one. -/
structure Lexes (mode : Mode) (cs : List SourceChar) (t : Token) (mode' : Mode)
    (rest : List SourceChar) : Prop where
  split : ∃ blanks piece, cs = blanks ++ piece ++ rest ∧ AllBlank blanks ∧ t.Spans piece
  ahead : t.lookahead = widthAhead rest
  plain : t.kind.isPlain = true → mode' = .plain

/-- What is read outside of strings is a token. -/
lemma lexes_lexPlain {mode : Mode} {cs rest : List SourceChar} {t : Token} {mode' : Mode}
    (h : lexPlain cs = some (t, mode', rest)) : Lexes mode cs t mode' rest := by
  unfold lexPlain at h
  split at h
  · cases h
  rename_i c more hd
  have htoken := isToken_scan c more
  have hquote := @scan_eq_quote c more
  generalize scan c more = r at h htoken hquote
  obtain ⟨kind, size⟩ := r
  obtain ⟨rfl, rfl, rfl⟩ : token kind size c more = t ∧
      (if kind = .quote then Mode.inString else .plain) = mode' ∧ more.drop (size - 1) = rest := by
    simpa using h
  refine ⟨⟨cs.takeWhile fun c => Text.isBlank c.char, _, ?_, fun d hd => ?_, htoken.spans⟩, rfl,
    fun hk => ?_⟩
  · rw [List.append_assoc, List.cons_append, List.take_append_drop, ← hd,
      List.takeWhile_append_dropWhile]
  · exact List.mem_takeWhile_imp (p := fun c : SourceChar => Text.isBlank c.char) hd
  · refine if_neg ?_
    rintro rfl
    cases hk

/-- The text of a string that neither is closed at once nor ends with its line is a token. -/
lemma isToken_stringText {c : SourceChar} {more : List SourceChar} (hq : c.char ≠ '"')
    (hnl : c.char ≠ '\n') : IsToken c more .stringContent (stringText c.range (c :: more)) := by
  have hpos : 1 ≤ stringText c.range (c :: more) := by
    cases more with
    | nil => simp [stringText, hq, hnl]
    | cons d more =>
      rw [stringText, if_neg (by simp [hq, hnl])]
      split
      · exact Nat.le_add_left ..
      · exact Nat.le_add_left ..
  refine ⟨hpos, fun d hd => ?_, fun hk => by cases hk⟩
  refine @range_of_mem_stringText _ (c :: more) _ ?_
  obtain ⟨size, hsize⟩ : ∃ n, stringText c.range (c :: more) = n + 1 := ⟨_, (Nat.sub_add_cancel hpos).symm⟩
  rw [hsize] at hd ⊢
  exact List.mem_cons_of_mem _ hd

/-- A token inside a string, if it is not lexed as outside of strings. -/
lemma lexes_inString {c : SourceChar} {more rest : List SourceChar} {t : Token} {mode' : Mode}
    (hnl : c.char ≠ '\n') (h : lex .inString (c :: more) = some (t, mode', rest)) :
    Lexes .inString (c :: more) t mode' rest := by
  rw [lex, if_neg hnl] at h
  split at h
  · obtain ⟨rfl, rfl, rfl⟩ : token .quote 1 c more = t ∧ Mode.plain = mode' ∧ more = rest := by
      simpa using h
    have htoken : IsToken c more .quote 1 := .single fun hk => by cases hk
    exact ⟨⟨[], [c], rfl, fun _ h => absurd h List.not_mem_nil, htoken.spans⟩, rfl, fun _ => rfl⟩
  · rename_i hq
    obtain ⟨rfl, rfl, rfl⟩ : token .stringContent (stringText c.range (c :: more)) c more = t ∧
        Mode.inString = mode' ∧ more.drop (stringText c.range (c :: more) - 1) = rest := by
      simpa using h
    have htoken := @isToken_stringText c more hq hnl
    refine ⟨⟨[], _, ?_, fun _ h => absurd h List.not_mem_nil, htoken.spans⟩, rfl, fun hk => by cases hk⟩
    simp

/-- What the lexer gives is a token with what goes along with it. -/
lemma lexes_lex {mode : Mode} {cs rest : List SourceChar} {t : Token} {mode' : Mode}
    (h : lex mode cs = some (t, mode', rest)) : Lexes mode cs t mode' rest := by
  cases mode with
  | plain => exact lexes_lexPlain (by simpa [lex] using h)
  | inString =>
    cases cs with
    | nil => exact lexes_lexPlain (by simpa [lex] using h)
    | cons c more =>
      by_cases hnl : c.char = '\n'
      · exact lexes_lexPlain (by simpa [lex, hnl] using h)
      · exact lexes_inString hnl h

/-- Where the lexer gives nothing, only blanks are left. -/
lemma allBlank_of_lex {mode : Mode} {cs : List SourceChar} (h : lex mode cs = none) :
    AllBlank cs := by
  have hplain : lexPlain cs = none := by
    unfold lex at h
    split at h
    · split at h
      · exact h
      · split at h <;> cases h
    · exact h
  unfold lexPlain at hplain
  split at hplain
  · rename_i hd
    exact List.dropWhile_eq_nil_iff.1 hd
  · cases hplain

/-- A token takes characters. -/
lemma Lexes.length_lt {mode : Mode} {cs rest : List SourceChar} {t : Token} {mode' : Mode}
    (h : Lexes mode cs t mode' rest) : rest.length < cs.length := by
  obtain ⟨blanks, piece, rfl, -, hs⟩ := h.split
  have hp := List.length_pos_iff.2 hs.ne_nil
  simp only [List.length_append]
  omega

/-! ## All tokens -/

/-- The tokens of some characters, read in a given mode. -/
def lexAll (mode : Mode) (cs : List SourceChar) : List Token := tokensUpTo cs.length mode cs

/-- There are no more tokens than characters. -/
lemma tokensUpTo_of_le {count : Nat} {mode : Mode} {cs : List SourceChar} (h : cs.length ≤ count) :
    tokensUpTo count mode cs = lexAll mode cs := by
  have hall : ∀ n, ∀ (cs : List SourceChar) (mode : Mode) (count : Nat), cs.length ≤ n →
      cs.length ≤ count → tokensUpTo count mode cs = tokensUpTo n mode cs := by
    intro n
    induction n with
    | zero =>
      intro cs mode count hn _
      obtain rfl := List.eq_nil_of_length_eq_zero (Nat.le_zero.1 hn)
      cases count with
      | zero => rfl
      | succ count => cases mode <;> rfl
    | succ n ih =>
      intro cs mode count hn hc
      cases hl : lex mode cs with
      | none => cases count <;> simp [tokensUpTo, hl]
      | some r =>
        obtain ⟨t, mode', rest⟩ := r
        have hlt := (lexes_lex hl).length_lt
        cases count with
        | zero => omega
        | succ count =>
          simp only [tokensUpTo, hl]
          rw [ih rest mode' count (by omega) (by omega)]
  exact hall _ cs mode count (Nat.le_refl _) h

/-- Where no token comes next, there are none at all. -/
lemma lexAll_of_none {mode : Mode} {cs : List SourceChar} (h : lex mode cs = none) :
    lexAll mode cs = [] := by
  unfold lexAll
  cases cs.length <;> simp [tokensUpTo, h]

/-- All tokens are the first one and those after it. -/
lemma lexAll_of_some {mode : Mode} {cs rest : List SourceChar} {t : Token} {mode' : Mode}
    (h : lex mode cs = some (t, mode', rest)) : lexAll mode cs = t :: lexAll mode' rest := by
  have hlt := (lexes_lex h).length_lt
  obtain ⟨n, hn⟩ : ∃ n, cs.length = n + 1 := ⟨cs.length - 1, by omega⟩
  rw [lexAll, hn, tokensUpTo, h]
  dsimp only
  rw [tokensUpTo_of_le (by omega)]

/-- All tokens of some characters cut them up, and only blanks are left. -/
theorem covers_lexAll (mode : Mode) (cs : List SourceChar) :
    ∃ blanks, Covers cs (lexAll mode cs) blanks ∧ AllBlank blanks := by
  induction hn : cs.length using Nat.strong_induction_on generalizing mode cs with
  | _ n ih =>
    cases hl : lex mode cs with
    | none =>
      rw [lexAll_of_none hl]
      exact ⟨cs, .nil, allBlank_of_lex hl⟩
    | some r =>
      obtain ⟨t, mode', rest⟩ := r
      have hlex := lexes_lex hl
      rw [lexAll_of_some hl]
      obtain ⟨blanks, hc, hb⟩ := ih rest.length (hn ▸ hlex.length_lt) mode' rest rfl
      obtain ⟨before, piece, rfl, hbefore, hs⟩ := hlex.split
      exact ⟨blanks, .cons hbefore hs hc, hb⟩

/-- After some of the tokens come those of the characters after them. -/
lemma exists_of_lexAll_eq {mode : Mode} {cs : List SourceChar} {a b : List Token} {t : Token}
    (h : lexAll mode cs = a ++ t :: b) :
    ∃ mode' rest, Covers cs (a ++ [t]) rest ∧ b = lexAll mode' rest ∧
      t.lookahead = widthAhead rest ∧ (t.kind.isPlain = true → mode' = .plain) := by
  induction a generalizing mode cs with
  | nil =>
    cases hl : lex mode cs with
    | none => simp [lexAll_of_none hl] at h
    | some r =>
      obtain ⟨u, mode', rest⟩ := r
      have hlex := lexes_lex hl
      obtain ⟨rfl, rfl⟩ : u = t ∧ lexAll mode' rest = b := by simpa [lexAll_of_some hl] using h
      obtain ⟨before, piece, rfl, hbefore, hs⟩ := hlex.split
      exact ⟨mode', rest, .cons hbefore hs .nil, rfl, hlex.ahead, hlex.plain⟩
  | cons u a ih =>
    cases hl : lex mode cs with
    | none => simp [lexAll_of_none hl] at h
    | some r =>
      obtain ⟨u', mode', rest⟩ := r
      have hlex := lexes_lex hl
      obtain ⟨rfl, ha⟩ : u' = u ∧ lexAll mode' rest = a ++ t :: b := by
        simpa [lexAll_of_some hl] using h
      obtain ⟨mode'', rest', hc, hb, hrest⟩ := ih ha
      obtain ⟨before, piece, rfl, hbefore, hs⟩ := hlex.split
      exact ⟨mode'', rest', .cons hbefore hs hc, hb, hrest⟩

/-- Blanks are passed over outside of strings. -/
lemma lexAll_append_of_allBlank {blanks : List SourceChar} (h : AllBlank blanks)
    (cs : List SourceChar) : lexAll .plain (blanks ++ cs) = lexAll .plain cs := by
  have hd : (blanks ++ cs).dropWhile (fun c => Text.isBlank c.char) =
      cs.dropWhile fun c => Text.isBlank c.char := List.dropWhile_append_of_pos h
  have hl : lex .plain (blanks ++ cs) = lex .plain cs := by
    simp only [lex, lexPlain, hd]
  cases hr : lex .plain cs with
  | none => rw [lexAll_of_none hr, lexAll_of_none (hl.trans hr)]
  | some r =>
    obtain ⟨t, mode, rest⟩ := r
    rw [lexAll_of_some hr, lexAll_of_some (hl.trans hr)]

end Lexer

end Reparse.C

/-! ## Characters in order -/

namespace Reparse

open C

/-- Whether characters stand in order and take some bytes each. -/
structure Ordered (cs : List SourceChar) : Prop where
  apart : cs.Pairwise fun c d => c.stop ≤ d.byte
  width : ∀ c ∈ cs, 0 < c.width

/-- Characters in order are so in two parts. -/
lemma Ordered.append {a b : List SourceChar} (h : Ordered (a ++ b)) : Ordered a ∧ Ordered b := by
  obtain ⟨ha, hb, -⟩ := List.pairwise_append.1 h.apart
  exact ⟨⟨ha, fun c hc => h.width c (List.mem_append_left b hc)⟩,
    ⟨hb, fun c hc => h.width c (List.mem_append_right a hc)⟩⟩

/-- Of characters in order the earlier ones end before the later ones begin. -/
lemma Ordered.stop_le {a b : List SourceChar} (h : Ordered (a ++ b)) {c d : SourceChar}
    (hc : c ∈ a) (hd : d ∈ b) : c.stop ≤ d.byte :=
  (List.pairwise_append.1 h.apart).2.2 c hc d hd

/-- A character of some width ends after its first byte. -/
lemma SourceChar.byte_lt_stop {c : SourceChar} (h : 0 < c.width) : c.byte < c.stop :=
  Nat.lt_add_of_pos_right h

/-- A character stops after all characters before it. -/
lemma Ordered.stop_le_getLast {cs : List SourceChar} (h : Ordered cs) {c last : SourceChar}
    (hc : c ∈ cs) (hl : cs.getLast? = some last) : c.stop ≤ last.stop := by
  obtain ⟨a, rfl⟩ := List.getLast?_eq_some_iff.1 hl
  rcases List.mem_append.1 hc with hc | hc
  · exact Nat.le_trans (h.stop_le hc (List.mem_singleton_self last)) (Nat.le_add_right _ _)
  · rw [List.mem_singleton.1 hc]

namespace Source

/-- The kept characters of a text stand in order, inside the text. -/
lemma ordered_keepIncluded {ds : List Decoded} (h : ∀ d ∈ ds, 0 < d.width) (byte index : Nat)
    (ranges : List Span) : Ordered (keepIncluded byte index ranges ds) ∧
      ∀ c ∈ keepIncluded byte index ranges ds, byte ≤ c.byte ∧
        c.stop ≤ byte + Decode.widthOf ds := by
  induction ds generalizing byte index ranges with
  | nil => exact ⟨⟨List.Pairwise.nil, fun c hc => absurd hc List.not_mem_nil⟩,
      fun c hc => absurd hc List.not_mem_nil⟩
  | cons d ds ih =>
    unfold keepIncluded
    dsimp only
    split
    · exact ⟨⟨List.Pairwise.nil, fun c hc => absurd hc List.not_mem_nil⟩,
        fun c hc => absurd hc List.not_mem_nil⟩
    · rename_i r later _
      obtain ⟨ho, hb⟩ := ih (fun c hc => h c (List.mem_cons_of_mem d hc)) (byte + d.width)
        (index + (ranges.takeWhile fun r => r.stop.bytes ≤ byte).length) (r :: later)
      have hd := h d (List.mem_cons_self ..)
      rw [Decode.widthOf_cons]
      split
      · refine ⟨⟨List.pairwise_cons.2 ⟨fun c hc => (hb c hc).1, ho.apart⟩, fun c hc => ?_⟩,
          fun c hc => ?_⟩
        · rcases List.mem_cons.1 hc with rfl | hc
          · exact hd
          · exact ho.width c hc
        · rcases List.mem_cons.1 hc with rfl | hc
          · exact ⟨Nat.le_refl _, by simp only [SourceChar.stop]; omega⟩
          · have := hb c hc
            omega
      · refine ⟨ho, fun c hc => ?_⟩
        have := hb c hc
        omega

/-- The included characters of a source stand in order. -/
theorem ordered_chars (d : Document) (ranges : List Span) : Ordered (ofDocument d ranges).chars :=
  (ordered_keepIncluded (fun _ h => Document.width_pos h) 0 0 _).1

/-- Every included character stops inside the document. -/
lemma stop_le_size {d : Document} {ranges : List Span} {c : SourceChar}
    (h : c ∈ (ofDocument d ranges).chars) : c.stop ≤ d.bytes.length := by
  have hc := ((ordered_keepIncluded (fun _ h => Document.width_pos h) 0 0 _).2 c h).2
  have hw := Document.widthOf_decode_le d
  omega

variable {s : Source}

/-- The characters from a byte on, where the byte parts the characters of a source. -/
lemma charsFrom_eq {u v : List SourceChar} {byte : Nat} (h : s.chars = u ++ v)
    (hu : ∀ c ∈ u, c.byte < byte) (hv : ∀ c ∈ v, byte ≤ c.byte) : s.charsFrom byte = v := by
  have hpos : ∀ c ∈ u, decide (c.byte < byte) = true := fun c hc => decide_eq_true (hu c hc)
  rw [charsFrom, h, List.dropWhile_append_of_pos hpos]
  cases v with
  | nil => rfl
  | cons c v =>
    have hc := hv c (List.mem_cons_self ..)
    rw [List.dropWhile_cons_of_neg (by simpa using hc)]

/-- The characters before a byte and those from it on. -/
lemma exists_charsFrom (s : Source) (byte : Nat) :
    ∃ u, s.chars = u ++ s.charsFrom byte ∧ ∀ c ∈ u, c.byte < byte :=
  ⟨s.chars.takeWhile fun c => c.byte < byte, List.takeWhile_append_dropWhile.symm, fun c hc => by
    simpa using @List.mem_takeWhile_imp _ (fun c : SourceChar => decide (c.byte < byte)) _ _ hc⟩

/-- The characters from a byte on start there or later. -/
lemma le_byte_of_mem_charsFrom (ho : Ordered s.chars) {byte : Nat} {c : SourceChar}
    (hc : c ∈ s.charsFrom byte) : byte ≤ c.byte := by
  obtain ⟨u, hu, -⟩ := s.exists_charsFrom byte
  have ho' := ho
  rw [hu] at ho'
  have hfirst : ∀ first ∈ (s.charsFrom byte).head?, byte ≤ first.byte := fun first hf => by
    have h := List.head?_dropWhile_not (fun c : SourceChar => decide (c.byte < byte)) s.chars
    rw [show s.chars.dropWhile (fun c => decide (c.byte < byte)) = s.charsFrom byte from rfl,
      Option.mem_def.1 hf] at h
    simpa using h
  obtain ⟨-, ho'⟩ := ho'.append
  cases hcs : s.charsFrom byte with
  | nil =>
    rw [hcs] at hc
    exact absurd hc List.not_mem_nil
  | cons first cs =>
    rw [hcs] at hc hfirst ho'
    have h := hfirst first rfl
    rcases List.mem_cons.1 hc with rfl | hc
    · exact h
    · have hlt := SourceChar.byte_lt_stop (ho'.width first (List.mem_cons_self ..))
      have hle := (List.pairwise_cons.1 ho'.apart).1 c hc
      omega

/-- All characters come from the start of the document. -/
@[simp]
lemma charsFrom_zero (s : Source) : s.charsFrom 0 = s.chars :=
  charsFrom_eq (List.nil_append _).symm (fun _ h => absurd h List.not_mem_nil)
    fun _ _ => Nat.zero_le _

/-- No character comes from the end of the input. -/
lemma charsFrom_endOfInput (h : Ordered s.chars) : s.charsFrom s.endOfInput = [] := by
  refine charsFrom_eq (List.append_nil _).symm (fun c hc => ?_) fun _ h => absurd h List.not_mem_nil
  obtain ⟨last, hl⟩ := Option.isSome_iff_exists.1 (List.getLast?_isSome.2 (List.ne_nil_of_mem hc))
  have hle := h.stop_le_getLast hc hl
  have hlt := SourceChar.byte_lt_stop (h.width c hc)
  simp only [endOfInput, hl, Option.map_some, Option.getD_some]
  omega

/-- Every included character stops at or before the end of the input. -/
lemma stop_le_endOfInput (h : Ordered s.chars) {c : SourceChar} (hc : c ∈ s.chars) :
    c.stop ≤ s.endOfInput := by
  obtain ⟨last, hl⟩ := Option.isSome_iff_exists.1 (List.getLast?_isSome.2 (List.ne_nil_of_mem hc))
  simpa [endOfInput, hl] using h.stop_le_getLast hc hl

/-- The input ends inside the document. -/
lemma endOfInput_le_size (d : Document) (ranges : List Span) :
    (ofDocument d ranges).endOfInput ≤ d.bytes.length := by
  unfold endOfInput
  cases hl : (ofDocument d ranges).chars.getLast? with
  | none => exact Nat.zero_le _
  | some c => exact stop_le_size (List.mem_of_getLast? hl)

/-- The input of a document within the limit ends there as well. -/
lemma endOfInput_le_limit {d : Document} (hd : d.bytes.length ≤ limit) (ranges : List Span) :
    (ofDocument d ranges).endOfInput ≤ limit :=
  Nat.le_trans (endOfInput_le_size d ranges) hd

end Source

namespace C

/-- Where the characters after some tokens are told by the stop of the last of them. -/
lemma Covers.stop {cs rest : List SourceChar} {ts : List Token} {t : Token} (ho : Ordered cs)
    (h : Covers cs (ts ++ [t]) rest) :
    ∃ u, cs = u ++ rest ∧ (∀ c ∈ u, c.stop ≤ t.stop) ∧ (∃ c ∈ u, c.stop = t.stop) := by
  obtain ⟨mid, h1, h2⟩ := h.split
  obtain ⟨u, rfl⟩ := h1.suffix
  cases h2 with
  | @cons blanks piece _ _ _ _ hb hs h3 =>
    cases h3
    obtain ⟨last, hl, hstop⟩ := Option.map_eq_some_iff.1 hs.stop
    have hlast : (u ++ (blanks ++ piece)).getLast? = some last := by
      rw [← List.append_assoc, List.getLast?_append, hl]
      rfl
    refine ⟨u ++ (blanks ++ piece), by simp, fun c hc => ?_, last, List.mem_of_getLast? hlast, hstop⟩
    rw [← hstop]
    refine Ordered.stop_le_getLast ?_ hc hlast
    rw [← List.append_assoc, ← List.append_assoc] at ho
    rw [← List.append_assoc]
    exact ho.append.1

/-- The characters after some tokens of a source are those from the stop of the last of them on. -/
lemma Covers.charsFrom_stop {s : Source} {byte : Nat} {ts : List Token} {t : Token}
    {rest : List SourceChar} (ho : Ordered s.chars) (h : Covers (s.charsFrom byte) (ts ++ [t]) rest) :
    s.charsFrom t.stop = rest := by
  obtain ⟨u, hu, -⟩ := s.exists_charsFrom byte
  have ho' := ho
  rw [hu] at ho'
  obtain ⟨v, hv, hstop, c, hc, hcs⟩ := h.stop ho'.append.2
  rw [hv] at hu ho'
  have hlt : ∀ d ∈ s.chars, d.byte < d.stop := fun d hd => SourceChar.byte_lt_stop (ho.width d hd)
  refine Source.charsFrom_eq (u := u ++ v) (by rw [hu, List.append_assoc]) (fun d hd => ?_)
    fun d hd => ?_
  · have hd' : d ∈ s.chars := by
      rw [hu, ← List.append_assoc]
      exact List.mem_append_left _ hd
    have := hlt d hd'
    rcases List.mem_append.1 hd with hd | hd
    · have h1 := ho'.stop_le hd (List.mem_append_left _ hc)
      have h2 := hlt c (by rw [hu]; simp [hc])
      omega
    · have := hstop d hd
      omega
  · rw [← hcs]
    exact ho'.append.2.stop_le hc hd

/-- After a token that leaves the reader outside of strings come the tokens from its stop on. -/
theorem tokensFrom_stop {s : Source} {byte : Nat} {a b : List Token} {t : Token}
    (ho : Ordered s.chars) (h : tokensFrom s byte = a ++ t :: b) (ht : t.kind.isPlain = true) :
    b = tokensFrom s t.stop := by
  obtain ⟨mode, rest, hc, hb, -, hm⟩ := Lexer.exists_of_lexAll_eq h
  rw [tokensFrom, hc.charsFrom_stop ho, hb, hm ht]
  rfl

/-- What was looked at to find a token is the character from its stop on. -/
lemma lookahead_of_mem_tokensFrom {s : Source} {byte : Nat} {t : Token} (ho : Ordered s.chars)
    (h : t ∈ tokensFrom s byte) : t.lookahead = Lexer.widthAhead (s.charsFrom t.stop) := by
  obtain ⟨a, b, hab⟩ := List.append_of_mem h
  obtain ⟨mode, rest, hc, -, hl, -⟩ := Lexer.exists_of_lexAll_eq hab
  rw [hc.charsFrom_stop ho, hl]

/-- Tokens that are read again from where the next of some tokens starts cut up the same
characters. -/
theorem Covers.restart {s : Source} {ts us : List Token} {blanks : List SourceChar}
    (ho : Ordered s.chars) (h : Covers s.chars (ts ++ us) blanks) (hb : AllBlank blanks) :
    ∃ blanks', Covers s.chars
      (ts ++ tokensFrom s ((us.head?.map (·.start)).getD s.endOfInput)) blanks' ∧
      AllBlank blanks' := by
  obtain ⟨mid, h1, h2⟩ := h.split
  cases h2 with
  | nil =>
    have hnil : tokensFrom s s.endOfInput = [] := by
      show Lexer.lexAll .plain (s.charsFrom s.endOfInput) = []
      rw [s.charsFrom_endOfInput ho, Lexer.lexAll_of_none rfl]
    refine ⟨blanks, ?_, hb⟩
    simpa [hnil] using h1
  | @cons before piece cs u us _ hbefore hs h3 =>
    obtain ⟨first, hfirst, hstart⟩ := Option.map_eq_some_iff.1 hs.start
    obtain ⟨v, hv⟩ := h1.suffix
    have hchars : s.charsFrom u.start = piece ++ cs := by
      rw [← hstart]
      obtain ⟨piece', rfl⟩ := List.head?_eq_some_iff.1 hfirst
      have hsplit : s.chars = (v ++ before) ++ (first :: piece' ++ cs) := by simp [hv]
      rw [hsplit] at ho
      refine Source.charsFrom_eq hsplit (fun c hc => ?_) fun c hc => ?_
      · have hlt := SourceChar.byte_lt_stop (ho.append.1.width c hc)
        exact Nat.lt_of_lt_of_le hlt (ho.stop_le hc (List.mem_cons_self ..))
      · rcases List.mem_cons.1 hc with rfl | hc
        · exact Nat.le_refl _
        · have hlt := SourceChar.byte_lt_stop (ho.append.2.width first (List.mem_cons_self ..))
          have hle := (List.pairwise_cons.1 ho.append.2.apart).1 c hc
          omega
    obtain ⟨blanks', hc, hb'⟩ := Lexer.covers_lexAll .plain (piece ++ cs)
    obtain ⟨blanks'', hc', hb'', -⟩ := hc.blank hbefore
    refine ⟨blanks'' ++ blanks', ?_, fun c hc => ?_⟩
    · rw [List.append_assoc] at h1
      simp only [List.head?_cons, Option.map_some, Option.getD_some]
      rw [show tokensFrom s u.start = Lexer.lexAll .plain (s.charsFrom u.start) from rfl, hchars]
      exact h1.append hc'
    · rcases List.mem_append.1 hc with hc | hc
      · exact hb'' c hc
      · exact hb' c hc

/-- Whether tokens stand in order between two bytes. -/
def InOrder : Nat → List Token → Nat → Prop
  | x, [], y => x ≤ y
  | x, t :: ts, y => x ≤ t.start ∧ t.start < t.stop ∧ InOrder t.stop ts y

/-- The tokens of characters in order stand in order. -/
lemma Covers.inOrder {cs rest : List SourceChar} {ts : List Token} {x y : Nat} (ho : Ordered cs)
    (h : Covers cs ts rest) (hx : ∀ c ∈ cs, x ≤ c.byte) (hxy : x ≤ y)
    (hy : ∀ c ∈ cs, c.stop ≤ y) : InOrder x ts y := by
  induction h generalizing x with
  | nil => exact hxy
  | @cons blanks piece cs t ts rest _ hs _ ih =>
    obtain ⟨first, hf, hstart⟩ := Option.map_eq_some_iff.1 hs.start
    obtain ⟨last, hl, hstop⟩ := Option.map_eq_some_iff.1 hs.stop
    have hfm := List.mem_of_mem_head? hf
    have hlm := List.mem_of_getLast? hl
    have hp := ho.append.1.append.2
    have hlt := SourceChar.byte_lt_stop (hp.width first hfm)
    have hle := hp.stop_le_getLast hfm hl
    have hmem : ∀ c ∈ piece, c ∈ blanks ++ piece ++ cs := fun c hc => by simp [hc]
    have h1 := hx first (hmem first hfm)
    have h2 := hy last (hmem last hlm)
    refine ⟨by omega, by omega, ih ho.append.2 (fun c hc => ?_) (by omega)
      fun c hc => hy c (List.mem_append_right _ hc)⟩
    rw [← hstop]
    exact ho.stop_le (List.mem_append_right _ hlm) hc

end C

end Reparse
