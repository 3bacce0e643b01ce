import Reparse.Proofs.Layout
import Reparse.Proofs.Slices

/-!
# Locality of tokens

What the tokens of a stretch of a document depend on. A token depends on its own characters and on
the one after it (`lex_append`), so that tokens up to one that ends a statement are the same whatever
follows (`lexAll_append`). They are also the same wherever the characters stand (`lexAll_map`,
`lexAll_shift`).
-/

namespace Reparse.C

namespace Lexer

/-! ## What follows a token -/

section

variable {range : Nat} {cs rest : List SourceChar}

/-- A run that ends before the last of some characters does not depend on those after them. -/
lemma run_append {p : Char → Bool} (h : (run range p (cs ++ rest)).length < cs.length)
    (rest' : List SourceChar) : run range p (cs ++ rest') = run range p (cs ++ rest) := by
  induction cs with
  | nil => cases h
  | cons c cs ih =>
    simp only [run, List.cons_append, List.takeWhile_cons] at h ih ⊢
    split
    · rename_i hc
      rw [if_pos hc, List.length_cons, List.length_cons] at h
      rw [ih (by omega)]
    · rfl

/-- The next character does not depend on those after it. -/
lemma next?_append (h : cs ≠ []) (rest' : List SourceChar) :
    next? range (cs ++ rest') = next? range (cs ++ rest) := by
  cases cs with
  | nil => exact absurd rfl h
  | cons c cs => rfl

/-- A comment that ends before the last of some characters does not depend on those after them. -/
lemma blockComment_append (h : blockComment range (cs ++ rest) < cs.length)
    (rest' : List SourceChar) : blockComment range (cs ++ rest') = blockComment range (cs ++ rest) := by
  induction cs with
  | nil => cases h
  | cons c cs ih =>
    simp only [List.cons_append, blockComment] at h ⊢
    split
    · rfl
    · rename_i hr
      rw [if_neg hr] at h
      -- the comment ends inside, so that there is a character to look at
      have hne : cs ≠ [] := by
        rintro rfl
        split at h
        · simp at h
        · simp at h
      rw [@next?_append _ _ rest hne rest']
      split
      · rfl
      · rename_i hc
        rw [if_neg hc, List.length_cons] at h
        rw [ih (by omega)]

/-- A text that ends before the last of some characters does not depend on those after them. -/
lemma stringText_append (h : stringText range (cs ++ rest) < cs.length) (rest' : List SourceChar) :
    stringText range (cs ++ rest') = stringText range (cs ++ rest) := by
  induction hn : cs.length using Nat.strong_induction_on generalizing cs with
  | _ n ih =>
    match cs, h, hn with
    | [], h, _ => cases h
    | [c], h, _ =>
      -- a token without characters ends before the only one
      have hstop : c.range ≠ range ∨ c.char = '"' ∨ c.char = '\n' := by
        by_contra hc
        cases rest with
        | nil => simp [stringText, hc] at h
        | cons d rest =>
          simp only [List.cons_append, List.nil_append, stringText, if_neg hc] at h
          split at h <;> simp at h
      have hzero : ∀ more, stringText range ([c] ++ more) = 0 := by
        intro more
        cases more <;> simp [stringText, hstop]
      rw [hzero, hzero]
    | c :: d :: cs, h, hn =>
      simp only [List.cons_append, stringText, List.length_cons] at h hn ⊢
      split
      · rfl
      rename_i hc
      rw [if_neg hc] at h
      split
      · rename_i hd
        rw [if_pos hd] at h
        rw [ih cs.length (by omega) (by omega) rfl]
      · rename_i hd
        rw [if_neg hd] at h
        exact congrArg (· + 1) (ih (d :: cs).length (by rw [List.length_cons]; omega)
          (by rw [List.length_cons]; exact Nat.lt_of_succ_lt_succ h) rfl)

/-- A token that leaves a character is decided by what it takes and that character. -/
lemma scan_append {c : SourceChar} (h : (scan c (cs ++ rest)).2 ≤ cs.length)
    (rest' : List SourceChar) : scan c (cs ++ rest') = scan c (cs ++ rest) := by
  have hne : cs ≠ [] := by
    rintro rfl
    have := (isToken_scan c ([] ++ rest)).pos
    simp only [List.length_nil] at h
    omega
  revert h
  unfold scan
  split
  case h_12 =>
    rw [@next?_append _ _ rest hne rest']
    split
    · intro h
      rw [run_append (Nat.lt_of_succ_le h) rest']
    · intro h
      obtain ⟨d, cs, rfl⟩ := List.exists_cons_of_ne_nil hne
      simp only [List.cons_append, List.tail_cons, List.length_cons] at h ⊢
      rw [blockComment_append (Nat.lt_of_succ_lt_succ (Nat.lt_of_succ_le h)) rest']
    · exact fun _ => rfl
  case h_13 =>
    intro h
    split at h
    · rename_i hd
      rw [if_pos hd, if_pos hd, run_append (Nat.lt_of_succ_le h) rest']
    · rename_i hd
      rw [if_neg hd, if_neg hd]
      split at h
      · rename_i hw
        rw [if_pos hw, if_pos hw]
        dsimp only at h ⊢
        rw [run_append (Nat.lt_of_succ_le h) rest']
      · rename_i hw
        rw [if_neg hw, if_neg hw]
  all_goals exact fun _ => rfl

end

/-- Cutting a token off takes no character from what follows, if one is left before it. -/
lemma token_append {kind : Terminal} {size : Nat} {c : SourceChar} {cs rest : List SourceChar}
    (h : size ≤ cs.length) (hpos : 1 ≤ size) (rest' : List SourceChar) :
    token kind size c (cs ++ rest') = token kind size c (cs ++ rest) ∧
      (cs ++ rest').drop (size - 1) = cs.drop (size - 1) ++ rest' := by
  have hlt : size - 1 < cs.length := by omega
  have hdrop : ∀ more : List SourceChar, (cs ++ more).drop (size - 1) = cs.drop (size - 1) ++ more :=
    fun more => List.drop_append_of_le_length (Nat.le_of_lt hlt)
  have htake : ∀ more : List SourceChar, (cs ++ more).take (size - 1) = cs.take (size - 1) :=
    fun more => List.take_append_of_le_length (Nat.le_of_lt hlt)
  obtain ⟨d, ds, hd⟩ : ∃ d ds, cs.drop (size - 1) = d :: ds :=
    List.exists_cons_of_ne_nil (by rw [ne_eq, List.drop_eq_nil_iff]; omega)
  refine ⟨?_, hdrop rest'⟩
  simp only [token, htake, hdrop, hd, List.cons_append, List.head?_cons]

/-- What is left after blanks, where the first character that is not one lies before what follows. -/
lemma dropWhile_isBlank_append {cs rest more : List SourceChar} {c : SourceChar}
    (h : (cs ++ rest).dropWhile (fun c => Text.isBlank c.char) = c :: (more ++ rest))
    (rest' : List SourceChar) :
    (cs ++ rest').dropWhile (fun c => Text.isBlank c.char) = c :: (more ++ rest') := by
  have hsplit : (cs ++ rest).takeWhile (fun c => Text.isBlank c.char) ++ (c :: more) = cs := by
    have hall := @List.takeWhile_append_dropWhile _ (fun c : SourceChar => Text.isBlank c.char)
      (cs ++ rest)
    rw [h, ← List.cons_append, ← List.append_assoc] at hall
    exact List.append_cancel_right hall
  have hblank : ∀ d ∈ (cs ++ rest).takeWhile (fun c => Text.isBlank c.char),
      Text.isBlank d.char = true := fun d hd =>
    List.mem_takeWhile_imp (p := fun c : SourceChar => Text.isBlank c.char) hd
  have hc : Text.isBlank c.char = false := by
    have hhead := List.head?_dropWhile_not (fun c : SourceChar => Text.isBlank c.char) (cs ++ rest)
    rw [h] at hhead
    simpa using hhead
  generalize (cs ++ rest).takeWhile (fun c => Text.isBlank c.char) = blanks at hsplit hblank
  rw [← hsplit, List.append_assoc, List.dropWhile_append_of_pos hblank, List.cons_append,
    List.dropWhile_cons_of_neg (by simp [hc])]

/-- What is read outside of strings, where a character is left before what follows. -/
lemma lexPlain_append {cs rest r : List SourceChar} {t : Token} {mode : Mode}
    (h : lexPlain (cs ++ rest) = some (t, mode, r ++ rest)) (hr : r ≠ []) (rest' : List SourceChar) :
    lexPlain (cs ++ rest') = some (t, mode, r ++ rest') := by
  unfold lexPlain at h
  split at h
  · cases h
  rename_i c more hd
  have hpos := (isToken_scan c more).pos
  obtain ⟨ht, hmode, hrest⟩ : token (scan c more).1 (scan c more).2 c more = t ∧
      (if (scan c more).1 = .quote then Mode.inString else .plain) = mode ∧
      more.drop ((scan c more).2 - 1) = r ++ rest := by
    simpa using h
  -- the characters after the first one are those that are taken, those that are left, and the rest
  obtain ⟨mid, rfl⟩ : ∃ mid, more = mid ++ rest := by
    refine ⟨more.take ((scan c more).2 - 1) ++ r, ?_⟩
    rw [List.append_assoc, ← hrest, List.take_append_drop]
  have hsize : (scan c (mid ++ rest)).2 ≤ mid.length := by
    have hlen := congrArg List.length hrest
    have := List.length_pos_iff.2 hr
    simp only [List.length_drop, List.length_append] at hlen
    omega
  obtain ⟨htoken, hdrop⟩ := @token_append (scan c (mid ++ rest)).1 _ c mid rest hsize hpos rest'
  obtain ⟨-, hdrop₀⟩ := @token_append (scan c (mid ++ rest)).1 _ c mid rest hsize hpos rest
  have hr' : mid.drop ((scan c (mid ++ rest)).2 - 1) = r := by
    rw [hdrop₀] at hrest
    exact List.append_cancel_right hrest
  unfold lexPlain
  rw [dropWhile_isBlank_append hd rest']
  simp only [scan_append hsize rest', htoken, hdrop, hr', ht, hmode]

/-- What is read, where a character is left before what follows. -/
lemma lex_append {mode mode' : Mode} {cs rest r : List SourceChar} {t : Token}
    (h : lex mode (cs ++ rest) = some (t, mode', r ++ rest)) (hr : r ≠ []) (rest' : List SourceChar) :
    lex mode (cs ++ rest') = some (t, mode', r ++ rest') := by
  have hlt := (lexes_lex h).length_lt
  have hplain : lexPlain (cs ++ rest) = some (t, mode', r ++ rest) →
      lexPlain (cs ++ rest') = some (t, mode', r ++ rest') := fun h => lexPlain_append h hr rest'
  cases mode with
  | plain =>
    simp only [lex] at h ⊢
    exact hplain h
  | inString =>
    cases cs with
    | nil =>
      rw [List.nil_append, List.length_append] at hlt
      omega
    | cons c cs =>
      simp only [List.cons_append, lex] at h ⊢
      split at h
      · rename_i hn
        rw [if_pos hn]
        exact hplain h
      rename_i hn
      rw [if_neg hn]
      split at h
      · rename_i hq
        rw [if_pos hq]
        obtain ⟨ht, rfl, hrest⟩ : token .quote 1 c (cs ++ rest) = t ∧ Mode.plain = mode' ∧
            cs ++ rest = r ++ rest := by simpa using h
        obtain rfl := List.append_cancel_right hrest
        obtain ⟨htoken, -⟩ := @token_append .quote 1 c cs rest (List.length_pos_iff.2 hr)
          (Nat.le_refl 1) rest'
        rw [htoken, ht]
      · rename_i hq
        rw [if_neg hq]
        have hpos := (@isToken_stringText c (cs ++ rest) hq hn).pos
        obtain ⟨ht, rfl, hrest⟩ : token .stringContent (stringText c.range (c :: (cs ++ rest))) c
            (cs ++ rest) = t ∧ Mode.inString = mode' ∧
            (cs ++ rest).drop (stringText c.range (c :: (cs ++ rest)) - 1) = r ++ rest := by
          simpa using h
        have hsize : stringText c.range (c :: (cs ++ rest)) ≤ cs.length := by
          have hlen := congrArg List.length hrest
          have := List.length_pos_iff.2 hr
          simp only [List.length_drop, List.length_append] at hlen
          omega
        have htext := @stringText_append c.range (c :: cs) rest
          (by rw [List.length_cons, List.cons_append]; omega) rest'
        rw [List.cons_append, List.cons_append] at htext
        obtain ⟨htoken, hdrop⟩ := @token_append .stringContent _ c cs rest hsize hpos rest'
        obtain ⟨-, hdrop₀⟩ := @token_append .stringContent _ c cs rest hsize hpos rest
        rw [hdrop₀] at hrest
        simp only [htext, htoken, hdrop, ht, List.append_cancel_right hrest]

/-! ## Tokens up to one that ends a statement -/

/-- A semicolon or a brace is the same whatever follows, except that another character is looked at. -/
lemma lex_closer {mode mode' : Mode} {cs rest : List SourceChar} {t : Token}
    (h : lex mode (cs ++ rest) = some (t, mode', rest)) (ht : t.kind.isCloser = true)
    (rest' : List SourceChar) :
    ∃ t', lex mode (cs ++ rest') = some (t', .plain, rest') ∧ t'.word = t.word := by
  have hplain : lexPlain (cs ++ rest) = some (t, mode', rest) →
      ∃ t', lexPlain (cs ++ rest') = some (t', .plain, rest') ∧ t'.word = t.word := by
    intro h
    unfold lexPlain at h
    split at h
    · cases h
    rename_i c more hd
    obtain ⟨rfl, -, hrest⟩ : token (scan c more).1 (scan c more).2 c more = t ∧
        (if (scan c more).1 = .quote then Mode.inString else .plain) = mode' ∧
        more.drop ((scan c more).2 - 1) = rest := by
      simpa using h
    obtain ⟨hsize, hchar⟩ := (isToken_scan c more).closer ht
    rw [hsize] at hrest
    obtain rfl : more = rest := hrest
    have hscan : scan c rest' = scan c more := by
      rcases hchar with hc | hc <;> simp only [scan, hc]
    have hmode : (if (scan c more).1 = .quote then Mode.inString else .plain) = .plain := by
      rcases hchar with hc | hc <;> simp only [scan, hc] <;> rfl
    refine ⟨token (scan c more).1 1 c rest', ?_, by rw [hsize]; rfl⟩
    unfold lexPlain
    rw [@dropWhile_isBlank_append cs more [] c hd rest']
    simp only [List.nil_append, hscan, hmode, hsize, Nat.sub_self, List.drop_zero]
  have hne : cs ≠ [] := by
    rintro rfl
    exact absurd (lexes_lex h).length_lt (Nat.lt_irrefl _)
  cases mode with
  | plain =>
    simp only [lex] at h ⊢
    exact hplain h
  | inString =>
    obtain ⟨c, cs, rfl⟩ := List.exists_cons_of_ne_nil hne
    simp only [List.cons_append, lex] at h ⊢
    split at h
    · rename_i hn
      rw [if_pos hn]
      exact hplain h
    -- inside a string there is no such token
    split at h
    · obtain ⟨rfl, -⟩ : token .quote 1 c (cs ++ rest) = t ∧ _ := by simpa using h
      cases ht
    · obtain ⟨rfl, -⟩ : token .stringContent (stringText c.range (c :: (cs ++ rest))) c
          (cs ++ rest) = t ∧ _ := by simpa using h
      cases ht

end Lexer

/-- Where tokens end in characters that stand in order, the same characters are left. -/
lemma Covers.rest_unique {cs r r' : List SourceChar} {ts : List Token} (ho : Ordered cs)
    (h : Covers cs ts r) (h' : Covers cs ts r') : r = r' := by
  rcases List.eq_nil_or_concat ts with rfl | ⟨ts, t, rfl⟩
  · rw [h.eq_of_nil, h'.eq_of_nil]
  · rw [List.concat_eq_append] at h h'
    -- the characters are those of a source, in which they are told by where the last token stops
    let s : Source := ⟨⟨[], .utf8⟩, cs, [], []⟩
    have hs : s.charsFrom 0 = cs := s.charsFrom_zero
    have h1 := @Covers.charsFrom_stop s 0 _ _ _ ho (hs.symm ▸ h)
    have h2 := @Covers.charsFrom_stop s 0 _ _ _ ho (hs.symm ▸ h')
    rw [← h1, h2]

/-- Tokens cover characters. -/
lemma Covers.ne_nil {cs r : List SourceChar} {ts : List Token} (h : Covers cs ts r) (hts : ts ≠ []) :
    cs ≠ [] := by
  cases h with
  | nil => exact absurd rfl hts
  | cons _ hs _ =>
    intro hnil
    obtain ⟨hb, -⟩ := List.append_eq_nil_iff.1 hnil
    exact hs.ne_nil (List.append_eq_nil_iff.1 hb).2

namespace Lexer

/-- The tokens of characters up to one that ends a statement are the same whatever follows. -/
theorem lexAll_append {cs rest : List SourceChar} {ts us : List Token} {t : Token} {mode : Mode}
    (ho : Ordered (cs ++ rest)) (h : lexAll mode (cs ++ rest) = ts ++ t :: us)
    (hc : Covers cs (ts ++ [t]) []) (ht : t.kind.isCloser = true) (rest' : List SourceChar) :
    ∃ ts', lexAll mode (cs ++ rest') = ts' ++ lexAll .plain rest' ∧
      ts'.map Token.word = (ts ++ [t]).map Token.word := by
  have hfirst : ∀ {mode : Mode} {cs : List SourceChar} {u : Token} {ts vs : List Token},
      Ordered (cs ++ rest) → lexAll mode (cs ++ rest) = u :: vs → Covers cs (u :: ts) [] →
      ∃ mode' r, lex mode (cs ++ rest) = some (u, mode', r ++ rest) ∧ vs = lexAll mode' (r ++ rest) ∧
        Covers r ts [] ∧ Ordered (r ++ rest) := by
    intro mode cs u ts vs ho h hc
    cases hl : lex mode (cs ++ rest) with
    | none =>
      rw [lexAll_of_none hl] at h
      cases h
    | some q =>
      obtain ⟨u', mode', q⟩ := q
      rw [lexAll_of_some hl] at h
      obtain ⟨rfl, hvs⟩ := List.cons.inj h
      obtain ⟨blanks, piece, hsplit, hblank, hs⟩ := (lexes_lex hl).split
      cases hc with
      | @cons blanks' piece' r _ _ _ hb' hs' hc =>
        have h1 : Covers (blanks ++ piece ++ q) [u'] q := .cons hblank hs .nil
        have h2 : Covers (blanks' ++ piece' ++ (r ++ rest)) [u'] (r ++ rest) := .cons hb' hs' .nil
        rw [← hsplit] at h1
        rw [← List.append_assoc] at h2
        obtain rfl := Covers.rest_unique ho h1 h2
        refine ⟨mode', r, rfl, hvs.symm, hc, ?_⟩
        rw [List.append_assoc] at ho
        exact ho.append.2
  induction ts generalizing mode cs with
  | nil =>
    obtain ⟨mode', r, hl, -, hr, -⟩ := hfirst ho h hc
    obtain rfl := hr.eq_of_nil
    obtain ⟨t', hl', hw⟩ := lex_closer hl ht rest'
    exact ⟨[t'], lexAll_of_some hl', by rw [List.map_singleton, hw]; rfl⟩
  | cons u ts ih =>
    obtain ⟨mode', r, hl, hvs, hr, ho'⟩ := hfirst ho h hc
    obtain ⟨ts', hts', hw⟩ := ih ho' hvs.symm hr
    have hne := hr.ne_nil (List.append_ne_nil_of_right_ne_nil ts (List.cons_ne_nil t []))
    refine ⟨u :: ts', ?_, by rw [List.map_cons, hw]; rfl⟩
    rw [lexAll_of_some (lex_append hl hne rest'), hts']
    rfl

/-- Where the next token is no part of a string, it does not matter whether a string is read. -/
lemma lexAll_of_isPlain {mode : Mode} {cs : List SourceChar} {t : Token} {ts : List Token}
    (h : lexAll mode cs = t :: ts) (ht : t.kind.isPlain = true) : lexAll .plain cs = t :: ts := by
  cases hl : lex mode cs with
  | none =>
    rw [lexAll_of_none hl] at h
    cases h
  | some r =>
    obtain ⟨u, mode', rest⟩ := r
    rw [lexAll_of_some hl] at h
    obtain ⟨rfl, rfl⟩ := List.cons.inj h
    have hplain : lex .plain cs = some (u, mode', rest) := by
      cases mode with
      | plain => exact hl
      | inString =>
        cases cs with
        | nil => exact hl
        | cons c cs =>
          simp only [lex] at hl ⊢
          split at hl
          · exact hl
          split at hl
          · obtain ⟨rfl, -⟩ : token .quote 1 c cs = u ∧ _ := by simpa using hl
            cases ht
          · obtain ⟨rfl, -⟩ : token .stringContent (stringText c.range (c :: cs)) c cs = u ∧ _ := by
              simpa using hl
            cases ht
    exact lexAll_of_some hplain

/-! ## Tokens that stand elsewhere -/

section

/-- Whether characters stay the same and in the same ranges after a change. -/
def Keeps (φ : SourceChar → SourceChar) : Prop :=
  ∀ c, (φ c).char = c.char ∧ (φ c).range = c.range

variable {φ : SourceChar → SourceChar} (hφ : Keeps φ)

include hφ

/-- A run has as many characters wherever they stand. -/
lemma run_map (range : Nat) (p : Char → Bool) (cs : List SourceChar) :
    run range p (cs.map φ) = (run range p cs).map φ := by
  have hp : (fun c : SourceChar => c.range == range && p c.char) ∘ φ =
      fun c => c.range == range && p c.char :=
    funext fun c => by rw [Function.comp, (hφ c).1, (hφ c).2]
  rw [run, run, List.takeWhile_map, hp]

/-- The next character is the same wherever the characters stand. -/
lemma next?_map (range : Nat) (cs : List SourceChar) :
    next? range (cs.map φ) = next? range cs := by
  cases cs with
  | nil => rfl
  | cons c cs =>
    simp only [next?, List.map_cons, List.head?_cons, Option.filter_some, (hφ c).2]
    split
    · exact congrArg some (hφ c).1
    · rfl

/-- A comment is as long wherever its characters stand. -/
lemma blockComment_map (range : Nat) (cs : List SourceChar) :
    blockComment range (cs.map φ) = blockComment range cs := by
  induction cs with
  | nil => rfl
  | cons c cs ih => simp only [List.map_cons, blockComment, next?_map hφ, ih, (hφ c).1, (hφ c).2]

/-- A text is as long wherever its characters stand. -/
lemma stringText_map (range : Nat) (cs : List SourceChar) :
    stringText range (cs.map φ) = stringText range cs := by
  induction cs using stringText.induct range with
  | case1 => rfl
  | case2 c hc => simp only [List.map_cons, List.map_nil, stringText, (hφ c).1, (hφ c).2]
  | case3 c hc => simp only [List.map_cons, List.map_nil, stringText, (hφ c).1, (hφ c).2]
  | case4 c d cs hc =>
    simp only [List.map_cons, stringText, (hφ c).1, (hφ c).2, if_pos hc]
  | case5 c d cs hc hd ih =>
    simp only [List.map_cons, stringText, (hφ c).1, (hφ c).2, (hφ d).1, (hφ d).2, if_neg hc,
      if_pos hd, ih]
  | case6 c d cs hc hd ih =>
    simp only [List.map_cons, stringText, (hφ c).1, (hφ c).2, (hφ d).1, (hφ d).2, if_neg hc,
      if_neg hd] at ih ⊢
    rw [ih]

/-- What a token is does not depend on where its characters stand. -/
lemma scan_map (c : SourceChar) (cs : List SourceChar) : scan (φ c) (cs.map φ) = scan c cs := by
  have htail : (cs.map φ).tail = cs.tail.map φ := by
    cases cs <;> rfl
  have hmap : ∀ ds : List SourceChar, (ds.map φ).map (·.char) = ds.map (·.char) := fun ds => by
    rw [List.map_map]
    exact List.map_congr_left fun d _ => (hφ d).1
  simp only [scan, (hφ c).1, (hφ c).2, htail, run_map hφ, next?_map hφ, blockComment_map hφ,
    List.length_map, hmap]

/-! What is read of changed characters is, seen through `z`, what is read of the characters themselves
with its token changed by `g`, if tokens of the same characters are. -/

variable {g z : Token → Token}
  (hg : ∀ kind size c cs, z (token kind size (φ c) (cs.map φ)) = g (token kind size c cs))

include hg

/-- Outside of strings the next token has moved with its characters. -/
lemma lexPlain_map (cs : List SourceChar) :
    (lexPlain (cs.map φ)).map (fun r => (z r.1, r.2)) =
      (lexPlain cs).map fun r => (g r.1, r.2.1, r.2.2.map φ) := by
  have hblank : (fun c : SourceChar => Text.isBlank c.char) ∘ φ = fun c => Text.isBlank c.char :=
    funext fun c => by rw [Function.comp, (hφ c).1]
  unfold lexPlain
  rw [List.dropWhile_map, hblank]
  cases cs.dropWhile fun c => Text.isBlank c.char with
  | nil => rfl
  | cons c rest => simp only [List.map_cons, scan_map hφ, Option.map_some, hg, ← List.map_drop]

/-- The next token has moved with its characters. -/
lemma lex_map (mode : Mode) (cs : List SourceChar) :
    (lex mode (cs.map φ)).map (fun r => (z r.1, r.2)) =
      (lex mode cs).map fun r => (g r.1, r.2.1, r.2.2.map φ) := by
  cases mode with
  | plain => exact lexPlain_map hφ hg cs
  | inString =>
    cases cs with
    | nil => exact lexPlain_map hφ hg []
    | cons c cs =>
      have htext := stringText_map hφ c.range (c :: cs)
      have hplain := lexPlain_map hφ hg (c :: cs)
      rw [List.map_cons] at htext hplain ⊢
      simp only [lex, (hφ c).1, (hφ c).2, htext, ← List.map_drop]
      split
      · exact hplain
      · split
        · simp only [Option.map_some, hg]
        · simp only [Option.map_some, hg]

/-- The tokens of changed characters are the changed tokens. -/
theorem lexAll_map (mode : Mode) (cs : List SourceChar) :
    (lexAll mode (cs.map φ)).map z = (lexAll mode cs).map g := by
  induction hn : cs.length using Nat.strong_induction_on generalizing mode cs with
  | _ n ih =>
    have hmap := lex_map hφ hg mode cs
    cases hl : lex mode cs with
    | none =>
      rw [hl] at hmap
      rw [lexAll_of_none hl, lexAll_of_none (Option.map_eq_none_iff.1 hmap)]
      rfl
    | some r =>
      obtain ⟨t, mode', rest⟩ := r
      rw [hl] at hmap
      obtain ⟨⟨u, mode'', rest'⟩, hl', hr⟩ := Option.map_eq_some_iff.1 hmap
      obtain ⟨hu, rfl, rfl⟩ : z u = g t ∧ mode'' = mode' ∧ rest' = rest.map φ := by simpa using hr
      rw [lexAll_of_some hl, lexAll_of_some hl', List.map_cons, List.map_cons, hu,
        ih rest.length (hn ▸ (lexes_lex hl).length_lt) _ rest rfl]

end

/-- A token `x` bytes further on. -/
def moved (x : Nat) (t : Token) : Token := { t with start := x + t.start, stop := x + t.stop }

/-- A token of characters further on is as far on. -/
lemma token_shift (x : Nat) (kind : Terminal) (size : Nat) (c : SourceChar) (cs : List SourceChar) :
    token kind size (c.shift x) (cs.map (SourceChar.shift x)) = moved x (token kind size c cs) := by
  have hstop : ∀ d : SourceChar, (d.shift x).stop = x + d.stop := fun d => Nat.add_assoc ..
  have hlast : ∀ ds : List SourceChar, ((ds.map (SourceChar.shift x)).getLast?.getD (c.shift x)).stop =
      x + (ds.getLast?.getD c).stop := by
    intro ds
    rw [List.getLast?_map]
    cases ds.getLast? with
    | none => exact hstop c
    | some d => exact hstop d
  have hahead : ∀ ds : List SourceChar, ((ds.map (SourceChar.shift x)).head?.map (·.width)) =
      ds.head?.map (·.width) := fun ds => by
    rw [List.head?_map, Option.map_map]
    rfl
  simp only [token, moved, ← List.map_take, ← List.map_drop, hlast, hahead]
  rfl

/-- The tokens of characters that stand further on stand further on. -/
theorem lexAll_shift (x : Nat) (mode : Mode) (cs : List SourceChar) :
    lexAll mode (cs.map (SourceChar.shift x)) = (lexAll mode cs).map (moved x) := by
  have h := lexAll_map (show Keeps (SourceChar.shift x) from fun _ => ⟨rfl, rfl⟩) (z := id)
    (token_shift x) mode cs
  rwa [List.map_id] at h

end Lexer

end Reparse.C
