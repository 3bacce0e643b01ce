import Reparse.Proofs.Grafts
import Reparse.Proofs.Resumption

/-!
# Closed strings

A call that goes on from a checkpoint reads the tokens from there on as outside of strings. Where all
strings of a document are closed, that is how they were to be read: the readers of C leave a string
only after its closing quote (`Unquoted`), so that no step ends inside one. So a document without open
strings is settled (`settled_of_stringsClosed`), and with it one without quotes.
-/

namespace Reparse.C

open Item

namespace Lexer

/-- Whether no string is left open: after an opening quote comes the closing one, at most one stretch
of text between them. -/
inductive StringsClosed : List SourceChar → Prop where
  | done {cs} : lex .plain cs = none → StringsClosed cs
  | token {cs t rest} :
    lex .plain cs = some (t, .plain, rest) → StringsClosed rest → StringsClosed cs
  | empty {cs opening closing inside rest} :
    lex .plain cs = some (opening, .inString, inside) →
    lex .inString inside = some (closing, .plain, rest) → closing.kind = .quote →
    StringsClosed rest → StringsClosed cs
  | text {cs opening text closing inside after rest} :
    lex .plain cs = some (opening, .inString, inside) →
    lex .inString inside = some (text, .inString, after) → text.kind = .stringContent →
    lex .inString after = some (closing, .plain, rest) → closing.kind = .quote →
    StringsClosed rest → StringsClosed cs

/-- A token covers the characters from which it was read. -/
lemma Lexes.covers {mode mode' : Mode} {cs rest : List SourceChar} {t : Token}
    (h : Lexes mode cs t mode' rest) : Covers cs [t] rest := by
  obtain ⟨blanks, piece, rfl, hb, hs⟩ := h.split
  exact .cons hb hs .nil

/-- Outside of strings, a token opens one if it is a quote, and is a plain one otherwise. -/
lemma kind_of_lex {cs rest : List SourceChar} {t : Token} {mode : Mode}
    (h : lex .plain cs = some (t, mode, rest)) :
    (mode = .plain ∧ t.kind.isPlain = true) ∨ (mode = .inString ∧ t.kind = .quote) := by
  have h : lexPlain cs = some (t, mode, rest) := by simpa [lex] using h
  unfold lexPlain at h
  split at h
  · cases h
  rename_i c more hd
  have hplain := @scan_eq_quote c more
  generalize scan c more = r at h hplain
  obtain ⟨kind, size⟩ := r
  obtain ⟨rfl, rfl, -⟩ : token kind size c more = t ∧
      (if kind = .quote then Mode.inString else .plain) = mode ∧ more.drop (size - 1) = rest := by
    simpa using h
  by_cases hq : kind = .quote
  · exact .inr ⟨if_pos hq, hq⟩
  · refine .inl ⟨if_neg hq, ?_⟩
    show kind.isPlain = true
    by_contra hk
    exact hq (hplain (by simpa using hk))

/-- Only the character of a quote is one. -/
lemma char_of_scan {c : SourceChar} {cs : List SourceChar} (h : (scan c cs).1 = .quote) :
    c.char = '"' := by
  unfold scan at h
  split at h
  case h_11 hc => exact hc
  case h_12 => split at h <;> cases h
  case h_13 =>
    split at h
    · cases h
    split at h
    · have hw := isPlain_wordKind (c.char :: (run c.range isWordPart cs).map (·.char))
      rw [show wordKind _ = .quote from h] at hw
      cases hw
    · cases h
  all_goals cases h

/-- A quote token was read from a quote. -/
lemma exists_quote_of_lex {cs rest : List SourceChar} {t : Token} {mode : Mode}
    (h : lex .plain cs = some (t, mode, rest)) (hk : t.kind = .quote) : ∃ c ∈ cs, c.char = '"' := by
  have h : lexPlain cs = some (t, mode, rest) := by simpa [lex] using h
  unfold lexPlain at h
  split at h
  · cases h
  rename_i c more hd
  have hmem : c ∈ cs := by
    refine (List.dropWhile_suffix (l := cs) fun c => Text.isBlank c.char).subset ?_
    rw [hd]
    exact List.mem_cons_self ..
  obtain ⟨rfl, -, -⟩ : token (scan c more).1 (scan c more).2 c more = t ∧ _ ∧ _ := by
    simpa using h
  exact ⟨c, hmem, char_of_scan hk⟩

/-- Where there is no quote, no string is left open. -/
lemma stringsClosed_of_forall_ne {cs : List SourceChar} (h : ∀ c ∈ cs, c.char ≠ '"') :
    StringsClosed cs := by
  induction hn : cs.length using Nat.strong_induction_on generalizing cs with
  | _ n ih =>
    cases hl : lex .plain cs with
    | none => exact .done hl
    | some r =>
      obtain ⟨t, mode, rest⟩ := r
      have hlex := lexes_lex hl
      obtain ⟨blanks, piece, hcs, -, -⟩ := hlex.split
      rcases kind_of_lex hl with ⟨rfl, -⟩ | ⟨-, hk⟩
      · refine .token hl (ih _ (hn ▸ hlex.length_lt) (fun c hc => h c ?_) rfl)
        rw [hcs]
        exact List.mem_append_right _ hc
      · obtain ⟨c, hc, hchar⟩ := exists_quote_of_lex hl hk
        exact absurd hchar (h c hc)

end Lexer

open Lexer (StringsClosed)

/-- Whether what is left to read of a source starts outside of strings, all of which are closed. -/
structure Unquoted (source : Source) (ts : List Token) : Prop where
  ordered : Ordered source.chars
  exists_byte : ∃ x, StringsClosed (source.charsFrom x) ∧ tokensFrom source x = ts

namespace Unquoted

variable {source : Source} {ts : List Token} {t : Token}

/-- What is left to read is read again from where it starts. -/
lemma tokensFrom_eq (h : Unquoted source ts) :
    tokensFrom source ((ts.head?.map (·.start)).getD source.endOfInput) = ts := by
  obtain ⟨x, -, rfl⟩ := h.exists_byte
  cases hx : tokensFrom source x with
  | nil =>
    show Lexer.lexAll .plain (source.charsFrom source.endOfInput) = []
    rw [source.charsFrom_endOfInput h.ordered, Lexer.lexAll_of_none rfl]
  | cons t ts =>
    obtain ⟨blanks, hc, -⟩ := Lexer.covers_lexAll .plain (source.charsFrom x)
    have hc' : Covers (source.charsFrom x) (t :: ts) blanks := hx ▸ hc
    exact (Covers.tokensFrom_start h.ordered hc').symm.trans hx

/-- What is left goes on after tokens that were read, if no string is open after them. -/
lemma of_covers (ho : Ordered source.chars) {x : Nat} {a : List Token} {rest : List SourceChar}
    (hc : Covers (source.charsFrom x) (a ++ [t]) rest) (hs : StringsClosed rest) :
    Unquoted source (Lexer.lexAll .plain rest) := by
  have hrest := hc.charsFrom_stop ho
  exact ⟨ho, t.stop, by rwa [hrest], by rw [← hrest]; rfl⟩

/-- What comes after a token that is no part of a string. -/
lemma tail (h : Unquoted source (t :: ts)) (ht : t.kind.isPlain = true) : Unquoted source ts := by
  obtain ⟨x, hs, hx⟩ := h.exists_byte
  have hx : Lexer.lexAll .plain (source.charsFrom x) = t :: ts := hx
  have hopened : ∀ {opening inside},
      Lexer.lex .plain (source.charsFrom x) = some (opening, .inString, inside) → False := by
    intro opening inside hl
    rw [Lexer.lexAll_of_some hl] at hx
    obtain ⟨rfl, -⟩ := List.cons.inj hx
    rcases Lexer.kind_of_lex hl with ⟨hm, -⟩ | ⟨-, hk⟩
    · cases hm
    · rw [hk] at ht
      cases ht
  cases hs with
  | done hl =>
    rw [Lexer.lexAll_of_none hl] at hx
    cases hx
  | token hl hs =>
    rw [Lexer.lexAll_of_some hl] at hx
    obtain ⟨rfl, rfl⟩ := List.cons.inj hx
    exact of_covers h.ordered (a := []) (Lexer.lexes_lex hl).covers hs
  | empty hl => exact (hopened hl).elim
  | text hl => exact (hopened hl).elim

/-- Outside of strings, no text of a string comes next. -/
lemma ne_stringContent (h : Unquoted source (t :: ts)) : t.kind ≠ .stringContent := by
  obtain ⟨x, -, hx⟩ := h.exists_byte
  have hx : Lexer.lexAll .plain (source.charsFrom x) = t :: ts := hx
  cases hl : Lexer.lex .plain (source.charsFrom x) with
  | none =>
    rw [Lexer.lexAll_of_none hl] at hx
    cases hx
  | some r =>
    obtain ⟨u, mode, rest⟩ := r
    rw [Lexer.lexAll_of_some hl] at hx
    obtain ⟨rfl, -⟩ := List.cons.inj hx
    rcases Lexer.kind_of_lex hl with ⟨-, hk⟩ | ⟨-, hk⟩
    · intro hc
      rw [hc] at hk
      cases hk
    · rw [hk]
      decide

end Unquoted

/-! ## Readers -/

/-- An empty string is over with its closing quote. -/
lemma rest_stringLiteral_empty {opening closing : Token} (hc : closing.kind = .quote)
    (ts : List Token) : (stringLiteral opening (closing :: ts)).2 = ts := by
  simp [stringLiteral, takeIf, expect, take, comments, ahead?, Token.isComment, hc]

/-- A string with a text is over with its closing quote. -/
lemma rest_stringLiteral_text {opening text closing : Token} (ht : text.kind = .stringContent)
    (hc : closing.kind = .quote) (ts : List Token) :
    (stringLiteral opening (text :: closing :: ts)).2 = ts := by
  simp [stringLiteral, takeIf, expect, take, comments, ahead?, Token.isComment, ht, hc]

namespace Unquoted

variable {source : Source} {ts : List Token} {t : Token}

/-- A string is read up to its closing quote. -/
lemma stringLiteral (h : Unquoted source (t :: ts)) (ht : t.kind = .quote) :
    Unquoted source (C.stringLiteral t ts).2 := by
  obtain ⟨x, hs, hx⟩ := h.exists_byte
  have hx : Lexer.lexAll .plain (source.charsFrom x) = t :: ts := hx
  cases hs with
  | done hl =>
    rw [Lexer.lexAll_of_none hl] at hx
    cases hx
  | token hl _ =>
    rw [Lexer.lexAll_of_some hl] at hx
    obtain ⟨rfl, -⟩ := List.cons.inj hx
    rcases Lexer.kind_of_lex hl with ⟨-, hk⟩ | ⟨hm, -⟩
    · rw [ht] at hk
      cases hk
    · cases hm
  | empty ho hc hk hs =>
    rw [Lexer.lexAll_of_some ho, Lexer.lexAll_of_some hc] at hx
    obtain ⟨rfl, rfl⟩ := List.cons.inj hx
    rw [rest_stringLiteral_empty hk]
    exact of_covers h.ordered (a := [_])
      ((Lexer.lexes_lex ho).covers.append (Lexer.lexes_lex hc).covers) hs
  | text ho htext hk hc hk' hs =>
    rw [Lexer.lexAll_of_some ho, Lexer.lexAll_of_some htext, Lexer.lexAll_of_some hc] at hx
    obtain ⟨rfl, rfl⟩ := List.cons.inj hx
    rw [rest_stringLiteral_text hk hk']
    exact of_covers h.ordered (a := [_, _]) ((Lexer.lexes_lex ho).covers.append
      ((Lexer.lexes_lex htext).covers.append (Lexer.lexes_lex hc).covers)) hs

/-- Comments may be skipped outside of strings. -/
lemma comments (h : Unquoted source ts) : Unquoted source (C.comments ts).2 := by
  show Unquoted source (ts.dropWhile (·.isComment))
  induction ts with
  | nil => exact h
  | cons t ts ih =>
    rw [List.dropWhile_cons]
    split
    · rename_i hc
      have hk : t.kind = .comment := by simpa [Token.isComment] using hc
      exact ih (h.tail (by rw [hk]; rfl))
    · exact h

/-- A plain token may be taken outside of strings. -/
lemma take {k : Terminal} (h : Unquoted source ts) (ha : ahead? ts = some k)
    (hk : k.isPlain = true) (field : Option Field) : Unquoted source (C.take field ts).2 := by
  have hc := h.comments
  have ha' : (C.comments ts).2.head?.map (·.kind) = some k := ha
  unfold C.take
  split
  · rename_i heq
    rwa [heq] at hc
  · rename_i before t rest heq
    rw [heq] at hc ha'
    obtain rfl : t.kind = k := by simpa using ha'
    exact hc.tail hk

/-- A plain token that need not be there may be taken outside of strings. -/
lemma takeIf {k : Terminal} (h : Unquoted source ts) (hk : k.isPlain = true)
    (field : Option Field) : Unquoted source (C.takeIf k field ts).2 := by
  unfold C.takeIf
  split
  · exact h.take ‹_› hk field
  · exact h.comments

/-- A plain token may be expected outside of strings. -/
lemma expect {k : Terminal} (h : Unquoted source ts) (hk : k.isPlain = true)
    (field : Option Field) : Unquoted source (C.expect k field ts).2 := by
  unfold C.expect
  split
  · exact h.take ‹_› hk field
  · exact h.comments

/-- Elements that are read outside of strings end there. -/
lemma elements {element : List Token → Reading × Bool} (first : List Terminal)
    (helement : ∀ us, Unquoted source us → Unquoted source (element us).1.2) (count : Nat)
    (h : Unquoted source ts) : Unquoted source (C.elements first element count ts).2 := by
  induction count generalizing ts with
  | zero => exact h
  | succ count ih =>
    have hb := h.comments
    unfold C.elements
    split
    · rename_i heq
      rwa [heq] at hb
    rename_i before t rest heq
    rw [heq] at hb
    split
    · exact hb
    split
    · rename_i hcomma
      exact ih (hb.tail (by rw [hcomma]; rfl))
    have hi := helement (t :: rest) hb
    generalize element (t :: rest) = r at hi
    obtain ⟨⟨items, rest'⟩, isElement⟩ := r
    have ha := hi.comments
    simp only
    split
    · split
      · rename_i heq
        rwa [heq] at ha
      · rename_i after u rest'' heq
        rw [heq] at ha
        split
        · rename_i hcomma
          exact ih (ha.tail (by rw [hcomma]; rfl))
        split
        · exact ih ha
        · exact ha
    · exact hi

/-- A list in parentheses that is read outside of strings ends there. -/
lemma parenthesized {element : List Token → Reading × Bool} (first : List Terminal)
    (helement : ∀ us, Unquoted source us → Unquoted source (element us).1.2)
    (h : Unquoted source ts) (ha : ahead? ts = some .leftParen) :
    Unquoted source (C.parenthesized first element ts).2 := by
  have hitems := (h.take ha rfl none).elements first helement ((C.take none ts).2.length + 1)
  exact hitems.expect (k := .rightParen) rfl none

end Unquoted

/-! ## Expressions -/

/-- Whether the readers of a depth leave no string open. -/
structure UnquotedWithin (source : Source) (depth : Nat) : Prop where
  expression : ∀ {ts}, Unquoted source ts → Unquoted source (expressionWithin depth ts).rest
  binary : ∀ {ts} power, Unquoted source ts → Unquoted source (binaryWithin depth power ts).rest
  join : ∀ {ts} power left, Unquoted source ts → Unquoted source (joinWithin depth power left ts).2
  primary : ∀ {ts}, Unquoted source ts → Unquoted source (primaryWithin depth ts).rest

namespace UnquotedWithin

variable {source : Source} {depth : Nat} {ts : List Token}

/-- An expression ends outside of strings if what the readers below it read does. -/
lemma expression_succ (h : UnquotedWithin source depth) (ho : Unquoted source ts) :
    Unquoted source (expressionWithin (depth + 1) ts).rest := by
  have hb := h.binary 0 ho
  unfold expressionWithin
  split
  · rename_i heq
    rwa [heq] at hb
  rename_i before left rest heq
  rw [heq] at hb
  split
  · exact h.expression (hb.take ‹_› rfl _)
  · exact hb

/-- An operand with what is joined to it ends outside of strings if what the readers below it read does. -/
lemma binary_succ (h : UnquotedWithin source depth) (power : Nat) (ho : Unquoted source ts) :
    Unquoted source (binaryWithin (depth + 1) power ts).rest := by
  have hp := h.primary ho
  unfold binaryWithin
  split
  · rename_i heq
    rwa [heq] at hp
  rename_i before left rest heq
  rw [heq] at hp
  exact h.join power left hp

/-- What is joined to an operand ends outside of strings if what the readers below it read does. -/
lemma join_succ (h : UnquotedWithin source depth) (power : Nat) (left : Item)
    (ho : Unquoted source ts) : Unquoted source (joinWithin (depth + 1) power left ts).2 := by
  unfold joinWithin
  split
  · exact ho
  rename_i p hp
  split
  · obtain ⟨operator, ha, hpower⟩ := Option.bind_eq_some_iff.1 hp
    have hplain : operator.isPlain = true := by
      cases operator <;> first | rfl | cases hpower
    exact h.join power _ (h.binary (p + 1) (ho.take ha hplain _))
  · exact ho

/-- A primary expression ends outside of strings if what the readers below it read does. -/
lemma primary_succ (h : UnquotedWithin source depth) (ho : Unquoted source ts) :
    Unquoted source (primaryWithin (depth + 1) ts).rest := by
  have hb := ho.comments
  unfold primaryWithin
  split
  · rename_i heq
    rwa [heq] at hb
  rename_i before t rest heq
  rw [heq] at hb
  split
  · rename_i hk
    have hrest := hb.tail (by rw [hk]; rfl)
    split
    · rename_i ha
      exact hrest.comments.parenthesized expressionFirst (fun us hus => h.expression hus)
        ((ahead?_comments rest).trans ha)
    · exact hrest
  · rename_i hk
    exact hb.tail (by rw [hk]; rfl)
  · exact hb.stringLiteral ‹_›
  · rename_i hk
    exact (h.expression (hb.tail (by rw [hk]; rfl))).expect rfl none
  · exact hb

end UnquotedWithin

/-- The readers of expressions leave no string open, however deep they go. -/
lemma unquotedWithin (source : Source) (depth : Nat) : UnquotedWithin source depth := by
  induction depth with
  | zero => exact ⟨id, fun _ => id, fun _ _ => id, id⟩
  | succ depth ih => exact ⟨ih.expression_succ, ih.binary_succ, ih.join_succ, ih.primary_succ⟩

/-! ## Declarations and statements -/

namespace Unquoted

variable {source : Source} {ts : List Token} {t : Token}

/-- An expression that is read outside of strings ends there. -/
lemma expression (h : Unquoted source ts) : Unquoted source (C.expression ts).rest :=
  (unquotedWithin source _).expression h

/-- A parameter that is read outside of strings ends there. -/
lemma parameter (h : Unquoted source ts) : Unquoted source (C.parameter ts).1.2 := by
  unfold C.parameter
  split
  · split
    · exact (h.expect rfl _).takeIf rfl _
    · exact h
  · exact h

/-- A declarator that is read outside of strings ends there. -/
lemma declarator (h : Unquoted source ts) : Unquoted source (C.declarator ts).1.2 := by
  have hb := h.comments
  unfold C.declarator
  split
  · rename_i heq
    rwa [heq] at hb
  rename_i before t rest heq
  rw [heq] at hb
  split
  · rename_i hk
    have hrest := (hb.tail (by rw [hk]; rfl)).comments
    simp only
    split
    · exact hrest.parenthesized parameterFirst (fun us hus => hus.parameter) ‹_›
    · exact (hrest.take ‹_› rfl none).expression
    · exact hrest
  · exact hb

/-- Further declarators that are read outside of strings end there. -/
lemma moreDeclarators (count : Nat) (h : Unquoted source ts) :
    Unquoted source (C.moreDeclarators count ts).2 := by
  induction count generalizing ts with
  | zero => exact h
  | succ count ih =>
    unfold C.moreDeclarators
    split
    · exact ih (h.take ‹_› rfl none).declarator
    · exact h.comments

/-- A declaration, from after its type on. -/
lemma declaration (mayDefine : Bool) (t : Token) (h : Unquoted source ts) :
    Unquoted source (C.declaration mayDefine t ts).2 := by
  have hd := h.declarator.comments
  have hwhole := (hd.moreDeclarators (C.comments (C.declarator ts).1.2).2.length).expect
    (k := .semicolon) rfl none
  unfold C.declaration
  simp only
  split
  · rename_i brace rest heq
    split
    · rename_i hbrace
      simp only [Bool.and_eq_true, beq_iff_eq] at hbrace
      rw [heq] at hd
      exact hd.tail (by rw [hbrace.2]; rfl)
    · exact hwhole
  · exact hwhole

/-- A return statement that is read outside of strings ends there. -/
lemma returnStatement (t : Token) (h : Unquoted source ts) :
    Unquoted source (C.returnStatement t ts).2 := by
  have hb := h.comments
  unfold C.returnStatement
  simp only
  split
  · exact hb.expect rfl none
  · exact hb.expression.expect rfl none

/-- An expression statement that is read outside of strings ends there. -/
lemma expressionStatement (h : Unquoted source ts) : Unquoted source (C.expressionStatement ts).2 :=
  h.expression.expect rfl none

/-- A statement ends outside of strings, also one that is an error. -/
lemma statement (h : Unquoted source (t :: ts)) : Unquoted source (C.statement t ts).2 := by
  unfold C.statement
  split
  · rename_i hk
    exact (h.tail (by rw [hk]; rfl)).declaration false t
  · rename_i hk
    exact h.tail (by rw [hk]; rfl)
  · rename_i hk
    exact (h.tail (by rw [hk]; rfl)).returnStatement t
  · rename_i hk
    exact h.tail (by rw [hk]; rfl)
  · rename_i hk
    exact h.tail (by rw [hk]; rfl)
  · split
    · exact h.expressionStatement
    · -- a token that starts no statement is no quote
      rename_i hf
      refine h.tail ?_
      have hquote : t.kind ≠ .quote := by
        intro hk
        exact hf (by rw [hk]; decide)
      simp [Terminal.isPlain, hquote, h.ne_stringContent]

/-- What stands at the top of a document and is read outside of strings ends there. -/
lemma topLevel (h : Unquoted source (t :: ts)) : Unquoted source (C.topLevel t ts).2 := by
  unfold C.topLevel
  split
  · rename_i hk
    exact (h.tail (by rw [hk]; rfl)).declaration true t
  · exact h.statement

/-! ## Steps -/

/-- A step of a parse without an old tree ends outside of strings. -/
lemma leads {s s' : State} (h : Unquoted source s.tokens) (hl : Leads source none s s') :
    Unquoted source s'.tokens := by
  have hpending : Unquoted source s.pending := h.comments
  obtain ⟨checks, hl⟩ := hl
  rcases step_cases source none s with ⟨hf, -⟩ | ⟨checks', s'', hn, hm⟩
  · rw [hf] at hl
    cases hl
  rw [hn] at hl
  cases hl
  cases hm with
  | closes => exact hpending.expect rfl none
  | reuses _ _ hr => cases hr
  | reads hp _ _ hr =>
    rw [hp] at hpending
    split at hr
    · have := hpending.topLevel
      rwa [hr] at this
    · have := hpending.statement
      rwa [hr] at this

/-- A parse that starts outside of strings goes on there. -/
lemma steps {s s' : State} (h : Unquoted source s.tokens) (hs : Steps source none s s') :
    Unquoted source s'.tokens := by
  induction hs with
  | refl => exact h
  | tail _ hl ih => exact ih.leads hl

end Unquoted

/-- A document whose strings are all closed is settled: at every checkpoint, what is still to be read is
what is read from there on as outside of strings. -/
theorem settled_of_stringsClosed {d : Document} {ranges : List Span}
    (h : StringsClosed (Source.ofDocument d ranges).chars) : Settled (.ofDocument d ranges) := by
  have hstart : Unquoted (.ofDocument d ranges) (State.start (.ofDocument d ranges) none).tokens :=
    ⟨Source.ordered_chars d ranges, 0, by rwa [Source.charsFrom_zero], rfl⟩
  exact fun s hs => (hstart.steps hs).tokensFrom_eq

/-- The string of `"a";` is closed. -/
example : Settled (.ofDocument ⟨[34, 97, 34, 59], .utf8⟩ []) := by decide +kernel

/-- A document without quotes is settled. -/
theorem settled_of_forall_ne_quote {d : Document} {ranges : List Span}
    (h : ∀ c ∈ (Source.ofDocument d ranges).chars, c.char ≠ '"') : Settled (.ofDocument d ranges) :=
  settled_of_stringsClosed (Lexer.stringsClosed_of_forall_ne h)

end Reparse.C
