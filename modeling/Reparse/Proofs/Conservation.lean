import Mathlib.Tactic.Lemma
import Reparse.C.Engine

/-!
# Conservation of tokens

No reader of C loses a token: the tokens of what was read, followed by the tokens that are left,
are the tokens that it was given, in order. The main statements say so for expressions
(`keeps_expression`), for what is read in one go (`tokens_statement`, `tokens_topLevel`) and for
the steps of a parse without an old tree (`tokens_step`).
-/

namespace Reparse.C

open Item

/-- A reading of `ts` that lost no token. -/
def Reading.Keeps (ts : List Token) (r : Reading) : Prop := tokensOf r.1 ++ r.2 = ts

/-- Readings that follow one another lose nothing together. -/
lemma Reading.Keeps.append {ts : List Token} {r q : Reading} (h : r.Keeps ts)
    (h' : q.Keeps r.2) : Reading.Keeps ts (r.1 ++ q.1, q.2) := by
  simp_all [Reading.Keeps]

/-- Comments are kept as items. -/
lemma keeps_comments (ts : List Token) : (comments ts).Keeps ts := by
  simp [Reading.Keeps, comments]

/-- To take a token loses none. -/
lemma keeps_take (field : Option Field) (ts : List Token) : (take field ts).Keeps ts := by
  have h := keeps_comments ts
  unfold take
  split <;> simp_all [Reading.Keeps, tokensOf, tokens]

/-- To take a token that need not be there loses none. -/
lemma keeps_takeIf (kind : Terminal) (field : Option Field) (ts : List Token) :
    (takeIf kind field ts).Keeps ts := by
  unfold takeIf
  split
  · exact keeps_take field ts
  · exact keeps_comments ts

/-- To expect a token loses none. -/
lemma keeps_expect (kind : Terminal) (field : Option Field) (ts : List Token) :
    (expect kind field ts).Keeps ts := by
  have h := keeps_comments ts
  unfold expect
  split
  · exact keeps_take field ts
  · simp_all [Reading.Keeps, tokensOf, tokens]

/-- Elements lose no token if their reader loses none. -/
lemma keeps_elements (first : List Terminal) (element : List Token → Reading × Bool)
    (h : ∀ ts, (element ts).1.Keeps ts) (count : Nat) (ts : List Token) :
    (elements first element count ts).Keeps ts := by
  induction count generalizing ts with
  | zero => rfl
  | succ count ih =>
    have hb := keeps_comments ts
    unfold elements
    split
    · simp_all [Reading.Keeps]
    rename_i before t rest hts
    rw [hts] at hb
    split
    · exact hb
    split
    · have hm := ih rest
      refine hb.append (q := (_ :: _, _)) ?_
      simp_all [Reading.Keeps, tokensOf, tokens]
    have hi := h (t :: rest)
    generalize element (t :: rest) = r at hi
    obtain ⟨⟨items, rest'⟩, isElement⟩ := r
    have ha := keeps_comments rest'
    simp only
    split
    · split
      · rename_i hr
        rw [hr] at ha
        exact (hb.append hi).append ha
      · rename_i after u rest'' hr
        rw [hr] at ha
        have hia := (hb.append hi).append ha
        split
        · have hm := ih rest''
          refine hia.append (q := (_ :: _, _)) ?_
          simp_all [Reading.Keeps, tokensOf, tokens]
        split
        · have hm := ih (u :: rest'')
          refine hia.append (q := (_ :: _, _)) ?_
          simp_all [Reading.Keeps, tokensOf, tokens]
        · exact hia
    · exact hb.append hi

/-- A list in parentheses loses no token if the reader of its elements loses none. -/
lemma keeps_parenthesized (first : List Terminal) (element : List Token → Reading × Bool)
    (h : ∀ ts, (element ts).1.Keeps ts) (ts : List Token) :
    (parenthesized first element ts).Keeps ts := by
  have ht := (keeps_take none ts).append
    (keeps_elements first element h ((take none ts).2.length + 1) (take none ts).2)
  exact ht.append (keeps_expect .rightParen none _)

/-! ## Expressions -/

/-- A reading of an operand that lost no token of `ts`. -/
def OperandReading.Keeps (ts : List Token) (r : OperandReading) : Prop := r.items.Keeps ts

/-- An operand for which another node may stand in loses no token. -/
lemma OperandReading.Keeps.orMissing {ts : List Token} {r : OperandReading} (h : r.Keeps ts)
    (field : Option Field) : (r.orMissing field).Keeps ts := by
  obtain ⟨before, operand, rest⟩ := r
  cases operand <;> cases field <;>
    simp_all [OperandReading.Keeps, Reading.Keeps, items, OperandReading.orMissing, tokensOf,
      tokens]

/-- A string loses no token. -/
lemma keeps_stringLiteral (opening : Token) (ts : List Token) :
    Reading.Keeps (opening :: ts)
      ([(stringLiteral opening ts).1], (stringLiteral opening ts).2) := by
  have h := (keeps_takeIf .stringContent none ts).append
    (keeps_expect .quote none (takeIf .stringContent none ts).2)
  simp_all [Reading.Keeps, stringLiteral, tokensOf, tokens]

/-- The readers of expressions lose no token, however deep they go. -/
lemma keeps_within (depth : Nat) :
    (∀ ts, (expressionWithin depth ts).Keeps ts) ∧
    (∀ power ts, (binaryWithin depth power ts).Keeps ts) ∧
    (∀ power left ts, Reading.Keeps (left.tokens ++ ts)
      ([(joinWithin depth power left ts).1], (joinWithin depth power left ts).2)) ∧
    (∀ ts, (primaryWithin depth ts).Keeps ts) := by
  induction depth with
  | zero =>
    simp [expressionWithin, binaryWithin, joinWithin, primaryWithin, OperandReading.Keeps,
      OperandReading.items, Reading.Keeps, tokensOf]
  | succ depth ih =>
    obtain ⟨expr, bin, join, prim⟩ := ih
    refine ⟨fun ts => ?_, fun power ts => ?_, fun power left ts => ?_, fun ts => ?_⟩
    · have h := bin 0 ts
      unfold expressionWithin
      split
      · simp_all
      rename_i before left rest heq
      rw [heq] at h
      split
      · have hr := (keeps_take (some .operator) rest).append
          ((expr (take (some .operator) rest).2).orMissing (some .right))
        simp_all [OperandReading.Keeps, Reading.Keeps, OperandReading.items, tokensOf, tokens]
      · exact h
    · have h := prim ts
      unfold binaryWithin
      split
      · simp_all
      rename_i before left rest heq
      rw [heq] at h
      have hj := join power left rest
      simp_all [OperandReading.Keeps, Reading.Keeps, OperandReading.items, tokensOf]
    · unfold joinWithin
      split
      · simp [Reading.Keeps, tokensOf]
      rename_i p hp
      split
      · have hr := (keeps_take (some .operator) ts).append
          ((bin (p + 1) (take (some .operator) ts).2).orMissing (some .right))
        simp only [Reading.Keeps] at hr join ⊢
        simp [tokensOf] at join hr ⊢
        rw [join]
        simp [tokensOf, tokens, hr]
      · simp [Reading.Keeps, tokensOf]
    · have hb := keeps_comments ts
      unfold primaryWithin
      split
      · simp_all [OperandReading.Keeps, Reading.Keeps, OperandReading.items, tokensOf]
      rename_i before t rest hts
      rw [hts] at hb
      split
      · split
        · have hc := keeps_comments rest
          have hp := keeps_parenthesized expressionFirst
            (fun ts => ((expressionWithin depth ts).items,
              (expressionWithin depth ts).operand.isSome)) expr (comments rest).2
          have hr := hc.append hp
          simp_all [OperandReading.Keeps, Reading.Keeps, OperandReading.items, tokensOf, tokens]
        · simp_all [OperandReading.Keeps, Reading.Keeps, OperandReading.items, tokensOf, tokens]
      · simp_all [OperandReading.Keeps, Reading.Keeps, OperandReading.items, tokensOf, tokens]
      · have hs := keeps_stringLiteral t rest
        simp_all [OperandReading.Keeps, Reading.Keeps, OperandReading.items, tokensOf]
      · have hi := ((expr rest).orMissing none).append (keeps_expect .rightParen none _)
        simp_all [OperandReading.Keeps, Reading.Keeps, OperandReading.items, tokensOf, tokens]
      · simp_all [OperandReading.Keeps, Reading.Keeps, OperandReading.items, tokensOf]

/-- An expression loses no token. -/
lemma keeps_expression (ts : List Token) : (expression ts).Keeps ts :=
  (keeps_within _).1 ts

/-! ## Declarations and statements -/

/-- A parameter loses no token. -/
lemma keeps_parameter (ts : List Token) : (parameter ts).1.Keeps ts := by
  unfold parameter
  split
  · split
    · have h := (keeps_expect .primitiveType (some .type) ts).append
        (keeps_takeIf .identifier (some .declarator) _)
      simp_all [Reading.Keeps, tokensOf, tokens]
    · rfl
  · rfl

/-- A declarator loses no token. -/
lemma keeps_declarator (ts : List Token) : (declarator ts).1.Keeps ts := by
  have hb := keeps_comments ts
  unfold declarator
  split
  · simp_all [Reading.Keeps, tokensOf, tokens]
  rename_i before t rest hts
  rw [hts] at hb
  split
  · have hc := keeps_comments rest
    simp only
    split
    · have hp := hc.append (keeps_parenthesized parameterFirst parameter keeps_parameter _)
      simp_all [Reading.Keeps, tokensOf, tokens]
    · have hv := (hc.append (keeps_take none _)).append
        ((keeps_expression (take none (comments rest).2).2).orMissing (some .value))
      simp_all [Reading.Keeps, tokensOf, tokens]
    · simp_all [Reading.Keeps, tokensOf, tokens]
  · simp_all [Reading.Keeps, tokensOf, tokens]

/-- Further declarators lose no token. -/
lemma keeps_moreDeclarators (count : Nat) (ts : List Token) :
    (moreDeclarators count ts).Keeps ts := by
  induction count generalizing ts with
  | zero => rfl
  | succ count ih =>
    unfold moreDeclarators
    split
    · exact ((keeps_take none ts).append (keeps_declarator _)).append (ih _)
    · exact keeps_comments ts

/-- A declaration takes its tokens from the front and loses none. -/
lemma tokens_declaration (mayDefine : Bool) (t : Token) (ts : List Token) :
    (declaration mayDefine t ts).1.tokens ++ (declaration mayDefine t ts).2 = t :: ts := by
  have hd := (keeps_declarator ts).append (keeps_comments (declarator ts).1.2)
  have hw := (hd.append (keeps_moreDeclarators (comments (declarator ts).1.2).2.length _)).append
    (keeps_expect .semicolon none _)
  unfold declaration
  simp only
  split
  · rename_i brace rest hts
    split
    · simp_all [Reading.Keeps, Piece.tokens, tokensOf, tokens]
    · simp_all [Reading.Keeps, Piece.tokens, tokensOf, tokens]
  · simp_all [Reading.Keeps, Piece.tokens, tokensOf, tokens]

/-- A return statement loses no token. -/
lemma keeps_returnStatement (t : Token) (ts : List Token) :
    Reading.Keeps (t :: ts) ([(returnStatement t ts).1], (returnStatement t ts).2) := by
  have hb := keeps_comments ts
  unfold returnStatement
  simp only
  split
  · have h := hb.append (keeps_expect .semicolon none _)
    simp_all [Reading.Keeps, tokensOf, tokens]
  · have h := (hb.append (keeps_expression (comments ts).2)).append (keeps_expect .semicolon none _)
    simp_all [Reading.Keeps, tokensOf, tokens]

/-- An expression statement loses no token. -/
lemma keeps_expressionStatement (ts : List Token) :
    Reading.Keeps ts ([(expressionStatement ts).1], (expressionStatement ts).2) := by
  have h := Reading.Keeps.append (keeps_expression ts) (keeps_expect .semicolon none _)
  simp_all [Reading.Keeps, expressionStatement, tokensOf, tokens]

/-- A statement takes its tokens from the front and loses none. -/
lemma tokens_statement (t : Token) (ts : List Token) :
    (statement t ts).1.tokens ++ (statement t ts).2 = t :: ts := by
  unfold statement
  split
  · exact tokens_declaration false t ts
  · simp [Piece.tokens, tokensOf]
  · have h := keeps_returnStatement t ts
    simp_all [Reading.Keeps, Piece.tokens, tokensOf]
  · simp [Piece.tokens, tokensOf, tokens]
  · simp [Piece.tokens, tokens]
  · split
    · have h := keeps_expressionStatement (t :: ts)
      simp_all [Reading.Keeps, Piece.tokens, tokensOf]
    · simp [Piece.tokens, tokensOf, tokens]

/-- What stands at the top of a document takes its tokens from the front and loses none. -/
lemma tokens_topLevel (t : Token) (ts : List Token) :
    (topLevel t ts).1.tokens ++ (topLevel t ts).2 = t :: ts := by
  unfold topLevel
  split
  · exact tokens_declaration true t ts
  · exact tokens_statement t ts

/-! ## Steps -/

/-- What is still to come is no part of the tokens of a draft. -/
@[simp]
lemma Draft.tokens_after (d : Draft) (ts : List Token) : (d.after ts).tokens = d.tokens := rfl

/-- Added items add their tokens. -/
@[simp]
lemma Draft.tokens_add (d : Draft) (items : List Item) :
    (d.add items).tokens = d.tokens ++ tokensOf items := by
  simp [Draft.tokens, Draft.add]

/-- A piece adds its tokens. -/
@[simp]
lemma Draft.tokens_place (d : Draft) (p : Piece) : (d.place p).tokens = d.tokens ++ p.tokens := by
  cases p with
  | whole item => simp [Draft.place, Piece.tokens, tokensOf]
  | opened definition brace =>
    simp [Draft.place, Draft.tokens, Draft.tokensBefore, Piece.tokens, tokensOf, Item.tokens]

/-- The tokens that a step leaves, whether they are read or not. -/
def Step.tokens : Step → List Token
  | finished parts => tokensOf parts
  | next _ s => s.draft.tokens ++ s.tokens

/-- Where nothing is taken over, a step takes all tokens that it is given. -/
lemma tokens_advance (source : Source) (d : Draft) (t : Token) (ts : List Token) :
    (advance source none d t ts).tokens = d.tokens ++ t :: ts := by
  simp only [advance, State.reusable?, Option.bind_none, Step.tokens]
  split <;> simp [tokens_topLevel, tokens_statement]

/-- A block is closed without a loss. -/
lemma tokens_close {d : Draft} {b : Block} {outer : List Block} (h : d.blocks = b :: outer)
    (ts : List Token) : (close d b outer ts).tokens = d.tokens ++ ts := by
  have hk := keeps_expect .rightBrace none ts
  unfold close
  generalize expect .rightBrace none ts = r at hk ⊢
  obtain ⟨brace, rest⟩ := r
  simp only [Step.tokens, Draft.tokens_after]
  cases hd : b.definition <;>
    simp_all [Reading.Keeps, Draft.tokens, Draft.tokensBefore, Draft.closedBlock, tokensOf,
      Item.tokens]

/-- Without an old tree, a step loses no token. -/
lemma tokens_step (source : Source) (s : State) :
    (step source none s).tokens = s.draft.tokens ++ s.tokens := by
  have hc := keeps_comments s.tokens
  unfold step
  generalize comments s.tokens = r at hc ⊢
  obtain ⟨before, ts⟩ := r
  have hd : ((s.draft.add before).after (taken s.tokens ts)).tokens ++ ts =
      s.draft.tokens ++ s.tokens := by
    simp_all [Reading.Keeps]
  dsimp only
  generalize (s.draft.add before).after (taken s.tokens ts) = d at hd ⊢
  rw [← hd]
  cases ts with
  | nil =>
    cases hb : d.blocks with
    | nil => simp [Step.tokens, Draft.tokens, Draft.tokensBefore, hb]
    | cons b outer => exact tokens_close hb []
  | cons t rest =>
    cases hb : d.blocks with
    | nil => exact tokens_advance source d t rest
    | cons b outer =>
      dsimp only
      split
      · exact tokens_close hb (t :: rest)
      · exact tokens_advance source d t rest

end Reparse.C
