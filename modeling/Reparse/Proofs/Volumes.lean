import Mathlib.Algebra.GroupWithZero.Nat
import Reparse.Proofs.Soundness

/-!
# Volumes

How many events note what was read. A token is noted by at most two events, as a start that begins no
node may stand before it, and a node by two events besides those of its parts (`Item.volume`). Nodes and
missing tokens cost no more than what their own tokens leave over, so a statement is noted by at most ten
events for each of its tokens (`volume_statement`, `volume_topLevel`), and so is what a subtree stands for
that may be taken over (`Item.Is.affords`).
-/

namespace Reparse.C

namespace Item

mutual

/-- How many events note an item at most: two for a token, before which a start may stand that begins no
node, and two for a node besides those of its parts. -/
def volume : Item → Nat
  | token _ _ => 2
  | missing _ _ => 1
  | reused _ => 1
  | node _ _ parts => volumeOf parts + 2

/-- How many events note several items at most. -/
def volumeOf : List Item → Nat
  | [] => 0
  | i :: rest => i.volume + volumeOf rest

end

/-- Items in two parts are noted by the events of both. -/
@[simp]
lemma volumeOf_append (is js : List Item) : volumeOf (is ++ js) = volumeOf is + volumeOf js := by
  induction is with
  | nil => rw [List.nil_append, volumeOf, Nat.zero_add]
  | cons i is ih => rw [List.cons_append, volumeOf, volumeOf, ih, Nat.add_assoc]

/-- The order of items does not matter to their volume. -/
@[simp]
lemma volumeOf_reverse (is : List Item) : volumeOf is.reverse = volumeOf is := by
  induction is with
  | nil => rfl
  | cons i is ih => rw [List.reverse_cons, volumeOf_append, ih, volumeOf, volumeOf, volumeOf, Nat.add_comm]; rfl

/-- Tokens have two events each. -/
@[simp]
lemma volumeOf_map_token (field : Option Field) (ts : List Token) :
    volumeOf (ts.map (.token field)) = 2 * ts.length := by
  induction ts with
  | nil => rfl
  | cons t ts ih => rw [List.map_cons, volumeOf, ih, volume, List.length_cons, Nat.mul_succ, Nat.add_comm]

/-- A field takes no event. -/
@[simp]
lemma volume_under (f : Field) (i : Item) : (i.under f).volume = i.volume := by
  cases i <;> rfl

/-- Every item takes an event. -/
lemma volume_pos (i : Item) : 0 < i.volume := by
  cases i <;> simp [volume]

/-- Whether items are noted by at most ten events for each of their tokens, with `spare` of these left over
if `more` are granted besides. -/
def Affords (more spare : Nat) (is : List Item) : Prop :=
  volumeOf is + spare ≤ 10 * (tokensOf is).length + more

/-- Items in two parts leave over what both leave over. -/
lemma Affords.append {more spare more' spare' : Nat} {is js : List Item} (h : Affords more spare is)
    (h' : Affords more' spare' js) : Affords (more + more') (spare + spare') (is ++ js) := by
  simp only [Affords, volumeOf_append, tokensOf_append, List.length_append] at *
  omega

/-- What is left over may be spent, and does not have to be granted. -/
lemma Affords.of_le {more spare more' spare' : Nat} {is : List Item} (h : Affords more spare is)
    (hle : more + spare' ≤ more' + spare) : Affords more' spare' is := by
  simp only [Affords] at *
  omega

/-- Nothing affords itself. -/
lemma Affords.nil : Affords 0 0 [] := Nat.le_refl _

/-- A token leaves over eight events. -/
lemma affords_token (field : Option Field) (t : Token) : Affords 0 8 [.token field t] := Nat.le_refl _

/-- A missing token takes an event. -/
lemma affords_missing (field : Option Field) (kind : Terminal) : Affords 1 0 [.missing field kind] :=
  Nat.le_refl _

/-- A node takes two events besides those of its parts. -/
lemma Affords.node {more spare : Nat} {parts : List Item} (h : Affords more (spare + 2) parts)
    (field : Option Field) (rule : Rule) : Affords more spare [.node field rule parts] := by
  simp only [Affords, volumeOf, volume, tokensOf, tokens, List.append_nil] at *
  omega

end Item

open Item

/-! ## Tokens and lists -/

/-- Comments afford themselves. -/
lemma affords_comments (ts : List Token) : Affords 0 0 (comments ts).1 := by
  simp only [Affords, comments, volumeOf_map_token, tokensOf_map_token]
  omega

/-- A token that comes next leaves over eight events. -/
lemma affords_take {kind : Terminal} {ts : List Token} (field : Option Field)
    (h : ahead? ts = some kind) : Affords 0 8 (take field ts).1 := by
  have hb := affords_comments ts
  have hahead : (comments ts).2.head?.map (·.kind) = some kind := h
  unfold take
  split
  · rename_i hts
    rw [hts] at hahead
    cases hahead
  · rename_i hts
    rw [hts] at hb
    exact hb.append (affords_token field _)

/-- To take the next token, if there is one, takes no more than that token affords. -/
lemma affords_take_any (field : Option Field) (ts : List Token) : Affords 0 0 (take field ts).1 := by
  have hb := affords_comments ts
  unfold take
  split
  · rename_i hts
    rwa [hts] at hb
  · rename_i hts
    rw [hts] at hb
    exact (hb.append (affords_token field _)).of_le (by decide)

/-- A token that need not be there takes no more than it affords. -/
lemma affords_takeIf (kind : Terminal) (field : Option Field) (ts : List Token) :
    Affords 0 0 (takeIf kind field ts).1 := by
  unfold takeIf
  split
  · exact affords_take_any field ts
  · exact affords_comments ts

/-- A token that is expected takes an event more if it is missing. -/
lemma affords_expect (kind : Terminal) (field : Option Field) (ts : List Token) :
    Affords 1 0 (expect kind field ts).1 := by
  unfold expect
  split
  · exact (affords_take_any field ts).of_le (by decide)
  · exact (affords_comments ts).append (affords_missing field kind)

/-- Elements afford themselves if each of them leaves over an event for the comma after it. -/
lemma affords_elements {first : List Terminal} {element : List Token → Reading × Bool}
    (h : ∀ ts, Affords 0 0 (element ts).1.1 ∧ ((element ts).2 = true → Affords 0 1 (element ts).1.1))
    (count : Nat) (ts : List Token) : Affords 0 0 (elements first element count ts).1 := by
  induction count generalizing ts with
  | zero => exact Nat.le_refl _
  | succ count ih =>
    have hb := affords_comments ts
    unfold elements
    split
    · rename_i hts
      rwa [hts] at hb
    rename_i before t rest hts
    rw [hts] at hb
    split
    · exact hb
    split
    · have herror := ((affords_token none t).node none .error).append (ih rest)
      exact (hb.append herror).of_le (by decide)
    obtain ⟨hany, hi⟩ := h (t :: rest)
    generalize element (t :: rest) = r at hany hi
    obtain ⟨⟨items, rest'⟩, isElement⟩ := r
    have ha := affords_comments rest'
    dsimp only
    split
    · have hone := hi ‹_›
      split
      · rename_i hr
        rw [hr] at ha
        exact ((hb.append hone).append ha).of_le (by decide)
      · rename_i after u rest'' hr
        rw [hr] at ha
        have hia := (hb.append hone).append ha
        split
        · have hall := hia.append ((affords_token none u).append (ih rest''))
          exact hall.of_le (by decide)
        split
        · -- the event that the element leaves over is that of the missing comma
          have hall := hia.append ((affords_missing none .comma).append (ih (u :: rest'')))
          exact hall.of_le (by decide)
        · exact hia.of_le (by decide)
    · exact hb.append hany

/-- A list in parentheses takes an event more if its last parenthesis is missing. -/
lemma affords_parenthesized {first : List Terminal} {element : List Token → Reading × Bool}
    (h : ∀ ts, Affords 0 0 (element ts).1.1 ∧ ((element ts).2 = true → Affords 0 1 (element ts).1.1))
    (ts : List Token) : Affords 1 0 (parenthesized first element ts).1 := by
  have helements := @affords_elements first element h ((take none ts).2.length + 1) (take none ts).2
  exact ((affords_take_any none ts).append helements).append (affords_expect .rightParen none _)

/-! ## Expressions -/

/-- Whether an operand, if there is one, leaves over three events. -/
def OperandReading.Affords (r : OperandReading) : Prop :=
  Item.Affords 0 0 r.before ∧ ∀ i ∈ r.operand, Item.Affords 0 3 [i]

namespace OperandReading.Affords

variable {r : OperandReading}

/-- The items of an operand. -/
lemma items (h : r.Affords) : Item.Affords 0 0 r.items.1 ∧
    (r.operand.isSome = true → Item.Affords 0 3 r.items.1) := by
  obtain ⟨before, operand, rest⟩ := r
  obtain ⟨hb, ho⟩ := h
  cases operand with
  | none =>
    refine ⟨?_, fun hs => by cases hs⟩
    rwa [OperandReading.items, Option.toList_none, List.append_nil]
  | some i =>
    have hall := hb.append (ho i rfl)
    exact ⟨hall.of_le (by decide), fun _ => hall⟩

/-- An operand that is asked for takes an event more if it is missing. -/
lemma orMissing (h : r.Affords) (field : Option Field) : Item.Affords 1 0 (r.orMissing field).1 := by
  obtain ⟨before, operand, rest⟩ := r
  obtain ⟨hb, ho⟩ := h
  cases operand with
  | none => cases field <;> exact hb.append (affords_missing _ .identifier)
  | some i =>
    have hall : Item.Affords 1 0 (before ++ [i]) := (hb.append (ho i rfl)).of_le (by decide)
    cases field with
    | none => exact hall
    | some f =>
      show Item.Affords 1 0 (before ++ [i.under f])
      simpa [Item.Affords, volumeOf, tokensOf] using hall

end OperandReading.Affords

/-- A string leaves over three events. -/
lemma affords_stringLiteral (opening : Token) (ts : List Token) :
    Affords 0 3 [(stringLiteral opening ts).1] := by
  have htext := (affords_takeIf .stringContent none ts).append
    (affords_expect .quote none (takeIf .stringContent none ts).2)
  have hparts := (affords_token none opening).append htext
  exact Affords.node (hparts.of_le (by decide)) none .stringLiteral

/-- An operation leaves over three events, as its operator comes next and its left operand does so too. -/
lemma affords_operation {left : Item} {kind : Terminal} {ts : List Token} {right : OperandReading}
    (hl : Affords 0 3 [left]) (ha : ahead? ts = some kind) (hr : right.Affords) (rule : Rule) :
    Affords 0 3 [.node none rule
      (left.under .left :: ((take (some .operator) ts).1 ++ (right.orMissing (some .right)).1))] := by
  have hleft : Affords 0 3 [left.under .left] := by simpa [Affords, volumeOf, tokensOf] using hl
  have hparts := hleft.append ((affords_take (some .operator) ha).append (hr.orMissing (some .right)))
  exact Affords.node (hparts.of_le (by decide)) none rule

/-- An operand without operators of its own leaves over three events if the expressions in it do. -/
lemma affords_primary {depth : Nat} (expr : ∀ ts, (expressionWithin depth ts).Affords) (ts : List Token) :
    (primaryWithin (depth + 1) ts).Affords := by
  have hb := affords_comments ts
  unfold primaryWithin
  split
  · rename_i hts
    rw [hts] at hb
    exact ⟨hb, fun i hi => by cases hi⟩
  rename_i before t rest hts
  rw [hts] at hb
  split
  · split
    · -- a call
      have harguments := @affords_parenthesized expressionFirst
        (fun ts => ((expressionWithin depth ts).items, (expressionWithin depth ts).operand.isSome))
        (fun ts => ⟨(expr ts).items.1, fun hs => ((expr ts).items.2 hs).of_le (by decide)⟩) (comments rest).2
      have hlist := (harguments.of_le (by decide : 1 + 2 ≤ 3 + 0)).node (some .arguments) .argumentList
      have hparts := (affords_token (some .function) t).append ((affords_comments rest).append hlist)
      refine ⟨hb, fun i hi => ?_⟩
      obtain rfl := Option.some.inj hi
      exact Affords.node (hparts.of_le (by decide)) none .callExpression
    · refine ⟨hb, fun i hi => ?_⟩
      obtain rfl := Option.some.inj hi
      exact (affords_token none t).of_le (by decide)
  · refine ⟨hb, fun i hi => ?_⟩
    obtain rfl := Option.some.inj hi
    exact (affords_token none t).of_le (by decide)
  · refine ⟨hb, fun i hi => ?_⟩
    obtain rfl := Option.some.inj hi
    exact affords_stringLiteral t rest
  · -- an expression in parentheses
    have hinner := ((expr rest).orMissing none).append
      (affords_expect .rightParen none ((expressionWithin depth rest).orMissing none).2)
    refine ⟨hb, fun i hi => ?_⟩
    obtain rfl := Option.some.inj hi
    exact Affords.node (((affords_token none t).append hinner).of_le (by decide)) none
      .parenthesizedExpression
  · exact ⟨hb, fun i hi => by cases hi⟩

/-- The readers of expressions read operands that leave over three events, however deep they go. -/
lemma affords_within (depth : Nat) :
    (∀ ts, (expressionWithin depth ts).Affords) ∧
    (∀ power ts, (binaryWithin depth power ts).Affords) ∧
    (∀ power left ts, Affords 0 3 [left] → Affords 0 3 [(joinWithin depth power left ts).1]) ∧
    (∀ ts, (primaryWithin depth ts).Affords) := by
  induction depth with
  | zero =>
    have hnone : ∀ ts, OperandReading.Affords ⟨[], none, ts⟩ :=
      fun ts => ⟨Nat.le_refl _, fun i hi => by cases hi⟩
    exact ⟨hnone, fun _ => hnone, fun _ _ _ h => h, hnone⟩
  | succ depth ih =>
    obtain ⟨expr, bin, join, prim⟩ := ih
    refine ⟨fun ts => ?_, fun power ts => ?_, fun power left ts hl => ?_, fun ts => ?_⟩
    · have h := bin 0 ts
      unfold expressionWithin
      split
      · rename_i heq
        rwa [heq] at h
      rename_i before left rest heq
      rw [heq] at h
      obtain ⟨hb, hleft⟩ := h
      split
      · refine ⟨hb, fun i hi => ?_⟩
        obtain rfl := Option.some.inj hi
        exact affords_operation (hleft left rfl) ‹_› (expr _) .assignmentExpression
      · exact ⟨hb, hleft⟩
    · have h := prim ts
      unfold binaryWithin
      split
      · rename_i heq
        rwa [heq] at h
      rename_i before left rest heq
      rw [heq] at h
      refine ⟨h.1, fun i hi => ?_⟩
      obtain rfl := Option.some.inj hi
      exact join power left rest (h.2 left rfl)
    · unfold joinWithin
      split
      · exact hl
      rename_i p hp
      obtain ⟨operator, ha, -⟩ := Option.bind_eq_some_iff.1 hp
      split
      · exact join power _ _ (affords_operation hl ha (bin (p + 1) _) .binaryExpression)
      · exact hl
    · exact affords_primary expr ts

/-- Where an expression starts there is one. -/
lemma isSome_expression {ts : List Token} {kind : Terminal} (ha : ahead? ts = some kind)
    (hf : kind ∈ expressionFirst) : (expression ts).operand.isSome = true := by
  have hprimary : ∀ depth, (primaryWithin (depth + 1) ts).operand.isSome = true := by
    intro depth
    have hahead : (comments ts).2.head?.map (·.kind) = some kind := ha
    unfold primaryWithin
    generalize comments ts = r at hahead
    obtain ⟨before, _ | ⟨t, rest⟩⟩ := r
    · cases hahead
    obtain rfl := Option.some.inj hahead
    simp only [expressionFirst, List.mem_cons, List.not_mem_nil, or_false] at hf
    rcases hf with hk | hk | hk | hk <;> simp only [hk]
    · split <;> rfl
    all_goals rfl
  obtain ⟨depth, hdepth⟩ : ∃ depth, depthBound ts.length = depth + 1 + 1 + 1 := ⟨4 * ts.length + 1, rfl⟩
  have hbinary : (binaryWithin (depth + 1 + 1) 0 ts).operand.isSome = true := by
    have h := hprimary depth
    unfold binaryWithin
    split
    · rename_i heq
      rw [heq] at h
      cases h
    · rfl
  rw [expression, hdepth]
  unfold expressionWithin
  split
  · rename_i heq
    rw [heq] at hbinary
    cases hbinary
  · split <;> rfl

/-- An expression leaves over three events. -/
lemma affords_expression (ts : List Token) : (expression ts).Affords := (affords_within _).1 ts

/-! ## Declarations and statements -/

/-- A parameter leaves over an event. -/
lemma affords_parameter (ts : List Token) : Affords 0 0 (parameter ts).1.1 ∧
    ((parameter ts).2 = true → Affords 0 1 (parameter ts).1.1) := by
  unfold parameter
  cases ha : ahead? ts with
  | none => exact ⟨Nat.le_refl _, fun h => by cases h⟩
  | some kind =>
    dsimp only
    split
    · rename_i hf
      have hparts : Affords 0 3 ((expect .primitiveType (some .type) ts).1 ++
          (takeIf .identifier (some .declarator) (expect .primitiveType (some .type) ts).2).1) := by
        simp only [parameterFirst, List.mem_cons, List.not_mem_nil, or_false] at hf
        rcases hf with rfl | rfl
        · have htype := affords_take (some .type) ha
          rw [expect, if_pos ha]
          exact (htype.append (affords_takeIf .identifier (some .declarator) _)).of_le (by decide)
        · -- the type is missing, and the name comes next
          have hname := affords_take (some .declarator) ((ahead?_comments ts).trans ha)
          have htype := (affords_comments ts).append (affords_missing (some .type) .primitiveType)
          rw [expect, if_neg (by rw [ha]; decide)]
          dsimp only
          rw [takeIf, if_pos ((ahead?_comments ts).trans ha)]
          exact (htype.append hname).of_le (by decide)
      have hnode := hparts.node none .parameterDeclaration
      exact ⟨hnode.of_le (by decide), fun _ => hnode⟩
    · exact ⟨Nat.le_refl _, fun h => by cases h⟩

/-- A declarator takes an event more if its name is missing. -/
lemma affords_declarator (ts : List Token) : Affords 1 0 (declarator ts).1.1 := by
  have hb := affords_comments ts
  unfold declarator
  split
  · rename_i hts
    rw [hts] at hb
    exact hb.append (affords_missing _ _)
  rename_i before t rest hts
  rw [hts] at hb
  split
  · have hname := (affords_token (some .declarator) t).append (affords_comments rest)
    dsimp only
    split
    · have hlist := ((@affords_parenthesized parameterFirst parameter affords_parameter
        (comments rest).2).of_le (by decide : 1 + 2 ≤ 3 + 0)).node (some .parameters) .parameterList
      have hnode := ((hname.append hlist).of_le (by decide : 3 + 2 ≤ 0 + 8)).node (some .declarator)
        .functionDeclarator
      exact (hb.append hnode).of_le (by decide)
    · have hvalue := (affords_expression (take none (comments rest).2).2).orMissing (some .value)
      have hparts := (hname.append (affords_take_any none (comments rest).2)).append hvalue
      have hnode := (hparts.of_le (by decide : 1 + 2 ≤ 0 + 8)).node (some .declarator) .initDeclarator
      exact (hb.append hnode).of_le (by decide)
    · exact (hb.append hname).of_le (by decide)
  · exact hb.append (affords_missing _ _)

/-- Further declarators afford themselves. -/
lemma affords_moreDeclarators (count : Nat) (ts : List Token) :
    Affords 0 0 (moreDeclarators count ts).1 := by
  induction count generalizing ts with
  | zero => exact Nat.le_refl _
  | succ count ih =>
    unfold moreDeclarators
    split
    · have hcomma := (affords_take none ‹_›).append (affords_declarator (take none ts).2)
      exact (hcomma.append (ih _)).of_le (by decide)
    · exact affords_comments ts

/-- How many events note a block at most, besides those of its parts: where it begins and ends, and its
brace if that is missing. -/
def Block.volume (b : Block) : Nat :=
  volumeOf b.outer + (b.definition.elim 3 fun head => volumeOf head + 5)

/-- How many events note a piece at most, and the ends of the block that it opens. -/
def Piece.volume : Piece → Nat
  | whole item => item.volume
  | opened definition brace => (Item.token none brace).volume + (Block.mk definition []).volume

/-- What affords itself has at most ten events for each token. -/
lemma Piece.volume_whole {i : Item} (h : Affords 0 0 [i]) :
    (Piece.whole i).volume ≤ 10 * (Piece.whole i).tokens.length := by
  simpa [Affords, volumeOf, tokensOf, Piece.volume, Piece.tokens] using h

/-- What follows the first declarator takes an event more if its semicolon is missing. -/
lemma affords_declarationTail (ts : List Token) : Affords 1 0 (declarationTail ts).1 := by
  have hmore := (affords_comments (declarator ts).1.2).append
    (affords_moreDeclarators (comments (declarator ts).1.2).2.length (comments (declarator ts).1.2).2)
  exact hmore.append (affords_expect .semicolon none _)

/-- A declaration, or the head of a function definition, has at most ten events for each token. -/
lemma volume_declaration (mayDefine : Bool) (t : Token) (ts : List Token) :
    (declaration mayDefine t ts).1.volume ≤ 10 * (declaration mayDefine t ts).1.tokens.length := by
  have htype := affords_token (some .type) t
  cases hb : bodyAhead mayDefine ts with
  | true =>
    obtain ⟨brace, rest, -, -, heq⟩ := declaration_of_bodyAhead t hb
    have hhead := htype.append ((affords_declarator ts).append (affords_comments (declarator ts).1.2))
    rw [heq]
    show 2 + (0 + (volumeOf _ + 5)) ≤ 10 * (tokensOf _ ++ [brace]).length
    rw [List.length_append, List.length_singleton]
    simp only [Affords, List.cons_append, List.nil_append] at hhead
    dsimp only [Option.getD_some]
    omega
  | false =>
    have hparts := htype.append ((affords_declarator ts).append (affords_declarationTail ts))
    rw [declaration_of_not_bodyAhead t hb]
    exact Piece.volume_whole (Affords.node (hparts.of_le (by decide)) none .declaration)

/-- A return statement affords itself. -/
lemma affords_returnStatement (t : Token) (ts : List Token) :
    Affords 0 0 [(returnStatement t ts).1] := by
  have hopening := (affords_token none t).append (affords_comments ts)
  unfold returnStatement
  dsimp only
  split
  · have hparts := (hopening.append Affords.nil).append (affords_expect .semicolon none (comments ts).2)
    exact (hparts.of_le (by decide : 1 + 2 ≤ 0 + 8)).node none .returnStatement
  · have hvalue := (affords_expression (comments ts).2).items.1.append
      (affords_expect .semicolon none (expression (comments ts).2).items.2)
    have hparts := hopening.append hvalue
    rw [← List.append_assoc] at hparts
    exact (hparts.of_le (by decide : 1 + 2 ≤ 0 + 8)).node none .returnStatement

/-- An expression as a statement affords itself. -/
lemma affords_expressionStatement {ts : List Token} {kind : Terminal} (ha : ahead? ts = some kind)
    (hf : kind ∈ expressionFirst) : Affords 0 0 [(expressionStatement ts).1] := by
  have hvalue := (affords_expression ts).items.2 (isSome_expression ha hf)
  have hparts := hvalue.append (affords_expect .semicolon none (expression ts).items.2)
  exact Affords.node (hparts.of_le (by decide)) none .expressionStatement

/-- A statement has at most ten events for each token. -/
theorem volume_statement {t : Token} (ts : List Token) (htc : t.isComment = false) :
    (statement t ts).1.volume ≤ 10 * (statement t ts).1.tokens.length := by
  have htoken := affords_token none t
  unfold statement
  split
  · exact volume_declaration false t ts
  · exact (by decide : 5 ≤ 10)
  · exact Piece.volume_whole (affords_returnStatement t ts)
  · exact Piece.volume_whole (Affords.node (htoken.of_le (by decide)) none .expressionStatement)
  · exact Piece.volume_whole (htoken.of_le (by decide))
  · split
    · have ha : ahead? (t :: ts) = some t.kind := by simp [ahead?_eq, kinds_cons htc]
      exact Piece.volume_whole (affords_expressionStatement ha ‹_›)
    · exact Piece.volume_whole (Affords.node (htoken.of_le (by decide)) none .error)

/-- What stands at the top of a document has at most ten events for each token. -/
theorem volume_topLevel {t : Token} (ts : List Token) (htc : t.isComment = false) :
    (topLevel t ts).1.volume ≤ 10 * (topLevel t ts).1.tokens.length := by
  unfold topLevel
  split
  · exact volume_declaration true t ts
  · exact volume_statement ts htc

/-- So has what comes next, at the top as in blocks. -/
lemma Piece.volume_of_read {isTop : Bool} {t : Token} {ts rest : List Token} {piece : Piece}
    (htc : t.isComment = false)
    (hr : (if isTop then topLevel t ts else statement t ts) = (piece, rest)) :
    piece.volume ≤ 10 * piece.tokens.length := by
  rw [← show (if isTop then topLevel t ts else statement t ts).1 = piece by rw [hr]]
  cases isTop with
  | true => exact volume_topLevel ts htc
  | false => exact volume_statement ts htc

/-! ## What a subtree stands for -/

namespace Shape

mutual

/-- The number of nodes of a shape. -/
def nodeCount : Shape → Nat
  | leaf _ _ => 0
  | node _ _ parts => nodeCountOf parts + 1

/-- The number of nodes of several shapes. -/
def nodeCountOf : List Shape → Nat
  | [] => 0
  | s :: rest => s.nodeCount + nodeCountOf rest

end

/-- The nodes of shapes in two parts. -/
@[simp]
lemma nodeCountOf_append (a b : List Shape) : nodeCountOf (a ++ b) = nodeCountOf a + nodeCountOf b := by
  induction a with
  | nil => rw [List.nil_append, nodeCountOf, Nat.zero_add]
  | cons s a ih => rw [List.cons_append, nodeCountOf, nodeCountOf, ih, Nat.add_assoc]

/-- A field adds no node. -/
@[simp]
lemma nodeCount_under (f : Field) (s : Shape) : (s.under f).nodeCount = s.nodeCount := by
  cases s <;> rfl

/-- Every node of a derivation has a token of its own, but for the document. -/
lemma nodeCountOf_le {c : Category} {ss : List Shape} (h : Derives c ss) :
    nodeCountOf ss ≤ (leavesOf ss).length := by
  -- each node that a rule makes has a leaf beside the nodes in it
  induction h <;>
    simp only [nodeCountOf, nodeCount, nodeCountOf_append, nodeCount_under, leavesOf, leaves,
      leavesOf_append, leaves_under, List.length_append, List.length_cons, List.length_nil] at * <;>
    omega

end Shape

namespace Item

mutual

/-- A tidy item has its tokens and its nodes, and nothing else. -/
lemma Tidy.volume_le : ∀ {i : Item}, Tidy i →
    i.volume ≤ 2 * i.tokens.length + 2 * Shape.nodeCountOf i.shapes
  | token _ _, _ => Nat.le_add_right _ _
  | missing _ _, h => h.elim
  | reused _, h => h.elim
  | node _ _ parts, ⟨hp, _⟩ => by
    have h := TidyAll.volumeOf_le hp
    simp only [volume, tokens, shapes, Shape.nodeCountOf, Shape.nodeCount]
    omega

/-- Tidy items have their tokens and their nodes, and nothing else. -/
lemma TidyAll.volumeOf_le : ∀ {is : List Item}, TidyAll is →
    volumeOf is ≤ 2 * (tokensOf is).length + 2 * Shape.nodeCountOf (shapesOf is)
  | [], _ => Nat.zero_le _
  | i :: rest, ⟨hi, hr, _⟩ => by
    have h := Tidy.volume_le hi
    have h' := TidyAll.volumeOf_le hr
    simp only [volumeOf, tokensOf, shapesOf, List.length_append, Shape.nodeCountOf_append]
    omega

end

/-- An item of a category affords itself. -/
lemma Is.affords {c : Category} {i : Item} (h : i.Is c) : Affords 0 0 [i] := by
  have hvolume := h.tidy.volume_le
  have hnodes := Shape.nodeCountOf_le h.derives
  have hleaves : (Shape.leavesOf i.shapes).length ≤ i.tokens.length := by
    rw [← h.tidy.kinds_tokens, kinds, List.length_map]
    exact List.length_filter_le ..
  simp only [Affords, volumeOf, tokensOf, List.append_nil]
  omega

end Item

/-! ## Drafts -/

namespace Draft

/-- How many events note a draft at most, the ends of its open blocks included. -/
def volume (d : Draft) : Nat := volumeOf d.parts + (d.blocks.map Block.volume).sum

/-- Added items add their events. -/
lemma volume_add (d : Draft) (items : List Item) : (d.add items).volume = d.volume + volumeOf items := by
  simp only [volume, add, volumeOf_append, volumeOf_reverse]
  omega

/-- A piece adds its events. -/
lemma volume_place (d : Draft) (p : Piece) : (d.place p).volume = d.volume + p.volume := by
  cases p with
  | whole item => exact d.volume_add [item]
  | opened definition brace =>
    simp only [volume, place, Piece.volume, Block.volume, volumeOf, List.map_cons, List.sum_cons]
    omega

/-- A closed block has the events that the open one was granted, but for one if its brace is there. -/
lemma volume_closed {d : Draft} {b : Block} {outer : List Block} (h : d.blocks = b :: outer)
    (closing : List Item) (lastStop : Nat) :
    (Draft.mk (closedBlock b (d.parts.reverse ++ closing) :: b.outer) outer lastStop).volume + 1 =
      d.volume + volumeOf closing := by
  simp only [volume, h, closedBlock, Block.volume, List.map_cons, List.sum_cons]
  cases b.definition <;>
    simp only [volumeOf, Item.volume, volumeOf_append, volumeOf_reverse, Option.elim_none,
      Option.elim_some] <;>
    omega

end Draft

end Reparse.C
