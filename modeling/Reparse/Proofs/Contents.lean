import Mathlib.Tactic.Lemma
import Reparse.Proofs.Layout
import Reparse.Proofs.Runs

/-!
# Contents

What readers put into the nodes of a document. A node of a statement holds no node of another one:
all nodes below it are of rules that are not taken over by themselves (`inner_statement`,
`inner_topLevel`), and every node has parts. So what holds of each statement that is read holds of
every node of a document that may be taken over (`Item.Each`).
-/

namespace Reparse.C

open Item

namespace Item

mutual

/-- Whether an item is made of tokens and every node in it has parts and, if its rule is one that
may be taken over, satisfies `P`, whatever its field. -/
def Each (P : Item → Prop) : Item → Prop
  | token _ _ => True
  | missing _ _ => True
  | reused _ => False
  | node _ rule parts =>
    parts ≠ [] ∧ (rule ∈ reusableAtTop → P (node none rule parts)) ∧ EachAll P parts

/-- The same of several items. -/
def EachAll (P : Item → Prop) : List Item → Prop
  | [] => True
  | i :: rest => i.Each P ∧ EachAll P rest

end

/-- Whether items hold no node that may be taken over. -/
abbrev InnerAll (is : List Item) : Prop := EachAll (fun _ => False) is

/-- Something holds of the nodes of items if it does for each item. -/
lemma eachAll_iff {P : Item → Prop} {is : List Item} :
    EachAll P is ↔ ∀ i ∈ is, i.Each P := by
  induction is with
  | nil => exact ⟨fun _ _ h => absurd h List.not_mem_nil, fun _ => trivial⟩
  | cons i is ih => rw [EachAll, ih, List.forall_mem_cons]

/-- What holds of the nodes of an item and of the others after it holds of all. -/
lemma EachAll.cons {P : Item → Prop} {i : Item} {rest : List Item} (hi : i.Each P)
    (hr : EachAll P rest) : EachAll P (i :: rest) := ⟨hi, hr⟩

/-- What holds of the nodes of an item holds of it alone. -/
lemma EachAll.single {P : Item → Prop} {i : Item} (hi : i.Each P) : EachAll P [i] := ⟨hi, trivial⟩

/-- Something holds of the nodes of items in two parts if it does in both. -/
@[simp]
lemma eachAll_append {P : Item → Prop} {a b : List Item} :
    EachAll P (a ++ b) ↔ EachAll P a ∧ EachAll P b := by
  simp only [eachAll_iff, List.forall_mem_append]

/-- What holds of the nodes of two parts holds of both in a row. -/
lemma EachAll.append {P : Item → Prop} {a b : List Item} (ha : EachAll P a) (hb : EachAll P b) :
    EachAll P (a ++ b) := eachAll_append.2 ⟨ha, hb⟩

/-- Whether something holds of the nodes of items does not depend on their order. -/
@[simp]
lemma eachAll_reverse {P : Item → Prop} {is : List Item} :
    EachAll P is.reverse ↔ EachAll P is := by
  simp only [eachAll_iff, List.mem_reverse]

/-- Whether something holds of the nodes of an item does not depend on its field. -/
@[simp]
lemma each_under {P : Item → Prop} (f : Field) (i : Item) : (i.under f).Each P ↔ i.Each P := by
  cases i <;> rfl

mutual

/-- What follows from a property of nodes holds of them as well. -/
lemma Each.imp {P Q : Item → Prop} (h : ∀ i, P i → Q i) : ∀ {i : Item}, i.Each P → i.Each Q
  | token _ _, _ => trivial
  | missing _ _, _ => trivial
  | reused _, hi => hi.elim
  | node _ _ _, ⟨hne, hp, hparts⟩ => ⟨hne, fun hr => h _ (hp hr), EachAll.imp h hparts⟩

/-- What follows from a property of the nodes of items holds of them as well. -/
lemma EachAll.imp {P Q : Item → Prop} (h : ∀ i, P i → Q i) :
    ∀ {is : List Item}, EachAll P is → EachAll Q is
  | [], _ => trivial
  | _ :: _, ⟨hi, hr⟩ => ⟨Each.imp h hi, EachAll.imp h hr⟩

end

mutual

/-- Items whose contents are known are made of tokens. -/
lemma Each.whole {P : Item → Prop} : ∀ {i : Item}, i.Each P → i.Whole
  | token _ _, _ => trivial
  | missing _ _, _ => trivial
  | reused _, hi => hi.elim
  | node _ _ _, ⟨hne, _, hparts⟩ => ⟨hne, EachAll.whole hparts⟩

/-- Items of whose nodes something holds are whole. -/
lemma EachAll.whole {P : Item → Prop} : ∀ {is : List Item}, EachAll P is → WholeAll is
  | [], _ => trivial
  | _ :: _, ⟨hi, hr⟩ => ⟨Each.whole hi, EachAll.whole hr⟩

end

/-- The node over items without a node that may be taken over. -/
lemma Each.node {P : Item → Prop} (f : Option Field) (rule : Rule) {parts : List Item}
    (hr : rule ∉ reusableAtTop) (hne : parts ≠ []) (h : EachAll P parts) :
    (Item.node f rule parts).Each P :=
  ⟨hne, fun h => absurd h hr, h⟩

end Item

/-! ## Readers -/

/-- Comments have no nodes that may be taken over. -/
lemma inner_comments (ts : List Token) : InnerAll (comments ts).1 := by
  refine eachAll_iff.2 fun i hi => ?_
  obtain ⟨t, -, rfl⟩ := List.mem_map.1 hi
  trivial

/-- A token that is taken has no node that may be taken over. -/
lemma inner_take (field : Option Field) (ts : List Token) : InnerAll (take field ts).1 := by
  have h := inner_comments ts
  unfold take
  split
  · rename_i hc
    rw [hc] at h
    exact h
  · rename_i hc
    rw [hc] at h
    exact eachAll_append.2 ⟨h, trivial, trivial⟩

/-- A token that need not be there has no node that may be taken over. -/
lemma inner_takeIf (kind : Terminal) (field : Option Field) (ts : List Token) :
    InnerAll (takeIf kind field ts).1 := by
  unfold takeIf
  split
  · exact inner_take field ts
  · exact inner_comments ts

/-- A token that is expected has no node that may be taken over. -/
lemma inner_expect (kind : Terminal) (field : Option Field) (ts : List Token) :
    InnerAll (expect kind field ts).1 := by
  unfold expect
  split
  · exact inner_take field ts
  · exact eachAll_append.2 ⟨inner_comments ts, trivial, trivial⟩

/-- What is expected is read or missing. -/
lemma expect_ne_nil (kind : Terminal) (field : Option Field) (ts : List Token) :
    (expect kind field ts).1 ≠ [] := by
  unfold expect
  split
  · rename_i h
    unfold take
    split
    · rename_i before hc
      have hd : ts.dropWhile (·.isComment) = [] := congrArg Prod.snd hc
      rw [ahead?, hd] at h
      cases h
    · exact List.append_ne_nil_of_right_ne_nil _ (List.cons_ne_nil _ _)
  · exact List.append_ne_nil_of_right_ne_nil _ (List.cons_ne_nil _ _)

/-- Of elements no node may be taken over if that is so for each. -/
lemma inner_elements (first : List Terminal) (element : List Token → Reading × Bool)
    (h : ∀ ts, InnerAll (element ts).1.1) (count : Nat) (ts : List Token) :
    InnerAll (elements first element count ts).1 := by
  induction count generalizing ts with
  | zero => trivial
  | succ count ih =>
    have hb := inner_comments ts
    unfold elements
    split
    · rename_i hc
      rw [hc] at hb
      exact hb
    rename_i before t rest hc
    rw [hc] at hb
    split
    · exact hb
    split
    · exact hb.append (.cons (.node none .error (by decide) (List.cons_ne_nil _ _) (.single trivial))
        (ih rest))
    have hi := h (t :: rest)
    generalize element (t :: rest) = r at hi
    obtain ⟨⟨items, rest'⟩, isElement⟩ := r
    have ha := inner_comments rest'
    simp only
    split
    · split
      · rename_i hr
        rw [hr] at ha
        exact (hb.append hi).append ha
      · rename_i after u rest'' hr
        rw [hr] at ha
        have hia := (hb.append hi).append ha
        split
        · exact hia.append (.cons trivial (ih rest''))
        split
        · exact hia.append (.cons trivial (ih (u :: rest'')))
        · exact hia
    · exact hb.append hi

/-- Of a list in parentheses, which is not empty, no node may be taken over if that is so for each element.
-/
lemma inner_parenthesized (first : List Terminal) (element : List Token → Reading × Bool)
    (h : ∀ ts, InnerAll (element ts).1.1) (ts : List Token) :
    InnerAll (parenthesized first element ts).1 ∧ (parenthesized first element ts).1 ≠ [] := by
  refine ⟨((inner_take none ts).append ?_).append (inner_expect .rightParen none _),
    List.append_ne_nil_of_right_ne_nil _ (expect_ne_nil _ none _)⟩
  exact inner_elements first element h ((take none ts).2.length + 1) (take none ts).2

/-! ## Expressions -/

/-- Whether the reading of an operand holds no node that may be taken over. -/
def OperandReading.Inner (r : OperandReading) : Prop := InnerAll r.items.1

/-- What stands in for an operand has no node that may be taken over. -/
lemma OperandReading.Inner.orMissing {r : OperandReading} (h : r.Inner) (field : Option Field) :
    InnerAll (r.orMissing field).1 := by
  obtain ⟨before, operand, rest⟩ := r
  obtain ⟨hb, ho⟩ := eachAll_append.1 h
  refine eachAll_append.2 ⟨hb, ?_, trivial⟩
  cases operand with
  | none => cases field <;> trivial
  | some i =>
    cases field with
    | none => exact ho.1
    | some f => exact (each_under f i).2 ho.1

/-- In a string no node may be taken over. -/
lemma inner_stringLiteral (opening : Token) (ts : List Token) :
    (stringLiteral opening ts).1.Each fun _ => False :=
  .node none .stringLiteral (by decide) (List.cons_ne_nil _ _)
    (.cons trivial ((inner_takeIf .stringContent none ts).append (inner_expect .quote none _)))

section

variable {depth : Nat}

/-- In an expression no node may be taken over if that is so for the readers below it. -/
lemma inner_expression_succ (hexpr : ∀ ts, (expressionWithin depth ts).Inner)
    (hbin : ∀ power ts, (binaryWithin depth power ts).Inner) (ts : List Token) :
    (expressionWithin (depth + 1) ts).Inner := by
  have h := hbin 0 ts
  unfold expressionWithin
  split
  · rename_i heq
    rw [heq] at h
    exact h
  rename_i before left rest heq
  rw [heq] at h
  split
  · obtain ⟨hb, hl, -⟩ := eachAll_append.1 h
    have hright := (hexpr (take (some .operator) rest).2).orMissing (some .right)
    exact EachAll.append hb (.single (.node none .assignmentExpression (by decide)
      (List.cons_ne_nil _ _) (.cons ((each_under .left left).2 hl)
        ((inner_take _ rest).append hright))))
  · exact h

/-- In an operand with what is joined to it no node may be taken over if that is so for the readers below
it. -/
lemma inner_binary_succ (hprim : ∀ ts, (primaryWithin depth ts).Inner)
    (hjoin : ∀ power left ts, (left.Each fun _ => False) →
      (joinWithin depth power left ts).1.Each fun _ => False) (power : Nat) (ts : List Token) :
    (binaryWithin (depth + 1) power ts).Inner := by
  have h := hprim ts
  unfold binaryWithin
  split
  · rename_i heq
    rw [heq] at h
    exact h
  rename_i before left rest heq
  rw [heq] at h
  obtain ⟨hb, hl, -⟩ := eachAll_append.1 h
  exact EachAll.append hb (.single (hjoin power left rest hl))

/-- In what is joined to an operand no node may be taken over if that is so for the readers below it. -/
lemma inner_join_succ (hbin : ∀ power ts, (binaryWithin depth power ts).Inner)
    (hjoin : ∀ power left ts, (left.Each fun _ => False) →
      (joinWithin depth power left ts).1.Each fun _ => False) (power : Nat) (left : Item)
    (ts : List Token) (hl : left.Each fun _ => False) :
    (joinWithin (depth + 1) power left ts).1.Each fun _ => False := by
  unfold joinWithin
  split
  · exact hl
  rename_i p _
  split
  · have hright := (hbin (p + 1) (take (some .operator) ts).2).orMissing (some .right)
    exact hjoin power _ _ (.node none .binaryExpression (by decide) (List.cons_ne_nil _ _)
      (.cons ((each_under .left left).2 hl) ((inner_take _ ts).append hright)))
  · exact hl

/-- In a primary expression no node may be taken over if that is so for the readers below it. -/
lemma inner_primary_succ (hexpr : ∀ ts, (expressionWithin depth ts).Inner) (ts : List Token) :
    (primaryWithin (depth + 1) ts).Inner := by
  have hb := inner_comments ts
  unfold primaryWithin
  split
  · rename_i hc
    rw [hc] at hb
    exact EachAll.append hb trivial
  rename_i before t rest hc
  rw [hc] at hb
  split
  · -- a name: with a list of arguments, a call
    split
    · obtain ⟨ha, hne⟩ := inner_parenthesized expressionFirst
        (fun ts => ((expressionWithin depth ts).items,
          (expressionWithin depth ts).operand.isSome)) hexpr (comments rest).2
      have harguments := Each.node (some .arguments) .argumentList (by decide) hne ha
      exact EachAll.append hb (.single (.node none .callExpression (by decide)
        (List.cons_ne_nil _ _) (.cons trivial
          ((inner_comments rest).append (.single harguments)))))
    · exact EachAll.append hb (.single trivial)
  · exact EachAll.append hb (.single trivial)
  · exact EachAll.append hb (.single (inner_stringLiteral t rest))
  · have hinner := (hexpr rest).orMissing none
    exact EachAll.append hb (.single (.node none .parenthesizedExpression (by decide)
      (List.cons_ne_nil _ _) (.cons trivial (hinner.append (inner_expect .rightParen none _)))))
  · exact EachAll.append hb trivial

/-- Expressions hold no node that may be taken over, however deep they go. -/
lemma inner_within (depth : Nat) :
    (∀ ts, (expressionWithin depth ts).Inner) ∧
    (∀ power ts, (binaryWithin depth power ts).Inner) ∧
    (∀ power left ts, (left.Each fun _ => False) →
      (joinWithin depth power left ts).1.Each fun _ => False) ∧
    (∀ ts, (primaryWithin depth ts).Inner) := by
  induction depth with
  | zero => exact ⟨fun _ => trivial, fun _ _ => trivial, fun _ _ _ h => h, fun _ => trivial⟩
  | succ depth ih =>
    obtain ⟨hexpr, hbin, hjoin, hprim⟩ := ih
    exact ⟨inner_expression_succ hexpr hbin, inner_binary_succ hprim hjoin,
      inner_join_succ hbin hjoin, inner_primary_succ hexpr⟩

end

/-- In an expression no node may be taken over. -/
lemma inner_expression (ts : List Token) : (expression ts).Inner := (inner_within _).1 ts

/-! ## Declarations and statements -/

/-- In a parameter no node may be taken over. -/
lemma inner_parameter (ts : List Token) : InnerAll (parameter ts).1.1 := by
  unfold parameter
  split
  · split
    · exact EachAll.single (.node none .parameterDeclaration (by decide)
        (List.append_ne_nil_of_left_ne_nil (expect_ne_nil _ _ ts) _)
        ((inner_expect .primitiveType _ ts).append (inner_takeIf .identifier _ _)))
    · trivial
  · trivial

/-- In a declarator no node may be taken over. -/
lemma inner_declarator (ts : List Token) : InnerAll (declarator ts).1.1 := by
  have hb := inner_comments ts
  unfold declarator
  split
  · rename_i hc
    rw [hc] at hb
    exact hb.append (.single trivial)
  rename_i before t rest hc
  rw [hc] at hb
  split
  · have hr := inner_comments rest
    simp only
    split
    · obtain ⟨hp, hne⟩ := inner_parenthesized parameterFirst parameter inner_parameter
        (comments rest).2
      have hparameters := Each.node (some .parameters) .parameterList (by decide) hne hp
      exact hb.append (.single (.node _ .functionDeclarator (by decide) (List.cons_ne_nil _ _)
        (.cons trivial (hr.append (.single hparameters)))))
    · have hvalue := (inner_expression (take none (comments rest).2).2).orMissing (some .value)
      exact hb.append (.single (.node _ .initDeclarator (by decide) (List.cons_ne_nil _ _)
        (.cons trivial ((hr.append (inner_take none _)).append hvalue))))
    · exact hb.append (.cons trivial hr)
  · exact hb.append (.single trivial)

/-- In further declarators no node may be taken over. -/
lemma inner_moreDeclarators (count : Nat) (ts : List Token) :
    InnerAll (moreDeclarators count ts).1 := by
  induction count generalizing ts with
  | zero => trivial
  | succ count ih =>
    unfold moreDeclarators
    split
    · exact ((inner_take none ts).append (inner_declarator _)).append (ih _)
    · exact inner_comments ts

/-- Whether a piece holds no node that may be taken over, except that it may be one as a whole. -/
def Piece.Inner : Piece → Prop
  | whole (.node _ _ parts) => parts ≠ [] ∧ InnerAll parts
  | whole i => InnerAll [i]
  | opened definition _ => InnerAll (definition.getD [])

/-- Of a declaration only the node itself may be taken over. -/
lemma inner_declaration (mayDefine : Bool) (t : Token) (ts : List Token) :
    (declaration mayDefine t ts).1.Inner := by
  have hd := inner_declarator ts
  have hc := inner_comments (declarator ts).1.2
  have hw : ∀ us, InnerAll (moreDeclarators us.length us).1 := fun us => inner_moreDeclarators _ us
  have hwhole : ∀ us : List Token, (Item.token (some .type) t :: ((declarator ts).1.1 ++
      (comments (declarator ts).1.2).1 ++ (moreDeclarators us.length us).1 ++
      (expect .semicolon none (moreDeclarators us.length us).2).1)) ≠ [] ∧
      InnerAll (Item.token (some .type) t :: ((declarator ts).1.1 ++
        (comments (declarator ts).1.2).1 ++ (moreDeclarators us.length us).1 ++
        (expect .semicolon none (moreDeclarators us.length us).2).1)) := by
    intro us
    exact ⟨List.cons_ne_nil _ _, .cons trivial (((hd.append hc).append (hw us)).append
      (inner_expect .semicolon none _))⟩
  unfold declaration
  simp only
  split
  · split
    · exact .cons trivial (hd.append hc)
    · exact hwhole _
  · exact hwhole _

/-- A statement holds no other one that may be taken over. -/
theorem inner_statement (t : Token) (ts : List Token) : (statement t ts).1.Inner := by
  unfold statement
  split
  · exact inner_declaration false t ts
  · trivial
  · have hvalue : InnerAll (if ahead? (comments ts).2 = some .semicolon then ([], (comments ts).2)
        else (expression (comments ts).2).items).1 := by
      split
      · trivial
      · exact inner_expression _
    exact ⟨List.cons_ne_nil _ _, .cons trivial (((inner_comments ts).append hvalue).append
      (inner_expect .semicolon none _))⟩
  · exact ⟨List.cons_ne_nil _ _, .single trivial⟩
  · exact .single trivial
  · split
    · exact ⟨List.append_ne_nil_of_right_ne_nil _ (expect_ne_nil _ none _),
        EachAll.append (inner_expression (t :: ts)) (inner_expect .semicolon none _)⟩
    · exact ⟨List.cons_ne_nil _ _, .single trivial⟩

/-- What stands at the top of a document holds no statement that may be taken over by itself. -/
theorem inner_topLevel (t : Token) (ts : List Token) : (topLevel t ts).1.Inner := by
  unfold topLevel
  split
  · exact inner_declaration true t ts
  · exact inner_statement t ts

/-- Of both: what is read in one go keeps its tokens. -/
lemma Piece.Inner.of_read {isTop : Bool} {t : Token} {rest rest' : List Token} {p : Piece}
    (hr : (if isTop then topLevel t rest else statement t rest) = (p, rest')) :
    p.Inner ∧ p.tokens ++ rest' = t :: rest := by
  split at hr
  · have hinner := inner_topLevel t rest
    have htokens := tokens_topLevel t rest
    rw [hr] at hinner htokens
    exact ⟨hinner, htokens⟩
  · have hinner := inner_statement t rest
    have htokens := tokens_statement t rest
    rw [hr] at hinner htokens
    exact ⟨hinner, htokens⟩

/-! ## Drafts -/

/-- The same of the items of a piece. -/
def Piece.Each (P : Item → Prop) : Piece → Prop
  | whole i => i.Each P
  | opened definition _ => EachAll P (definition.getD [])

/-- What holds of a statement holds of all that may be taken over in it. -/
lemma Piece.Inner.each {P : Item → Prop} {p : Piece} (h : p.Inner)
    (hp : ∀ f rule parts, p = .whole (.node f rule parts) → rule ∈ reusableAtTop →
      P (.node none rule parts)) : p.Each P := by
  have hinner : ∀ i, False → P i := fun _ h => h.elim
  cases p with
  | whole i =>
    cases i with
    | token field t => trivial
    | missing field kind => trivial
    | reused g => exact h.1.elim
    | node f rule parts => exact ⟨h.1, hp f rule parts rfl, EachAll.imp hinner h.2⟩
  | opened definition brace => exact EachAll.imp hinner h

/-- The same of the items of a draft. -/
structure Draft.Each (P : Item → Prop) (d : Draft) : Prop where
  parts : EachAll P d.parts
  blocks : ∀ b ∈ d.blocks, EachAll P b.outer ∧ EachAll P (b.definition.getD [])

namespace Draft.Each

variable {P : Item → Prop} {d : Draft}

/-- The empty draft has no nodes. -/
lemma empty : Draft.empty.Each P := ⟨trivial, fun _ h => absurd h List.not_mem_nil⟩

/-- What is still to come is no part of the nodes of a draft. -/
lemma after (h : d.Each P) (ts : List Token) : (d.after ts).Each P := ⟨h.parts, h.blocks⟩

/-- Items of whose nodes something holds may be added. -/
lemma add (h : d.Each P) {items : List Item} (hi : EachAll P items) : (d.add items).Each P :=
  ⟨EachAll.append (eachAll_reverse.2 hi) h.parts, h.blocks⟩

/-- A piece of whose nodes something holds may be added. -/
lemma place (h : d.Each P) {p : Piece} (hp : p.Each P) : (d.place p).Each P := by
  cases p with
  | whole i => exact h.add (.single hp)
  | opened definition brace =>
    refine ⟨.single trivial, fun b hb => ?_⟩
    rcases List.mem_cons.1 hb with rfl | hb
    · exact ⟨h.parts, hp⟩
    · exact h.blocks b hb

/-- The draft after its innermost block was closed. -/
lemma close (h : d.Each P) {b : Block} {outer : List Block} {closing : List Item}
    (hb : d.blocks = b :: outer) (hi : (closedBlock b (d.parts.reverse ++ closing)).Each P)
    (lastStop : Nat) :
    (Draft.mk (closedBlock b (d.parts.reverse ++ closing) :: b.outer) outer lastStop).Each P :=
  ⟨.cons hi (h.blocks b (by rw [hb]; exact List.mem_cons_self ..)).1,
    fun b' hb' => h.blocks b' (by rw [hb]; exact List.mem_cons_of_mem b hb')⟩

/-- What is asked of a closed block. -/
lemma closedBlock (h : d.Each P) {b : Block} {outer : List Block} {closing : List Item}
    (hb : d.blocks = b :: outer) (hc : InnerAll closing) (hne : closing ≠ [])
    (hbody : P (.node none .compoundStatement (d.parts.reverse ++ closing)))
    (hdefinition : ∀ head, b.definition = some head → P (.node none .functionDefinition
      (head ++ [Item.node (some .body) .compoundStatement (d.parts.reverse ++ closing)]))) :
    (Draft.closedBlock b (d.parts.reverse ++ closing)).Each P := by
  have hparts : EachAll P (d.parts.reverse ++ closing) :=
    EachAll.append (eachAll_reverse.2 h.parts) (EachAll.imp (fun _ h => h.elim) hc)
  have hbodyEach : ∀ f, (Item.node f .compoundStatement (d.parts.reverse ++ closing)).Each P :=
    fun _ => ⟨List.append_ne_nil_of_right_ne_nil _ hne, fun _ => hbody, hparts⟩
  unfold Draft.closedBlock
  split
  · exact hbodyEach none
  · rename_i head hdef
    have hhead := (h.blocks b (by rw [hb]; exact List.mem_cons_self ..)).2
    rw [hdef] at hhead
    exact ⟨List.append_ne_nil_of_right_ne_nil _ (List.cons_ne_nil _ _),
      fun _ => hdefinition head hdef, EachAll.append hhead (.single (hbodyEach _))⟩

end Draft.Each

/-! ## Steps -/

/-- A draft keeps what holds of its nodes when comments are added. -/
lemma Draft.Each.here {P : Item → Prop} {s : State} (h : s.draft.Each P) : s.here.Each P :=
  (h.add (EachAll.imp (fun _ h => h.elim) (inner_comments s.tokens))).after _

/-- What is asked of the nodes that a step from `s` makes, if they may be taken over: of the statement
that comes next, and of the innermost block once it is closed. -/
structure State.Asks (P : Item → Prop) (s : State) : Prop where
  read : ∀ t rest f rule parts rest', s.pending = t :: rest →
    (if s.draft.blocks.isEmpty then topLevel t rest else statement t rest) =
      (.whole (.node f rule parts), rest') → rule ∈ reusableAtTop → P (.node none rule parts)
  body : ∀ b outer, s.draft.blocks = b :: outer → P (.node none .compoundStatement
    (s.here.parts.reverse ++ (expect .rightBrace none s.pending).1))
  definition : ∀ b outer head, s.draft.blocks = b :: outer → b.definition = some head →
    P (.node none .functionDefinition (head ++ [Item.node (some .body) .compoundStatement
      (s.here.parts.reverse ++ (expect .rightBrace none s.pending).1)]))

/-- Without an old tree, a step makes nodes of what holds of all statements and blocks. -/
theorem Draft.Each.leads {P : Item → Prop} {source : Source} {s s' : State} (h : s.draft.Each P)
    (hl : Leads source none s s') (hp : s.Asks P) : s'.draft.Each P := by
  have hh : s.here.Each P := h.here
  cases hl.moves with
  | @closes b outer hb _ =>
    have hitem := hh.closedBlock hb (inner_expect .rightBrace none s.pending)
      (expect_ne_nil .rightBrace none s.pending) (hp.body b outer hb)
      fun head hd => hp.definition b outer head hb hd
    exact (hh.close hb hitem _).after _
  | reuses _ _ hr => simp [State.reusable?] at hr
  | @reads t rest piece rest' hpend _ _ hr =>
    refine (hh.place ((Piece.Inner.of_read hr).1.each fun f rule parts hw hrule => ?_)).after _
    rw [hw] at hr
    exact hp.read t rest f rule parts rest' hpend hr hrule

end Reparse.C
