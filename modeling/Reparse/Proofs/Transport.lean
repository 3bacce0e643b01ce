import Reparse.Proofs.Grafts
import Reparse.Proofs.Runs

/-!
# Readers and places

Readers look at the kinds of tokens and never at where the tokens stand. So if tokens are changed in a
way that keeps their kinds, what is read of them changes in the same way and nothing else does: this
holds of every reader (`expressionWithin_map`, `declaration_map`, `statement_map`), of a step and of a
whole parse without an old tree (`finished_map`). Such a parse always comes to its end
(`exists_finished`).
-/

namespace Reparse.C

open Item

/-- A reading of changed tokens. -/
def Reading.map (f : Token → Token) (r : Reading) : Reading := (mapAll f r.1, r.2.map f)

namespace OperandReading

/-- An operand read of changed tokens. -/
def map (f : Token → Token) (r : OperandReading) : OperandReading :=
  ⟨mapAll f r.before, r.operand.map (Item.map f), r.rest.map f⟩

end OperandReading

/-- A piece read of changed tokens. -/
def Piece.map (f : Token → Token) : Piece → Piece
  | whole item => whole (item.map f)
  | opened definition brace => opened (definition.map (mapAll f)) (f brace)

namespace Item

variable (f : Token → Token)

/-- Items in two parts change in both. -/
lemma mapAll_append (a b : List Item) : mapAll f (a ++ b) = mapAll f a ++ mapAll f b := by
  simp only [mapAll_eq_map, List.map_append]

/-- Items in reverse order change in that order. -/
lemma mapAll_reverse (is : List Item) : mapAll f is.reverse = (mapAll f is).reverse := by
  simp only [mapAll_eq_map, List.map_reverse]

/-- Items that stand for tokens change as these do. -/
lemma mapAll_map_token (field : Option Field) (ts : List Token) :
    mapAll f (ts.map (.token field)) = (ts.map f).map (.token field) := by
  induction ts with
  | nil => rfl
  | cons t ts ih =>
    rw [List.map_cons, mapAll, ih, List.map_cons, List.map_cons]
    rfl

/-- The field of an item does not change. -/
lemma under_map (field : Field) (i : Item) : (i.map f).under field = (i.under field).map f := by
  cases i <;> rfl

end Item

section

variable {f : Token → Token} (hf : ∀ t, (f t).kind = t.kind)

include hf

/-! ## Readers -/

/-- A token is a comment if it was one. -/
lemma isComment_of_kind (t : Token) : (f t).isComment = t.isComment := by
  rw [Token.isComment, hf, Token.isComment]

/-- The comments of changed tokens are the changed ones. -/
lemma comments_map (ts : List Token) : comments (ts.map f) = Reading.map f (comments ts) := by
  have hc : (fun t : Token => t.isComment) ∘ f = fun t => t.isComment :=
    funext fun t => isComment_of_kind hf t
  simp only [comments, Reading.map, List.takeWhile_map, List.dropWhile_map, hc, mapAll_map_token]

/-- The kind of the token ahead does not change. -/
lemma ahead?_map (ts : List Token) : ahead? (ts.map f) = ahead? ts := by
  have hc : (fun t : Token => t.isComment) ∘ f = fun t => t.isComment :=
    funext fun t => isComment_of_kind hf t
  have hk : (fun t : Token => t.kind) ∘ f = fun t => t.kind := funext hf
  simp only [ahead?, List.dropWhile_map, hc, List.head?_map, Option.map_map, hk]

/-- To take a token is the same of changed tokens. -/
lemma take_map (field : Option Field) (ts : List Token) :
    take field (ts.map f) = Reading.map f (take field ts) := by
  rw [take, comments_map hf, take]
  obtain ⟨before, _ | ⟨t, rest⟩⟩ := comments ts
  · rfl
  · simp only [Reading.map, List.map_cons, mapAll_append]
    rfl

/-- To take a token that need not be there is the same of changed tokens. -/
lemma takeIf_map (kind : Terminal) (field : Option Field) (ts : List Token) :
    takeIf kind field (ts.map f) = Reading.map f (takeIf kind field ts) := by
  rw [takeIf, takeIf, ahead?_map hf, take_map hf, comments_map hf]
  split <;> rfl

/-- To expect a token is the same of changed tokens. -/
lemma expect_map (kind : Terminal) (field : Option Field) (ts : List Token) :
    expect kind field (ts.map f) = Reading.map f (expect kind field ts) := by
  rw [expect, expect, ahead?_map hf, take_map hf, comments_map hf]
  split
  · rfl
  · simp only [Reading.map, mapAll_append]
    rfl

/-- Elements are the same of changed tokens if each is. -/
lemma elements_map {first : List Terminal} {element : List Token → Reading × Bool}
    (he : ∀ ts, element (ts.map f) = (Reading.map f (element ts).1, (element ts).2)) (count : Nat)
    (ts : List Token) : elements first element count (ts.map f) =
      Reading.map f (elements first element count ts) := by
  induction count generalizing ts with
  | zero => rfl
  | succ count ih =>
    rw [elements, comments_map hf, elements]
    obtain ⟨before, _ | ⟨t, rest⟩⟩ := comments ts
    · rfl
    simp only [Reading.map, List.map_cons, hf]
    split
    · rfl
    split
    · rw [ih]
      simp only [Reading.map, mapAll_append]
      rfl
    rw [← List.map_cons, he]
    obtain ⟨⟨items, rest'⟩, isElement⟩ := element (t :: rest)
    cases isElement with
    | false => simp only [Reading.map, mapAll_append, Bool.false_eq_true, if_false]
    | true =>
      simp only [Reading.map, if_true, comments_map hf]
      obtain ⟨after, _ | ⟨u, rest⟩⟩ := comments rest'
      · simp only [mapAll_append, List.map_nil]
      simp only [List.map_cons, hf]
      split
      · simp only [ih, Reading.map, mapAll_append, mapAll, Item.map]
      split
      · simp only [← List.map_cons, ih, Reading.map, mapAll_append, mapAll, Item.map]
      · simp only [mapAll_append, List.map_cons]

/-- A list in parentheses is the same of changed tokens if each element is. -/
lemma parenthesized_map {first : List Terminal} {element : List Token → Reading × Bool}
    (he : ∀ ts, element (ts.map f) = (Reading.map f (element ts).1, (element ts).2))
    (ts : List Token) : parenthesized first element (ts.map f) =
      Reading.map f (parenthesized first element ts) := by
  simp only [parenthesized, take_map hf, Reading.map, List.length_map, elements_map hf he,
    expect_map hf, mapAll_append]

/-- A string is the same of changed tokens. -/
lemma stringLiteral_map (opening : Token) (ts : List Token) :
    stringLiteral (f opening) (ts.map f) =
      ((stringLiteral opening ts).1.map f, (stringLiteral opening ts).2.map f) := by
  simp only [stringLiteral, takeIf_map hf, Reading.map, expect_map hf, Item.map, mapAll,
    mapAll_append]

omit hf in
/-- An operand that may be absent is the same of changed tokens. -/
lemma items_map (r : OperandReading) : (r.map f).items = Reading.map f r.items := by
  obtain ⟨before, _ | i, rest⟩ := r <;>
    simp [OperandReading.items, OperandReading.map, Reading.map, mapAll_append, mapAll]

omit hf in
/-- What stands in for an operand is the same of changed tokens. -/
lemma orMissing_map (field : Option Field) (r : OperandReading) :
    (r.map f).orMissing field = Reading.map f (r.orMissing field) := by
  have hunder : ∀ i : Item, (field.map (i.map f).under).getD (i.map f) =
      ((field.map i.under).getD i).map f := by
    intro i
    cases field with
    | none => rfl
    | some field => exact under_map f field i
  have hmissing := hunder (.missing none .identifier)
  obtain ⟨before, _ | i, rest⟩ := r
  · simp only [OperandReading.orMissing, OperandReading.map, Reading.map, mapAll_append, mapAll,
      Option.map_none, Option.getD_none, ← hmissing, Item.map]
  · simp only [OperandReading.orMissing, OperandReading.map, Reading.map, mapAll_append, mapAll,
      Option.map_some, Option.getD_some, hunder]

/-! ## Expressions -/

/-- What is read of an expression, of operands and of what comes after one, by the depth that the readers
may go to. -/
lemma within_map (depth : Nat) :
    (∀ ts, expressionWithin depth (ts.map f) = (expressionWithin depth ts).map f) ∧
    (∀ power ts, binaryWithin depth power (ts.map f) = (binaryWithin depth power ts).map f) ∧
    (∀ power left ts, joinWithin depth power (left.map f) (ts.map f) =
      ((joinWithin depth power left ts).1.map f, (joinWithin depth power left ts).2.map f)) ∧
    ∀ ts, primaryWithin depth (ts.map f) = (primaryWithin depth ts).map f := by
  induction depth with
  | zero => exact ⟨fun _ => rfl, fun _ _ => rfl, fun _ _ _ => rfl, fun _ => rfl⟩
  | succ depth ih =>
    obtain ⟨hexpression, hbinary, hjoin, hprimary⟩ := ih
    refine ⟨fun ts => ?_, fun power ts => ?_, fun power left ts => ?_, fun ts => ?_⟩
    · rw [expressionWithin, hbinary, expressionWithin]
      obtain ⟨before, _ | left, rest⟩ := binaryWithin depth 0 ts
      · rfl
      simp only [OperandReading.map, Option.map_some, ahead?_map hf]
      split
      · simp only [take_map hf, Reading.map, hexpression, orMissing_map, under_map, Item.map, mapAll,
          mapAll_append, Option.map_some]
      · rfl
    · rw [binaryWithin, hprimary, binaryWithin]
      obtain ⟨before, _ | left, rest⟩ := primaryWithin depth ts
      · rfl
      simp only [OperandReading.map, Option.map_some, hjoin]
    · rw [joinWithin, joinWithin, ahead?_map hf]
      cases (ahead? ts).bind bindingPower? with
      | none => rfl
      | some p =>
        dsimp only
        split
        · have hnode : ∀ operator right : List Item,
              Item.node none .binaryExpression ((left.map f).under .left ::
                (mapAll f operator ++ mapAll f right)) =
              (Item.node none .binaryExpression (left.under .left :: (operator ++ right))).map f := by
            intro operator right
            simp only [Item.map, mapAll, under_map, mapAll_append]
          simp only [take_map hf, Reading.map, hbinary, orMissing_map, hnode, hjoin]
        · rfl
    · let element : List Token → Reading × Bool := fun ts =>
        ((expressionWithin depth ts).items, (expressionWithin depth ts).operand.isSome)
      have harguments : ∀ ts, parenthesized expressionFirst element (ts.map f) =
          Reading.map f (parenthesized expressionFirst element ts) := by
        refine parenthesized_map hf fun ts => ?_
        show ((expressionWithin depth (ts.map f)).items,
          (expressionWithin depth (ts.map f)).operand.isSome) = _
        rw [hexpression, items_map, OperandReading.map, Option.isSome_map]
      rw [primaryWithin, comments_map hf, primaryWithin]
      obtain ⟨before, _ | ⟨t, rest⟩⟩ := comments ts
      · rfl
      simp only [Reading.map, List.map_cons, hf]
      split
      · rw [ahead?_map hf]
        split
        · have hbetween := harguments (comments rest).2
          simp only [element] at hbetween
          simp only [comments_map hf, Reading.map, hbetween, OperandReading.map, Option.map_some,
            Item.map, mapAll, mapAll_append]
        · rfl
      · rfl
      · simp only [stringLiteral_map hf]
        rfl
      · rw [hexpression, orMissing_map]
        simp only [Reading.map, expect_map hf, OperandReading.map, Option.map_some, Item.map, mapAll,
          mapAll_append]
      · rfl

/-- An expression is the same of changed tokens. -/
lemma expression_map (ts : List Token) : expression (ts.map f) = (expression ts).map f := by
  rw [expression, List.length_map, (within_map hf _).1, expression]

/-! ## Statements -/

/-- A parameter is the same of changed tokens. -/
lemma parameter_map (ts : List Token) :
    parameter (ts.map f) = (Reading.map f (parameter ts).1, (parameter ts).2) := by
  rw [parameter, ahead?_map hf, parameter]
  cases ahead? ts with
  | none => rfl
  | some kind =>
    dsimp only
    split
    · simp only [expect_map hf, Reading.map, takeIf_map hf, mapAll, Item.map, mapAll_append]
    · rfl

/-- A declarator is the same of changed tokens. -/
lemma declarator_map (ts : List Token) :
    declarator (ts.map f) = (Reading.map f (declarator ts).1, (declarator ts).2) := by
  rw [declarator, comments_map hf, declarator]
  obtain ⟨before, _ | ⟨t, rest⟩⟩ := comments ts
  · simp only [Reading.map, List.map_nil, mapAll_append]
    rfl
  simp only [Reading.map, List.map_cons, hf]
  split
  · simp only [comments_map hf, Reading.map, ahead?_map hf]
    split
    · simp only [parenthesized_map hf (parameter_map hf), Reading.map, mapAll_append, mapAll, Item.map]
    · simp only [take_map hf, Reading.map, expression_map hf, orMissing_map, mapAll_append, mapAll,
        Item.map]
    · simp only [mapAll_append, mapAll, Item.map]
  · simp only [mapAll_append, List.map_cons]
    rfl

/-- Further declarators are the same of changed tokens. -/
lemma moreDeclarators_map (count : Nat) (ts : List Token) :
    moreDeclarators count (ts.map f) = Reading.map f (moreDeclarators count ts) := by
  induction count generalizing ts with
  | zero => rfl
  | succ count ih =>
    rw [moreDeclarators, moreDeclarators, ahead?_map hf, comments_map hf]
    split
    · simp only [take_map hf, Reading.map, declarator_map hf, ih, mapAll_append]
    · rfl

/-- A declaration is the same of changed tokens. -/
lemma declaration_map (mayDefine : Bool) (t : Token) (ts : List Token) :
    declaration mayDefine (f t) (ts.map f) =
      ((declaration mayDefine t ts).1.map f, (declaration mayDefine t ts).2.map f) := by
  simp only [declaration, declarator_map hf, Reading.map, comments_map hf]
  cases (comments (declarator ts).1.2).2 with
  | nil =>
    simp only [List.map_nil, Piece.map, Item.map, mapAll, mapAll_append]
    rfl
  | cons brace rest =>
    simp only [List.map_cons, hf]
    split
    · simp only [Piece.map, Option.map_some, mapAll, Item.map, mapAll_append]
    · have hmore := moreDeclarators_map hf (rest.length + 1) (brace :: rest)
      rw [List.map_cons] at hmore
      simp only [List.length_cons, List.length_map, hmore, Reading.map, expect_map hf, Piece.map,
        Item.map, mapAll, mapAll_append]

/-- A return statement is the same of changed tokens. -/
lemma returnStatement_map (t : Token) (ts : List Token) :
    returnStatement (f t) (ts.map f) =
      ((returnStatement t ts).1.map f, (returnStatement t ts).2.map f) := by
  rw [returnStatement, comments_map hf, returnStatement]
  obtain ⟨before, rest⟩ := comments ts
  simp only [Reading.map, ahead?_map hf]
  split
  · simp only [expect_map hf, Reading.map, Item.map, mapAll, mapAll_append]
  · simp only [expression_map hf, items_map, expect_map hf, Reading.map, Item.map, mapAll,
      mapAll_append]

/-- An expression statement is the same of changed tokens. -/
lemma expressionStatement_map (ts : List Token) :
    expressionStatement (ts.map f) =
      ((expressionStatement ts).1.map f, (expressionStatement ts).2.map f) := by
  simp only [expressionStatement, expression_map hf, items_map, expect_map hf, Reading.map, Item.map,
    mapAll_append]

/-- A statement is the same of changed tokens. -/
lemma statement_map (t : Token) (ts : List Token) :
    statement (f t) (ts.map f) = ((statement t ts).1.map f, (statement t ts).2.map f) := by
  unfold statement
  rw [hf]
  split
  · exact declaration_map hf false t ts
  · rfl
  · rw [returnStatement_map hf]
    rfl
  · rfl
  · rfl
  · split
    · rw [← List.map_cons, expressionStatement_map hf]
      rfl
    · rfl

/-- What stands at the top of a document is the same of changed tokens. -/
lemma topLevel_map (t : Token) (ts : List Token) :
    topLevel (f t) (ts.map f) = ((topLevel t ts).1.map f, (topLevel t ts).2.map f) := by
  rw [topLevel, hf, topLevel]
  split
  · exact declaration_map hf true t ts
  · exact statement_map hf t ts

/-! ## Parses -/

/-- A block of changed tokens. -/
def Block.map (f : Token → Token) (b : Block) : Block :=
  ⟨b.definition.map (mapAll f), mapAll f b.outer⟩

/-- A draft of changed tokens, of which the last stops at `stop`. -/
def Draft.map (f : Token → Token) (d : Draft) (stop : Nat) : Draft :=
  ⟨mapAll f d.parts, d.blocks.map (Block.map f), stop⟩

/-- A state of changed tokens. -/
def State.map (f : Token → Token) (s : State) (stop : Nat) : State :=
  ⟨s.draft.map f stop, s.tokens.map f⟩

/-- Whether a step over changed tokens comes to the same as one over the tokens, but for the changes and
where the last token stops. -/
inductive Step.Mapped (f : Token → Token) : Step → Step → Prop where
  | finished {parts} : Step.Mapped f (.finished parts) (.finished (mapAll f parts))
  | next {checks checks' s stop} : Step.Mapped f (.next checks s) (.next checks' (s.map f stop))

omit hf in
/-- A block with changed tokens is closed in the same way. -/
lemma closedBlock_map (b : Block) (parts : List Item) :
    Draft.closedBlock (b.map f) (mapAll f parts) = (Draft.closedBlock b parts).map f := by
  obtain ⟨_ | head, outer⟩ := b
  · rfl
  · simp only [Draft.closedBlock, Block.map, Option.map_some, Item.map, mapAll, mapAll_append]

/-- To close a block is the same of changed tokens. -/
lemma close_map (d : Draft) (b : Block) (outer : List Block) (ts : List Token) (stop : Nat) :
    Step.Mapped f (close d b outer ts)
      (close (d.map f stop) (b.map f) (outer.map (Block.map f)) (ts.map f)) := by
  have hitem : Draft.closedBlock (b.map f) ((d.map f stop).parts.reverse ++
      mapAll f (expect .rightBrace none ts).1) =
      (Draft.closedBlock b (d.parts.reverse ++ (expect .rightBrace none ts).1)).map f := by
    rw [← closedBlock_map, mapAll_append, mapAll_reverse]
    rfl
  simp only [close, expect_map hf, Reading.map, hitem]
  exact .next

/-- Where nothing is taken over, a step is the same of changed tokens. -/
lemma advance_map (source source' : Source) (d : Draft) (t : Token) (ts : List Token) (stop : Nat) :
    Step.Mapped f (advance source none d t ts)
      (advance source' none (d.map f stop) (f t) (ts.map f)) := by
  have hblocks : (d.map f stop).blocks.isEmpty = d.blocks.isEmpty := List.isEmpty_map
  have hread : (if d.blocks.isEmpty then topLevel (f t) (ts.map f) else statement (f t) (ts.map f)) =
      (((if d.blocks.isEmpty then topLevel t ts else statement t ts).1.map f),
        (if d.blocks.isEmpty then topLevel t ts else statement t ts).2.map f) := by
    split
    · exact topLevel_map hf t ts
    · exact statement_map hf t ts
  simp only [advance, State.reusable?, Option.bind_none, hblocks, hread]
  obtain ⟨_ | _, rest⟩ := if d.blocks.isEmpty then topLevel t ts else statement t ts
  · exact .next
  · exact .next

/-- Steps look at the kinds of tokens alone. -/
lemma step_map (source source' : Source) (s : State) (stop : Nat) :
    Step.Mapped f (step source none s) (step source' none (s.map f stop)) := by
  obtain ⟨stop', hdraft⟩ : ∃ stop', ((s.draft.map f stop).add (mapAll f (comments s.tokens).1)).after
      (taken (s.tokens.map f) ((comments s.tokens).2.map f)) =
      ((s.draft.add (comments s.tokens).1).after (taken s.tokens (comments s.tokens).2)).map f
        stop' := by
    refine ⟨((taken (s.tokens.map f) ((comments s.tokens).2.map f)).getLast?.map (·.stop)).getD stop, ?_⟩
    simp only [Draft.after, Draft.add, Draft.map, mapAll_append, mapAll_reverse]
  simp only [step, State.map, comments_map hf, Reading.map, hdraft]
  generalize (s.draft.add (comments s.tokens).1).after _ = d
  obtain ⟨parts, _ | ⟨b, outer⟩, last⟩ := d
  · cases (comments s.tokens).2 with
    | nil =>
      show Step.Mapped f (.finished parts.reverse) (.finished (mapAll f parts).reverse)
      rw [← mapAll_reverse]
      exact .finished
    | cons t rest => exact advance_map hf source source' ⟨parts, [], last⟩ t rest stop'
  · cases (comments s.tokens).2 with
    | nil => exact close_map hf ⟨parts, b :: outer, last⟩ b outer [] stop'
    | cons t rest =>
      have hclose := close_map hf ⟨parts, b :: outer, last⟩ b outer (t :: rest) stop'
      have hadvance := advance_map hf source source' ⟨parts, b :: outer, last⟩ t rest stop'
      show Step.Mapped f (if t.kind = .rightBrace then _ else _)
        (if (f t).kind = .rightBrace then _ else _)
      rw [hf]
      split
      · exact hclose
      · exact hadvance

/-- Where nothing is taken over, steps are the same of changed tokens. -/
lemma steps_map {source : Source} (source' : Source) {s s' : State} (h : Steps source none s s')
    (stop : Nat) : ∃ stop', Steps source' none (s.map f stop) (s'.map f stop') := by
  induction h with
  | refl => exact ⟨stop, .refl⟩
  | @tail s₁ s₂ _ hleads ih =>
    obtain ⟨stop₁, ih⟩ := ih
    obtain ⟨checks, hnext⟩ := hleads
    have hstep := step_map hf source source' s₁ stop₁
    rw [hnext] at hstep
    generalize hr : step source' none (s₁.map f stop₁) = r at hstep
    cases hstep with
    | @next _ checks' _ stop₂ => exact ⟨stop₂, ih.tail ⟨checks', hr⟩⟩

/-- A parse over changed tokens gives the changed parts. -/
theorem finished_map {source source' : Source} {ts : List Token} {s s' : State}
    {parts parts' : List Item} (hs : Steps source none ⟨.empty, ts⟩ s)
    (hfinished : step source none s = .finished parts)
    (hs' : Steps source' none ⟨.empty, ts.map f⟩ s')
    (hfinished' : step source' none s' = .finished parts') : parts' = mapAll f parts := by
  obtain ⟨stop, hs⟩ := steps_map hf source' hs 0
  have hstep := step_map hf source source' s stop
  rw [hfinished] at hstep
  generalize hr : step source' none (s.map f stop) = r at hstep
  cases hstep with
  | finished =>
    obtain rfl := finished_unique hs hs' hr hfinished'
    exact Step.finished.inj (hfinished'.symm.trans hr)

end

/-- Without an old tree, every parse comes to its end. -/
theorem exists_finished (source : Source) (s : State) :
    ∃ s' parts, Steps source none s s' ∧ step source none s' = .finished parts := by
  induction hn : s.remaining using Nat.strong_induction_on generalizing s with
  | _ n ih =>
    rcases step_cases source none s with ⟨hfinished, -⟩ | ⟨checks, s', hnext, -⟩
    · exact ⟨s, _, .refl, hfinished⟩
    · have hleads : Leads source none s s' := ⟨checks, hnext⟩
      obtain ⟨s'', parts, hs, hfinished⟩ := ih _ (hn ▸ remaining_lt hleads) s' rfl
      exact ⟨s'', parts, .head hleads hs, hfinished⟩

end Reparse.C
