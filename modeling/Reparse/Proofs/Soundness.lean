import Reparse.Proofs.Reading

/-!
# Soundness of the readers

What a reader reads without an error is a derivation of the category that it reads: an item of that
category (`Item.Is`). The main statements are `is_expression`, `is_statement` and `is_topLevel`.

The readers of expressions are bounded by a depth. Too small a depth would end a chain of operators
early, so that the next operator would be put in the wrong place; the bound `3 * n + 3` for `n`
tokens excludes that.
-/

namespace Reparse.C

open Item

/-- A tidy item of a category, which is no comment and takes no comment along. -/
structure Item.Is (c : Category) (i : Item) : Prop where
  derives : Derives c i.shapes
  tidy : i.Tidy
  isComment : i.isComment = false
  isLoose : i.isLoose = false

namespace Item.Is

/-- An item of a category has one shape, which is derived. -/
lemma exists_shape {c i} (h : Is c i) : ∃ s, i.shapes = [s] ∧ Derives c [s] := by
  obtain ⟨s, hs, -⟩ := h.tidy.shapes_eq h.isComment
  exact ⟨s, hs, hs ▸ h.derives⟩

/-- An item of a category spells its shapes. -/
lemma spells {c i} (h : Is c i) (rest : List Token) : Reading.Spells ([i], rest) i.shapes :=
  h.tidy.spells h.isLoose rest

/-- An item of a category spells its shapes under a field. -/
lemma spells_under {c i} (h : Is c i) (f : Field) (rest : List Token) :
    Reading.Spells ([i.under f], rest) (i.shapes.map (.under f)) := by
  rw [← shapes_under]
  exact (h.tidy.under h.isComment f).spells (by rw [isLoose_under, h.isLoose]) rest

/-- Comments and an item after them spell the shape of the item. -/
lemma spells_after {c i before} (h : Is c i) (hb : AllComments before) (rest : List Token) :
    Reading.Spells (before ++ [i], rest) i.shapes :=
  (hb.spells (i.tokens ++ rest)).append (h.spells rest) (by simp [Reading.Keeps, tokensOf])

/-- An item of a category spells its shapes after comments as well. -/
lemma spells_under_after {c i before} (h : Is c i) (hb : AllComments before) (f : Field)
    (rest : List Token) :
    Reading.Spells (before ++ [i.under f], rest) (i.shapes.map (.under f)) :=
  (hb.spells ((i.under f).tokens ++ rest)).append (h.spells_under f rest)
    (by simp [Reading.Keeps, tokensOf])

/-- A node is of a category if its shape is and its first and last part are no comments. -/
lemma node {c f rule ss} {parts m : List Item} {a z : Item} (hd : Derives c [.node f rule ss])
    (hs : shapesOf parts = ss) (hp : TidyAll parts) (he : parts = a :: (m ++ [z]))
    (ha : a.isComment = false) (hz : (z.isComment || z.isLoose) = false)
    (hr : rule ≠ .parameterDeclaration) : Is c (.node f rule parts) := by
  subst hs
  refine ⟨hd, tidy_node hp he ha hz, rfl, ?_⟩
  cases rule <;> first | rfl | exact absurd rfl hr

/-- An item of a category is no comment and takes none along. -/
lemma ends {c i} (h : Is c i) : (i.isComment || i.isLoose) = false := by
  simp [h.isComment, h.isLoose]

/-- An item of a category under a field is no comment and takes none along. -/
lemma ends_under {c i} (h : Is c i) (f : Field) :
    ((i.under f).isComment || (i.under f).isLoose) = false := by
  simp [h.isComment, h.isLoose]

/-- A statement may stand at the top of a document. -/
lemma loose {i} (h : Is .statement i) : Is .topLevel i := by
  obtain ⟨s, hs, hd⟩ := h.exists_shape
  exact ⟨hs ▸ .loose hd, h.tidy, h.isComment, h.isLoose⟩

/-- A token is of a category if its shape is. -/
lemma token {c f} {t : Token} (ht : t.isComment = false) (hd : Derives c [.leaf f t.kind]) :
    Is c (.token f t) :=
  ⟨by simpa [shapes, ht] using hd, fun h => by simp [ht] at h, ht, rfl⟩

end Item.Is

/-- A token that is read is kept. -/
lemma keeps_token (f : Option Field) (t : Token) (rest : List Token) :
    Reading.Keeps (t :: rest) ([.token f t], rest) := by
  simp [Reading.Keeps, tokensOf, tokens]

/-- If nothing is lost together with what is read first, nothing is lost after it. -/
lemma Reading.Keeps.tail {ts q rest : List Token} {a b : List Item}
    (h : Reading.Keeps ts (a ++ b, rest)) (ha : Reading.Keeps ts (a, q)) :
    Reading.Keeps q (b, rest) := by
  have hq : tokensOf (a ++ b) ++ rest = tokensOf a ++ q := Eq.trans h (Eq.symm ha)
  rw [tokensOf_append, List.append_assoc] at hq
  exact List.append_cancel_left hq

/-- A reading that loses no token adds none. -/
lemma Reading.Keeps.length_le {ts} {r : Reading} (h : r.Keeps ts) : r.2.length ≤ ts.length := by
  rw [← show _ ++ _ = _ from h, List.length_append]
  omega

/-- A node that an expected token closes is of a category if its shape is. -/
lemma is_closed {c f rule a m ts ss k} (hs : Reading.Spells (a :: m, ts) ss)
    (ha : a.isComment = false) (he : hasErrorOf (expect k none ts).1 = false)
    (hd : Derives c [.node f rule (ss ++ [Shape.leaf none k])]) (hr : rule ≠ .parameterDeclaration) :
    (Item.node f rule (a :: (m ++ (expect k none ts).1))).Is c := by
  obtain ⟨ks, hks⟩ := kinds_of_expect he
  rw [expect_of_kinds none hks]
  have hall := hs.append (spells_take none hks) (keeps_take none ts)
  obtain ⟨before, z, rest, hz, -, hzc, -⟩ := take_of_kinds none hks
  rw [hz] at hall ⊢
  refine Is.node (m := m ++ before) (z := .token none z) hd hall.shapes hall.tidy (by simp) ha ?_ hr
  rw [Bool.or_eq_false_iff]
  exact ⟨hzc, rfl⟩

/-! ## Lists -/

/-- What a reader of elements owes the list: what it reads without an error among the last `n`
tokens is an element of category `c`, or nothing. -/
structure IsElementReader (c : Category) (n : Nat) (element : List Token → Reading × Bool) :
    Prop where
  keeps : ∀ ts, (element ts).1.Keeps ts
  sound : ∀ ts, ts.length ≤ n → commentAhead ts = false → (element ts).2 = true →
    hasErrorOf (element ts).1.1 = false → ∃ s, Derives c [s] ∧ (element ts).1.Spells [s]
  nothing : ∀ ts, (element ts).2 = false → (element ts).1.Spells []

/-- A list that is read without an error is a derivation. -/
lemma spells_elements {c n element} (first : List Terminal) (h : IsElementReader c n element)
    (count : Nat) (ts : List Token) (hn : ts.length ≤ n)
    (he : hasErrorOf (elements first element count ts).1 = false) :
    ∃ ss, Derives (.list c) ss ∧ (elements first element count ts).Spells ss := by
  induction count generalizing ts with
  | zero => exact ⟨[], .nil, AllComments.nil.spells ts⟩
  | succ count ih =>
    have hbk := keeps_comments ts
    have hbs := spells_comments ts
    have htc := commentAhead_comments ts
    unfold elements at he ⊢
    generalize comments ts = r at hbk hbs htc he ⊢
    obtain ⟨before, _ | ⟨t, rest⟩⟩ := r
    · exact ⟨[], .nil, hbs⟩
    have hlt : (t :: rest).length ≤ n := Nat.le_trans hbk.length_le hn
    dsimp only at he ⊢
    split at he
    · rw [if_pos ‹_›]
      exact ⟨[], .nil, hbs⟩
    rw [if_neg ‹_›]
    split at he
    · simp [hasErrorOf, hasError] at he
    rw [if_neg ‹_›]
    have hik := h.keeps (t :: rest)
    have hsound := h.sound (t :: rest) hlt htc
    have hnothing := h.nothing (t :: rest)
    generalize element (t :: rest) = q at hik hsound hnothing he ⊢
    obtain ⟨⟨items, rest'⟩, isElement⟩ := q
    cases isElement with
    | false => exact ⟨[], .nil, hbs.append (hnothing rfl) hik⟩
    | true =>
      simp only [if_true] at he ⊢
      have hak := keeps_comments rest'
      have has := spells_comments rest'
      generalize comments rest' = r' at hak has he ⊢
      have hitems : hasErrorOf items = false := by
        obtain ⟨after, _ | ⟨u, rest''⟩⟩ := r'
        · simp only [hasErrorOf_append, Bool.or_eq_false_iff] at he
          exact he.1.2
        · dsimp only at he
          split at he
          · simp only [hasErrorOf_append, Bool.or_eq_false_iff] at he
            exact he.1.1.2
          split at he
          · simp only [hasErrorOf_append, Bool.or_eq_false_iff] at he
            exact he.1.1.2
          · simp only [hasErrorOf_append, Bool.or_eq_false_iff] at he
            exact he.1.2
      obtain ⟨s, hd, hs⟩ := hsound rfl hitems
      have hall := (hbs.append hs hik).append has hak
      obtain ⟨after, _ | ⟨u, rest''⟩⟩ := r'
      · exact ⟨[s], .last hd, hall⟩
      dsimp only at he ⊢
      split at he
      · rename_i hu
        rw [if_pos hu]
        have hlr : rest''.length ≤ n := by
          have h1 := hak.length_le
          have h2 := hik.length_le
          simp only [List.length_cons] at h1 h2 hlt
          omega
        have hmore : hasErrorOf (elements first element count rest'').1 = false := by
          simp only [hasErrorOf_append, hasErrorOf, Bool.or_eq_false_iff] at he
          exact he.2.2
        obtain ⟨ss, hds, hss⟩ := ih rest'' hlr hmore
        have hc : u.isComment = false := by simp [Token.isComment, hu]
        have hcomma := (hall.append (spells_token none hc rest'') (keeps_token none u rest'')).append
          hss (keeps_elements first element h.keeps count rest'')
        refine ⟨s :: .leaf none .comma :: ss, .more hd hds, ?_⟩
        simpa [hu] using hcomma
      rw [if_neg ‹_›]
      split at he
      · simp [hasErrorOf, hasError] at he
      rw [if_neg ‹_›]
      exact ⟨[s], .last hd, hall⟩

/-- A list in parentheses that is read without an error: its shapes, and that every node over it is
tidy. -/
lemma spells_parenthesized {c n element ts ks} (first : List Terminal)
    (h : IsElementReader c n element) (hk : kinds ts = .leftParen :: ks)
    (hb : commentAhead ts = false) (hn : ts.length ≤ n)
    (he : hasErrorOf (parenthesized first element ts).1 = false) :
    ∃ ss, Derives (.list c) ss ∧ ∀ f rule,
      (node f rule (parenthesized first element ts).1).Tidy ∧
      shapesOf (parenthesized first element ts).1 =
        .leaf none .leftParen :: (ss ++ [Shape.leaf none .rightParen]) := by
  obtain ⟨t, rest, rfl, htc, ht, -⟩ := exists_cons_of_kinds hk hb
  unfold parenthesized at he ⊢
  rw [take_cons none htc] at he ⊢
  simp only [hasErrorOf_append, Bool.or_eq_false_iff] at he ⊢
  obtain ⟨⟨-, hel⟩, hcl⟩ := he
  obtain ⟨ss, hd, hs⟩ := spells_elements first h (rest.length + 1) rest
    (Nat.le_of_succ_le hn) hel
  obtain ⟨ks', hks'⟩ := kinds_of_expect hcl
  rw [expect_of_kinds none hks']
  obtain ⟨closing, z, rest', hz, -, hzc, -⟩ := take_of_kinds none hks'
  have hall := ((spells_token none htc rest).append hs
    (keeps_elements first element h.keeps _ rest)).append (spells_take none hks')
    (keeps_take none _)
  rw [hz] at hall ⊢
  refine ⟨ss, hd, fun f rule => ⟨?_, by simpa [ht] using hall.shapes⟩⟩
  refine tidy_node (a := .token none t)
    (m := (elements first element (rest.length + 1) rest).1 ++ closing) (z := .token none z)
    hall.tidy (by simp) htc ?_
  rw [Bool.or_eq_false_iff]
  exact ⟨hzc, rfl⟩

/-! ## Expressions -/

/-- Whether no operator that binds at least as tightly as `power` comes next. -/
def Stops (power : Nat) (ts : List Token) : Prop :=
  ∀ operator p, ahead? ts = some operator → bindingPower? operator = some p → p < power

/-- What is read before an operand are comments, however deep the readers go. -/
lemma allComments_before (depth : Nat) :
    (∀ ts, AllComments (expressionWithin depth ts).before) ∧
    (∀ power ts, AllComments (binaryWithin depth power ts).before) ∧
    (∀ ts, AllComments (primaryWithin depth ts).before) := by
  induction depth with
  | zero => exact ⟨fun _ => .nil, fun _ _ => .nil, fun _ => .nil⟩
  | succ depth ih =>
    obtain ⟨-, bin, prim⟩ := ih
    refine ⟨fun ts => ?_, fun power ts => ?_, fun ts => ?_⟩
    · have h := bin 0 ts
      unfold expressionWithin
      split
      · simp_all
      rename_i before left rest heq
      rw [heq] at h
      split <;> exact h
    · have h := prim ts
      unfold binaryWithin
      split
      · simp_all
      · rename_i before left rest heq
        rw [heq] at h
        exact h
    · have h := allComments_comments ts
      unfold primaryWithin
      split
      · simp_all
      rename_i before t rest heq
      rw [heq] at h
      split
      · split <;> exact h
      all_goals exact h

/-- What stands before an expression are comments. -/
lemma allComments_expression (ts : List Token) : AllComments (expression ts).before :=
  (allComments_before _).1 ts

/-- An operand that no missing one stands in for. -/
lemma OperandReading.exists_of_orMissing {r : OperandReading} {field : Option Field}
    (h : hasErrorOf (r.orMissing field).1 = false) :
    ∃ i, r.operand = some i ∧ i.hasError = false ∧
      r.orMissing field = (r.before ++ [(field.map i.under).getD i], r.rest) := by
  obtain ⟨before, _ | i, rest⟩ := r
  · cases field <;> simp [orMissing, hasErrorOf, hasError, under] at h
  · refine ⟨i, rfl, ?_, rfl⟩
    cases field <;> simp [orMissing, hasErrorOf] at h <;> exact h.2

/-- Whatever is joined to an operand, its errors stay. -/
lemma hasError_of_joinWithin {depth power left ts}
    (h : (joinWithin depth power left ts).1.hasError = false) : left.hasError = false := by
  induction depth generalizing left ts with
  | zero => exact h
  | succ depth ih =>
    unfold joinWithin at h
    split at h
    · exact h
    split at h
    · have hn := ih h
      simp only [hasError, hasErrorOf, hasError_under, Bool.or_eq_false_iff] at hn
      exact hn.2.1
    · exact h

/-- A reading of an operand that loses no token adds none. -/
lemma length_rest_le {ts} {r : OperandReading} (h : r.Keeps ts) : r.rest.length ≤ ts.length :=
  Reading.Keeps.length_le h

/-- A node over two operands and the operator between them. -/
lemma is_operation {l r : Item} {c c' d operator rule ts ks before rest} (hl : l.Is c)
    (hr : r.Is c') (hb : AllComments before) (hk : kinds ts = operator :: ks)
    (hkeeps : Reading.Keeps (take (some .operator) ts).2 (before ++ [r.under .right], rest))
    (hd : ∀ sl sr, Derives c [sl] → Derives c' [sr] → Derives d [.node none rule
      [sl.under .left, .leaf (some .operator) operator, sr.under .right]])
    (hrule : rule ≠ .parameterDeclaration) :
    (Item.node none rule (l.under .left ::
      ((take (some .operator) ts).1 ++ (before ++ [r.under .right])))).Is d := by
  obtain ⟨sl, hsl, hdl⟩ := hl.exists_shape
  obtain ⟨sr, hsr, hdr⟩ := hr.exists_shape
  have h1 := hl.spells_under .left ts
  have h2 := spells_take (some .operator) hk
  have h3 := hr.spells_under_after hb .right rest
  have h := (h1.append h2 (keeps_take _ ts)).append h3 hkeeps
  refine Is.node (a := l.under .left) (m := (take (some .operator) ts).1 ++ before)
    (z := r.under .right) (hd sl sr hdl hdr) ?_ h.tidy (by simp) ?_ (hr.ends_under .right) hrule
  · simpa [hsl, hsr] using h.shapes
  · rw [isComment_under, hl.isComment]

/-- A string that is read without an error. -/
lemma is_stringLiteral {opening : Token} {ts} (ho : opening.kind = .quote)
    (he : (stringLiteral opening ts).1.hasError = false) :
    (stringLiteral opening ts).1.Is .primary := by
  have hoc : opening.isComment = false := by simp [Token.isComment, ho]
  have hopening := spells_token none hoc ts
  simp only [stringLiteral, hasError, hasErrorOf, hasErrorOf_append, Bool.or_eq_false_iff] at he ⊢
  obtain ⟨-, -, -, he⟩ := he
  by_cases hc : (kinds ts).head? = some .stringContent
  · obtain ⟨ks, hks⟩ := List.head?_eq_some_iff.1 hc
    rw [takeIf_of_kinds none hks] at he ⊢
    have h := hopening.append (spells_take none hks) (keeps_take none ts)
    exact is_closed h hoc he (by simpa [ho] using .string) (by decide)
  · rw [takeIf_of_ne hc] at he ⊢
    have h := hopening.append (spells_comments ts) (keeps_comments ts)
    exact is_closed h hoc he (by simpa [ho] using .emptyString) (by decide)

/-- A call that is read without an error. -/
lemma is_call {n element rest ks} {t : Token} (h : IsElementReader .expression n element)
    (ht : t.kind = .identifier) (hk : kinds rest = .leftParen :: ks) (hn : rest.length ≤ n)
    (he : hasErrorOf (parenthesized expressionFirst element (comments rest).2).1 = false) :
    (Item.node none .callExpression (.token (some .function) t :: ((comments rest).1 ++
      [Item.node (some .arguments) .argumentList
        (parenthesized expressionFirst element (comments rest).2).1]))).Is .primary := by
  have htc : t.isComment = false := by simp [Token.isComment, ht]
  obtain ⟨ss, hd, hs⟩ := spells_parenthesized expressionFirst h ((kinds_comments rest).trans hk)
    (commentAhead_comments rest) (Nat.le_trans (length_comments_le rest) hn) he
  obtain ⟨htidy, hshapes⟩ := hs (some .arguments) .argumentList
  have hargs := htidy.spells rfl (parenthesized expressionFirst element (comments rest).2).2
  have hall := ((spells_token (some .function) htc rest).append (spells_comments rest)
    (keeps_comments rest)).append hargs ?_
  · refine Is.node (a := .token (some .function) t) (m := (comments rest).1)
      (z := .node (some .arguments) .argumentList _) (.call hd) ?_ hall.tidy rfl htc rfl (by decide)
    simpa [ht, shapes, hshapes] using hall.shapes
  · have := keeps_parenthesized expressionFirst element h.keeps (comments rest).2
    simpa [Reading.Keeps, tokensOf, tokens] using this

/-- An expression in parentheses that is read without an error. -/
lemma is_parens {r : OperandReading} {t : Token} {rest} (ht : t.kind = .leftParen)
    (hb : AllComments r.before) (hk : r.Keeps rest)
    (hr : ∀ i, r.operand = some i → i.hasError = false → i.Is .expression)
    (he : hasErrorOf ((r.orMissing none).1 ++ (expect .rightParen none r.rest).1) = false) :
    (Item.node none .parenthesizedExpression (.token none t ::
      ((r.orMissing none).1 ++ (expect .rightParen none r.rest).1))).Is .primary := by
  have htc : t.isComment = false := by simp [Token.isComment, ht]
  rw [hasErrorOf_append, Bool.or_eq_false_iff] at he
  obtain ⟨i, hi, hie, heq⟩ := OperandReading.exists_of_orMissing he.1
  have his := hr i hi hie
  obtain ⟨s, hs, hd⟩ := his.exists_shape
  have hkeeps := hk.orMissing none
  rw [heq] at hkeeps ⊢
  have h := (spells_token none htc rest).append (his.spells_after hb r.rest) hkeeps
  exact is_closed h htc he.2 (by simpa [ht, hs] using .parens hd) (by decide)

/-- What the readers of depth `depth` read without an error is of their category, where the depth is
large enough for the tokens. A chain of operators ends where none comes next that it may take. -/
structure SoundWithin (depth : Nat) : Prop where
  expression : ∀ ts i, 3 * ts.length + 3 ≤ depth →
    (expressionWithin depth ts).operand = some i → i.hasError = false → i.Is .expression
  binary : ∀ power ts i, 3 * ts.length + 2 ≤ depth →
    (binaryWithin depth power ts).operand = some i → i.hasError = false →
    i.Is (.binary power) ∧ Stops power (binaryWithin depth power ts).rest
  join : ∀ power left ts, 3 * ts.length + 1 ≤ depth → left.Is (.binary power) →
    (∀ operator p, ahead? ts = some operator → bindingPower? operator = some p → power ≤ p →
      left.Is (.binary p)) →
    (joinWithin depth power left ts).1.hasError = false →
    (joinWithin depth power left ts).1.Is (.binary power) ∧
      Stops power (joinWithin depth power left ts).2
  primary : ∀ ts i, 3 * ts.length + 1 ≤ depth →
    (primaryWithin depth ts).operand = some i → i.hasError = false → i.Is .primary

namespace SoundWithin

variable {depth : Nat}

/-- An expression: the operand before `=` binds tighter than it. -/
lemma expression_succ (h : SoundWithin depth) {ts i} (hd : 3 * ts.length + 3 ≤ depth + 1)
    (hi : (expressionWithin (depth + 1) ts).operand = some i) (he : i.hasError = false) :
    i.Is .expression := by
  obtain ⟨hexpr, hbin, -, -⟩ := keeps_within depth
  unfold expressionWithin at hi
  have hkl := length_rest_le (hbin 0 ts)
  have hb := h.binary 0 ts
  generalize binaryWithin depth 0 ts = r at hi hkl hb
  obtain ⟨before, _ | left, rest⟩ := r
  · cases hi
  dsimp only at hi hkl hb
  split at hi
  · rename_i ha
    obtain ⟨ks, hks⟩ := List.head?_eq_some_iff.1 ((ahead?_eq rest).symm.trans ha)
    have hlt := length_take_lt (some .operator) hks
    obtain rfl := Option.some.inj hi
    simp only [hasError, hasErrorOf, hasErrorOf_append, hasError_under,
      Bool.or_eq_false_iff] at he
    obtain ⟨-, hel, -, her⟩ := he
    obtain ⟨r, hr, her', heq⟩ := OperandReading.exists_of_orMissing her
    have hright := h.expression _ r (by omega) hr her'
    have hleft := (hb left (by omega) rfl hel).1
    have hkeeps := (hexpr (take (some .operator) rest).2).orMissing (some .right)
    rw [heq] at hkeeps ⊢
    exact is_operation hleft hright ((allComments_before depth).1 _) hks hkeeps
      (fun _ _ hdl hdr => .assignment hdl hdr) (by decide)
  · obtain rfl := Option.some.inj hi
    have hleft := (hb left (by omega) rfl he).1
    obtain ⟨s, hs, hds⟩ := hleft.exists_shape
    exact ⟨hs ▸ .plain hds, hleft.tidy, hleft.isComment, hleft.isLoose⟩

/-- Operands joined by operators: a primary one is an operand at every power. -/
lemma binary_succ (h : SoundWithin depth) {power ts i} (hd : 3 * ts.length + 2 ≤ depth + 1)
    (hi : (binaryWithin (depth + 1) power ts).operand = some i) (he : i.hasError = false) :
    i.Is (.binary power) ∧ Stops power (binaryWithin (depth + 1) power ts).rest := by
  unfold binaryWithin at hi ⊢
  have hkl := length_rest_le ((keeps_within depth).2.2.2 ts)
  have hpr := h.primary ts
  generalize primaryWithin depth ts = r at hi hkl hpr ⊢
  obtain ⟨before, _ | left, rest⟩ := r
  · cases hi
  dsimp only at hi hkl hpr ⊢
  obtain rfl := Option.some.inj hi
  have hleft := hpr left (by omega) rfl (hasError_of_joinWithin he)
  obtain ⟨s, hs, hds⟩ := hleft.exists_shape
  have hany : ∀ p, left.Is (.binary p) := fun p =>
    ⟨hs ▸ .operand hds, hleft.tidy, hleft.isComment, hleft.isLoose⟩
  exact h.join power left rest (by omega) (hany power) (fun _ p _ _ _ => hany p) he

/-- Operators: the right operand stops before those that bind as tightly as the one before it. -/
lemma join_succ (h : SoundWithin depth) {power left ts} (hd : 3 * ts.length + 1 ≤ depth + 1)
    (hl : left.Is (.binary power))
    (hp : ∀ operator p, ahead? ts = some operator → bindingPower? operator = some p → power ≤ p →
      left.Is (.binary p))
    (he : (joinWithin (depth + 1) power left ts).1.hasError = false) :
    (joinWithin (depth + 1) power left ts).1.Is (.binary power) ∧
      Stops power (joinWithin (depth + 1) power left ts).2 := by
  unfold joinWithin at he ⊢
  cases hop : (ahead? ts).bind bindingPower? with
  | none =>
    refine ⟨hl, fun operator p ha hpw => ?_⟩
    simp [ha, hpw] at hop
  | some p =>
    obtain ⟨operator, ha, hpw⟩ := Option.bind_eq_some_iff.1 hop
    simp only [hop] at he ⊢
    split at he
    · rename_i hle
      rw [if_pos hle]
      obtain ⟨ks, hks⟩ := List.head?_eq_some_iff.1 ((ahead?_eq ts).symm.trans ha)
      have hlt := length_take_lt (some .operator) hks
      have hne := hasError_of_joinWithin he
      simp only [hasError, hasErrorOf, hasErrorOf_append, hasError_under,
        Bool.or_eq_false_iff] at hne
      obtain ⟨-, hel, -, her⟩ := hne
      obtain ⟨r, hr, her', heq⟩ := OperandReading.exists_of_orMissing her
      obtain ⟨hright, hstop⟩ := h.binary (p + 1) _ r (by omega) hr her'
      have hleft := hp operator p ha hpw hle
      have hkb := (keeps_within depth).2.1 (p + 1) (take (some .operator) ts).2
      have hkeeps := hkb.orMissing (some .right)
      have hlr := length_rest_le hkb
      rw [heq] at hkeeps he ⊢
      have hnode := fun q (hq : q ≤ p) => is_operation hleft hright
        ((allComments_before depth).2.1 (p + 1) _) hks hkeeps
        (fun _ _ hdl hdr => Derives.operation hpw hq hdl hdr) (by decide)
      refine h.join power _ _ (by dsimp only; omega) (hnode power hle) ?_ he
      intro operator' q ha' hq _
      exact hnode q (Nat.le_of_lt_succ (hstop operator' q ha' hq))
    · rename_i hlt
      rw [if_neg hlt]
      refine ⟨hl, fun operator' q ha' hq => ?_⟩
      obtain rfl : operator = operator' := Option.some.inj (ha.symm.trans ha')
      obtain rfl : p = q := Option.some.inj (hpw.symm.trans hq)
      exact Nat.lt_of_not_le hlt

/-- An argument of a call is an expression. -/
lemma isElementReader (h : SoundWithin depth) {n} (hd : 3 * n + 3 ≤ depth) :
    IsElementReader .expression n fun us =>
      ((expressionWithin depth us).items, (expressionWithin depth us).operand.isSome) where
  keeps := (keeps_within depth).1
  sound us hus _ hsome hes := by
    obtain ⟨i, hi⟩ := Option.isSome_iff_exists.1 hsome
    simp only [OperandReading.items, hi, Option.toList_some, hasErrorOf_append, hasErrorOf,
      Bool.or_false, Bool.or_eq_false_iff] at hes
    have his := h.expression us i (by omega) hi hes.2
    obtain ⟨s, hs, hds⟩ := his.exists_shape
    refine ⟨s, hds, ?_⟩
    have hsp := his.spells_after ((allComments_before depth).1 us) (expressionWithin depth us).rest
    simpa [OperandReading.items, hi, hs] using hsp
  nothing us hnone := by
    have hsp := ((allComments_before depth).1 us).spells (expressionWithin depth us).rest
    have hn : (expressionWithin depth us).operand = none :=
      Option.not_isSome_iff_eq_none.1 (Bool.not_eq_true _ ▸ hnone)
    simpa [OperandReading.items, hn] using hsp

/-- An operand without operators: its first token says what it is. -/
lemma primary_succ (h : SoundWithin depth) {ts i} (hd : 3 * ts.length + 1 ≤ depth + 1)
    (hi : (primaryWithin (depth + 1) ts).operand = some i) (he : i.hasError = false) :
    i.Is .primary := by
  unfold primaryWithin at hi
  have hl := length_comments_le ts
  generalize comments ts = r at hi hl
  obtain ⟨before, _ | ⟨t, rest⟩⟩ := r
  · cases hi
  simp only [List.length_cons] at hl
  dsimp only at hi
  split at hi
  · rename_i ht
    have htc : t.isComment = false := by simp [Token.isComment, ht]
    split at hi
    · rename_i ha
      obtain ⟨ks, hks⟩ := List.head?_eq_some_iff.1 ((ahead?_eq rest).symm.trans ha)
      obtain rfl := Option.some.inj hi
      simp only [hasError, hasErrorOf, hasErrorOf_append, Bool.or_eq_false_iff] at he
      exact is_call (h.isElementReader (n := rest.length) (by omega)) ht hks (Nat.le_refl _)
        he.2.2.2.1.2
    · obtain rfl := Option.some.inj hi
      exact Is.token htc (ht ▸ .name)
  · rename_i ht
    have htc : t.isComment = false := by simp [Token.isComment, ht]
    obtain rfl := Option.some.inj hi
    exact Is.token htc (ht ▸ .number)
  · rename_i ht
    obtain rfl := Option.some.inj hi
    exact is_stringLiteral ht he
  · rename_i ht
    obtain rfl := Option.some.inj hi
    simp only [hasError, hasErrorOf, Bool.or_eq_false_iff] at he
    exact is_parens ht ((allComments_before depth).1 rest) ((keeps_within depth).1 rest)
      (fun i => h.expression rest i (by omega)) he.2.2
  · cases hi

end SoundWithin

/-- The readers of expressions are sound at every depth. -/
lemma soundWithin (depth : Nat) : SoundWithin depth := by
  induction depth with
  | zero => exact ⟨by omega, by omega, by omega, by omega⟩
  | succ depth ih =>
    exact ⟨fun _ _ => ih.expression_succ, fun _ _ _ => ih.binary_succ,
      fun _ _ _ => ih.join_succ, fun _ _ => ih.primary_succ⟩

/-- An expression that is read without an error is one of the grammar. -/
theorem is_expression {ts i} (h : (expression ts).operand = some i) (he : i.hasError = false) :
    i.Is .expression :=
  (soundWithin _).expression ts i (by simp only [depthBound]; omega) h he

/-! ## Declarations and statements -/

/-- A parameter that is read without an error. -/
lemma spells_parameter {ts kind} (ha : ahead? ts = some kind) (hf : kind ∈ parameterFirst)
    (hc : commentAhead ts = false) (he : hasErrorOf (parameter ts).1.1 = false) :
    ∃ s, Derives .parameter [s] ∧ (parameter ts).1.Spells [s] := by
  rw [parameter_of_mem ha hf] at he ⊢
  simp only [hasErrorOf, hasError, hasErrorOf_append, Bool.or_eq_false_iff] at he
  obtain ⟨ks, hks⟩ := kinds_of_expect he.1.2.1
  obtain ⟨t, rest, rfl, htc, ht, -⟩ := exists_cons_of_kinds hks hc
  rw [expect_of_kinds (some .type) hks, take_cons (some .type) htc]
  have htype := spells_token (some .type) htc rest
  by_cases hn : (kinds rest).head? = some .identifier
  · obtain ⟨ks', hks'⟩ := List.head?_eq_some_iff.1 hn
    rw [takeIf_of_kinds (some .declarator) hks']
    have hall := htype.append (spells_take (some .declarator) hks') (keeps_take _ rest)
    obtain ⟨before, z, rest', hz, -, hzc, -⟩ := take_of_kinds (some .declarator) hks'
    rw [hz] at hall ⊢
    have hsh : shapesOf (.token (some .type) t :: (before ++ [Item.token (some .declarator) z])) =
        [.leaf (some .type) .primitiveType, .leaf (some .declarator) .identifier] := by
      simpa [ht] using hall.shapes
    have hends : (Item.isComment (.token (some .declarator) z) ||
        Item.isLoose (.token (some .declarator) z)) = false := by
      rw [Bool.or_eq_false_iff]
      exact ⟨hzc, rfl⟩
    have htidy := @tidy_node none .parameterDeclaration _
      (.token (some .type) t) before _ hall.tidy rfl htc hends
    refine ⟨_, .named, ?_⟩
    have h := htidy.spells (by simp [isLoose, hsh]) rest'
    simpa only [shapes, List.singleton_append, hsh] using h
  · -- a parameter without a name takes the comments after its type along
    rw [takeIf_of_ne hn]
    have hall := htype.append (spells_comments rest) (keeps_comments rest)
    have hsh : shapesOf (.token (some .type) t :: (comments rest).1) =
        [.leaf (some .type) .primitiveType] := by simpa [ht] using hall.shapes
    refine ⟨_, .unnamed, by simp [shapesOf, shapes, hsh], ⟨⟨hall.tidy, by simp, htc, ?_⟩, trivial,
      fun _ => rfl⟩, fun _ => commentAhead_comments rest⟩
    intro hl
    simp [isLoose, hsh] at hl

/-- A parameter is an element of a list. -/
lemma isElementReader_parameter (n : Nat) : IsElementReader .parameter n parameter := by
  have hn : ∀ ts, (∀ kind, ahead? ts = some kind → kind ∉ parameterFirst) ∨
      ∃ kind, ahead? ts = some kind ∧ kind ∈ parameterFirst := by
    intro ts
    by_cases h : ∃ kind, ahead? ts = some kind ∧ kind ∈ parameterFirst
    · exact .inr h
    · exact .inl fun kind ha hf => h ⟨kind, ha, hf⟩
  refine ⟨keeps_parameter, fun ts _ hc hsome he => ?_, fun ts hnone => ?_⟩
  · rcases hn ts with h | ⟨kind, ha, hf⟩
    · rw [parameter_of_notMem h] at hsome
      cases hsome
    · exact spells_parameter ha hf hc he
  · rcases hn ts with h | ⟨kind, ha, hf⟩
    · rw [parameter_of_notMem h]
      exact AllComments.nil.spells ts
    · rw [parameter_of_mem ha hf] at hnone
      cases hnone

/-- The shape of a declarator with parameters. -/
def functionShape (parameters : List Shape) : Shape :=
  .node (some .declarator) .functionDeclarator
    [.leaf (some .declarator) .identifier, .node (some .parameters) .parameterList
      (.leaf none .leftParen :: (parameters ++ [Shape.leaf none .rightParen]))]

/-- A declarator with parameters that is read without an error. -/
lemma is_functionDeclarator {t : Token} {rest ks} (ht : t.kind = .identifier)
    (hk : kinds rest = .leftParen :: ks)
    (he : hasErrorOf (parenthesized parameterFirst parameter (comments rest).2).1 = false) :
    ∃ ps, ∃ i : Item, Derives (.list .parameter) ps ∧ i.Is .declarator ∧ i.shapes = [functionShape ps] ∧
      i = .node (some .declarator) .functionDeclarator (.token (some .declarator) t ::
        ((comments rest).1 ++ [Item.node (some .parameters) .parameterList
          (parenthesized parameterFirst parameter (comments rest).2).1])) := by
  have htc : t.isComment = false := by simp [Token.isComment, ht]
  obtain ⟨ps, hd, hp⟩ := spells_parenthesized parameterFirst
    (isElementReader_parameter (comments rest).2.length) ((kinds_comments rest).trans hk)
    (commentAhead_comments rest) (Nat.le_refl _) he
  obtain ⟨htidy, hshapes⟩ := hp (some .parameters) .parameterList
  have hpk := keeps_parenthesized parameterFirst parameter keeps_parameter (comments rest).2
  have hall := ((spells_token (some .declarator) htc rest).append (spells_comments rest)
    (keeps_comments rest)).append
    (htidy.spells rfl (parenthesized parameterFirst parameter (comments rest).2).2)
    (by simpa [Reading.Keeps, tokensOf, tokens] using hpk)
  have hsh := hall.shapes
  simp only [shapes, hshapes, ht, List.singleton_append] at hsh
  refine ⟨ps, _, hd, Is.node (a := .token (some .declarator) t) (m := (comments rest).1)
    (z := .node (some .parameters) .parameterList _) (.function hd) hsh hall.tidy rfl htc rfl
    (by decide), ?_, rfl⟩
  simp only [shapes, functionShape, List.cons.injEq, Shape.node.injEq, and_true, true_and]
  exact hsh

/-- A declarator with a value that is read without an error. -/
lemma is_initDeclarator {t : Token} {rest ks} (ht : t.kind = .identifier)
    (hk : kinds rest = .equals :: ks)
    (he : hasErrorOf ((expression (take none (comments rest).2).2).orMissing (some .value)).1 =
      false) :
    (Item.node (some .declarator) .initDeclarator (.token (some .declarator) t ::
      ((comments rest).1 ++ (take none (comments rest).2).1 ++
        ((expression (take none (comments rest).2).2).orMissing (some .value)).1))).Is
      .declarator := by
  have htc : t.isComment = false := by simp [Token.isComment, ht]
  have hks := (kinds_comments rest).trans hk
  have hek := (keeps_expression (take none (comments rest).2).2).orMissing (some .value)
  have hb := allComments_expression (take none (comments rest).2).2
  obtain ⟨i, hi, hie, heq⟩ := OperandReading.exists_of_orMissing he
  have his := is_expression hi hie
  obtain ⟨s, hs, hd⟩ := his.exists_shape
  rw [heq] at hek ⊢
  have hvalue := his.spells_under_after hb .value (expression (take none (comments rest).2).2).rest
  have hall := (((spells_token (some .declarator) htc rest).append (spells_comments rest)
    (keeps_comments rest)).append (spells_take none hks) (keeps_take none _)).append hvalue hek
  refine Is.node (a := .token (some .declarator) t) (m := (comments rest).1 ++
    (take none (comments rest).2).1 ++ (expression (take none (comments rest).2).2).before)
    (z := i.under .value) (.initialized hd) ?_ ?_ ?_ htc (his.ends_under .value) (by decide)
  · simpa [ht, hs] using hall.shapes
  · simpa using hall.tidy
  · simp

/-- A declarator that is read without an error; after it says that there were parameters, it is
one with parameters. -/
lemma spells_declarator {ts} (he : hasErrorOf (declarator ts).1.1 = false) :
    ∃ d, Derives .declarator [d] ∧ (declarator ts).1.Spells [d] ∧
      ((declarator ts).2 = true → ∃ ps, Derives (.list .parameter) ps ∧ d = functionShape ps) := by
  have hk := keeps_declarator ts
  have hbk := keeps_comments ts
  have hbs := spells_comments ts
  rcases hc : comments ts with ⟨before, _ | ⟨t, rest⟩⟩
  · simp [declarator_of_nil hc, hasErrorOf, hasError] at he
  by_cases ht : t.kind = .identifier
  · have htc : t.isComment = false := by simp [Token.isComment, ht]
    rw [hc] at hbs hbk
    by_cases hp : ahead? rest = some .leftParen
    · rw [declarator_of_leftParen hc ht hp] at he hk ⊢
      obtain ⟨ks, hks⟩ := List.head?_eq_some_iff.1 ((ahead?_eq rest).symm.trans hp)
      simp only [hasErrorOf, hasError, hasErrorOf_append, Bool.or_eq_false_iff] at he
      obtain ⟨ps, i, hd, hi, hs, rfl⟩ := is_functionDeclarator ht hks he.2.1.2.2.2.1.2
      refine ⟨functionShape ps, .function hd, ?_, fun _ => ⟨ps, hd, rfl⟩⟩
      rw [← hs]
      exact hbs.append (hi.spells _) (hk.tail hbk)
    by_cases hq : ahead? rest = some .equals
    · rw [declarator_of_equals hc ht hq] at he hk ⊢
      obtain ⟨ks, hks⟩ := List.head?_eq_some_iff.1 ((ahead?_eq rest).symm.trans hq)
      simp only [hasErrorOf, hasError, hasErrorOf_append, Bool.or_eq_false_iff] at he
      have hi := is_initDeclarator ht hks he.2.1.2.2.2
      obtain ⟨s, hs, hd⟩ := hi.exists_shape
      refine ⟨s, hd, ?_, fun h => by cases h⟩
      rw [← hs]
      exact hbs.append (hi.spells _) (hk.tail hbk)
    · rw [declarator_of_other hc ht hp hq]
      refine ⟨_, .bare, ?_, fun h => by cases h⟩
      have h := (hbs.append (spells_token (some .declarator) htc rest)
        (keeps_token _ t rest)).append (spells_comments rest) (keeps_comments rest)
      simpa [ht] using h
  · simp [declarator_of_ne hc ht, hasErrorOf, hasError] at he

/-- The declarators after the first that are read without an error. -/
lemma spells_moreDeclarators {count ts} (he : hasErrorOf (moreDeclarators count ts).1 = false) :
    ∃ ss, (moreDeclarators count ts).Spells ss ∧
      ∀ d, Derives .declarator [d] → Derives .declarators (d :: ss) := by
  induction count generalizing ts with
  | zero => exact ⟨[], AllComments.nil.spells ts, fun d hd => .single hd⟩
  | succ count ih =>
    unfold moreDeclarators at he ⊢
    split at he
    · rename_i ha
      rw [if_pos ha]
      obtain ⟨ks, hks⟩ := List.head?_eq_some_iff.1 ((ahead?_eq ts).symm.trans ha)
      simp only [hasErrorOf_append, Bool.or_eq_false_iff] at he
      obtain ⟨d', hd', hs', -⟩ := spells_declarator he.1.2
      obtain ⟨ss, hss, hds⟩ := ih he.2
      have hall := ((spells_take none hks).append hs' (keeps_declarator _)).append hss
        (keeps_moreDeclarators count _)
      exact ⟨.leaf none .comma :: d' :: ss, hall, fun d hd => .several hd (hds d' hd')⟩
    · rw [if_neg ‹_›]
      exact ⟨[], spells_comments ts, fun d hd => .single hd⟩

/-- What stands before the body of a function definition. -/
structure IsHead (head : List Item) : Prop where
  shapes : ∃ ps, Derives (.list .parameter) ps ∧
    shapesOf head = [.leaf (some .type) .primitiveType, functionShape ps]
  tidy : TidyAll head
  start : startsWithComment head = false

/-- A piece that is sound: a whole one without an error is of the category, and a block is opened
by a brace, after the head of a function definition if it is the body of one. -/
def Piece.Sound (c : Category) : Piece → Prop
  | whole item => item.isComment = false ∧ (item.hasError = false → item.Is c)
  | opened definition brace => brace.kind = .leftBrace ∧
    (definition.isSome → c = .topLevel) ∧
    ∀ head ∈ definition, hasErrorOf head = false → IsHead head

/-- A declaration that is read without an error. -/
lemma is_declaration {t : Token} {ts} (ht : t.kind = .primitiveType)
    (he : hasErrorOf ((declarator ts).1.1 ++ (declarationTail ts).1) = false) :
    (Item.node none .declaration (.token (some .type) t ::
      ((declarator ts).1.1 ++ (declarationTail ts).1))).Is .statement := by
  have htc : t.isComment = false := by simp [Token.isComment, ht]
  simp only [declarationTail, hasErrorOf_append, Bool.or_eq_false_iff] at he ⊢
  obtain ⟨d, hd, hds, -⟩ := spells_declarator he.1
  obtain ⟨ss, hss, hmore⟩ := spells_moreDeclarators he.2.1.2
  have hmk := (keeps_comments (declarator ts).1.2).append (keeps_moreDeclarators
    (comments (declarator ts).1.2).2.length (comments (declarator ts).1.2).2)
  have h := (spells_token (some .type) htc ts).append
    (hds.append ((spells_comments _).append hss (keeps_moreDeclarators _ _)) hmk)
    ((keeps_declarator ts).append hmk)
  have hclosed := @is_closed _ none .declaration _ _ _ _ _ h htc he.2.2
    (by simpa [ht] using .declaration (hmore d hd)) (by decide)
  rw [← List.append_assoc]
  exact hclosed

/-- A declaration that is read without an error is one of the grammar, or the head of a function definition.
-/
lemma sound_declaration {t : Token} (mayDefine : Bool) (ts : List Token)
    (ht : t.kind = .primitiveType) :
    (declaration mayDefine t ts).1.Sound (if mayDefine then .topLevel else .statement) := by
  have htc : t.isComment = false := by simp [Token.isComment, ht]
  cases hb : bodyAhead mayDefine ts with
  | true =>
    obtain ⟨brace, rest, -, hk, heq⟩ := declaration_of_bodyAhead t hb
    rw [heq]
    simp only [bodyAhead, Bool.and_eq_true] at hb
    refine ⟨hk, fun _ => by rw [if_pos hb.1.1], ?_⟩
    intro head hh he
    obtain rfl := Option.some.inj hh
    simp only [hasErrorOf, hasErrorOf_append, Bool.or_eq_false_iff] at he
    obtain ⟨d, hd, hds, hf⟩ := spells_declarator he.2.1
    obtain ⟨ps, hps, rfl⟩ := hf hb.1.2
    have hall := ((spells_token (some .type) htc ts).append hds (keeps_declarator ts)).append
      (spells_comments _) (keeps_comments _)
    exact ⟨⟨ps, hps, by simpa [ht] using hall.shapes⟩, by simpa using hall.tidy, htc⟩
  | false =>
    rw [declaration_of_not_bodyAhead t hb]
    refine ⟨rfl, fun he => ?_⟩
    simp only [hasError, hasErrorOf, Bool.or_eq_false_iff] at he
    have h := is_declaration ht he.2.2
    cases mayDefine with
    | true => exact h.loose
    | false => exact h

/-- Where no comment comes next, none stands before an operand. -/
lemma OperandReading.before_eq_nil {r : OperandReading} {ts} (hk : r.Keeps ts)
    (hb : AllComments r.before) (hc : commentAhead ts = false) : r.before = [] := by
  obtain ⟨before, operand, rest⟩ := r
  cases before with
  | nil => rfl
  | cons i before =>
    obtain ⟨⟨t, rfl, ht⟩, -⟩ := hb.cons
    rw [← show _ ++ _ = ts from hk] at hc
    simp [items, tokensOf, tokens, commentAhead, ht] at hc

/-- An expression that is read without an error where no comment comes next, or nothing. -/
lemma items_expression {ts} (hc : commentAhead ts = false)
    (he : hasErrorOf (expression ts).items.1 = false) :
    (∃ i : Item, i.Is .expression ∧ (expression ts).items = ([i], (expression ts).rest)) ∨
      (expression ts).items = ([], ts) := by
  have hk := keeps_expression ts
  have hb := OperandReading.before_eq_nil hk (allComments_expression ts) hc
  cases hi : (expression ts).operand with
  | none =>
    right
    have hnil : (expression ts).items.1 = [] := by simp [OperandReading.items, hb, hi]
    have hk' : tokensOf (expression ts).items.1 ++ (expression ts).items.2 = ts := hk
    rw [hnil] at hk'
    exact Prod.ext hnil hk'
  | some i =>
    left
    have hitems : (expression ts).items = ([i], (expression ts).rest) := by
      simp [OperandReading.items, hb, hi]
    rw [hitems] at he
    simp only [hasErrorOf, Bool.or_false] at he
    exact ⟨i, is_expression hi he, hitems⟩

/-- A return statement that is read without an error. -/
lemma is_returnStatement {t : Token} {ts} (ht : t.kind = .returnKeyword)
    (he : (returnStatement t ts).1.hasError = false) : (returnStatement t ts).1.Is .statement := by
  have htc : t.isComment = false := by simp [Token.isComment, ht]
  have hopening := (spells_token none htc ts).append (spells_comments ts) (keeps_comments ts)
  unfold returnStatement at he ⊢
  dsimp only at he ⊢
  split at he
  · rename_i ha
    rw [if_pos ha]
    simp only [hasError, hasErrorOf, hasErrorOf_append, Bool.or_eq_false_iff] at he
    simpa using is_closed hopening htc he.2.2.2 (by simpa [ht] using .emptyReturn) (by decide)
  · rename_i ha
    rw [if_neg ha]
    simp only [hasError, hasErrorOf, hasErrorOf_append, Bool.or_eq_false_iff] at he
    obtain ⟨-, -, ⟨-, hv⟩, hsemi⟩ := he
    have hk := keeps_expression (comments ts).2
    rcases items_expression (commentAhead_comments ts) hv with ⟨i, his, heq⟩ | heq
    · obtain ⟨s, hs, hd⟩ := his.exists_shape
      rw [heq] at hsemi ⊢
      rw [OperandReading.Keeps, heq] at hk
      have h := hopening.append (his.spells (expression (comments ts).2).rest) hk
      simpa using is_closed h htc hsemi (by simpa [ht, hs] using .return hd) (by decide)
    · rw [heq] at hsemi
      obtain ⟨ks, hks⟩ := kinds_of_expect hsemi
      simp [ahead?_eq, hks] at ha

/-- An expression that is read as a statement without an error. -/
lemma is_expressionStatement {ts kind} (hc : commentAhead ts = false)
    (ha : ahead? ts = some kind) (hf : kind ∈ expressionFirst)
    (he : (expressionStatement ts).1.hasError = false) :
    (expressionStatement ts).1.Is .statement := by
  simp only [expressionStatement, hasError, hasErrorOf_append, Bool.or_eq_false_iff] at he ⊢
  obtain ⟨-, hv, hsemi⟩ := he
  rcases items_expression hc hv with ⟨i, his, heq⟩ | heq
  · obtain ⟨s, hs, hd⟩ := his.exists_shape
    rw [heq] at hsemi ⊢
    exact is_closed (his.spells (expression ts).rest) his.isComment hsemi
      (by simpa [hs] using .evaluation hd) (by decide)
  · rw [heq] at hsemi
    obtain ⟨ks, hks⟩ := kinds_of_expect hsemi
    obtain rfl : kind = .semicolon := by simpa [ahead?_eq, hks] using ha.symm
    exact absurd hf (by decide)

/-- What is read as a statement is one unless it holds an error. -/
theorem sound_statement {t : Token} (ts : List Token) (htc : t.isComment = false) :
    (statement t ts).1.Sound .statement := by
  unfold statement
  split
  · exact sound_declaration false ts ‹_›
  · exact ⟨‹_›, by simp, by simp⟩
  · exact ⟨rfl, is_returnStatement ‹_›⟩
  · rename_i ht
    have hs := spells_token none htc ts
    refine ⟨rfl, fun _ => ⟨?_, ⟨hs.tidy, by simp, htc, fun _ => ?_⟩, rfl, rfl⟩⟩
    · have hsh : shapesOf [.token none t] = [.leaf none .semicolon] := by simpa [ht] using hs.shapes
      rw [shapes, hsh]
      exact .emptyStatement
    · exact (endsOpen_append_singleton [] (.token none t)).trans (by simp [Item.isComment, htc, isLoose])
  · rename_i ht
    exact ⟨htc, fun he => by simp [hasError, ht] at he⟩
  · split
    · rename_i hf
      refine ⟨rfl, fun he => ?_⟩
      have ha : ahead? (t :: ts) = some t.kind := by simp [ahead?_eq, kinds_cons htc]
      exact is_expressionStatement (by simpa [commentAhead] using htc) ha hf he
    · exact ⟨rfl, fun he => by simp [hasError] at he⟩

/-- What is read at the top of a document is a statement or a function definition unless it holds
an error. -/
theorem sound_topLevel {t : Token} (ts : List Token) (htc : t.isComment = false) :
    (topLevel t ts).1.Sound .topLevel := by
  unfold topLevel
  split
  · exact sound_declaration true ts ‹_›
  · have h := sound_statement ts htc
    revert h
    cases (statement t ts).1 with
    | whole item =>
      exact fun h => ⟨h.1, fun he => (h.2 he).loose⟩
    | opened definition brace => exact fun h => ⟨h.1, fun _ => rfl, h.2.2⟩

end Reparse.C
