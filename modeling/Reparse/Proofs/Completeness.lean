import Reparse.Proofs.Soundness

/-!
# Completeness of the readers

Whatever the comments between them, tokens that start with a sentence of the grammar are read as
its derivation, without an error, as long as what follows the sentence may follow it. The main
statements are `Derives.reads`, for what stands below statements, and those on single statements
after it. As the readers are functions, no sentence has two derivations.
-/

namespace Reparse.C

open Item Shape

/-- A reading without errors of items with the given shapes, which leaves tokens of the given
kinds. -/
structure Reading.Yields (r : Reading) (ss : List Shape) (ks : List Terminal) : Prop where
  shapes : shapesOf r.1 = ss
  clean : hasErrorOf r.1 = false
  rest : kinds r.2 = ks

/-- Readings in a row yield their shapes in a row. -/
lemma Reading.Yields.append {r q : Reading} {ss ss' ks ks'} (h : r.Yields ss ks)
    (h' : q.Yields ss' ks') : Reading.Yields (r.1 ++ q.1, q.2) (ss ++ ss') ks' :=
  ⟨by rw [shapesOf_append, h.shapes, h'.shapes], by rw [hasErrorOf_append, h.clean, h'.clean]; rfl,
    h'.rest⟩

/-- Comments yield no shape. -/
lemma yields_comments (ts : List Token) : (comments ts).Yields [] (kinds ts) :=
  ⟨(allComments_comments ts).shapesOf, (allComments_comments ts).hasErrorOf, kinds_comments ts⟩

/-- A token of a kind that some sentence contains is no unknown one. -/
lemma yields_token (field : Option Field) {t : Token} (ht : t.isComment = false)
    (hu : t.kind ≠ .unknown) (rest : List Token) :
    Reading.Yields ([.token field t], rest) [.leaf field t.kind] (kinds rest) :=
  ⟨by simp [shapesOf, Item.shapes, ht], by simpa [hasErrorOf, hasError] using hu, rfl⟩

/-- To take a token yields its leaf. -/
lemma yields_take (field : Option Field) {ts k ks} (h : kinds ts = k :: ks) (hu : k ≠ .unknown) :
    (take field ts).Yields [.leaf field k] ks := by
  obtain ⟨before, t, rest, ht, hb, hc, rfl, rfl, -⟩ := take_of_kinds field h
  rw [ht]
  have hbefore : Reading.Yields (before, t :: rest) [] (t.kind :: kinds rest) :=
    ⟨hb.shapesOf, hb.hasErrorOf, kinds_cons hc⟩
  exact hbefore.append (yields_token field hc hu rest)

/-- To expect a token that is due yields its leaf. -/
lemma yields_expect (field : Option Field) {ts k ks} (h : kinds ts = k :: ks)
    (hu : k ≠ .unknown) : (expect k field ts).Yields [.leaf field k] ks := by
  rw [expect_of_kinds field h]
  exact yields_take field h hu

/-- The node over the items of a reading. -/
lemma Reading.Yields.node {r : Reading} {ss ks} (h : r.Yields ss ks) (f : Option Field)
    (rule : Rule) (hr : rule ≠ .error) :
    Reading.Yields ([.node f rule r.1], r.2) [.node f rule ss] ks := by
  refine ⟨by simp [shapesOf, Item.shapes, h.shapes], ?_, h.rest⟩
  simpa [hasErrorOf, hasError, h.clean] using hr

/-- A reading of an operand of the given shape, without errors, which leaves tokens of the given
kinds. -/
def OperandReading.Yields (r : OperandReading) (s : Shape) (ks : List Terminal) : Prop :=
  ∃ i, r.operand = some i ∧ i.shapes = [s] ∧ i.hasError = false ∧ kinds r.rest = ks

/-- An operand that is there yields its shape under a field. -/
lemma OperandReading.Yields.orMissing {r : OperandReading} {s ks} (h : r.Yields s ks)
    (hb : AllComments r.before) (f : Field) :
    (r.orMissing (some f)).Yields [s.under f] ks := by
  obtain ⟨i, hi, hs, he, hk⟩ := h
  refine ⟨?_, ?_, hk⟩
  · simp [OperandReading.orMissing, hi, hb.shapesOf, shapesOf, hs]
  · simp [OperandReading.orMissing, hi, hb.hasErrorOf, hasErrorOf, he]

/-- Without a field it yields its shape. -/
lemma OperandReading.Yields.orMissing_none {r : OperandReading} {s ks} (h : r.Yields s ks)
    (hb : AllComments r.before) : (r.orMissing none).Yields [s] ks := by
  obtain ⟨i, hi, hs, he, hk⟩ := h
  refine ⟨?_, ?_, hk⟩
  · simp [OperandReading.orMissing, hi, hb.shapesOf, shapesOf, hs]
  · simp [OperandReading.orMissing, hi, hb.hasErrorOf, hasErrorOf, he]

/-- An operand that may be absent yields its shape. -/
lemma OperandReading.Yields.items {r : OperandReading} {s ks} (h : r.Yields s ks)
    (hb : AllComments r.before) : r.items.Yields [s] ks := by
  obtain ⟨i, hi, hs, he, hk⟩ := h
  refine ⟨?_, ?_, hk⟩
  · simp [OperandReading.items, hi, hb.shapesOf, shapesOf, hs]
  · simp [OperandReading.items, hi, hb.hasErrorOf, hasErrorOf, he]

/-! ## What sentences start with -/

/-- The kinds that a sentence of a category may start with, where that matters. -/
def Category.first : Category → List Terminal
  | .primary | .binary _ | .expression => expressionFirst
  | .parameter => [.primitiveType]
  | .statement => [.primitiveType, .leftBrace, .returnKeyword, .semicolon] ++ expressionFirst
  | .topLevel => [.primitiveType, .leftBrace, .returnKeyword, .semicolon] ++ expressionFirst
  | .declarator | .declarators => [.identifier]
  | .list _ | .statements | .document => []

/-- A node starts like its first part. -/
lemma leavesOf_node {s k ks} (f : Option Field) (rule : Rule) (rest : List Shape)
    (h : s.leaves = k :: ks) : ∃ ks', leavesOf [.node f rule (s :: rest)] = k :: ks' :=
  ⟨ks ++ leavesOf rest, by simp [leavesOf, leaves, h]⟩

/-- A sentence starts with a kind that its category may start with. -/
lemma Derives.starts {c ss} (h : Derives c ss) (hc : c.first ≠ []) :
    ∃ k ks, leavesOf ss = k :: ks ∧ k ∈ c.first := by
  induction h with
  | operand _ ih => exact ih (List.cons_ne_nil _ _)
  | @operation _ _ _ l _ _ _ _ _ ihl _ =>
    obtain ⟨k, ks, hk, hf⟩ := ihl (List.cons_ne_nil _ _)
    have hl : (l.under .left).leaves = k :: ks := by simpa [leavesOf] using hk
    obtain ⟨ks', h⟩ := leavesOf_node none .binaryExpression _ hl
    exact ⟨k, ks', h, hf⟩
  | plain _ ih => exact ih (List.cons_ne_nil _ _)
  | @assignment l _ _ _ ihl _ =>
    obtain ⟨k, ks, hk, hf⟩ := ihl (List.cons_ne_nil _ _)
    have hl : (l.under .left).leaves = k :: ks := by simpa [leavesOf] using hk
    obtain ⟨ks', h⟩ := leavesOf_node none .assignmentExpression _ hl
    exact ⟨k, ks', h, hf⟩
  | evaluation _ ih =>
    obtain ⟨k, ks, hk, hf⟩ := ih (List.cons_ne_nil _ _)
    obtain ⟨ks', h⟩ := leavesOf_node none .expressionStatement _ (by simpa [leavesOf] using hk)
    exact ⟨k, ks', h, List.mem_append_right _ hf⟩
  | single _ ih => exact ih (List.cons_ne_nil _ _)
  | @several d rest _ _ ih _ =>
    obtain ⟨k, ks, hk, hf⟩ := ih (List.cons_ne_nil _ _)
    have hk' : d.leaves = k :: ks := by simpa [leavesOf] using hk
    exact ⟨k, ks ++ leavesOf (.leaf none .comma :: rest), by rw [leavesOf, hk']; rfl, hf⟩
  | loose _ ih => exact ih (List.cons_ne_nil _ _)
  | nil | last | more | done | next | blank | further => exact absurd rfl hc
  | _ => exact ⟨_, _, rfl, by decide⟩

/-! ## Lists -/

/-- Shapes that satisfy `P` with commas between them, and maybe one after them. -/
inductive Separated (P : Shape → Prop) : List Shape → Prop where
  | nil : Separated P []
  | last {e} :
    P e →
    Separated P [e]
  | more {e rest} :
    P e →
    Separated P rest →
    Separated P (e :: .leaf none .comma :: rest)

/-- What a list of shapes that satisfy `P` needs of the reader of its elements: among the last `n`
tokens it reads such a shape before a comma or a closing parenthesis as an element. -/
def ReadsElements (P : Shape → Prop) (n : Nat) (element : List Token → Reading × Bool) : Prop :=
  ∀ s ts k ks, P s → k ∈ [Terminal.comma, .rightParen] → ts.length ≤ n →
    commentAhead ts = false → kinds ts = s.leaves ++ k :: ks →
    (element ts).2 = true ∧ (element ts).1.Yields [s] (k :: ks)

/-- A reader of elements that satisfy `P`, with the tokens that they may start with. -/
structure IsListReader (P : Shape → Prop) (n : Nat) (first : List Terminal)
    (element : List Token → Reading × Bool) : Prop where
  reads : ReadsElements P n element
  keeps : ∀ ts, (element ts).1.Keeps ts
  first : Terminal.rightParen ∉ first
  starts : ∀ s, P s → ∃ k ks, s.leaves = k :: ks ∧ k ≠ .comma ∧ k ≠ .rightParen

/-- One element of a list, up to the comma or the closing parenthesis after it. -/
lemma elements_of_element {P n first element s k ks ts} (h : IsListReader P n first element)
    (hd : P s) (hk : k ∈ [Terminal.comma, .rightParen]) (hn : ts.length ≤ n)
    (hts : kinds ts = s.leaves ++ k :: ks) :
    ∃ front u rest, Reading.Yields (front, u :: rest) [s] (k :: ks) ∧ u.isComment = false ∧
      u.kind = k ∧ kinds rest = ks ∧ rest.length < ts.length ∧
      ∀ count, elements first element (count + 1) ts =
        if k = .comma then (front ++ .token none u :: (elements first element count rest).1,
          (elements first element count rest).2)
        else (front, u :: rest) := by
  obtain ⟨k', ks', hs, hcomma, hparen⟩ := h.starts s hd
  have hbk := keeps_comments ts
  obtain ⟨before, t, rest, hb, hbc, htc, htk, -, -⟩ :=
    @comments_of_kinds ts k' _ (by rw [hts, hs]; rfl)
  have hkt := kinds_comments ts
  rw [hb] at hbk hkt
  have hlt := hbk.length_le
  obtain ⟨htrue, hy⟩ := h.reads s (t :: rest) k ks hd hk (Nat.le_trans hlt hn)
    (by simpa [commentAhead] using htc) (hkt.trans hts)
  have hik := h.keeps (t :: rest)
  have hli := hik.length_le
  generalize he : element (t :: rest) = q at htrue hy hik hli
  obtain ⟨⟨items, rest'⟩, isElement⟩ := q
  dsimp only at htrue hy hli
  subst htrue
  obtain ⟨after, u, rest'', ha, hac, huc, huk, hr, hl⟩ := comments_of_kinds hy.rest
  have hafter := yields_comments rest'
  rw [ha] at hafter
  have hbefore : Reading.Yields (before, t :: rest) [] (kinds (t :: rest)) :=
    ⟨hbc.shapesOf, hbc.hasErrorOf, rfl⟩
  have hall := (hbefore.append hy).append hafter
  refine ⟨before ++ items ++ after, u, rest'', ⟨hall.shapes, hall.clean, ?_⟩, huc, huk, hr,
    by simp only [List.length_cons] at hlt hli hl ⊢; omega, fun count => ?_⟩
  · rw [kinds_cons huc, huk, hr]
  · rw [elements, hb]
    dsimp only
    rw [if_neg (htk ▸ hparen), if_neg (htk ▸ hcomma), he]
    simp only [if_true, ha]
    by_cases hkc : k = .comma
    · simp [huk, hkc]
    · have hk' : u.kind = .rightParen := by
        rw [huk]
        simpa [hkc] using hk
      rw [if_neg (huk ▸ hkc), if_neg (hk' ▸ h.first), if_neg hkc]

/-- A list before its closing parenthesis is read as a whole. -/
lemma yields_elements {P n first element ss ks} (h : IsListReader P n first element)
    (hd : Separated P ss) (count : Nat) (ts : List Token) (hn : ts.length ≤ n)
    (hcount : ts.length ≤ count) (hts : kinds ts = leavesOf ss ++ .rightParen :: ks) :
    (elements first element count ts).Yields ss (.rightParen :: ks) := by
  induction hd generalizing count ts with
  | nil =>
    obtain ⟨before, t, rest, heq, hb, ht, hk, hrest, hl⟩ := comments_of_kinds hts
    obtain ⟨count, rfl⟩ : ∃ m, count = m + 1 := ⟨count - 1, by omega⟩
    simp only [elements, heq, hk, if_true]
    exact ⟨hb.shapesOf, hb.hasErrorOf, by rw [kinds_cons ht, hk, hrest]⟩
  | last he =>
    obtain ⟨front, u, rest, hy, -, -, -, hl, heq⟩ := elements_of_element h he
      (List.mem_cons_of_mem _ (List.mem_cons_self ..)) hn (by simpa [leavesOf] using hts)
    obtain ⟨count, rfl⟩ : ∃ m, count = m + 1 := ⟨count - 1, by omega⟩
    rw [heq count, if_neg (by decide)]
    exact hy
  | more he _ ih =>
    obtain ⟨front, u, rest', hy, huc, huk, hr, hl, heq⟩ := elements_of_element h he
      (List.mem_cons_self ..) hn (by simpa [leavesOf, leaves] using hts)
    obtain ⟨count, rfl⟩ : ∃ m, count = m + 1 := ⟨count - 1, by omega⟩
    rw [heq count, if_pos rfl]
    have hmore := ih count rest' (by omega) (by omega) hr
    have hcomma := yields_token none huc (by rw [huk]; decide) rest'
    rw [huk] at hcomma
    simpa using (hy.append hcomma).append hmore

/-- A list in parentheses is read as a whole. -/
lemma yields_parenthesized {P n first element ss ks ts} (h : IsListReader P n first element)
    (hd : Separated P ss) (hn : ts.length ≤ n)
    (hts : kinds ts = .leftParen :: (leavesOf ss ++ .rightParen :: ks)) :
    (parenthesized first element ts).Yields
      (.leaf none .leftParen :: (ss ++ [Shape.leaf none .rightParen])) ks := by
  have hopen := yields_take none hts (by decide)
  have hl := length_take_lt none hts
  have hitems := yields_elements h hd ((take none ts).2.length + 1) (take none ts).2 (by omega)
    (by omega) hopen.rest
  simpa [parenthesized] using (hopen.append hitems).append
    (yields_expect none hitems.rest (by decide))

/-! ## Expressions -/

/-- The kinds that may follow an expression. -/
def expressionFollow : List Terminal := [.comma, .rightParen, .semicolon]

/-- Whether the first of some kinds may follow operands that are joined at `power`: it opens no
call and binds no tighter. -/
def MayFollow (power : Nat) (ks : List Terminal) : Prop :=
  ∀ k, ks.head? = some k → k ≠ .leftParen ∧ ∀ p, bindingPower? k = some p → p ≤ power

/-- An operand without operators is read whatever follows it, except a parenthesis. -/
def ReadsPrimary (s : Shape) : Prop :=
  ∀ depth ts ks, 3 * ts.length + 1 ≤ depth → kinds ts = s.leaves ++ ks →
    ks.head? ≠ some .leftParen → (primaryWithin depth ts).Yields s ks

/-- Operands that are joined at `power` are read on the way to whatever is joined to them. -/
def ReadsBinary (power : Nat) (s : Shape) : Prop :=
  ∀ depth power' ts ks, power' ≤ power → 3 * ts.length + 2 ≤ depth →
    kinds ts = s.leaves ++ ks → MayFollow power ks →
    ∃ before depth' i rest, binaryWithin depth power' ts =
        ⟨before, some (joinWithin depth' power' i rest).1, (joinWithin depth' power' i rest).2⟩ ∧
      3 * rest.length + 1 ≤ depth' ∧ i.shapes = [s] ∧ i.hasError = false ∧ kinds rest = ks

/-- An expression is read before what may follow it. -/
def ReadsExpression (s : Shape) : Prop :=
  ∀ depth ts k ks, k ∈ expressionFollow → 3 * ts.length + 3 ≤ depth →
    kinds ts = s.leaves ++ k :: ks → (expressionWithin depth ts).Yields s (k :: ks)

/-- What the readers of expressions owe the derivations of a category. -/
def Reads : Category → List Shape → Prop
  | .primary, ss => ∀ s, ss = [s] → ReadsPrimary s
  | .binary power, ss => ∀ s, ss = [s] → ReadsBinary power s
  | .expression, ss => ∀ s, ss = [s] → ReadsExpression s
  | .list c, ss => Separated (fun s => Derives c [s] ∧ Reads c [s]) ss
  | _, _ => True

/-- Nothing is joined to an operand where no operator that binds tightly enough comes next. -/
lemma joinWithin_of_stops {power ts} (h : Stops power ts) (depth : Nat) (left : Item) :
    joinWithin depth power left ts = (left, ts) := by
  cases depth with
  | zero => rfl
  | succ depth =>
    unfold joinWithin
    cases hop : (ahead? ts).bind bindingPower? with
    | none => rfl
    | some p =>
      obtain ⟨operator, ha, hp⟩ := Option.bind_eq_some_iff.1 hop
      dsimp only
      rw [if_neg (Nat.not_le_of_lt (h operator p ha hp))]

/-- Operands that are joined at `power` are read up to what binds less tightly. -/
lemma ReadsBinary.yields {power s ks} (h : ReadsBinary power s) (depth : Nat) (ts : List Token)
    (hd : 3 * ts.length + 2 ≤ depth) (hts : kinds ts = s.leaves ++ ks)
    (hk : ∀ k, ks.head? = some k → k ≠ .leftParen ∧ ∀ p, bindingPower? k = some p → p < power) :
    (binaryWithin depth power ts).Yields s ks := by
  obtain ⟨before, depth', i, rest, heq, -, hs, he, hr⟩ := h depth power ts ks (Nat.le_refl _) hd hts
    fun k hk' => ⟨(hk k hk').1, fun p hp => Nat.le_of_lt ((hk k hk').2 p hp)⟩
  have hstop : Stops power rest := by
    intro operator p ha hp
    rw [ahead?_eq, hr] at ha
    exact (hk operator ha).2 p hp
  rw [heq, joinWithin_of_stops hstop]
  exact ⟨i, rfl, hs, he, hr⟩

/-- A sum or a product is read when its operands are. -/
lemma readsBinary_operation {power p operator l r} (hop : bindingPower? operator = some p)
    (hle : power ≤ p) (hl : ReadsBinary p l) (hr : ReadsBinary (p + 1) r) :
    ReadsBinary power (.node none .binaryExpression
      [l.under .left, .leaf (some .operator) operator, r.under .right]) := by
  intro depth power' ts ks hpow hd hts hk
  have hts' : kinds ts = l.leaves ++ operator :: (r.leaves ++ ks) := by
    simpa [leaves, leavesOf] using hts
  have hne : operator ≠ .leftParen ∧ operator ≠ .unknown := by
    constructor <;> (rintro rfl; cases hop)
  obtain ⟨before, depth', i, rest, heq, hd', hs, he, hrest⟩ := hl depth power' ts _
    (Nat.le_trans hpow hle) hd hts' (by
      intro k hk'
      obtain rfl : operator = k := by simpa using hk'
      exact ⟨hne.1, fun q hq => by rw [hop] at hq; cases hq; exact Nat.le_refl _⟩)
  obtain ⟨depth', rfl⟩ : ∃ d, depth' = d + 1 := ⟨depth' - 1, by omega⟩
  have hlt := length_take_lt (some .operator) hrest
  have hoperator := yields_take (some .operator) hrest hne.2
  have hb := (allComments_before depth').2.1 (p + 1) (take (some .operator) rest).2
  have hright := (hr.yields depth' (take (some .operator) rest).2 (by omega)
    hoperator.rest fun k hk' => ⟨(hk k hk').1, fun q hq =>
      Nat.lt_succ_of_le (Nat.le_trans ((hk k hk').2 q hq) hle)⟩).orMissing hb .right
  have hkeep := ((keeps_within depth').2.1 (p + 1) (take (some .operator) rest).2).orMissing
    (some .right)
  have hlr := hkeep.length_le
  have hleft : Reading.Yields ([i.under .left], rest) [l.under .left] (kinds rest) :=
    ⟨by simp [shapesOf, hs], by simp [hasErrorOf, he], rfl⟩
  have hnode := ((hleft.append hoperator).append hright).node none .binaryExpression
    (by decide)
  refine ⟨before, depth', .node none .binaryExpression (i.under .left ::
    ((take (some .operator) rest).1 ++ ((binaryWithin depth' (p + 1)
      (take (some .operator) rest).2).orMissing (some .right)).1)), _, ?_, ?_, ?_, ?_, hright.rest⟩
  · rw [heq, joinWithin, ahead?_eq, hrest]
    simp only [List.head?_cons, Option.bind_some, hop]
    rw [if_pos (Nat.le_trans hpow hle)]
  · omega
  · simpa [shapesOf] using hnode.shapes
  · simpa [hasErrorOf] using hnode.clean

/-- An assignment is read when its operands are. -/
lemma readsExpression_assignment {l r} (hl : ReadsBinary 0 l) (hr : ReadsExpression r) :
    ReadsExpression (.node none .assignmentExpression
      [l.under .left, .leaf (some .operator) .equals, r.under .right]) := by
  intro depth ts k ks hk hd hts
  have hts' : kinds ts = l.leaves ++ .equals :: (r.leaves ++ k :: ks) := by
    simpa [leaves, leavesOf] using hts
  obtain ⟨depth, rfl⟩ : ∃ d, depth = d + 1 := ⟨depth - 1, by omega⟩
  obtain ⟨i, hi, hs, he, hrest⟩ := hl.yields depth ts (by omega) hts' (by
    intro k' hk'
    obtain rfl : Terminal.equals = k' := by simpa using hk'
    exact ⟨by decide, fun p hp => by cases hp⟩)
  have hlr := length_rest_le ((keeps_within depth).2.1 0 ts)
  rcases hb : binaryWithin depth 0 ts with ⟨before, operand, rest⟩
  rw [hb] at hi hrest hlr
  dsimp only at hi hrest hlr
  subst hi
  have hlt := length_take_lt (some .operator) hrest
  have hoperator := yields_take (some .operator) hrest (by decide)
  have hright := (hr depth (take (some .operator) rest).2 k ks hk (by omega)
    hoperator.rest).orMissing ((allComments_before depth).1 _) .right
  have hleft : Reading.Yields ([i.under .left], rest) [l.under .left] (kinds rest) :=
    ⟨by simp [shapesOf, hs], by simp [hasErrorOf, he], rfl⟩
  have hnode := ((hleft.append hoperator).append hright).node none
    .assignmentExpression (by decide)
  have ha : ahead? rest = some .equals := by rw [ahead?_eq, hrest]; rfl
  simp only [expressionWithin, hb, if_pos ha]
  exact ⟨_, rfl, by simpa [shapesOf] using hnode.shapes, by simpa [hasErrorOf] using hnode.clean,
    hnode.rest⟩

/-- Operands that no assignment follows are an expression. -/
lemma readsExpression_plain {s} (h : ReadsBinary 0 s) : ReadsExpression s := by
  intro depth ts k ks hk hd hts
  obtain ⟨depth, rfl⟩ : ∃ d, depth = d + 1 := ⟨depth - 1, by omega⟩
  obtain ⟨i, hi, hs, he, hrest⟩ := h.yields depth ts (by omega) hts (by
    intro k' hk'
    obtain rfl : k = k' := by simpa using hk'
    revert hk
    cases k <;> simp [expressionFollow, bindingPower?])
  rcases hb : binaryWithin depth 0 ts with ⟨before, operand, rest⟩
  rw [hb] at hi hrest
  dsimp only at hi hrest
  subst hi
  have ha : ahead? rest ≠ some .equals := by
    rw [ahead?_eq, hrest]
    rintro h
    obtain rfl : k = .equals := by simpa using h
    exact absurd hk (by decide)
  simp only [expressionWithin, hb, if_neg ha]
  exact ⟨i, rfl, hs, he, hrest⟩

/-- An operand without operators is operands at every power. -/
lemma readsBinary_operand {power s} (h : ReadsPrimary s) : ReadsBinary power s := by
  intro depth power' ts ks _ hd hts hk
  obtain ⟨depth, rfl⟩ : ∃ d, depth = d + 1 := ⟨depth - 1, by omega⟩
  obtain ⟨i, hi, hs, he, hrest⟩ := h depth ts ks (by omega) hts
    fun hl => (hk _ hl).1 rfl
  have hlr := length_rest_le ((keeps_within depth).2.2.2 ts)
  rcases hb : primaryWithin depth ts with ⟨before, operand, rest⟩
  rw [hb] at hi hrest hlr
  dsimp only at hi hrest hlr
  subst hi
  exact ⟨before, depth, i, rest, by simp only [binaryWithin, hb], by omega, hs, he, hrest⟩

/-- What is read for an operand by its first token. -/
lemma readsPrimary_of_first {s} (kind : Terminal) (ks' : List Terminal) (hs : s.leaves = kind :: ks')
    (h : ∀ depth before t rest ts ks, 3 * rest.length + 3 ≤ depth → kinds rest = ks' ++ ks →
      comments ts = (before, t :: rest) → t.isComment = false → t.kind = kind →
      ks.head? ≠ some .leftParen → (primaryWithin (depth + 1) ts).Yields s ks) :
    ReadsPrimary s := by
  intro depth ts ks hd hts hk
  obtain ⟨depth, rfl⟩ : ∃ d, depth = d + 1 := ⟨depth - 1, by omega⟩
  rw [hs, List.cons_append] at hts
  obtain ⟨before, t, rest, hc, -, ht, hkind, hr, hl⟩ := comments_of_kinds hts
  exact h depth before t rest ts ks (by omega) hr hc ht hkind hk

/-- A name is read as one. -/
lemma readsPrimary_name : ReadsPrimary (.leaf none .identifier) := by
  refine readsPrimary_of_first .identifier [] rfl fun depth before t rest ts ks _ hr hc ht hk hn => ?_
  have ha : ahead? rest ≠ some .leftParen := by rwa [ahead?_eq, hr]
  simp only [primaryWithin, hc, hk, if_neg ha]
  exact ⟨_, rfl, by simp [Item.shapes, ht, hk], by simp [hasError, hk], hr⟩

/-- A number is read as one. -/
lemma readsPrimary_number : ReadsPrimary (.leaf none .numberLiteral) := by
  refine readsPrimary_of_first .numberLiteral [] rfl fun depth before t rest ts ks _ hr hc ht hk _ => ?_
  simp only [primaryWithin, hc, hk]
  exact ⟨_, rfl, by simp [Item.shapes, ht, hk], by simp [hasError, hk], hr⟩

/-- A string is read with or without a text. -/
lemma readsPrimary_string {text : List Terminal} (h : text = [] ∨ text = [.stringContent]) :
    ReadsPrimary (.node none .stringLiteral
      (.leaf none .quote :: (text.map (Shape.leaf none ·) ++ [Shape.leaf none .quote]))) := by
  have hl : leavesOf (text.map (Shape.leaf none ·)) = text := by
    rcases h with rfl | rfl <;> rfl
  refine readsPrimary_of_first .quote (text ++ [Terminal.quote]) (by simp [leaves, leavesOf, hl])
    fun depth before t rest ts ks _ hr hc ht hk _ => ?_
  have hopening := yields_token none ht (by rw [hk]; decide) rest
  have htext : (takeIf .stringContent none rest).Yields (text.map (.leaf none ·)) (.quote :: ks) := by
    rcases h with rfl | rfl
    · have h := yields_comments rest
      rw [takeIf_of_ne (by rw [hr]; simp)]
      exact ⟨h.shapes, h.clean, h.rest.trans (by simpa using hr)⟩
    · rw [@takeIf_of_kinds rest .stringContent (.quote :: ks) none (by simpa using hr)]
      exact yields_take none (by simpa using hr) (by decide)
  have hnode := ((hopening.append htext).append
    (yields_expect none htext.rest (by decide))).node none .stringLiteral (by decide)
  simp only [primaryWithin, hc, hk, stringLiteral]
  exact ⟨_, rfl, by simpa [shapesOf, hk] using hnode.shapes,
    by simpa [hasErrorOf] using hnode.clean, hnode.rest⟩

/-- The reader of expressions reads the elements of a list. -/
lemma isListReader_expression {depth n} (hd : 3 * n + 3 ≤ depth) :
    IsListReader (fun s => Derives .expression [s] ∧ Reads .expression [s]) n expressionFirst
      fun ts => ((expressionWithin depth ts).items, (expressionWithin depth ts).operand.isSome) := by
  refine ⟨fun s ts k ks hs hk hn hc hts => ?_, (keeps_within depth).1, by decide, fun s hs => ?_⟩
  · have hf : k ∈ expressionFollow := by
      rcases List.mem_cons.1 hk with rfl | hk
      · decide
      · rw [List.mem_singleton.1 hk]
        decide
    have hy := hs.2 s rfl depth ts k ks hf (by omega) hts
    obtain ⟨i, hi, -⟩ := id hy
    exact ⟨by rw [hi]; rfl, hy.items ((allComments_before depth).1 ts)⟩
  · obtain ⟨k, ks, hk, hf⟩ := hs.1.starts (List.cons_ne_nil _ _)
    refine ⟨k, ks, by simpa [leavesOf] using hk, ?_⟩
    constructor <;> (rintro rfl; exact absurd hf (by decide))

/-- A call is read when its arguments are. -/
lemma readsPrimary_call {arguments}
    (h : Separated (fun s => Derives .expression [s] ∧ Reads .expression [s]) arguments) :
    ReadsPrimary (.node none .callExpression
      [.leaf (some .function) .identifier, .node (some .arguments) .argumentList
        (.leaf none .leftParen :: (arguments ++ [Shape.leaf none .rightParen]))]) := by
  refine readsPrimary_of_first .identifier
    (.leftParen :: (leavesOf arguments ++ [Terminal.rightParen])) (by simp [leaves, leavesOf])
    fun depth before t rest ts ks hd hr hc ht hk _ => ?_
  have hr' : kinds rest = .leftParen :: (leavesOf arguments ++ .rightParen :: ks) := by
    simpa using hr
  have ha : ahead? rest = some .leftParen := by rw [ahead?_eq, hr']; rfl
  have hfunction := yields_token (some .function) ht (by rw [hk]; decide) rest
  have harguments := (yields_parenthesized (isListReader_expression (n := rest.length) hd) h
    (length_comments_le rest) ((kinds_comments rest).trans hr')).node (some .arguments)
    .argumentList (by decide)
  have hnode := ((hfunction.append (yields_comments rest)).append harguments).node none
    .callExpression (by decide)
  simp only [primaryWithin, hc, hk, if_pos ha]
  exact ⟨_, rfl, by simpa [shapesOf, hk] using hnode.shapes,
    by simpa [hasErrorOf] using hnode.clean, hnode.rest⟩

/-- An expression in parentheses is read when the expression is. -/
lemma readsPrimary_parens {e} (h : ReadsExpression e) :
    ReadsPrimary (.node none .parenthesizedExpression
      [.leaf none .leftParen, e, .leaf none .rightParen]) := by
  refine readsPrimary_of_first .leftParen (e.leaves ++ [Terminal.rightParen])
    (by simp [leaves, leavesOf]) fun depth before t rest ts ks hd hr hc ht hk _ => ?_
  have hopening := yields_token none ht (by rw [hk]; decide) rest
  have hinner := (h depth rest .rightParen ks (by decide) hd (by simpa using hr)).orMissing_none
    ((allComments_before depth).1 rest)
  have hnode := ((hopening.append hinner).append
    (yields_expect none hinner.rest (by decide))).node none .parenthesizedExpression
    (by decide)
  simp only [primaryWithin, hc, hk]
  exact ⟨_, rfl, by simpa [shapesOf, hk] using hnode.shapes,
    by simpa [hasErrorOf] using hnode.clean, hnode.rest⟩

/-- Every derivation of a category below statements is read. -/
theorem Derives.reads {c ss} (h : Derives c ss) : Reads c ss := by
  induction h with
  | name =>
    rintro s ⟨⟩
    exact readsPrimary_name
  | number =>
    rintro s ⟨⟩
    exact readsPrimary_number
  | emptyString =>
    rintro s ⟨⟩
    exact readsPrimary_string (.inl rfl)
  | string =>
    rintro s ⟨⟩
    exact readsPrimary_string (.inr rfl)
  | call _ ih =>
    rintro s ⟨⟩
    exact readsPrimary_call ih
  | parens _ ih =>
    rintro s ⟨⟩
    exact readsPrimary_parens (ih _ rfl)
  | operand _ ih =>
    rintro s ⟨⟩
    exact readsBinary_operand (ih _ rfl)
  | operation hop hle _ _ ihl ihr =>
    rintro s ⟨⟩
    exact readsBinary_operation hop hle (ihl _ rfl) (ihr _ rfl)
  | plain _ ih =>
    rintro s ⟨⟩
    exact readsExpression_plain (ih _ rfl)
  | assignment _ _ ihl ihr =>
    rintro s ⟨⟩
    exact readsExpression_assignment (ihl _ rfl) (ihr _ rfl)
  | nil => exact .nil
  | last he ih => exact .last ⟨he, ih⟩
  | more he _ ih ihrest => exact .more ⟨he, ih⟩ ihrest
  | _ => trivial

/-- An expression is read before what may follow it. -/
lemma yields_expression {s k ts ks} (h : Derives .expression [s]) (hk : k ∈ expressionFollow)
    (hts : kinds ts = s.leaves ++ k :: ks) : (expression ts).Yields s (k :: ks) :=
  h.reads s rfl _ ts k ks hk (by simp only [depthBound]; omega) hts

/-! ## Declarations and statements -/

/-- The reader of parameters reads the elements of a list. -/
lemma isListReader_parameter (n : Nat) :
    IsListReader (fun s => Derives .parameter [s] ∧ Reads .parameter [s]) n parameterFirst
      parameter := by
  refine ⟨fun s ts k ks hs hk _ hc hts => ?_, keeps_parameter, by decide, fun s hs => ?_⟩
  · have hstart : ∃ ks', s.leaves = .primitiveType :: ks' := by
      cases hs.1 <;> exact ⟨_, rfl⟩
    obtain ⟨ks', hks'⟩ := hstart
    have ha : ahead? ts = some .primitiveType := by rw [ahead?_eq, hts, hks']; rfl
    rw [parameter_of_mem ha (by decide)]
    refine ⟨rfl, ?_⟩
    have htype := @yields_expect (some .type) ts .primitiveType (ks' ++ k :: ks) (by rw [hts, hks']; rfl)
      (by decide)
    cases hs.1 with
    | unnamed =>
      obtain rfl : ks' = [] := by simpa [leaves, leavesOf] using hks'.symm
      have hne : (kinds (expect .primitiveType (some .type) ts).2).head? ≠ some .identifier := by
        rw [htype.rest]
        rintro h
        obtain rfl : k = .identifier := by simpa using h
        exact absurd hk (by decide)
      rw [takeIf_of_ne hne]
      have h := (htype.append (yields_comments
        (expect .primitiveType (some .type) ts).2)).node none .parameterDeclaration
        (by decide)
      exact ⟨h.shapes, h.clean, h.rest.trans htype.rest⟩
    | named =>
      obtain rfl : ks' = [.identifier] := by simpa [leaves, leavesOf] using hks'.symm
      rw [takeIf_of_kinds (some .declarator) htype.rest]
      exact (htype.append (yields_take (some .declarator) htype.rest (by decide))).node none
        .parameterDeclaration (by decide)
  · have hstart : ∃ ks', s.leaves = .primitiveType :: ks' := by
      cases hs.1 <;> exact ⟨_, rfl⟩
    obtain ⟨ks', hks'⟩ := hstart
    exact ⟨.primitiveType, ks', hks', by decide, by decide⟩

/-- A declarator with parameters is read whatever follows it. -/
lemma yields_functionDeclarator {ps ks ts} (h : Derives (.list .parameter) ps)
    (hts : kinds ts = (functionShape ps).leaves ++ ks) :
    (declarator ts).1.Yields [functionShape ps] ks ∧ (declarator ts).2 = true := by
  have hts' : kinds ts = .identifier :: .leftParen :: (leavesOf ps ++ .rightParen :: ks) := by
    simpa [functionShape, leaves, leavesOf] using hts
  obtain ⟨before, t, rest, hc, hb, ht, hk, hr, -⟩ := comments_of_kinds hts'
  have ha : ahead? rest = some .leftParen := by rw [ahead?_eq, hr]; rfl
  rw [declarator_of_leftParen hc hk ha]
  refine ⟨?_, rfl⟩
  have hbefore : Reading.Yields (before, t :: rest) [] (kinds (t :: rest)) :=
    ⟨hb.shapesOf, hb.hasErrorOf, rfl⟩
  have hname := yields_token (some .declarator) ht (by rw [hk]; decide) rest
  have hparameters := (yields_parenthesized (isListReader_parameter rest.length) h.reads
    (length_comments_le rest) ((kinds_comments rest).trans hr)).node (some .parameters)
    .parameterList (by decide)
  have hnode := ((hname.append (yields_comments rest)).append hparameters).node
    (some .declarator) .functionDeclarator (by decide)
  simpa [hk, functionShape] using hbefore.append hnode

/-- A declarator is read before a comma or a semicolon. -/
lemma yields_declarator {d k ks ts} (h : Derives .declarator [d])
    (hk : k ∈ [Terminal.comma, .semicolon]) (hts : kinds ts = d.leaves ++ k :: ks) :
    (declarator ts).1.Yields [d] (k :: ks) := by
  cases h with
  | bare =>
    obtain ⟨before, t, rest, hc, hb, ht, hkt, hr, -⟩ := comments_of_kinds hts
    have hne : ∀ k', k' ∉ [Terminal.comma, .semicolon] → ahead? rest ≠ some k' := by
      rintro k' hk' ha
      rw [ahead?_eq, hr] at ha
      obtain rfl : k = k' := by simpa [leavesOf] using ha
      exact hk' hk
    rw [declarator_of_other hc hkt (hne _ (by decide)) (hne _ (by decide))]
    have hbefore : Reading.Yields (before, t :: rest) [] (kinds (t :: rest)) :=
      ⟨hb.shapesOf, hb.hasErrorOf, rfl⟩
    have h := (hbefore.append (yields_token (some .declarator) ht (by rw [hkt]; decide)
      rest)).append (yields_comments rest)
    rw [hkt, hr] at h
    simpa [leavesOf] using h
  | @initialized e he =>
    have hts' : kinds ts = .identifier :: .equals :: (e.leaves ++ k :: ks) := by
      simpa [leaves, leavesOf] using hts
    obtain ⟨before, t, rest, hc, hb, ht, hkt, hr, -⟩ := comments_of_kinds hts'
    have ha : ahead? rest = some .equals := by rw [ahead?_eq, hr]; rfl
    rw [declarator_of_equals hc hkt ha]
    have hbefore : Reading.Yields (before, t :: rest) [] (kinds (t :: rest)) :=
      ⟨hb.shapesOf, hb.hasErrorOf, rfl⟩
    have hname := yields_token (some .declarator) ht (by rw [hkt]; decide) rest
    have hsign := yields_take none ((kinds_comments rest).trans hr) (by decide)
    have hf : k ∈ expressionFollow := by
      rcases List.mem_cons.1 hk with rfl | hk
      · decide
      · rw [List.mem_singleton.1 hk]
        decide
    have hvalue := (yields_expression he hf hsign.rest).orMissing (allComments_expression _) .value
    have hnode := ((((hname.append (yields_comments rest)).append hsign).append hvalue)).node
      (some .declarator) .initDeclarator (by decide)
    simpa [hkt] using hbefore.append hnode
  | function hp => exact (yields_functionDeclarator hp hts).1

/-- Of several declarators, the first is one, and those after it are read before a semicolon. -/
lemma yields_moreDeclarators {ds} (h : Derives .declarators ds) :
    ∃ d rest, ds = d :: rest ∧ Derives .declarator [d] ∧
      (∃ k ks, k ∈ [Terminal.comma, .semicolon] ∧ leavesOf rest ++ [Terminal.semicolon] = k :: ks) ∧
      ∀ count ts ks, ts.length ≤ count → kinds ts = leavesOf rest ++ .semicolon :: ks →
        (moreDeclarators count ts).Yields rest (.semicolon :: ks) := by
  generalize hc : Category.declarators = c at h
  induction h with
  | @single d hd =>
    refine ⟨d, [], rfl, hd, ⟨_, _, by decide, rfl⟩, fun count ts ks hl hts => ?_⟩
    obtain ⟨before, t, rest, -, -, -, -, -, hlt⟩ := comments_of_kinds hts
    obtain ⟨count, rfl⟩ : ∃ m, count = m + 1 := ⟨count - 1, by omega⟩
    have ha : ahead? ts ≠ some .comma := by simp [ahead?_eq, hts, leavesOf]
    have h := yields_comments ts
    rw [moreDeclarators, if_neg ha]
    exact ⟨h.shapes, h.clean, h.rest.trans hts⟩
  | @several d rest hd _ _ ih =>
    obtain ⟨d', rest', rfl, hd', ⟨k, ks', hk, hks⟩, hmore⟩ := ih rfl
    refine ⟨d, .leaf none .comma :: d' :: rest', rfl, hd, ⟨_, _, by decide, rfl⟩,
      fun count ts ks hl hts => ?_⟩
    have hts' : kinds ts = .comma :: (d'.leaves ++ (leavesOf rest' ++ .semicolon :: ks)) := by
      simpa [leavesOf, leaves] using hts
    obtain ⟨count, rfl⟩ : ∃ m, count = m + 1 := ⟨count - 1, by
      have := length_take_lt none hts'
      omega⟩
    have ha : ahead? ts = some .comma := by rw [ahead?_eq, hts']; rfl
    have hcomma := yields_take none hts' (by decide)
    have hlt := length_take_lt none hts'
    have hrest : leavesOf rest' ++ .semicolon :: ks = k :: (ks' ++ ks) := by
      rw [← List.cons_append, ← hks]
      simp
    have hdec := yields_declarator hd' hk (hcomma.rest.trans (by rw [hrest]))
    have hlr := (keeps_declarator (take none ts).2).length_le
    have htail := hmore count (declarator (take none ts).2).1.2 ks (by omega)
      (by rw [hdec.rest, hrest])
    rw [moreDeclarators, if_pos ha]
    exact (hcomma.append hdec).append htail
  | _ => cases hc

/-- A piece that is a whole item of the given shape, without errors. -/
def Piece.Yields (p : Piece) (s : Shape) : Prop :=
  ∃ item, p = .whole item ∧ item.shapes = [s] ∧ item.hasError = false

/-- What one item yields makes a whole piece. -/
lemma Reading.Yields.piece {i : Item} {rest : List Token} {s ks}
    (h : Reading.Yields ([i], rest) [s] ks) : Piece.Yields (.whole i) s :=
  ⟨i, rfl, by simpa [shapesOf] using h.shapes, by simpa [hasErrorOf] using h.clean⟩

/-- A declaration is read as one, also where a function might be defined. -/
lemma yields_declaration {ds ks ts} {t : Token} (mayDefine : Bool) (h : Derives .declarators ds)
    (ht : t.kind = .primitiveType) (hts : kinds ts = leavesOf ds ++ .semicolon :: ks) :
    (declaration mayDefine t ts).1.Yields (.node none .declaration
        (.leaf (some .type) .primitiveType :: (ds ++ [Shape.leaf none .semicolon]))) ∧
      kinds (declaration mayDefine t ts).2 = ks := by
  have htc : t.isComment = false := by simp [Token.isComment, ht]
  obtain ⟨d, rest, rfl, hd, ⟨k, ks', hk, hks⟩, hmore⟩ := yields_moreDeclarators h
  have hrest : leavesOf rest ++ .semicolon :: ks = k :: (ks' ++ ks) := by
    rw [← List.cons_append, ← hks]
    simp
  have hdec := yields_declarator hd hk (hts.trans (by rw [leavesOf, List.append_assoc, hrest]))
  have hb : bodyAhead mayDefine ts = false := by
    have : k ≠ .leftBrace := by
      rintro rfl
      exact absurd hk (by decide)
    simp [bodyAhead, ahead?_eq, hdec.rest, this]
  have htype := yields_token (some .type) htc (by rw [ht]; decide) ts
  have hbetween := yields_comments (declarator ts).1.2
  have htail := hmore _ (comments (declarator ts).1.2).2 ks (Nat.le_refl _)
    (by rw [hbetween.rest, hdec.rest, hrest])
  have hnode := ((((htype.append hdec).append hbetween).append htail).append
    (yields_expect none htail.rest (by decide))).node none .declaration (by decide)
  rw [declaration_of_not_bodyAhead t hb]
  refine ⟨?_, hnode.rest⟩
  simpa [declarationTail, ht] using hnode.piece

/-- A function definition is opened by its head. -/
lemma opened_of_definition {ps ks ts} {t : Token} (h : Derives (.list .parameter) ps)
    (ht : t.kind = .primitiveType)
    (hts : kinds ts = (functionShape ps).leaves ++ .leftBrace :: ks) :
    ∃ head brace rest, topLevel t ts = (.opened (some head) brace, rest) ∧
      brace.kind = .leftBrace ∧ shapesOf head = [.leaf (some .type) .primitiveType, functionShape ps] ∧
      hasErrorOf head = false ∧ kinds rest = ks := by
  have htc : t.isComment = false := by simp [Token.isComment, ht]
  obtain ⟨hdec, hf⟩ := yields_functionDeclarator h hts
  have hb : bodyAhead true ts = true := by simp [bodyAhead, hf, ahead?_eq, hdec.rest]
  obtain ⟨brace, rest, hc, hk, heq⟩ := declaration_of_bodyAhead t hb
  have htype := yields_token (some .type) htc (by rw [ht]; decide) ts
  have hbetween := yields_comments (declarator ts).1.2
  have hall := (htype.append hdec).append hbetween
  refine ⟨_, brace, rest, by rw [topLevel, if_pos ht, heq], hk, by simpa [ht] using hall.shapes,
    by simpa using hall.clean, ?_⟩
  have hr := hbetween.rest
  rw [hc, hdec.rest, kinds_cons (by simp [Token.isComment, hk])] at hr
  exact (List.cons.inj hr).2

/-- A return statement is read with or without a value. -/
lemma yields_returnStatement {ts ks ss} {t : Token}
    (h : ss = [] ∨ ∃ e, ss = [e] ∧ Derives .expression [e]) (ht : t.kind = .returnKeyword)
    (hts : kinds ts = leavesOf ss ++ .semicolon :: ks) :
    Reading.Yields ([(returnStatement t ts).1], (returnStatement t ts).2)
      [.node none .returnStatement (.leaf none .returnKeyword :: (ss ++ [Shape.leaf none .semicolon]))]
      ks := by
  have htc : t.isComment = false := by simp [Token.isComment, ht]
  have hopening := (yields_token none htc (by rw [ht]; decide) ts).append (yields_comments ts)
  rcases h with rfl | ⟨e, rfl, he⟩
  · have hk : kinds (comments ts).2 = .semicolon :: ks := (kinds_comments ts).trans hts
    have ha : ahead? (comments ts).2 = some .semicolon := by rw [ahead?_eq, hk]; rfl
    have hnode := (hopening.append (yields_expect none hk (by decide))).node none
      .returnStatement (by decide)
    simp only [returnStatement, if_pos ha]
    simpa [ht] using hnode
  · have hk : kinds (comments ts).2 = e.leaves ++ .semicolon :: ks :=
      (kinds_comments ts).trans (by simpa [leavesOf] using hts)
    have ha : ahead? (comments ts).2 ≠ some .semicolon := by
      obtain ⟨k', ks', hk', hf⟩ := he.starts (List.cons_ne_nil _ _)
      have hl : e.leaves = k' :: ks' := by simpa [leavesOf] using hk'
      rw [ahead?_eq, hk, hl]
      rintro h
      obtain rfl : k' = .semicolon := by simpa using h
      exact absurd hf (by decide)
    have hvalue := (yields_expression he (by decide) hk).items (allComments_expression _)
    have hnode := ((hopening.append hvalue).append
      (yields_expect none hvalue.rest (by decide))).node none .returnStatement
      (by decide)
    simp only [returnStatement, if_neg ha]
    simpa [ht] using hnode

/-- An expression is read as a statement before a semicolon. -/
lemma yields_expressionStatement {ts ks e} (he : Derives .expression [e])
    (hts : kinds ts = e.leaves ++ .semicolon :: ks) :
    Reading.Yields ([(expressionStatement ts).1], (expressionStatement ts).2)
      [.node none .expressionStatement [e, .leaf none .semicolon]] ks := by
  have hvalue := (yields_expression he (by decide) hts).items (allComments_expression _)
  simpa [expressionStatement] using (hvalue.append
    (yields_expect none hvalue.rest (by decide))).node none .expressionStatement
    (by decide)

/-- Whether a shape is a block. -/
def Shape.isCompound : Shape → Bool
  | node _ .compoundStatement _ => true
  | _ => false

/-- At the top of a document only types are treated in another way than in a block. -/
lemma topLevel_of_ne {t : Token} {ts} (ht : t.kind ≠ .primitiveType) :
    topLevel t ts = statement t ts :=
  if_neg ht

/-- What is no declaration is read in the same way at the top of a document. -/
lemma yields_of_statement {s ks ts} {t : Token} {r : Item × List Token}
    (ht : t.kind ≠ .primitiveType) (hr : statement t ts = (.whole r.1, r.2))
    (hy : Reading.Yields ([r.1], r.2) [s] ks) :
    ((statement t ts).1.Yields s ∧ kinds (statement t ts).2 = ks) ∧
      ((topLevel t ts).1.Yields s ∧ kinds (topLevel t ts).2 = ks) := by
  rw [topLevel_of_ne ht, hr]
  exact ⟨⟨hy.piece, hy.rest⟩, hy.piece, hy.rest⟩

/-- The keyword starts a return statement. -/
lemma statement_of_return {t : Token} {ts} (ht : t.kind = .returnKeyword) :
    statement t ts = (.whole (returnStatement t ts).1, (returnStatement t ts).2) := by
  simp only [statement, ht]
  rfl

/-- What starts an expression starts an expression statement. -/
lemma statement_of_expressionFirst {t : Token} {ts} (hf : t.kind ∈ expressionFirst) :
    statement t ts =
      (.whole (expressionStatement (t :: ts)).1, (expressionStatement (t :: ts)).2) := by
  unfold statement
  split
  case h_6 =>
    rw [if_pos hf]
    rfl
  all_goals
    rename_i ht
    exact absurd hf (by rw [ht]; decide)

/-- A statement that is no block is read as a whole, also at the top of a document. -/
theorem yields_statement {s ks ts} {t : Token} (h : Derives .statement [s])
    (hs : s.isCompound = false) (htc : t.isComment = false)
    (hts : kinds (t :: ts) = s.leaves ++ ks) :
    ((statement t ts).1.Yields s ∧ kinds (statement t ts).2 = ks) ∧
      ((topLevel t ts).1.Yields s ∧ kinds (topLevel t ts).2 = ks) := by
  rw [kinds_cons htc] at hts
  cases h with
  | @declaration ds hds =>
    obtain ⟨ht, hts⟩ : t.kind = .primitiveType ∧ kinds ts = leavesOf ds ++ .semicolon :: ks := by
      simpa [leaves, leavesOf] using hts
    simp only [statement, topLevel, ht, if_true]
    exact ⟨yields_declaration false hds ht hts, yields_declaration true hds ht hts⟩
  | compound => cases hs
  | emptyReturn =>
    obtain ⟨ht, hts⟩ : t.kind = .returnKeyword ∧ kinds ts = .semicolon :: ks := by
      simpa [leaves, leavesOf] using hts
    exact yields_of_statement (by rw [ht]; decide) (statement_of_return ht)
      (yields_returnStatement (.inl rfl) ht hts)
  | @«return» e he =>
    obtain ⟨ht, hts⟩ : t.kind = .returnKeyword ∧ kinds ts = e.leaves ++ .semicolon :: ks := by
      simpa [leaves, leavesOf] using hts
    exact yields_of_statement (by rw [ht]; decide) (statement_of_return ht)
      (@yields_returnStatement ts ks [e] t (.inr ⟨e, rfl, he⟩) ht (by simpa [leavesOf] using hts))
  | emptyStatement =>
    obtain ⟨ht, rfl⟩ : t.kind = .semicolon ∧ kinds ts = ks := by
      simpa [leaves, leavesOf] using hts
    have hy := (yields_token none htc (by rw [ht]; decide) ts).node none
      .expressionStatement (by decide)
    rw [ht] at hy
    exact yields_of_statement (r := (.node none .expressionStatement [.token none t], ts))
      (by rw [ht]; decide) (by simp only [statement, ht]) hy
  | @evaluation e he =>
    obtain ⟨k', ks', hk', hf⟩ := he.starts (List.cons_ne_nil _ _)
    replace hf : k' ∈ expressionFirst := hf
    have hl : e.leaves = k' :: ks' := by simpa [leavesOf] using hk'
    have hts' : kinds (t :: ts) = e.leaves ++ .semicolon :: ks := by
      rw [kinds_cons htc]
      simpa [leaves, leavesOf] using hts
    obtain rfl : t.kind = k' := by
      have := hts'
      rw [kinds_cons htc, hl] at this
      exact (List.cons.inj this).1
    have hne : t.kind ≠ .primitiveType := by
      intro ht
      exact absurd hf (by rw [ht]; decide)
    exact yields_of_statement hne (statement_of_expressionFirst hf) (yields_expressionStatement he hts')

end Reparse.C
