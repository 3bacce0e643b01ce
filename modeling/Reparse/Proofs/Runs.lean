import Mathlib.Logic.Relation
import Reparse.Parser.Basic
import Reparse.Proofs.Completeness

/-!
# Runs

A call of the parser makes steps from state to state until it is done or halted. A step closes a
block, takes over a node of the old tree, or reads a piece (`Moves`). A call that completes has
reached a state in which it finishes (`exists_of_complete`), and one that halts leaves the
checkpoint of a state that it has reached (`exists_of_halted`). Without an old tree every step
brings the end nearer, so that a call that is never interrupted completes (`run_uninterrupted`).
-/

namespace Reparse.C

open Item

/-- Whether one step leads from `s` to `s'`. -/
def Leads (source : Source) (oldTree : Option Tree) (s s' : State) : Prop :=
  ∃ checks, step source oldTree s = .next checks s'

/-- Whether some steps lead from one state to another. -/
abbrev Steps (source : Source) (oldTree : Option Tree) : State → State → Prop :=
  Relation.ReflTransGen (Leads source oldTree)

namespace State

/-- The tokens of a state after the comments at the front. -/
def pending (s : State) : List Token := (comments s.tokens).2

/-- The draft of a state with the comments at the front. -/
def here (s : State) : Draft := (s.draft.add (comments s.tokens).1).after (taken s.tokens s.pending)

/-- Comments open and close no block. -/
@[simp]
lemma blocks_here (s : State) : s.here.blocks = s.draft.blocks := rfl

/-- Comments are the last parts of a draft. -/
@[simp]
lemma parts_here (s : State) : s.here.parts = (comments s.tokens).1.reverse ++ s.draft.parts := rfl

/-- The first pending token is no comment. -/
lemma isComment_of_pending {s : State} {t : Token} {rest : List Token} (h : s.pending = t :: rest) :
    t.isComment = false := by
  have hc := commentAhead_comments s.tokens
  rw [show (comments s.tokens).2 = t :: rest from h] at hc
  simpa [commentAhead] using hc

end State

/-- What may be taken over in a block may be at the top of a document. -/
lemma mem_reusableAtTop {rule : Rule} {top : Bool}
    (h : rule ∈ if top then reusableAtTop else reusableInBlock) : rule ∈ reusableAtTop := by
  split at h
  · exact h
  · exact List.mem_cons_of_mem _ h

/-- A node that can be taken over is one of those that the old tree has there: it starts with the next
token, ends inside the input, and its rule may stand there. -/
lemma exists_of_reusable {source : Source} {oldTree : Option Tree} {draft : Draft} {t : Token} {n : Node}
    (h : State.reusable? source oldTree draft t = some n) :
    ∃ tree ∈ oldTree, n ∈ tree.candidatesAt draft.lastStop ∧ n.startByte = t.start ∧
      n.stopByte ≤ source.endOfInput ∧
      ∃ rule ∈ if draft.blocks.isEmpty then reusableAtTop else reusableInBlock, rule.symbol = n.symbol := by
  obtain ⟨tree, htree, hfind⟩ := Option.bind_eq_some_iff.1 h
  have hcheck := List.find?_some hfind
  simp only [Bool.and_eq_true, beq_iff_eq, decide_eq_true_eq, List.any_eq_true] at hcheck
  obtain ⟨⟨hstart, hstop⟩, hrule⟩ := hcheck
  exact ⟨tree, htree, List.mem_of_find?_eq_some hfind, hstart, hstop, hrule⟩

/-- What a step from a state may do. -/
inductive Moves (source : Source) (oldTree : Option Tree) (s : State) : State → Prop where
  | closes {b outer} :
    s.draft.blocks = b :: outer →
    (∀ k, ahead? s.tokens = some k → k = .rightBrace) →
    Moves source oldTree s
      ⟨(Draft.mk (Draft.closedBlock b (s.here.parts.reverse ++
          (expect .rightBrace none s.pending).1) :: b.outer) outer s.here.lastStop).after
        (taken s.pending (expect .rightBrace none s.pending).2),
        (expect .rightBrace none s.pending).2⟩
  | reuses {t rest n} :
    s.pending = t :: rest →
    (s.draft.blocks ≠ [] → t.kind ≠ .rightBrace) →
    State.reusable? source oldTree s.here t = some n →
    Moves source oldTree s
      ⟨{ s.here.add [.reused n.green] with lastStop := n.stopByte }, tokensFrom source n.stopByte⟩
  | reads {t rest piece rest'} :
    s.pending = t :: rest →
    (s.draft.blocks ≠ [] → t.kind ≠ .rightBrace) →
    State.reusable? source oldTree s.here t = none →
    (if s.draft.blocks.isEmpty then topLevel t rest else statement t rest) = (piece, rest') →
    Moves source oldTree s ⟨(s.here.place piece).after (taken s.pending rest'), rest'⟩

/-- What a step comes to depends on the next token that is no comment, and on the blocks. -/
lemma step_eq (source : Source) (oldTree : Option Tree) (s : State) :
    step source oldTree s =
      match s.pending, s.draft.blocks with
      | [], [] => .finished s.here.parts.reverse
      | [], b :: outer => close s.here b outer []
      | t :: rest, [] => advance source oldTree s.here t rest
      | t :: rest, b :: outer =>
        if t.kind = .rightBrace then close s.here b outer (t :: rest)
        else advance source oldTree s.here t rest := rfl

/-- A state finishes where no token is left and no block is open; every other step is a move. -/
lemma step_cases (source : Source) (oldTree : Option Tree) (s : State) :
    (step source oldTree s = .finished s.here.parts.reverse ∧ s.pending = [] ∧
      s.draft.blocks = []) ∨
    ∃ checks s', step source oldTree s = .next checks s' ∧ Moves source oldTree s s' := by
  have hstep := step_eq source oldTree s
  have hadvance : ∀ t rest, s.pending = t :: rest →
      (s.draft.blocks ≠ [] → t.kind ≠ .rightBrace) →
      ∃ checks s', advance source oldTree s.here t rest = .next checks s' ∧
        Moves source oldTree s s' := by
    intro t rest hp hk
    unfold advance
    split
    · rename_i n hr
      exact ⟨_, _, rfl, .reuses hp hk hr⟩
    · rename_i hr
      refine ⟨_, _, rfl, ?_⟩
      rw [← hp]
      exact .reads hp hk hr rfl
  have hclose : ∀ b outer, s.draft.blocks = b :: outer →
      (∀ k, ahead? s.tokens = some k → k = .rightBrace) →
      ∃ checks s', close s.here b outer s.pending = .next checks s' ∧
        Moves source oldTree s s' :=
    fun b outer hb hk => ⟨_, _, rfl, .closes hb hk⟩
  have hahead : ahead? s.tokens = s.pending.head?.map (·.kind) := rfl
  cases hp : s.pending with
  | nil =>
    cases hb : s.draft.blocks with
    | nil => exact .inl ⟨by rw [hstep, hp, hb], rfl, rfl⟩
    | cons b outer =>
      rw [hp, hb] at hstep
      obtain ⟨checks, s', h, hm⟩ := hclose b outer hb fun k hk => by simp [hahead, hp] at hk
      rw [hp] at h
      exact .inr ⟨checks, s', hstep.trans h, hm⟩
  | cons t rest =>
    cases hb : s.draft.blocks with
    | nil =>
      rw [hp, hb] at hstep
      obtain ⟨checks, s', h, hm⟩ := hadvance t rest hp fun h => absurd hb h
      exact .inr ⟨checks, s', hstep.trans h, hm⟩
    | cons b outer =>
      rw [hp, hb] at hstep
      by_cases hk : t.kind = .rightBrace
      · obtain ⟨checks, s', h, hm⟩ := hclose b outer hb fun k hk' => by
          have : t.kind = k := by simpa [hahead, hp] using hk'
          exact this.symm.trans hk
        rw [hp] at h
        exact .inr ⟨checks, s', (hstep.trans (if_pos hk)).trans h, hm⟩
      · obtain ⟨checks, s', h, hm⟩ := hadvance t rest hp fun _ => hk
        exact .inr ⟨checks, s', (hstep.trans (if_neg hk)).trans h, hm⟩

/-- A step that leads on is a move. -/
lemma Leads.moves {source oldTree s s'} (h : Leads source oldTree s s') :
    Moves source oldTree s s' := by
  obtain ⟨checks, h⟩ := h
  rcases step_cases source oldTree s with ⟨hf, -⟩ | ⟨checks', s'', hn, hm⟩
  · rw [hf] at h
    cases h
  · rw [hn] at h
    cases h
    exact hm

/-- Where a state finishes, no token is left and no block is open, and it does with the parts that it
has. -/
lemma of_finished {source oldTree s parts} (h : step source oldTree s = .finished parts) :
    s.pending = [] ∧ s.draft.blocks = [] ∧ parts = s.here.parts.reverse := by
  rcases step_cases source oldTree s with ⟨hf, hp, hb⟩ | ⟨checks, s', hn, -⟩
  · exact ⟨hp, hb, Step.finished.inj (h.symm.trans hf)⟩
  · rw [h] at hn
    cases hn

/-- There a state does finish. -/
lemma finished_of_nil (source : Source) (oldTree : Option Tree) {s : State} (hp : s.pending = [])
    (hb : s.draft.blocks = []) : step source oldTree s = .finished s.here.parts.reverse := by
  rw [step_eq, hp, hb]

/-- A state does not both finish and lead on. -/
lemma not_leads_of_finished {source oldTree s s' parts}
    (h : step source oldTree s = .finished parts) : ¬ Leads source oldTree s s' := by
  rintro ⟨checks, hn⟩
  rw [h] at hn
  cases hn

/-- From one state, steps lead to at most one state that finishes. -/
lemma finished_unique {source oldTree s s₁ s₂ parts₁ parts₂} (h₁ : Steps source oldTree s s₁)
    (h₂ : Steps source oldTree s s₂) (hf₁ : step source oldTree s₁ = .finished parts₁)
    (hf₂ : step source oldTree s₂ = .finished parts₂) : s₁ = s₂ := by
  have hu : Relator.RightUnique (Leads source oldTree) := by
    rintro a b c ⟨n, hb⟩ ⟨m, hc⟩
    rw [hb] at hc
    cases hc
    rfl
  rcases Relation.ReflTransGen.total_of_right_unique hu h₁ h₂ with h | h
  · rcases Relation.ReflTransGen.cases_head h with h | ⟨_, hl, -⟩
    · exact h
    · exact absurd hl (not_leads_of_finished hf₁)
  · rcases Relation.ReflTransGen.cases_head h with h | ⟨_, hl, -⟩
    · exact h.symm
    · exact absurd hl (not_leads_of_finished hf₂)

/-! ## Calls -/

section

variable {generation : Nat} {probes : Nat → Probe} {source : Source} {oldTree : Option Tree}

/-- A call that completes has reached a state in which it finishes. -/
lemma exists_of_complete {steps mayHalt s i tree}
    (h : (run generation probes source oldTree steps mayHalt s i).1 = .complete tree) :
    ∃ s' parts, Steps source oldTree s s' ∧ step source oldTree s' = .finished parts ∧
      finish source generation parts = .complete tree := by
  induction steps generalizing mayHalt s i with
  | zero => cases h
  | succ steps ih =>
    unfold run at h
    dsimp only at h
    split at h
    · cases h
    split at h
    · rename_i parts hf
      exact ⟨s, parts, .refl, hf, h⟩
    · rename_i checks s' hn
      split at h
      · cases h
      · obtain ⟨s'', parts, hs, hf, ht⟩ := ih h
        exact ⟨s'', parts, .head ⟨checks, hn⟩ hs, hf, ht⟩

/-- A call that halts leaves the checkpoint of a state that it has reached. -/
lemma exists_of_halted {steps mayHalt s i c}
    (h : (run generation probes source oldTree steps mayHalt s i).1 = .halted c) :
    ∃ s', Steps source oldTree s s' ∧ c = s'.checkpoint source := by
  induction steps generalizing mayHalt s i with
  | zero => cases h
  | succ steps ih =>
    unfold run at h
    dsimp only at h
    split at h
    · cases h
      exact ⟨s, .refl, rfl⟩
    split at h
    · rename_i parts hf
      unfold finish at h
      split at h <;> cases h
    · rename_i checks s' hn
      split at h
      · cases h
        exact ⟨s, .refl, rfl⟩
      · obtain ⟨s'', hs, hc⟩ := ih h
        exact ⟨s'', .head ⟨checks, hn⟩ hs, hc⟩

/-- A call whose steps bring the end nearer finishes or is halted, unless it was given fewer steps
than it needs. If it may not be halted at once, it makes a step before. -/
lemma run_cases (generation : Nat) (mayHalt : Bool) {steps s} (i : Interrupt) (measure : State → Nat)
    (hm : ∀ s₁ s₂, Steps source oldTree s s₁ → Leads source oldTree s₁ s₂ →
      measure s₂ < measure s₁) (hs : measure s < steps) :
    (∃ s' parts, Steps source oldTree s s' ∧ step source oldTree s' = .finished parts ∧
      (run generation probes source oldTree steps mayHalt s i).1 =
        finish source generation parts) ∨
    ∃ s', Steps source oldTree s s' ∧
      (mayHalt = false → Relation.TransGen (Leads source oldTree) s s') ∧
      (run generation probes source oldTree steps mayHalt s i).1 =
        .halted (s'.checkpoint source) := by
  induction steps generalizing mayHalt s i with
  | zero => omega
  | succ steps ih =>
    have hhalt : ∀ {i : Interrupt}, (mayHalt && i.isHalted) = true → mayHalt = false →
        Relation.TransGen (Leads source oldTree) s s := fun h hf => by
      rw [hf] at h
      cases h
    unfold run
    dsimp only
    split
    · exact .inr ⟨s, .refl, hhalt ‹_›, rfl⟩
    rcases step_cases source oldTree s with ⟨hf, -⟩ | ⟨checks, s', hn, -⟩
    · exact .inl ⟨s, _, .refl, hf, by rw [hf]⟩
    · rw [hn]
      dsimp only
      split
      · exact .inr ⟨s, .refl, hhalt ‹_›, rfl⟩
      · have hl : Leads source oldTree s s' := ⟨checks, hn⟩
        have hlt := hm s s' .refl hl
        rcases ih true ((i.poll probes).pollTimes probes checks)
          (fun s₁ s₂ h => hm s₁ s₂ (.head hl h)) (by omega) with
          ⟨s'', parts, hs'', hf, hr⟩ | ⟨s'', hs'', -, hr⟩
        · exact .inl ⟨s'', parts, .head hl hs'', hf, hr⟩
        · exact .inr ⟨s'', .head hl hs'', fun _ => .head' hl hs'', hr⟩

/-- Whether a call with this interrupt is never told to stop. -/
def NeverFires (probes : Nat → Probe) (i : Interrupt) : Prop :=
  ∀ n, (i.pollTimes probes n).isHalted = false

/-- An interrupt that never fires does not do so later either. -/
lemma NeverFires.pollTimes {i} (h : NeverFires probes i) (m : Nat) :
    NeverFires probes (i.pollTimes probes m) := by
  intro n
  rw [← Interrupt.pollTimes_add]
  exact h (m + n)

/-- An interrupt without a deadline never fires while no flag is set. -/
lemma neverFires_of_flag {probes : Nat → Probe} (h : ∀ n, (probes n).flag = 0) :
    NeverFires probes .never := by
  have hn : ∀ (n : Nat) (i : Interrupt), i.halted = none → i.deadline = none →
      (i.pollTimes probes n).isHalted = false := by
    intro n
    induction n with
    | zero =>
      intro i hi _
      simp [Interrupt.pollTimes, Interrupt.isHalted, hi]
    | succ n ih =>
      intro i hi hd
      have hp : (i.poll probes).halted = none ∧ (i.poll probes).deadline = none := by
        simp [Interrupt.poll, Interrupt.check, hi, h, Interrupt.isLate, hd]
      exact ih _ hp.1 hp.2
  exact fun n => hn n _ rfl rfl

/-- A call that is never told to stop and whose steps bring the end nearer finishes. -/
lemma exists_of_neverFires (generation : Nat) (mayHalt : Bool) {steps s i} (measure : State → Nat)
    (hm : ∀ s₁ s₂, Steps source oldTree s s₁ → Leads source oldTree s₁ s₂ →
      measure s₂ < measure s₁)
    (hi : NeverFires probes i) (hs : measure s < steps) :
    ∃ s' parts, Steps source oldTree s s' ∧ step source oldTree s' = .finished parts ∧
      (run generation probes source oldTree steps mayHalt s i).1 =
        finish source generation parts := by
  induction steps generalizing mayHalt s i with
  | zero => omega
  | succ steps ih =>
    unfold run
    dsimp only
    have h1 : (i.poll probes).isHalted = false := hi 1
    rw [if_neg (by simp [h1])]
    rcases step_cases source oldTree s with ⟨hf, -⟩ | ⟨checks, s', hn, -⟩
    · exact ⟨s, _, .refl, hf, by rw [hf]⟩
    · simp only [hn]
      have h2 : ((i.poll probes).pollTimes probes checks).isHalted = false := hi (checks + 1)
      rw [if_neg (by simp [h2])]
      have hlt := hm s s' .refl ⟨checks, hn⟩
      obtain ⟨s'', parts, hs'', hf, hr⟩ := ih true
        (fun s₁ s₂ h => hm s₁ s₂ (.head ⟨checks, hn⟩ h))
        (NeverFires.pollTimes hi (checks + 1)) (by omega)
      exact ⟨s'', parts, .head ⟨checks, hn⟩ hs'', hf, hr⟩

end

/-! ## Calls without an old tree -/

/-- Joining operands takes tokens from the front. -/
lemma length_joinWithin_le (depth power : Nat) (left : Item) (ts : List Token) :
    (joinWithin depth power left ts).2.length ≤ ts.length := by
  induction depth generalizing left ts with
  | zero => exact Nat.le_refl _
  | succ depth ih =>
    unfold joinWithin
    split
    · exact Nat.le_refl _
    split
    · rename_i p _ _
      have h1 := (keeps_take (some .operator) ts).length_le
      have h2 := (((keeps_within depth).2.1 (p + 1)
        (take (some .operator) ts).2).orMissing (some .right)).length_le
      exact Nat.le_trans (ih _ _) (Nat.le_trans h2 h1)
    · exact Nat.le_refl _

/-- A token that may start an expression starts an operand. -/
lemma primaryWithin_of_mem {t : Token} (depth : Nat) (ts : List Token) (ht : t.kind ∈ expressionFirst) :
    ∃ i, (primaryWithin (depth + 1) (t :: ts)).operand = some i ∧
      (primaryWithin (depth + 1) (t :: ts)).rest.length ≤ ts.length := by
  have htc : t.isComment = false := by
    rw [Token.isComment, beq_eq_false_iff_ne]
    intro hk
    rw [hk] at ht
    exact absurd ht (by decide)
  have hc : comments (t :: ts) = ([], t :: ts) :=
    comments_of_commentAhead (by simpa [commentAhead] using htc)
  have hk := (keeps_within (depth + 1)).2.2.2 (t :: ts)
  have hi : ∃ i w, (primaryWithin (depth + 1) (t :: ts)).operand = some i ∧ i.tokens = t :: w := by
    simp only [primaryWithin, hc]
    split
    · split
      · exact ⟨_, _, rfl, rfl⟩
      · exact ⟨_, _, rfl, rfl⟩
    · exact ⟨_, _, rfl, rfl⟩
    · exact ⟨_, _, rfl, rfl⟩
    · exact ⟨_, _, rfl, rfl⟩
    · rename_i h1 h2 h3 h4
      simp only [expressionFirst, List.mem_cons, List.not_mem_nil, or_false] at ht
      rcases ht with ht | ht | ht | ht
      · exact (h1 ht).elim
      · exact (h2 ht).elim
      · exact (h3 ht).elim
      · exact (h4 ht).elim
  obtain ⟨i, w, hi, hw⟩ := hi
  refine ⟨i, hi, ?_⟩
  have hl : tokensOf (primaryWithin (depth + 1) (t :: ts)).items.1 ++
      (primaryWithin (depth + 1) (t :: ts)).rest = t :: ts := hk
  have hlen := congrArg List.length hl
  simp only [OperandReading.items, hi, Option.toList_some, tokensOf_append, tokensOf, hw,
    List.length_append, List.length_cons, List.length_nil] at hlen
  omega

/-- What follows an operand is read after it. -/
lemma length_binaryWithin_le (depth power : Nat) (ts : List Token) :
    (binaryWithin (depth + 1) power ts).rest.length ≤ (primaryWithin depth ts).rest.length := by
  unfold binaryWithin
  generalize primaryWithin depth ts = r
  obtain ⟨before, _ | left, rest⟩ := r
  · exact Nat.le_refl _
  · exact length_joinWithin_le depth power left rest

/-- An expression leaves no more tokens than its first operand does. -/
lemma length_expressionWithin_le (depth : Nat) (ts : List Token) :
    (expressionWithin (depth + 1) ts).rest.length ≤ (binaryWithin depth 0 ts).rest.length := by
  unfold expressionWithin
  generalize binaryWithin depth 0 ts = r
  obtain ⟨before, _ | left, rest⟩ := r
  · exact Nat.le_refl _
  · dsimp only
    split
    · have h1 := (keeps_take (some .operator) rest).length_le
      have h2 := (((keeps_within depth).1
        (take (some .operator) rest).2).orMissing (some .right)).length_le
      exact Nat.le_trans h2 h1
    · exact Nat.le_refl _

/-- An expression that a token may start takes that token. -/
lemma length_expression_le {t : Token} (ts : List Token) (ht : t.kind ∈ expressionFirst) :
    (expression (t :: ts)).rest.length ≤ ts.length := by
  obtain ⟨i, -, hl⟩ := primaryWithin_of_mem (4 * (t :: ts).length + 1) ts ht
  exact Nat.le_trans (Nat.le_trans (length_expressionWithin_le _ _) (length_binaryWithin_le _ _ _)) hl

/-- What is kept after a token is shorter by that token. -/
lemma length_le_of_cons_append {t u : Token} {w rest ts : List Token}
    (h : u :: w ++ rest = t :: ts) : rest.length ≤ ts.length := by
  have hl := congrArg List.length h
  simp only [List.length_append, List.length_cons] at hl
  omega

/-- A declaration adds no token. -/
lemma length_declaration_le (mayDefine : Bool) (t : Token) (ts : List Token) :
    (declaration mayDefine t ts).2.length ≤ ts.length := by
  have hk := tokens_declaration mayDefine t ts
  cases hb : bodyAhead mayDefine ts with
  | true =>
    obtain ⟨brace, rest, -, -, heq⟩ := declaration_of_bodyAhead t hb
    rw [heq] at hk ⊢
    exact length_le_of_cons_append hk
  | false =>
    rw [declaration_of_not_bodyAhead t hb] at hk ⊢
    exact length_le_of_cons_append hk

/-- A piece takes the token that it starts with. -/
lemma length_statement_le (t : Token) (ts : List Token) :
    (statement t ts).2.length ≤ ts.length := by
  unfold statement
  split
  · exact length_declaration_le false t ts
  · exact Nat.le_refl _
  · have hk : tokensOf [(returnStatement t ts).1] ++ (returnStatement t ts).2 = t :: ts :=
      keeps_returnStatement t ts
    exact length_le_of_cons_append hk
  · exact Nat.le_refl _
  · exact Nat.le_refl _
  · split
    · rename_i hf
      have h1 := length_expression_le ts hf
      have h2 := (keeps_expect .semicolon none (expression (t :: ts)).rest).length_le
      exact Nat.le_trans h2 h1
    · exact Nat.le_refl _

/-- What stands at the top of a document adds no token. -/
lemma length_topLevel_le (t : Token) (ts : List Token) :
    (topLevel t ts).2.length ≤ ts.length := by
  unfold topLevel
  split
  · exact length_declaration_le true t ts
  · exact length_statement_le t ts

/-- How far a state is from the end, without an old tree: every token is read and every block is
closed once, and a token may open a block. -/
def State.remaining (s : State) : Nat := 2 * s.tokens.length + s.draft.blocks.length

/-- No more tokens are pending than there are. -/
lemma length_pending_le (s : State) : s.pending.length ≤ s.tokens.length :=
  length_comments_le s.tokens

/-- What is still to come opens and closes no block. -/
@[simp]
lemma Draft.blocks_after (d : Draft) (ts : List Token) : (d.after ts).blocks = d.blocks := rfl

/-- What is still to come is no part of a draft. -/
@[simp]
lemma Draft.parts_after (d : Draft) (ts : List Token) : (d.after ts).parts = d.parts := rfl

/-- A piece opens one block at most. -/
lemma Draft.length_blocks_place (d : Draft) (p : Piece) :
    (d.place p).blocks.length ≤ d.blocks.length + 1 := by
  cases p with
  | whole item => exact Nat.le_succ _
  | opened definition brace => exact Nat.le_refl _

/-- A piece closes no block. -/
lemma Draft.le_length_blocks_place (d : Draft) (p : Piece) :
    d.blocks.length ≤ (d.place p).blocks.length := by
  cases p with
  | whole item => exact Nat.le_refl _
  | opened definition brace => exact Nat.le_succ _

/-- Without an old tree, every step brings the end nearer. -/
lemma remaining_lt {source s s'} (h : Leads source none s s') : s'.remaining < s.remaining := by
  have hp := length_pending_le s
  cases h.moves with
  | @closes b outer hb _ =>
    have hr := (keeps_expect .rightBrace none s.pending).length_le
    simp only [State.remaining, Draft.blocks_after, hb, List.length_cons]
    omega
  | reuses _ _ hr => simp [State.reusable?] at hr
  | @reads t rest piece rest' hpend _ _ hr =>
    have hl : rest'.length ≤ rest.length := by
      split at hr
      · rw [← show (topLevel t rest).2 = rest' by rw [hr]]
        exact length_topLevel_le t rest
      · rw [← show (statement t rest).2 = rest' by rw [hr]]
        exact length_statement_le t rest
    have hb := Draft.length_blocks_place s.here piece
    rw [hpend, List.length_cons] at hp
    simp only [State.remaining, Draft.blocks_after, State.blocks_here] at hb ⊢
    omega

/-- Without an old tree, steps lose no token. -/
lemma tokens_steps {source s s'} (h : Steps source none s s') :
    s'.draft.tokens ++ s'.tokens = s.draft.tokens ++ s.tokens := by
  induction h with
  | refl => rfl
  | @tail b c _ hl ih =>
    obtain ⟨checks, hn⟩ := hl
    have ht := tokens_step source b
    rw [hn] at ht
    exact Eq.trans ht ih

/-- What is left when a document finishes has all its tokens. -/
lemma tokens_finished {source s parts} (h : step source none s = .finished parts) :
    tokensOf parts = s.draft.tokens ++ s.tokens := by
  have ht := tokens_step source s
  rwa [h] at ht

/-- There are no more tokens than characters. -/
lemma length_tokensUpTo_le (count : Nat) (mode : Mode) (cs : List SourceChar) :
    (Lexer.tokensUpTo count mode cs).length ≤ count := by
  induction count generalizing mode cs with
  | zero => exact Nat.le_refl _
  | succ count ih =>
    unfold Lexer.tokensUpTo
    split
    · exact Nat.zero_le _
    · exact Nat.succ_le_succ (ih _ _)

/-- There are no more tokens than characters. -/
lemma length_tokensFrom_le (source : Source) (byte : Nat) :
    (tokensFrom source byte).length ≤ source.chars.length :=
  Nat.le_trans (length_tokensUpTo_le _ _ _) (List.dropWhile_sublist _).length_le

/-- Without an old tree, a call of the engine that is never told to stop finishes. -/
theorem engine_of_neverFires (generation : Nat) (task : Task Checkpoint) {probes i}
    (ho : task.oldTree = none) (hi : NeverFires probes i) :
    ∃ s' parts, Steps task.source none (State.start task.source task.progress) s' ∧
      step task.source none s' = .finished parts ∧
      (engine generation probes task i).1 = finish task.source generation parts := by
  have hs : (State.start task.source task.progress).remaining <
      stepBound task.source (State.start task.source task.progress) + task.patience := by
    have hl : (State.start task.source task.progress).tokens.length ≤ task.source.chars.length := by
      cases task.progress with
      | none => exact length_tokensFrom_le task.source 0
      | some c => exact length_tokensFrom_le task.source c.byte
    simp only [State.remaining, stepBound]
    omega
  obtain ⟨s', parts, h, hf, hr⟩ := exists_of_neverFires generation task.progress.isNone
    State.remaining (fun _ _ _ h => remaining_lt h) hi hs
  exact ⟨s', parts, h, hf, by simp only [engine, ho, hr]⟩

/-! ## Calls of a parser -/

section

variable {p p' : Parser Checkpoint} {outside : Outside} {generation : Nat} {d : Document}
  {oldTree : Option Tree}

/-- What a call of a parser of C makes of what its engine gives. -/
lemma parse_eq (hl : p.language = some language) :
    p.parse outside generation d oldTree =
      match engine generation (p.probes outside) (p.task outside language d oldTree)
        (.start p.timeout) with
      | (.complete tree, _) => (.ok tree, p.reset)
      | (.halted c, i) => (.error (.error (.cancelled (i.halted.getD .flag))),
        { p with suspended := some ⟨grammar, d, p.includedRanges, c⟩ })
      | (.failed fault, _) => (.error (.fault fault), p.reset)
      | (.stalled, _) => (.error .stalled, p.reset) := by
  unfold Parser.parse
  split
  · rename_i hn
    rw [hl] at hn
    cases hn
  · rename_i l hl'
    obtain rfl := Option.some.inj (hl.symm.trans hl')
    rw [show language.engine = engine from rfl]
    generalize engine generation (p.probes outside) _ (.start p.timeout) = r
    obtain ⟨_ | _ | _ | _, i⟩ := r <;> rfl

/-- What a call of a parser gives where its engine completes. -/
lemma parse_of_complete {tree} (hl : p.language = some language)
    (h : (engine generation (p.probes outside) (p.task outside language d oldTree)
      (.start p.timeout)).1 = .complete tree) :
    p.parse outside generation d oldTree = (.ok tree, p.reset) := by
  rw [parse_eq hl]
  generalize engine generation (p.probes outside) _ (.start p.timeout) = r at h ⊢
  obtain ⟨outcome, interrupt⟩ := r
  dsimp only at h
  subst h
  rfl

/-- A call of a parser that gives a tree is one whose engine completes. -/
lemma complete_of_parse {tree} (hl : p.language = some language)
    (h : p.parse outside generation d oldTree = (.ok tree, p')) :
    (engine generation (p.probes outside) (p.task outside language d oldTree)
      (.start p.timeout)).1 = .complete tree ∧ p' = p.reset := by
  rw [parse_eq hl] at h
  generalize engine generation (p.probes outside) _ (.start p.timeout) = r at h ⊢
  obtain ⟨outcome, interrupt⟩ := r
  cases outcome with
  | complete tree' =>
    obtain ⟨ht, hp⟩ := Prod.mk.inj h
    exact ⟨congrArg Outcome.complete (Except.ok.inj ht), hp.symm⟩
  | _ => cases h

/-- A call of a parser that is cancelled leaves the progress of its engine. -/
lemma halted_of_parse {reason} (hl : p.language = some language)
    (h : p.parse outside generation d oldTree = (.error (.error (.cancelled reason)), p')) :
    ∃ c, (engine generation (p.probes outside) (p.task outside language d oldTree)
        (.start p.timeout)).1 = .halted c ∧
      p' = { p with suspended := some ⟨grammar, d, p.includedRanges, c⟩ } := by
  rw [parse_eq hl] at h
  generalize engine generation (p.probes outside) _ (.start p.timeout) = r at h ⊢
  obtain ⟨outcome, interrupt⟩ := r
  cases outcome with
  | halted c => exact ⟨c, rfl, (Prod.mk.inj h).2.symm⟩
  | _ => cases h

end

end Reparse.C
