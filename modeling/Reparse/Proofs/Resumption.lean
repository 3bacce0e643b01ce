import Reparse.Proofs.Acceptance
import Reparse.Proofs.Contents

/-!
# Resumption

A call that is halted leaves a checkpoint, and the next call reads the tokens from there on anew, as
outside of strings. A document is settled if that gives, at every checkpoint, the tokens that were
still to be read (`Settled`). Then calls that are halted and repeated, however often and wherever,
give the tree of a call that is never halted; and if they always do, the document is settled
(`retried_agrees`).
-/

namespace Reparse.C

open Item

/-- Whether every state of a parse without an old tree has still to read the tokens that a later
call reads from its checkpoint on. -/
def Settled (source : Source) : Prop :=
  ∀ s, Steps source none (State.start source none) s →
    tokensFrom source (s.byte source) = s.tokens

/-- Where a document is settled, a call goes on from a checkpoint in the state that was left. -/
lemma Settled.start {source : Source} (h : Settled source) {s : State}
    (hs : Steps source none (State.start source none) s) :
    State.start source (some (s.checkpoint source)) = s := by
  show State.mk s.draft (tokensFrom source (s.byte source)) = s
  rw [h s hs]

/-- Whether a state and those that follow it within some steps have still to read the tokens that a
call reads from their checkpoints on. -/
def settledWithin (source : Source) : Nat → State → Bool
  | 0, _ => true
  | steps + 1, s =>
    decide (tokensFrom source (s.byte source) = s.tokens) &&
      match step source none s with
      | .finished _ => true
      | .next _ s' => settledWithin source steps s'

/-- There are no more states to look at than steps that lead on. -/
lemma settledWithin_iff {source : Source} {steps : Nat} {s : State} (hs : s.remaining < steps) :
    settledWithin source steps s = true ↔
      ∀ s', Steps source none s s' → tokensFrom source (s'.byte source) = s'.tokens := by
  induction steps generalizing s with
  | zero => omega
  | succ steps ih =>
    rw [settledWithin, Bool.and_eq_true, decide_eq_true_iff]
    rcases step_cases source none s with ⟨hf, -⟩ | ⟨checks, s', hn, -⟩
    · refine ⟨fun h s' hs' => ?_, fun h => ⟨h s .refl, by rw [hf]⟩⟩
      rcases Relation.ReflTransGen.cases_head hs' with rfl | ⟨_, hl, -⟩
      · exact h.1
      · exact absurd hl (not_leads_of_finished hf)
    · have hl : Leads source none s s' := ⟨checks, hn⟩
      have hlt := remaining_lt hl
      rw [hn]
      dsimp only
      rw [ih (by omega)]
      refine ⟨fun h s'' hs'' => ?_, fun h => ⟨h s .refl, fun s'' hs'' => h s'' (.head hl hs'')⟩⟩
      rcases Relation.ReflTransGen.cases_head hs'' with rfl | ⟨s₁, ⟨checks', hn'⟩, hs₁⟩
      · exact h.1
      · rw [hn] at hn'
        cases hn'
        exact h.2 s'' hs₁

instance (source : Source) : Decidable (Settled source) :=
  decidable_of_iff _ (settledWithin_iff (Nat.lt_succ_self (State.start source none).remaining))

/-! ## What is read so far -/

/-- Whether a state is made of tokens that cut up the characters of its source. -/
structure State.Faithful (source : Source) (s : State) : Prop where
  each : s.draft.Each fun _ => True
  covers : ∃ blanks, Covers source.chars (s.draft.tokens ++ s.tokens) blanks ∧ AllBlank blanks

namespace State.Faithful

variable {source : Source} {s s' : State}

/-- A parse starts with nothing taken over. -/
lemma start (source : Source) : (State.start source none).Faithful source where
  each := .empty
  covers := by
    obtain ⟨blanks, hc, hb⟩ := Lexer.covers_lexAll .plain source.chars
    refine ⟨blanks, ?_, hb⟩
    show Covers source.chars (Lexer.lexAll .plain (source.charsFrom 0)) blanks
    rw [source.charsFrom_zero]
    exact hc

/-- A step without an old tree keeps the tokens. -/
lemma leads (h : s.Faithful source) (hl : Leads source none s s') : s'.Faithful source where
  each := h.each.leads hl ⟨fun _ _ _ _ _ _ _ _ _ => trivial, fun _ _ _ => trivial,
    fun _ _ _ _ _ => trivial⟩
  covers := by
    rw [tokens_steps (.single hl)]
    exact h.covers

/-- Without an old tree nothing is taken over along the steps of a parse. -/
lemma steps (h : s.Faithful source) (hs : Steps source none s s') : s'.Faithful source := by
  induction hs with
  | refl => exact h
  | tail _ hl ih => exact ih.leads hl

/-- The state in which a call goes on from a checkpoint is as faithful as the one that was left. -/
lemma restart (ho : Ordered source.chars) (h : s.Faithful source) :
    (State.start source (some (s.checkpoint source))).Faithful source where
  each := h.each
  covers := by
    obtain ⟨blanks, hc, hb⟩ := h.covers
    exact hc.restart ho hb

end State.Faithful

/-- The parts of a finished document are whole, and their tokens stand in order. -/
lemma State.Faithful.parts {source : Source} {s : State} {parts : List Item} {bound : Nat}
    (ho : Ordered source.chars) (h : s.Faithful source) (hf : step source none s = .finished parts)
    (hb : ∀ c ∈ source.chars, c.stop ≤ bound) : WholeAll parts ∧ InOrder 0 (tokensOf parts) bound := by
  obtain ⟨blanks, hc, -⟩ := h.covers
  refine ⟨?_, ?_⟩
  · obtain ⟨-, -, rfl⟩ := of_finished hf
    exact EachAll.whole (eachAll_reverse.2 h.each.here.parts)
  · rw [tokens_finished hf]
    exact hc.inOrder ho (fun _ _ => Nat.zero_le _) (Nat.zero_le _) hb

/-- The leaves below the root that is made of a finished document say what its tokens do. -/
theorem words_of_finished {d : Document} {ranges : List Span} {s : State} {parts : List Item}
    {generation : Nat} {tree : Tree} (hd : d.bytes.length ≤ limit)
    (h : s.Faithful (.ofDocument d ranges)) (hf : step (.ofDocument d ranges) none s = .finished parts)
    (ht : treeOf (.ofDocument d ranges) generation parts = .ok tree) :
    wordsOf (tree.rootNode.children.flatMap Node.leaves) = (s.draft.tokens ++ s.tokens).map Token.word := by
  have ho := Source.ordered_chars d ranges
  obtain ⟨-, -, hroot⟩ := of_treeOf ht
  obtain ⟨hwhole, horder⟩ := h.parts ho hf fun c hc => Source.stop_le_endOfInput ho hc
  have hle := Source.endOfInput_le_limit hd ranges
  rw [← tokens_finished hf]
  exact words_of_built (Source.coherent_positionAt d ranges) hwhole horder hle hroot

/-- What is made of the same parts agrees. -/
lemma agrees_of_treeOf {source : Source} {generation generation' : Nat} {parts : List Item}
    {t t' : Tree} (h : treeOf source generation parts = .ok t)
    (h' : treeOf source generation' parts = .ok t') : t.Agrees t' := by
  obtain ⟨-, -, hroot⟩ := of_treeOf h
  obtain ⟨-, -, hroot'⟩ := of_treeOf h'
  exact Tree.agrees_of_bare (hroot.trans hroot'.symm)

/-! ## Calls that are halted -/

/-- An outside world in which a flag is set from check number `n` on. -/
def flagAfter (n : Nat) : Outside := ⟨fun _ check => if n ≤ check then 1 else 0, fun _ => 0, 0⟩

/-- What the interrupt of a call finds if its flag is set from check number `n` on. -/
def probesAfter (n check : Nat) : Probe := ⟨if n ≤ check then 1 else 0, 0⟩

/-- Checks before the one at which the flag is set stop nothing. -/
lemma pollTimes_probesAfter {n checks : Nat} (count : Nat) (h : checks + count ≤ n) :
    Interrupt.pollTimes (probesAfter n) ⟨none, checks, none⟩ count =
      ⟨none, checks + count, none⟩ := by
  induction count generalizing checks with
  | zero => rfl
  | succ count ih =>
    have hpoll : Interrupt.poll (probesAfter n) ⟨none, checks, none⟩ = ⟨none, checks + 1, none⟩ := by
      have hn : ¬ n ≤ checks := by omega
      simp [Interrupt.poll, Interrupt.check, probesAfter, hn, Interrupt.isLate]
    rw [Interrupt.pollTimes, hpoll, ih (by omega), Nat.add_assoc, Nat.add_comm 1 count]

/-- A parse without an old tree can be halted in every state that it reaches. -/
lemma exists_halted {source : Source} {generation : Nat} {s s' : State}
    (h : Steps source none s s') {steps : Nat} (hs : s.remaining < steps) (checks : Nat) :
    ∃ n, checks ≤ n ∧ (run generation (probesAfter n) source none steps true s
      ⟨none, checks, none⟩).1 = .halted (s'.checkpoint source) := by
  obtain ⟨steps, rfl⟩ : ∃ k, steps = k + 1 := ⟨steps - 1, by omega⟩
  induction h using Relation.ReflTransGen.head_induction_on generalizing steps checks with
  | refl =>
    refine ⟨checks, Nat.le_refl _, ?_⟩
    have hpoll : (Interrupt.poll (probesAfter checks) ⟨none, checks, none⟩).isHalted = true := by
      simp [Interrupt.poll, Interrupt.check, probesAfter, Interrupt.isHalted]
    simp [run, hpoll]
  | @head a b hl _ ih =>
    obtain ⟨count, hn⟩ := hl
    have hlt := remaining_lt ⟨count, hn⟩
    obtain ⟨k, rfl⟩ : ∃ k, steps = k + 1 := ⟨steps - 1, by omega⟩
    obtain ⟨n, hle, hr⟩ := ih (checks + 1 + count) k (by omega)
    have hone := @pollTimes_probesAfter n checks 1 (by omega)
    have hmore := @pollTimes_probesAfter n (checks + 1) count (by omega)
    rw [Interrupt.pollTimes, Interrupt.pollTimes] at hone
    refine ⟨n, by omega, ?_⟩
    rw [run]
    simp only [hone, hn, hmore, Interrupt.isHalted, Option.isSome_none, Bool.and_false,
      Bool.false_eq_true, if_false]
    exact hr

/-- The engine waits for every call without an old tree. -/
lemma remaining_start_lt (task : Task Checkpoint) :
    (State.start task.source task.progress).remaining <
      stepBound task.source (State.start task.source task.progress) + task.patience := by
  have hl : (State.start task.source task.progress).tokens.length ≤ task.source.chars.length := by
    cases task.progress with
    | none => exact length_tokensFrom_le task.source 0
    | some c => exact length_tokensFrom_le task.source c.byte
  simp only [State.remaining, stepBound]
  omega

section

variable {p p' : Parser Checkpoint} {outside : Outside} {generation : Nat} {d : Document}

/-- The state in which a call for `d` starts. -/
def startOf (p : Parser Checkpoint) (d : Document) : State :=
  State.start (.ofDocument d p.includedRanges)
    ((p.suspended.filter (p.continues language d)).map (·.progress))

/-- A call of a parser of C whose steps bring the end nearer gives a tree or is cancelled, and if it
goes on from a checkpoint, it makes a step before that. -/
lemma parse_cases_of_measure (outside : Outside) (generation : Nat) (d : Document)
    (oldTree : Option Tree) (hl : p.language = some language) (measure : State → Nat)
    (hm : ∀ s₁ s₂, Steps (.ofDocument d p.includedRanges) (oldTree.filter (p.admits language))
        (startOf p d) s₁ → Leads (.ofDocument d p.includedRanges)
          (oldTree.filter (p.admits language)) s₁ s₂ → measure s₂ < measure s₁)
    (hs : measure (startOf p d) <
      stepBound (.ofDocument d p.includedRanges) (startOf p d) + outside.patience) :
    (∃ s parts tree, Steps (.ofDocument d p.includedRanges) (oldTree.filter (p.admits language))
        (startOf p d) s ∧
      step (.ofDocument d p.includedRanges) (oldTree.filter (p.admits language)) s =
        .finished parts ∧
      treeOf (.ofDocument d p.includedRanges) generation parts = .ok tree ∧
      p.parse outside generation d oldTree = (.ok tree, p.reset)) ∨
    ∃ s reason, Steps (.ofDocument d p.includedRanges) (oldTree.filter (p.admits language))
        (startOf p d) s ∧
      ((∃ c ∈ p.suspended, p.continues language d c = true) → Relation.TransGen
        (Leads (.ofDocument d p.includedRanges) (oldTree.filter (p.admits language)))
        (startOf p d) s) ∧
      p.parse outside generation d oldTree = (.error (.error (.cancelled reason)),
        { p with suspended := some ⟨grammar, d, p.includedRanges,
          s.checkpoint (.ofDocument d p.includedRanges)⟩ }) := by
  have hcases := @run_cases (p.probes outside) (.ofDocument d p.includedRanges)
    (oldTree.filter (p.admits language)) generation
    (p.task outside language d oldTree).progress.isNone _ _ (.start p.timeout) measure hm hs
  rw [parse_eq hl]
  have hengine : engine generation (p.probes outside) (p.task outside language d oldTree)
      (.start p.timeout) = run generation (p.probes outside) (.ofDocument d p.includedRanges)
        (oldTree.filter (p.admits language))
        (stepBound (.ofDocument d p.includedRanges) (startOf p d) + outside.patience)
        (p.task outside language d oldTree).progress.isNone (startOf p d) (.start p.timeout) := rfl
  rw [hengine]
  rcases hcases with ⟨s, parts, hs, hf, hr⟩ | ⟨s, hs, htrans, hr⟩
  · obtain ⟨tree, ht, -⟩ := treeOf_eq (.ofDocument d p.includedRanges) generation parts
    rw [finish, ht] at hr
    generalize run generation (p.probes outside) _ _ _ _ _ _ = r at hr ⊢
    obtain ⟨outcome, interrupt⟩ := r
    dsimp only at hr
    subst hr
    exact .inl ⟨s, parts, tree, hs, hf, ht, rfl⟩
  · generalize run generation (p.probes outside) _ _ _ _ _ _ = r at hr ⊢
    obtain ⟨outcome, interrupt⟩ := r
    dsimp only at hr
    subst hr
    refine .inr ⟨s, _, hs, ?_, rfl⟩
    rintro ⟨c, hc, hcontinues⟩
    apply htrans
    rw [Parser.task, Option.mem_def.1 hc, Option.filter_some, if_pos hcontinues]
    rfl

/-- Without an old tree, a call of a parser of C gives a tree or is cancelled. -/
lemma parse_cases (outside : Outside) (generation : Nat) (d : Document)
    (hl : p.language = some language) :
    (∃ s parts tree, Steps (.ofDocument d p.includedRanges) none (startOf p d) s ∧
      step (.ofDocument d p.includedRanges) none s = .finished parts ∧
      treeOf (.ofDocument d p.includedRanges) generation parts = .ok tree ∧
      p.parse outside generation d none = (.ok tree, p.reset)) ∨
    ∃ s reason, Steps (.ofDocument d p.includedRanges) none (startOf p d) s ∧
      p.parse outside generation d none = (.error (.error (.cancelled reason)),
        { p with suspended := some ⟨grammar, d, p.includedRanges,
          s.checkpoint (.ofDocument d p.includedRanges)⟩ }) := by
  rcases parse_cases_of_measure outside generation d none hl State.remaining
    (fun _ _ _ h => remaining_lt h) (remaining_start_lt (p.task outside language d none)) with
    h | ⟨s, reason, hs, -, hp⟩
  · exact .inl h
  · exact .inr ⟨s, reason, hs, hp⟩

/-- A call that goes on from a checkpoint starts with the draft of that checkpoint. -/
lemma startOf_suspended (p : Parser Checkpoint) (d : Document) (c : Checkpoint) :
    startOf { p with suspended := some ⟨grammar, d, p.includedRanges, c⟩ } d =
      State.start (.ofDocument d p.includedRanges) (some c) := by
  have hc : Parser.continues { p with suspended := some ⟨grammar, d, p.includedRanges, c⟩ } language d
      ⟨grammar, d, p.includedRanges, c⟩ = true := by
    simp [Parser.continues, language]
  simp only [startOf, Option.filter_some, hc, if_true, Option.map_some]

/-- Whether `q` is what `p` has become after some calls for `d` that were all cancelled. Before each
of them the timeout and the flag may have been set. -/
inductive Retried (d : Document) (p : Parser Checkpoint) : Parser Checkpoint → Prop where
  | refl : Retried d p p
  | again {q q' timeout flag outside generation reason} :
    Retried d p q →
    ((q.setTimeout timeout).setFlag flag).parse outside generation d none =
      (.error (.error (.cancelled reason)), q') →
    Retried d p q'

/-- After calls that were cancelled, a settled document is read on in a state that a call reaches
which is not. -/
lemma Retried.steps {q : Parser Checkpoint} (hq : Retried d p q) (hl : p.language = some language)
    (hfresh : startOf p d = State.start (.ofDocument d p.includedRanges) none)
    (h : Settled (.ofDocument d p.includedRanges)) :
    q.language = some language ∧ q.includedRanges = p.includedRanges ∧
      Steps (.ofDocument d p.includedRanges) none (State.start (.ofDocument d p.includedRanges) none)
        (startOf q d) := by
  induction hq with
  | refl => exact ⟨hl, rfl, by rw [hfresh]⟩
  | @again q q' timeout flag outside generation reason _ hcall ih =>
    obtain ⟨hlq, hr, hs⟩ := ih
    have hl' : ((q.setTimeout timeout).setFlag flag).language = some language := hlq
    rcases parse_cases outside generation d hl' with ⟨s, parts, tree, -, -, -, hp⟩ | ⟨s, _, hs', hp⟩
    · rw [hp] at hcall
      cases hcall
    · rw [hp] at hcall
      obtain rfl := (Prod.mk.inj hcall).2
      refine ⟨hl', hr, ?_⟩
      rw [startOf_suspended]
      have hs'' : Steps (.ofDocument d p.includedRanges) none (startOf q d) s := by
        rw [← hr]
        exact hs'
      show Steps _ none _ (State.start (.ofDocument d q.includedRanges)
        (some (s.checkpoint (.ofDocument d q.includedRanges))))
      rw [hr, h.start (hs.trans hs'')]
      exact hs.trans hs''

/-- A call from the start of a document can be cancelled in every state that a parse reaches. -/
lemma exists_cancelled (hl : p.language = some language)
    (hfresh : startOf p d = State.start (.ofDocument d p.includedRanges) none)
    (hnone : (p.task outside language d none).progress = none) {s : State}
    (hs : Steps (.ofDocument d p.includedRanges) none
      (State.start (.ofDocument d p.includedRanges) none) s) :
    ∃ outside reason, ((p.setTimeout 0).setFlag (some 0)).parse outside generation d none =
      (.error (.error (.cancelled reason)), { (p.setTimeout 0).setFlag (some 0) with
        suspended := some ⟨grammar, d, p.includedRanges,
          s.checkpoint (.ofDocument d p.includedRanges)⟩ }) := by
  have hbound : (State.start (.ofDocument d p.includedRanges) none).remaining <
      stepBound (.ofDocument d p.includedRanges) (startOf p d) + 0 := by
    rw [← hfresh]
    exact remaining_start_lt (p.task (flagAfter 0) language d none)
  obtain ⟨n, -, hr⟩ := @exists_halted _ generation _ _ hs _ hbound 0
  have hl' : ((p.setTimeout 0).setFlag (some 0)).language = some language := hl
  have hengine : engine generation (((p.setTimeout 0).setFlag (some 0)).probes (flagAfter n))
      (((p.setTimeout 0).setFlag (some 0)).task (flagAfter n) language d none) (.start 0) =
      run generation (probesAfter n) (.ofDocument d p.includedRanges) none
        (stepBound (.ofDocument d p.includedRanges) (startOf p d) + 0)
        (p.task outside language d none).progress.isNone (startOf p d) ⟨none, 0, none⟩ := rfl
  rw [← hfresh] at hr
  have hparse := @parse_eq _ (flagAfter n) generation d none hl'
  rw [show ((p.setTimeout 0).setFlag (some 0)).timeout = 0 from rfl, hengine, hnone] at hparse
  rw [Option.isNone_none] at hparse
  generalize run generation (probesAfter n) _ none _ _ _ _ = r at hr hparse
  obtain ⟨outcome, interrupt⟩ := r
  dsimp only at hr
  subst hr
  exact ⟨flagAfter n, _, hparse⟩

/-- If a document that is halted and resumed has the tree of one that is not, what is read from a
checkpoint on are the tokens that were left. -/
lemma tokensFrom_byte_of_agrees {s s₁ s₂ : State} {parts₁ parts₂ : List Item} {generation₁
    generation₂ : Nat} {t₁ t₂ : Tree} {ranges : List Span} (hd : d.bytes.length ≤ limit)
    (hs : Steps (.ofDocument d ranges) none (State.start (.ofDocument d ranges) none) s)
    (hs₁ : Steps (.ofDocument d ranges) none (State.start (.ofDocument d ranges) none) s₁)
    (hf₁ : step (.ofDocument d ranges) none s₁ = .finished parts₁)
    (ht₁ : treeOf (.ofDocument d ranges) generation₁ parts₁ = .ok t₁)
    (hs₂ : Steps (.ofDocument d ranges) none
      (State.start (.ofDocument d ranges) (some (s.checkpoint (.ofDocument d ranges)))) s₂)
    (hf₂ : step (.ofDocument d ranges) none s₂ = .finished parts₂)
    (ht₂ : treeOf (.ofDocument d ranges) generation₂ parts₂ = .ok t₂) (h : t₂.Agrees t₁) :
    tokensFrom (.ofDocument d ranges) (s.byte (.ofDocument d ranges)) = s.tokens := by
  have ho := Source.ordered_chars d ranges
  have hstart := State.Faithful.start (.ofDocument d ranges)
  have hs' := hstart.steps hs
  have hw₁ := words_of_finished hd (hstart.steps hs₁) hf₁ ht₁
  have hw₂ := words_of_finished hd ((hs'.restart ho).steps hs₂) hf₂ ht₂
  have hall := tokens_steps hs
  have hwords : wordsOf (t₂.rootNode.children.flatMap Node.leaves) =
      wordsOf (t₁.rootNode.children.flatMap Node.leaves) := h.words
  rw [hw₁, hw₂, tokens_steps hs₁, ← hall, tokens_steps hs₂, List.map_append, List.map_append] at hwords
  refine eq_of_words (List.append_cancel_left hwords) fun t ht u hu hstop => ?_
  have hu' : u ∈ tokensFrom (.ofDocument d ranges) 0 := by
    have : u ∈ s.draft.tokens ++ s.tokens := List.mem_append_right _ hu
    rw [hall] at this
    exact this
  rw [lookahead_of_mem_tokensFrom ho ht, lookahead_of_mem_tokensFrom ho hu', hstop]

/-- Where calls for a document, however they are halted, all end with the tree of one that is not, the
document is settled. -/
lemma settled_of_agrees {t₀ : Tree} (hl : p.language = some language)
    (hfresh : (p.task outside language d none).progress = none)
    (hq : NeverFires (p.probes outside) (.start p.timeout))
    (hp₀ : (p.parse outside generation d none).1 = .ok t₀) (hd : d.bytes.length ≤ limit)
    (hagree : ∀ q, Retried d p q → ∀ timeout flag outside generation t q',
      ((q.setTimeout timeout).setFlag flag).parse outside generation d none = (.ok t, q') →
        t.Agrees t₀) : Settled (.ofDocument d p.includedRanges) := by
  intro s hs
  obtain ⟨s₀, parts₀, t₀', hs₀, hf₀, ht₀, hp₀'⟩ := parse_of_neverFires generation hl hq
  obtain rfl : t₀' = t₀ := by
    rw [hp₀'] at hp₀
    exact Except.ok.inj hp₀
  rw [hfresh] at hs₀
  have hstart : startOf p d = State.start (.ofDocument d p.includedRanges) none :=
    congrArg (State.start _) hfresh
  obtain ⟨outside₁, reason, hcall⟩ := @exists_cancelled p outside generation d hl hstart hfresh s hs
  have hretried : Retried d p _ := .again .refl hcall
  -- one more call, which is not halted, goes on from the state that was left
  let q : Parser Checkpoint := ((({ (p.setTimeout 0).setFlag (some 0) with
      suspended := some ⟨grammar, d, p.includedRanges,
        s.checkpoint (.ofDocument d p.includedRanges)⟩ } : Parser Checkpoint).setTimeout 0).setFlag none)
  obtain ⟨s₂, parts₂, t₂, hs₂, hf₂, ht₂, hp₂⟩ := @parse_of_neverFires q stillWorld d generation hl
    (neverFires_of_flag fun _ => rfl)
  have hq₂ : State.start (.ofDocument d q.includedRanges)
      (q.task stillWorld language d none).progress =
      State.start (.ofDocument d p.includedRanges)
        (some (s.checkpoint (.ofDocument d p.includedRanges))) :=
    startOf_suspended (p.setTimeout 0) d _
  rw [hq₂] at hs₂
  exact tokensFrom_byte_of_agrees hd hs hs₀ hf₀ ht₀ hs₂ hf₂ ht₂
    (hagree _ hretried 0 none stillWorld generation t₂ _ hp₂)

/-- A settled document has one tree, however often and wherever the calls for it are halted: every
call is cancelled or gives a tree that agrees with that of a call that is never told to stop. Other
documents do not: some calls end with a tree that does not agree. -/
theorem retried_agrees (generation : Nat) (hl : p.language = some language)
    (hfresh : (p.task outside language d none).progress = none)
    (hq : NeverFires (p.probes outside) (.start p.timeout)) :
    ∃ t₀, (p.parse outside generation d none).1 = .ok t₀ ∧
      (Settled (.ofDocument d p.includedRanges) → ∀ q, Retried d p q →
        ∀ timeout flag outside generation,
          (∃ t q', ((q.setTimeout timeout).setFlag flag).parse outside generation d none = (.ok t, q') ∧
            t.Agrees t₀) ∨
          ∃ reason q', ((q.setTimeout timeout).setFlag flag).parse outside generation d none =
            (.error (.error (.cancelled reason)), q')) ∧
      (d.bytes.length ≤ limit →
        (∀ q, Retried d p q → ∀ timeout flag outside generation t q',
          ((q.setTimeout timeout).setFlag flag).parse outside generation d none = (.ok t, q') →
            t.Agrees t₀) →
        Settled (.ofDocument d p.includedRanges)) := by
  obtain ⟨s₀, parts₀, t₀, hs₀, hf₀, ht₀, hp₀⟩ := parse_of_neverFires generation hl hq
  have hparse : (p.parse outside generation d none).1 = .ok t₀ := by rw [hp₀]
  rw [hfresh] at hs₀
  have hstart : startOf p d = State.start (.ofDocument d p.includedRanges) none :=
    congrArg (State.start _) hfresh
  refine ⟨t₀, hparse, fun hsettled q hretried timeout flag outside generation => ?_,
    fun hd hagree => settled_of_agrees hl hfresh hq hparse hd hagree⟩
  obtain ⟨hlq, hr, hs⟩ := hretried.steps hl hstart hsettled
  have hl' : ((q.setTimeout timeout).setFlag flag).language = some language := hlq
  rcases parse_cases outside generation d hl' with
    ⟨s, parts, tree, hs', hf, ht, hp⟩ | ⟨s, reason, -, hp⟩
  · refine .inl ⟨tree, _, hp, ?_⟩
    rw [show ((q.setTimeout timeout).setFlag flag).includedRanges = p.includedRanges from hr] at hs' hf ht
    have hall : Steps (.ofDocument d p.includedRanges) none
        (State.start (.ofDocument d p.includedRanges) none) s := hs.trans hs'
    obtain rfl := finished_unique hall hs₀ hf hf₀
    obtain rfl := Step.finished.inj (hf.symm.trans hf₀)
    exact agrees_of_treeOf ht ht₀
  · exact .inr ⟨reason, _, hp⟩

end

/-- The document `x;` is settled: however its parse is halted, its tree is the same. -/
theorem retried_agrees_statement :
    ∃ t₀, (plainParser.parse stillWorld 0 ⟨[120, 59], .utf8⟩ none).1 = .ok t₀ ∧
      ∀ q, Retried ⟨[120, 59], .utf8⟩ plainParser q → ∀ timeout flag outside generation,
        (∃ t q', ((q.setTimeout timeout).setFlag flag).parse outside generation
            ⟨[120, 59], .utf8⟩ none = (.ok t, q') ∧ t.Agrees t₀) ∨
          ∃ reason q', ((q.setTimeout timeout).setFlag flag).parse outside generation
            ⟨[120, 59], .utf8⟩ none = (.error (.error (.cancelled reason)), q') := by
  obtain ⟨t₀, hp, h, -⟩ := @retried_agrees plainParser stillWorld ⟨[120, 59], .utf8⟩ 0 rfl rfl
    neverFires_plainParser
  exact ⟨t₀, hp, h (by decide)⟩

/-- A line that ends inside a string, a string after it that is followed by a quote, and a
semicolon on a line of its own. -/
def brokenString : Document := ⟨[34, 97, 98, 10, 34, 99, 100, 34, 32, 34, 10, 59], .utf8⟩

/-- Where a parse is halted between the two strings, the second one is read as a word. -/
theorem exists_retried_not_agrees :
    ∃ t₀, (plainParser.parse stillWorld 0 brokenString none).1 = .ok t₀ ∧
      ∃ q timeout flag outside generation t q', Retried brokenString plainParser q ∧
        ((q.setTimeout timeout).setFlag flag).parse outside generation brokenString none =
          (.ok t, q') ∧ ¬ t.Agrees t₀ := by
  obtain ⟨-, -, t₀, -, -, -, hp⟩ := @parse_of_neverFires plainParser stillWorld brokenString 0 rfl
    neverFires_plainParser
  have hparse : (plainParser.parse stillWorld 0 brokenString none).1 = .ok t₀ := by rw [hp]
  refine ⟨t₀, hparse, ?_⟩
  by_contra hnone
  have hsettled : Settled (.ofDocument brokenString [.document]) :=
    @settled_of_agrees plainParser stillWorld 0 brokenString t₀ rfl rfl neverFires_plainParser hparse
      (by decide) fun q hq timeout flag outside generation t q' hcall => by
        by_contra hnot
        exact hnone ⟨q, timeout, flag, outside, generation, t, q', hq, hcall, hnot⟩
  exact absurd hsettled (by decide)

end Reparse.C
