import Reparse.Parser.Fingerprint
import Reparse.Proofs.Histories
import Reparse.Proofs.Streams

/-!
# Parsers that note events

A parser of C that notes events has numbers of 32 bits for them, and of the input of a halted call it
remembers a fingerprint. A call can rely on both (`Relies`) if it notes no more events than there are
numbers, and takes up progress only where that was made for its input. Parsers that were used for such
calls (`UsedBy`) behave as parsers whose progress is a draft (`Renders.parse`), so what is known of these
and of their trees is known of the others (`UsedBy.exists_used`, `MatchesBy.matches`). In particular a call that
starts afresh accepts exactly the grammar and builds the derivation (`parseBy_accepts`).
-/

namespace Reparse.C

open Recorder

/-! ## Calls -/

/-- A call that notes few enough events ends as the call of the engine that goes on from the same place,
and leaves the same interrupt. -/
lemma Resumes.noting {x : Option Suspension} {c : Option Checkpoint} (h : Resumes x c) {generation : Nat}
    {probes : Nat → Probe} {source : Source} {oldTree : Option Tree} {patience : Nat} {i : Interrupt}
    (hle : eventCount generation probes ⟨source, oldTree, x, patience⟩ i ≤ limit) :
    (noting Span.countOf generation probes ⟨source, oldTree, x, patience⟩ i).2 =
      (engine generation probes ⟨source, oldTree, c, patience⟩ i).2 ∧
    Tells (noting Span.countOf generation probes ⟨source, oldTree, x, patience⟩ i).1
      (engine generation probes ⟨source, oldTree, c, patience⟩ i).1 := by
  obtain ⟨outcome, r, hrecord, -, hinterrupt, -, htells⟩ := h.record generation probes source oldTree patience i
  rw [C.noting, hrecord _ (numbered_of_eventCount (hrecord id (numbered_id r)) hle)]
  exact ⟨hinterrupt, htells⟩

section

variable {κ : Type} [DecidableEq κ] (fingerprint : Document → List Span → κ)

/-- What a call relies on: that it notes no more events than there are numbers of 32 bits, and that
progress whose input has the fingerprint of the input that is given was made for that. -/
structure Relies (p : Parser Suspension) (outside : Outside) (generation : Nat) (d : Document)
    (oldTree : Option Tree) : Prop where
  events : eventCount generation (p.probes outside) (p.taskBy fingerprint outside notedLanguage d oldTree)
    (.start p.timeout) ≤ limit
  input : ∀ c ∈ p.suspended, fingerprint c.document c.ranges = fingerprint d p.includedRanges →
    c.document = d ∧ c.ranges = p.includedRanges

mutual

/-- Whether a parser of C that notes events has been used for calls of any kind that could rely on their
numbers and fingerprints. Between calls its settings may change, and its progress may be dropped; old trees
match the documents that they are given for. -/
inductive UsedBy : Parser Suspension → Prop where
  | new {p} : p.language = some notedLanguage → p.suspended = none → UsedBy p
  | set {p q} :
    UsedBy p → q.language = some notedLanguage →
    (q.suspended = none ∨ q.suspended = p.suspended) → UsedBy q
  | called {p q d oldTree outside generation result} :
    UsedBy p → (∀ t ∈ oldTree, MatchesBy d t) → Relies fingerprint p outside generation d oldTree →
    p.parseBy fingerprint outside generation d oldTree = (result, q) → UsedBy q

/-- Whether a tree matches a document: such a parser made it from the document, or it was edited to match
it. Documents do not reach beyond the last byte that can be counted. -/
inductive MatchesBy : Document → Tree → Prop where
  | parsed {p q d oldTree outside generation t} :
    UsedBy p → (∀ t ∈ oldTree, MatchesBy d t) → d.bytes.length ≤ limit →
    Relies fingerprint p outside generation d oldTree →
    p.parseBy fingerprint outside generation d oldTree = (.ok t, q) → MatchesBy d t
  | edited {d d' t e} (generation : Nat) :
    MatchesBy d t → e.Rewrites d d' → d'.bytes.length ≤ limit → MatchesBy d' (t.edit generation e)

end

end

/-! ## Parsers whose progress is a draft -/

/-- Whether the progress of a parser that notes events, if it has any, stands for that of a parser whose
progress is a draft. -/
inductive Keeps : Option (Suspended Suspension) → Option (Suspended Checkpoint) → Prop where
  | none : Keeps none none
  | some {grammar document ranges x c} : Spells x c →
    Keeps (some ⟨grammar, document, ranges, x⟩) (some ⟨grammar, document, ranges, c⟩)

/-- Whether a parser that notes events does what a parser does whose progress is a draft. -/
structure Renders (p : Parser Suspension) (p' : Parser Checkpoint) : Prop where
  noted : p.language = some notedLanguage
  drafted : p'.language = some language
  ranges : p'.includedRanges = p.includedRanges
  timeout : p'.timeout = p.timeout
  flag : p'.flag = p.flag
  suspended : Keeps p.suspended p'.suspended

variable {κ : Type} [DecidableEq κ] {fingerprint : Document → List Span → κ} {p q : Parser Suspension}
  {p' : Parser Checkpoint} {d : Document} {oldTree : Option Tree} {outside : Outside} {generation : Nat}

/-- What they read outside is the same. -/
lemma Renders.probes (h : Renders p p') : p'.probes outside = p.probes outside := by
  funext check
  rw [Parser.probes, Parser.probes, h.flag]

/-- Both take an old tree that was made under the ranges of the call. -/
lemma Renders.filter_admits (h : Renders p p') (oldTree : Option Tree) :
    oldTree.filter (p'.admits language) = oldTree.filter (p.admits notedLanguage) := by
  congr 1
  funext t
  rw [Parser.admits, Parser.admits, h.ranges]
  rfl

/-- Both go on from the same place, where the fingerprint of the input is not that of another one. -/
lemma Renders.resumes (h : Renders p p')
    (hinput : ∀ c ∈ p.suspended, fingerprint c.document c.ranges = fingerprint d p.includedRanges →
      c.document = d ∧ c.ranges = p.includedRanges) :
    Resumes (p.taskBy fingerprint outside notedLanguage d oldTree).progress
      (p'.task outside language d oldTree).progress := by
  have hranges := h.ranges
  have hkeeps := h.suspended
  rw [Parser.taskBy, Parser.task]
  generalize p.suspended = before at hinput hkeeps
  generalize p'.suspended = before' at hkeeps
  cases hkeeps with
  | none => exact .start
  | @some g document ranges x c hs =>
    have hcontinues : p.continuesBy fingerprint notedLanguage d ⟨g, document, ranges, x⟩ =
        p'.continues language d ⟨g, document, ranges, c⟩ := by
      have hsame : fingerprint document ranges = fingerprint d p.includedRanges ↔
          document = d ∧ ranges = p'.includedRanges := by
        rw [hranges]
        exact ⟨hinput _ rfl, fun hinputs => by rw [hinputs.1, hinputs.2]⟩
      apply Bool.eq_iff_iff.2
      simp only [Parser.continuesBy, Parser.continues, Bool.and_eq_true, beq_iff_eq, hsame, and_assoc]
      rfl
    simp only [Option.filter_some, hcontinues]
    split
    · exact .halted hs
    · exact .start

/-- Calls that end alike leave such parsers. -/
lemma Renders.conclude (h : Renders p p') {outcome : Outcome Suspension} {outcome' : Outcome Checkpoint}
    {i : Interrupt} (htells : Tells outcome outcome') {result : Except Failure Tree}
    (hp : p.conclude notedLanguage d (outcome, i) = (result, q)) :
    ∃ q', p'.conclude language d (outcome', i) = (result, q') ∧ Renders q q' := by
  have hreset : Renders p.reset p'.reset := ⟨h.noted, h.drafted, h.ranges, h.timeout, h.flag, .none⟩
  cases htells with
  | complete tree =>
    obtain ⟨rfl, rfl⟩ := Prod.mk.inj hp
    exact ⟨_, rfl, hreset⟩
  | halted hs =>
    obtain ⟨rfl, rfl⟩ := Prod.mk.inj hp
    refine ⟨_, rfl, h.noted, h.drafted, h.ranges, h.timeout, h.flag, ?_⟩
    show Keeps _ (some ⟨_, _, p'.includedRanges, _⟩)
    rw [h.ranges]
    exact .some hs
  | stalled =>
    obtain ⟨rfl, rfl⟩ := Prod.mk.inj hp
    exact ⟨_, rfl, hreset⟩

/-- A call on which one can rely gives what the other parser gives, which again does the same after it. -/
theorem Renders.parse (h : Renders p p') (hrelies : Relies fingerprint p outside generation d oldTree)
    {result : Except Failure Tree} (hp : p.parseBy fingerprint outside generation d oldTree = (result, q)) :
    ∃ q', p'.parse outside generation d oldTree = (result, q') ∧ Renders q q' := by
  have htask : p'.task outside language d oldTree =
      ⟨.ofDocument d p.includedRanges, oldTree.filter (p.admits notedLanguage),
        (p'.task outside language d oldTree).progress, outside.patience⟩ := by
    rw [← h.ranges, ← h.filter_admits]
    rfl
  have hresumes : Resumes (p.taskBy fingerprint outside notedLanguage d oldTree).progress
      (p'.task outside language d oldTree).progress := h.resumes hrelies.input
  obtain ⟨hinterrupt, htells⟩ := hresumes.noting hrelies.events
  rw [Parser.parseBy, h.noted] at hp
  rw [Parser.parse, h.drafted]
  dsimp only at hp ⊢
  rw [htask, h.probes, h.timeout]
  exact h.conclude (i := (engine _ _ _ _).2) htells (by rw [← hinterrupt]; exact hp)

/-! ## Histories -/

/-- A parser of which the settings were changed. -/
lemma Renders.set (h : Renders p p') (hl : q.language = some notedLanguage)
    (hq : q.suspended = none ∨ q.suspended = p.suspended) : ∃ q', Renders q q' ∧
    q'.language = some language ∧ (q'.suspended = none ∨ q'.suspended = p'.suspended) := by
  rcases hq with hq | hq
  · exact ⟨⟨some language, q.includedRanges, q.timeout, q.flag, none⟩,
      ⟨hl, rfl, rfl, rfl, rfl, by rw [hq]; exact .none⟩, rfl, .inl rfl⟩
  · exact ⟨⟨some language, q.includedRanges, q.timeout, q.flag, p'.suspended⟩,
      ⟨hl, rfl, rfl, rfl, rfl, by rw [hq]; exact h.suspended⟩, rfl, .inr rfl⟩

mutual

/-- A parser that notes events and was used does what a parser does that was used in the same way. -/
theorem UsedBy.exists_used : ∀ {p : Parser Suspension}, UsedBy fingerprint p →
    ∃ p', Renders p p' ∧ Used False p'
  | p, .new hl hn => ⟨⟨some language, p.includedRanges, p.timeout, p.flag, none⟩,
      ⟨hl, rfl, rfl, rfl, rfl, by rw [hn]; exact .none⟩, .new rfl rfl⟩
  | _, .set h hl hq => by
    obtain ⟨p', hrenders, hused⟩ := UsedBy.exists_used h
    obtain ⟨q', hrenders', hl', hq'⟩ := hrenders.set hl hq
    exact ⟨q', hrenders', .set hused hl' hq'⟩
  | _, .called h hold hrelies hp => by
    obtain ⟨p', hrenders, hused⟩ := UsedBy.exists_used h
    obtain ⟨q', hp', hrenders'⟩ := hrenders.parse hrelies hp
    exact ⟨q', hrenders', .called hused (fun t ht => (hold t ht).matches) hp'⟩

/-- A tree that matches a document does so if it is made by parsers whose progress is a draft. -/
theorem MatchesBy.matches : ∀ {d : Document} {t : Tree}, MatchesBy fingerprint d t → Matches False d t
  | _, _, .parsed h hold hd hrelies hp => by
    obtain ⟨p', hrenders, hused⟩ := UsedBy.exists_used h
    obtain ⟨q', hp', -⟩ := hrenders.parse hrelies hp
    exact .parsed hused (fun t ht => (hold t ht).matches) hd False.elim hp'
  | _, _, .edited generation h he hd => .edited generation h.matches he hd

end

/-! ## Calls that start afresh -/

/-- What a call gives does not depend on progress that it does not take up. -/
lemma parseBy_reset (generation : Nat) (hl : p.language = some notedLanguage)
    (hfresh : (p.taskBy fingerprint outside notedLanguage d oldTree).progress = none) :
    p.reset.taskBy fingerprint outside notedLanguage d oldTree =
        p.taskBy fingerprint outside notedLanguage d oldTree ∧
      (p.reset.parseBy fingerprint outside generation d oldTree).1 =
        (p.parseBy fingerprint outside generation d oldTree).1 := by
  have htask : p.reset.taskBy fingerprint outside notedLanguage d oldTree =
      p.taskBy fingerprint outside notedLanguage d oldTree := by
    have hsame : p.taskBy fingerprint outside notedLanguage d oldTree =
        ⟨_, _, (p.taskBy fingerprint outside notedLanguage d oldTree).progress, _⟩ := rfl
    rw [hsame, hfresh]
    rfl
  have hconclude : ∀ x, (p.reset.conclude notedLanguage d x).1 = (p.conclude notedLanguage d x).1 := by
    rintro ⟨outcome, i⟩
    cases outcome <;> rfl
  refine ⟨htask, ?_⟩
  rw [Parser.parseBy, Parser.parseBy, show p.reset.language = some notedLanguage from hl, hl]
  dsimp only
  rw [htask]
  exact hconclude _

/-- A call that is not told to stop, goes on from no earlier one and notes no more events than there are
numbers of 32 bits accepts exactly the grammar and builds the derivation. -/
theorem parseBy_accepts (generation : Nat) (hl : p.language = some notedLanguage)
    (hfresh : (p.taskBy fingerprint outside notedLanguage d none).progress = none)
    (hq : NeverFires (p.probes outside) (.start p.timeout))
    (hevents : eventCount generation (p.probes outside) (p.taskBy fingerprint outside notedLanguage d none)
      (.start p.timeout) ≤ limit) :
    ∃ tree, (p.parseBy fingerprint outside generation d none).1 = .ok tree ∧
      (tree.rootNode.hasError = false ↔ ∃ ss, Derives .document ss ∧
        Shape.leavesOf ss = kinds (tokensFrom (.ofDocument d p.includedRanges) 0)) ∧
      (tree.rootNode.hasError = false → ∃ ss, Derives .document ss ∧
        Shape.leavesOf ss = kinds (tokensFrom (.ofDocument d p.includedRanges) 0) ∧
        tree.root.skeleton none = (Shape.node none .document ss).skeleton ∧
        ∀ ss', Derives .document ss' →
          Shape.leavesOf ss' = kinds (tokensFrom (.ofDocument d p.includedRanges) 0) →
          ss' = ss) := by
  obtain ⟨htask, hresult⟩ := parseBy_reset generation hl hfresh
  have hrenders : Renders p.reset ⟨some language, p.includedRanges, p.timeout, p.flag, none⟩ :=
    ⟨hl, rfl, rfl, rfl, rfl, .none⟩
  have hrelies : Relies fingerprint p.reset outside generation d none :=
    ⟨by rw [htask]; exact hevents, fun _ hc => by cases hc⟩
  obtain ⟨q', hp', -⟩ := hrenders.parse hrelies (Prod.eta _).symm
  obtain ⟨tree, htree, haccepts⟩ := @parse_accepts
    ⟨some language, p.includedRanges, p.timeout, p.flag, none⟩ outside d generation rfl rfl hq
  refine ⟨tree, ?_, haccepts⟩
  rw [← hresult, ← htree, hp']

/-- A parser of C that notes events, without a timeout and a flag. -/
def plainNotedParser : Parser Suspension := ⟨some notedLanguage, [.document], 0, none, none⟩

/-- The document `x;` is accepted as one expression statement. -/
theorem parseBy_accepts_statement :
    ∃ tree, (plainNotedParser.parseBy Prod.mk stillWorld 0 ⟨[120, 59], .utf8⟩ none).1 = .ok tree ∧
      tree.rootNode.hasError = false ∧ tree.root.skeleton none =
        (Shape.node none .document [.node none .expressionStatement
          [.leaf none .identifier, .leaf none .semicolon]]).skeleton := by
  obtain ⟨tree, ht, hiff, hunique⟩ := @parseBy_accepts _ _ Prod.mk plainNotedParser ⟨[120, 59], .utf8⟩
    stillWorld 0 rfl rfl (neverFires_of_flag fun _ => rfl) (by decide +kernel)
  have hd : Derives .document [.node none .expressionStatement
      [.leaf none .identifier, .leaf none .semicolon]] :=
    .further (.loose (.evaluation (.plain (.operand .name)))) .blank
  have he : tree.rootNode.hasError = false := hiff.2 ⟨_, hd, by decide⟩
  obtain ⟨ss, -, -, hsk, hss⟩ := hunique he
  exact ⟨tree, ht, he, by rw [hsk, hss _ hd (by decide)]⟩

end Reparse.C
