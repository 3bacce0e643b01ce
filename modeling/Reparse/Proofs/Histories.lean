import Reparse.Proofs.Lookaheads
import Reparse.Proofs.Simulation

/-!
# Histories

Parsers that were used for any calls, however these ended (`Used`), and trees that match a document
because they were parsed from it, or edited as the text was (`Matches`). Such a parser has kept the
progress of a good state (`Used.good`), and of such a tree it is known what its nodes are
(`Matches.known`). So whatever was done before, a call that gives a tree gives what a call without an
old tree builds (`Used.builds`).
-/

namespace Reparse.C

open Item

mutual

/-- Whether a parser of C has been used for calls of any kind. Between calls its settings may change,
and its progress may be dropped; old trees match the documents that they are given for. -/
inductive Used (strict : Prop) : Parser Checkpoint → Prop where
  | new {p} : p.language = some language → p.suspended = none → Used strict p
  | set {p q} :
    Used strict p → q.language = some language →
    (q.suspended = none ∨ q.suspended = p.suspended) → Used strict q
  | called {p q d oldTree outside generation result} :
    Used strict p → (∀ t ∈ oldTree, Matches strict d t) →
    p.parse outside generation d oldTree = (result, q) → Used strict q

/-- Whether a tree matches a document: it was parsed from it, or edited to match it. Documents do not
reach beyond the last byte that can be counted, and if `strict`, those that were parsed are settled. -/
inductive Matches (strict : Prop) : Document → Tree → Prop where
  | parsed {p q d oldTree outside generation t} :
    Used strict p → (∀ t ∈ oldTree, Matches strict d t) → d.bytes.length ≤ limit →
    (strict → Settled (.ofDocument d p.includedRanges)) →
    p.parse outside generation d oldTree = (.ok t, q) → Matches strict d t
  | edited {d d' t e} (generation : Nat) :
    Matches strict d t → e.Rewrites d d' → d'.bytes.length ≤ limit →
    Matches strict d' (t.edit generation e)

end

/-- Whether a checkpoint is one of a call that goes through states which good states follow. -/
def Checkpoint.Good (strict : Prop) (d : Document) (ranges : List Span) (c : Checkpoint) : Prop :=
  ∃ s e : State, s.Grows strict d ranges e ∧ e.Good strict (.ofDocument d ranges) ∧
    c = s.checkpoint (.ofDocument d ranges)

/-- What such a call gives: the tree of the items that the last of the good states finishes with. -/
structure Builds (strict : Prop) (source : Source) (e : State) (items : List Item) (t : Tree) :
    Prop where
  good : e.Good strict source
  finished : step source none e = .finished items
  whole : WholeAll items
  covers : ∃ blanks, Covers source.chars (tokensOf items) blanks ∧ AllBlank blanks
  root : t.root.bare = builtRoot source.positionAt (source.positionAt source.endOfInput) items

section

variable {strict : Prop} {p q : Parser Checkpoint} {d : Document} {ranges : List Span}
  {oldTree : Option Tree} {outside : Outside} {generation : Nat}

/-! ## Single calls -/

/-- A call goes on from a checkpoint in a state that a good state follows. -/
lemma Checkpoint.Good.start {c : Checkpoint} (hs : strict → Settled (.ofDocument d ranges))
    (h : c.Good strict d ranges) :
    ∃ e, (State.start (.ofDocument d ranges) (some c)).Grows strict d ranges e ∧
      e.Good strict (.ofDocument d ranges) := by
  obtain ⟨s, e, hg, he, rfl⟩ := h
  refine ⟨State.start (.ofDocument d ranges) (some (e.checkpoint (.ofDocument d ranges))),
    ⟨hg.draft, ?_⟩, he.restart (Source.ordered_chars d ranges) hs⟩
  show tokensFrom _ (s.byte _) = tokensFrom _ (e.byte _)
  rw [State.byte, hg.tokens]
  rfl

/-- A call starts in a state that a good state follows, from a checkpoint as well as from none. -/
lemma exists_start {c : Option Checkpoint} (hs : strict → Settled (.ofDocument d ranges))
    (hc : ∀ c' ∈ c, c'.Good strict d ranges) :
    ∃ e, (State.start (.ofDocument d ranges) c).Grows strict d ranges e ∧
      e.Good strict (.ofDocument d ranges) := by
  cases c with
  | none => exact ⟨_, ⟨.empty, rfl⟩, .start strict (Source.ordered_chars d _)⟩
  | some c => exact (hc c rfl).start hs

/-- Whether of the progress of a parser, if it has any, the checkpoint is known. -/
def Pursues (strict : Prop) (p : Parser Checkpoint) : Prop :=
  ∀ c ∈ p.suspended, (strict → Settled (.ofDocument c.document c.ranges)) →
    c.progress.Good strict c.document c.ranges

/-- A good state follows the one in which a call starts. -/
lemma Pursues.start (h : Pursues strict p)
    (hs : strict → Settled (.ofDocument d p.includedRanges)) :
    ∃ e, (startOf p d).Grows strict d p.includedRanges e ∧
      e.Good strict (.ofDocument d p.includedRanges) := by
  refine exists_start hs fun c' hc' => ?_
  obtain ⟨c, hc, rfl⟩ := Option.map_eq_some_iff.1 hc'
  obtain ⟨hmem, hcontinues⟩ := Option.filter_eq_some_iff.1 hc
  simp only [Parser.continues, Bool.and_eq_true, beq_iff_eq] at hcontinues
  obtain ⟨⟨-, rfl⟩, hranges⟩ := hcontinues
  have hgood := h c hmem
  rw [hranges] at hgood
  exact hgood hs

/-- An old tree that may be used is known by the document. -/
lemma known_filter (hold : ∀ t ∈ oldTree, Known strict d t.includedRanges t) :
    ∀ t ∈ oldTree.filter (p.admits language), Known strict d p.includedRanges t := by
  intro t ht
  obtain ⟨hmem, hadmits⟩ := Option.filter_eq_some_iff.1 ht
  simp only [Parser.admits, Bool.and_eq_true, beq_iff_eq] at hadmits
  rw [← hadmits.2]
  exact hold t hmem

/-- What a cancelled call leaves is known. -/
lemma Pursues.called {result : Except Failure Tree} (h : Pursues strict p)
    (hl : p.language = some language)
    (hold : ∀ t ∈ oldTree.filter (p.admits language), Known strict d p.includedRanges t)
    (hp : p.parse outside generation d oldTree = (result, q)) :
    q.language = some language ∧ Pursues strict q := by
  rw [parse_eq hl] at hp
  generalize hr : engine generation (p.probes outside) (p.task outside language d oldTree)
    (.start p.timeout) = r at hp
  obtain ⟨_ | c | _ | _, interrupt⟩ := r
  case halted =>
    obtain ⟨-, rfl⟩ := Prod.mk.inj hp
    refine ⟨hl, fun c' hc' hs => ?_⟩
    obtain rfl := Option.some.inj hc'
    obtain ⟨e, hg, he⟩ := h.start hs
    obtain ⟨s, hsteps, rfl⟩ := exists_of_halted (congrArg Prod.fst hr)
    obtain ⟨e', hg', he'⟩ := hg.steps hs hold he hsteps
    exact ⟨s, e', hg', he', rfl⟩
  all_goals
    obtain ⟨-, rfl⟩ := Prod.mk.inj hp
    exact ⟨hl, fun _ hc => by cases hc⟩

/-- A call that gives a tree has come to a state in which it finishes with the items of the tree. -/
lemma exists_finished_of_parse {t : Tree} (hl : p.language = some language)
    (hp : p.parse outside generation d oldTree = (.ok t, q)) :
    ∃ s items, Steps (.ofDocument d p.includedRanges) (oldTree.filter (p.admits language))
        (startOf p d) s ∧
      step (.ofDocument d p.includedRanges) (oldTree.filter (p.admits language)) s =
        .finished items ∧
      treeOf (.ofDocument d p.includedRanges) generation items = .ok t := by
  obtain ⟨hcomplete, -⟩ := complete_of_parse hl hp
  obtain ⟨s, items, hsteps, hf, hfinish⟩ := exists_of_complete hcomplete
  refine ⟨s, items, hsteps, hf, ?_⟩
  have hfinish' : finish (.ofDocument d p.includedRanges) generation items = .complete t := hfinish
  unfold finish at hfinish'
  split at hfinish'
  · rename_i tree htree
    rw [htree, Outcome.complete.inj hfinish']
  · cases hfinish'

/-- A call that gives a tree builds it of items and without marks, and what is known of the nodes of
the old tree is known of those of the new one. -/
lemma Pursues.builds {t : Tree} (h : Pursues strict p) (hl : p.language = some language)
    (hd : d.bytes.length ≤ limit) (hs : strict → Settled (.ofDocument d p.includedRanges))
    (hold : ∀ t ∈ oldTree.filter (p.admits language), Known strict d p.includedRanges t)
    (hp : p.parse outside generation d oldTree = (.ok t, q)) :
    (∃ e items, Builds strict (.ofDocument d p.includedRanges) e items t) ∧
      t.includedRanges = Source.effectiveRanges p.includedRanges ∧ t.root.Unmarked ∧
      Known strict d p.includedRanges t := by
  obtain ⟨e, hg, he⟩ := h.start hs
  obtain ⟨s, items, hsteps, hf, htree⟩ := exists_finished_of_parse hl hp
  obtain ⟨e', hg', he'⟩ := hg.steps hs hold he hsteps
  obtain ⟨items', hf', hgrows, ⟨blanks, hc, hblank⟩, hahead⟩ := hg'.finished he' hf
  obtain ⟨-, hranges, hroot⟩ := of_treeOf htree
  have hroot' := root_of_grows hd hgrows hc hroot
  obtain ⟨hunmarked, hguarded⟩ := guarded_root hd hgrows hc hahead htree
  exact ⟨⟨e', items', he', hf', hgrows.whole, ⟨blanks, hc, hblank⟩, hroot'⟩, hranges, hunmarked, hd,
    holds_root hd hgrows hc hroot', hguarded⟩

/-! ## Any calls -/

/-- Ranges that are in effect stay as they are. -/
lemma Source.effectiveRanges_idem (ranges : List Span) :
    Source.effectiveRanges (Source.effectiveRanges ranges) = Source.effectiveRanges ranges := by
  cases ranges <;> rfl

mutual

/-- The progress of a parser that was used is known. -/
theorem Used.pursues : ∀ {p : Parser Checkpoint}, Used strict p →
    p.language = some language ∧ Pursues strict p
  | _, .new hl hn => ⟨hl, fun c hc => by
      rw [hn] at hc
      cases hc⟩
  | _, .set h hl hq => ⟨hl, fun c hc => by
      rcases hq with hq | hq
      · rw [hq] at hc
        cases hc
      · rw [hq] at hc
        exact (Used.pursues h).2 c hc⟩
  | _, .called h hold hp =>
    (Used.pursues h).2.called (Used.pursues h).1 (known_filter fun t ht => (hold t ht).known) hp

/-- What the nodes of a tree are is known by the document that it matches. -/
theorem Matches.known : ∀ {d : Document} {t : Tree}, Matches strict d t →
    Known strict d t.includedRanges t
  | _, _, .parsed h hold hd hs hp => by
    obtain ⟨hl, hpursues⟩ := Used.pursues h
    obtain ⟨-, hranges, -, -, hholds, hguarded⟩ :=
      hpursues.builds hl hd hs (known_filter fun t ht => (hold t ht).known) hp
    refine ⟨hd, ?_, hguarded⟩
    rw [hranges, Source.effectiveRanges_idem]
    exact hholds
  | _, _, @Matches.edited _ _ _ t _ generation h ⟨ht, he⟩ hd' => by
    obtain ⟨hd, hholds, hguarded⟩ := h.known
    refine ⟨hd', ?_, hguarded.edit h.known.fits ht hd hd'⟩
    have hturns := cells_turns (Source.effectiveRanges t.includedRanges) ht hd hd'
    rw [Tree.edit, Source.effectiveRanges_map, he]
    exact hholds.edit generation [] hturns (by rw [Document.length_cells]; exact hd)
      (by rw [Document.length_cells]; exact hd')

end

/-- Whatever a parser was used for before, a call that gives a tree builds it as a call without an old
tree does. -/
theorem Used.builds {t : Tree} (h : Used strict p) (hold : ∀ t ∈ oldTree, Matches strict d t)
    (hd : d.bytes.length ≤ limit) (hs : strict → Settled (.ofDocument d p.includedRanges))
    (hp : p.parse outside generation d oldTree = (.ok t, q)) :
    ∃ e items, Builds strict (.ofDocument d p.includedRanges) e items t :=
  (h.pursues.2.builds h.pursues.1 hd hs (known_filter fun t ht => (hold t ht).known) hp).1

/-- A tree that a call gives has no marks, and matches the document. -/
lemma Used.unmarked {t : Tree} (h : Used strict p) (hold : ∀ t ∈ oldTree, Matches strict d t)
    (hd : d.bytes.length ≤ limit) (hs : strict → Settled (.ofDocument d p.includedRanges))
    (hp : p.parse outside generation d oldTree = (.ok t, q)) : t.root.Unmarked ∧ Matches strict d t :=
  ⟨(h.pursues.2.builds h.pursues.1 hd hs (known_filter fun t ht => (hold t ht).known) hp).2.2.1,
    .parsed h hold hd hs hp⟩

end

end Reparse.C
