import Reparse.Proofs.Progress

/-!
# Enough numbers

How many events a call notes. A state that a call reaches grows into a good one, whose draft is noted by at
most ten events for each of its tokens. So a call notes at most ten events for each included character, and
two besides (`UsedBy.eventCount_le`), and numbers of 32 bits are enough for documents of up to 429496729
characters: whatever a parser was used for before, a call can rely on them (`UsedBy.relies`), and so can every
call of a series (`Turn.fits`).
-/

namespace Reparse.C

open Recorder

section

variable {strict : Prop} {d : Document} {ranges : List Span} {s s' e : State} {oldTree : Option Tree}

/-- A good state has at most ten events for each character. -/
lemma State.Good.volume_le {source : Source} (he : e.Good strict source) :
    e.volume ≤ 10 * source.chars.length + 2 := by
  obtain ⟨blanks, hcovers, -⟩ := he.covers
  have hdraft := he.volume
  have hlength := hcovers.length_le
  rw [List.length_append] at hlength
  rw [State.volume]
  omega

/-- A state has no more events than the one that it grows into. -/
lemma State.Grows.volume_le (h : s.Grows strict d ranges e) : s.volume ≤ e.volume := by
  have hdraft := h.draft.volume_le
  rw [State.volume, State.volume, h.tokens]
  omega

/-- What a call may come to that starts in a state which a good state follows. -/
lemma State.Grows.volume_reached_le (hs : strict → Settled (.ofDocument d ranges))
    (hold : ∀ t ∈ oldTree, Known strict d ranges t) (h : s.Grows strict d ranges e)
    (he : e.Good strict (.ofDocument d ranges)) (hsteps : Steps (.ofDocument d ranges) oldTree s s') :
    s'.volume ≤ 10 * (Source.ofDocument d ranges).chars.length + 2 := by
  obtain ⟨e', h', he'⟩ := h.steps hs hold he hsteps
  exact Nat.le_trans h'.volume_le he'.volume_le

/-- A call notes at most ten events for each character and two besides. -/
lemma Resumes.eventCount_le {x : Option Suspension} {c : Option Checkpoint} (h : Resumes x c)
    (hs : strict → Settled (.ofDocument d ranges)) (hold : ∀ t ∈ oldTree, Known strict d ranges t)
    (hg : (State.start (.ofDocument d ranges) c).Grows strict d ranges e)
    (he : e.Good strict (.ofDocument d ranges)) (generation : Nat) (probes : Nat → Probe)
    (patience : Nat) (i : Interrupt) :
    eventCount generation probes ⟨.ofDocument d ranges, oldTree, x, patience⟩ i ≤
      10 * (Source.ofDocument d ranges).chars.length + 2 := by
  obtain ⟨outcome, r, hrecord, ⟨reached, hsteps, hle⟩, -⟩ :=
    h.record generation probes (.ofDocument d ranges) oldTree patience i
  rw [eventCount, hrecord id (numbered_id r)]
  exact Nat.le_trans hle (hg.volume_reached_le hs hold he hsteps)

end

/-! ## Parsers -/

section

variable {κ : Type} [DecidableEq κ] {fingerprint : Document → List Span → κ} {p : Parser Suspension}
  {d : Document} {oldTree : Option Tree}

/-- Whatever a parser was used for before, a call notes at most ten events for each included character, and
two besides. -/
theorem UsedBy.eventCount_le (h : UsedBy fingerprint p) (hold : ∀ t ∈ oldTree, MatchesBy fingerprint d t)
    (hinput : ∀ c ∈ p.suspended, fingerprint c.document c.ranges = fingerprint d p.includedRanges →
      c.document = d ∧ c.ranges = p.includedRanges)
    (outside : Outside) (generation : Nat) :
    eventCount generation (p.probes outside) (p.taskBy fingerprint outside notedLanguage d oldTree)
      (.start p.timeout) ≤ 10 * (Source.ofDocument d p.includedRanges).chars.length + 2 := by
  obtain ⟨p', hrenders, hused⟩ := h.exists_used
  have hresumes : Resumes (p.taskBy fingerprint outside notedLanguage d oldTree).progress
      (p'.task outside language d oldTree).progress := hrenders.resumes hinput
  have hknown := known_filter (p := p') fun t ht => (hold t ht).matches.known
  obtain ⟨e, hg, he⟩ := hused.pursues.2.start (d := d) False.elim
  rw [hrenders.filter_admits, hrenders.ranges] at hknown
  rw [startOf, hrenders.ranges] at hg
  rw [hrenders.ranges] at he
  exact hresumes.eventCount_le False.elim hknown hg he _ _ _ _

/-- A call without an old tree that goes on from no earlier one does so too. -/
theorem eventCount_le_of_fresh {outside : Outside}
    (hfresh : (p.taskBy fingerprint outside notedLanguage d none).progress = none) (generation : Nat) :
    eventCount generation (p.probes outside) (p.taskBy fingerprint outside notedLanguage d none)
      (.start p.timeout) ≤ 10 * (Source.ofDocument d p.includedRanges).chars.length + 2 := by
  have htask : p.taskBy fingerprint outside notedLanguage d none =
      ⟨.ofDocument d p.includedRanges, none, none, outside.patience⟩ := by
    rw [← hfresh]
    rfl
  obtain ⟨e, hg, he⟩ :=
    @exists_start False d p.includedRanges none False.elim fun _ hc => by cases hc
  rw [htask]
  exact Resumes.start.eventCount_le False.elim (fun _ ht => by cases ht) hg he _ _ _ _

/-- Where there are numbers enough for ten events a character and two besides, a call can rely on its
numbers. -/
theorem UsedBy.relies (h : UsedBy fingerprint p) (hold : ∀ t ∈ oldTree, MatchesBy fingerprint d t)
    (hinput : ∀ c ∈ p.suspended, fingerprint c.document c.ranges = fingerprint d p.includedRanges →
      c.document = d ∧ c.ranges = p.includedRanges)
    (hd : 10 * (Source.ofDocument d p.includedRanges).chars.length + 2 ≤ limit)
    (outside : Outside) (generation : Nat) : Relies fingerprint p outside generation d oldTree :=
  ⟨Nat.le_trans (h.eventCount_le hold hinput outside generation) hd, hinput⟩

end

/-! ## Series of calls -/

namespace Turn

variable {d : Document} {ranges : List Span}

/-- What calls with known old trees have left to go on from is known. -/
lemma good_reached : ∀ {turns : List Turn},
    (∀ turn ∈ turns, ∀ t ∈ turn.oldTree, Known False d ranges t) →
    ∀ c ∈ reached (.ofDocument d ranges) turns, c.Good False d ranges
  | [], _, _, hc => by cases hc
  | turn :: earlier, hold, c, hc => by
    have hearlier := good_reached fun u hu => hold u (List.mem_cons_of_mem _ hu)
    obtain ⟨e, hg, he⟩ := exists_start False.elim hearlier
    have hhalted : turn.run (.ofDocument d ranges) (reached (.ofDocument d ranges) earlier) = .halted c := by
      rw [reached] at hc
      cases hrun : turn.run (.ofDocument d ranges) (reached (.ofDocument d ranges) earlier) with
      | halted c' =>
        rw [hrun] at hc
        exact congrArg Outcome.halted (Option.some.inj hc)
      | _ =>
        rw [hrun] at hc
        cases hc
    obtain ⟨s, hsteps, rfl⟩ := exists_of_halted hhalted
    obtain ⟨e', hg', he'⟩ := hg.steps False.elim (hold turn (List.mem_cons_self ..)) he hsteps
    exact ⟨s, e', hg', he', rfl⟩

/-- Where there are numbers enough for ten events a character and two besides, no call of a series whose old
trees are known runs out of them. -/
theorem fits (hd : 10 * (Source.ofDocument d ranges).chars.length + 2 ≤ limit) : ∀ {turns : List Turn},
    (∀ turn ∈ turns, ∀ t ∈ turn.oldTree, Known False d ranges t) → Fits (.ofDocument d ranges) turns
  | [], _ => trivial
  | turn :: earlier, hold => by
    have hearlier : ∀ u ∈ earlier, ∀ t ∈ u.oldTree, Known False d ranges t :=
      fun u hu => hold u (List.mem_cons_of_mem _ hu)
    obtain ⟨x, hx, hresumes, -⟩ := resumes_reached (.ofDocument d ranges) earlier
    obtain ⟨e, hg, he⟩ := exists_start False.elim (good_reached hearlier)
    have hle := hresumes.eventCount_le False.elim (hold turn (List.mem_cons_self ..)) hg he turn.generation
      turn.probes turn.patience (.start turn.timeout)
    exact ⟨Nat.le_trans (Nat.le_of_eq (eventCount_eq hx)) (Nat.le_trans hle hd), fits hd hearlier⟩

end Turn

end Reparse.C
