import Reparse.Proofs.Rounds

/-!
# Event streams

A call of the parser of C that notes events never misuses its recorder: every marker that is opened is
completed, given up or suspended once, no event is shifted to which something refers, no chain of
starts is broken, and the calls that the events of a document stand for make one node. The call ends as
the call of the engine does that goes on from the same place (`run_spec`), and so does every call of a
series of calls for one source that go on from one another (`record_orderly`). It notes no more events than
a state may come to that the engine reaches (`Resumes.record`).
-/

namespace Reparse.C

open Event Item Recorder Script

variable {number : Nat → Nat} {probes : Nat → Probe}

/-! ## Ends of calls -/

/-- What a call hands out that is halted, and the checkpoint that it stands for. -/
structure Spells (x : Suspension) (c : Checkpoint) : Prop where
  draws : Draws x.events c.draft x.blocks
  byte : x.byte = c.byte
  lastStop : x.lastStop = c.draft.lastStop

/-- Whether a call that notes events ends as a call of the engine. -/
inductive Tells : Outcome Suspension → Outcome Checkpoint → Prop where
  | complete (tree : Tree) : Tells (.complete tree) (.complete tree)
  | halted {x c} : Spells x c → Tells (.halted x) (.halted c)
  | stalled : Tells .stalled .stalled

/-- Whether a call that notes events leaves its recorder in order: no marker is open, and the events of
a complete document stand for calls that make one node and that the tree is built by. -/
inductive Orderly (source : Source) (generation : Nat) : Outcome Suspension → Recorder → Prop where
  | complete {tree r calls} :
    r.opened = [] → toCalls r.events = .ok calls → Call.OneNode calls →
    Event.treeOf source generation r.events = .ok tree → Orderly source generation (.complete tree) r
  | halted {r} : r.opened = [] → Orderly source generation (.halted r.suspension) r
  | stalled {r} : Orderly source generation .stalled r

/-! ## Halting -/

/-- Markers that were opened last may be suspended. -/
lemma suspend_append {r : Recorder} {markers rest : List Nat} (ho : r.opened = markers ++ rest) :
    r.suspend markers = .ok { r with opened := rest } := by
  induction markers generalizing r with
  | nil =>
    rw [List.nil_append] at ho
    rw [← ho]
    rfl
  | cons marker markers ih =>
    rw [Recorder.suspend, List.foldlM_cons, close_head ho]
    exact ih rfl

/-- The blocks that are open are left, innermost first. -/
lemma suspend_blocks {r : Recorder} {blocks : List BlockMark} {rest : List Nat}
    (ho : r.opened = blocks.flatMap BlockMark.starts ++ rest) : ∃ left,
    blocks.foldlM (fun r b => r.leaveBlock.suspend b.starts) r =
      .ok { r with blocks := left, opened := rest } := by
  induction blocks generalizing r with
  | nil =>
    rw [List.flatMap_nil, List.nil_append] at ho
    rw [← ho]
    exact ⟨r.blocks, rfl⟩
  | cons b blocks ih =>
    rw [List.flatMap_cons, List.append_assoc] at ho
    have hsuspend := suspend_append (r := r.leaveBlock) ho
    obtain ⟨left, hleft⟩ := ih (r := { r.leaveBlock with
      opened := blocks.flatMap BlockMark.starts ++ rest }) rfl
    refine ⟨left, ?_⟩
    rw [List.foldlM_cons, hsuspend]
    exact hleft

/-- Where the open markers are those of the blocks and of the document, halting leaves none open. -/
lemma halt_eq {r : Recorder} {blocks : List BlockMark}
    (ho : r.opened = blocks.flatMap BlockMark.starts ++ [root]) : ∃ left,
    r.halt blocks = .ok (.halted r.suspension, { r with blocks := left, opened := [] }) := by
  obtain ⟨left, hleft⟩ := suspend_blocks ho
  have hroot : ({ r with blocks := left, opened := [root] } : Recorder).suspend [root] =
      .ok { r with blocks := left, opened := [] } := suspend_append rfl
  refine ⟨left, ?_⟩
  rw [Recorder.halt, hleft]
  simp only [Bind.bind, Except.bind, hroot]
  rfl

/-- How rounds end that a recorder goes through from where a state is, given that the call of the engine
which goes on from that state ends with `last`. The rounds are the same under every numbering that numbers
the events by their places, and note no more than what a state may come to that the steps reach. -/
structure Concludes (source : Source) (oldTree : Option Tree) (generation : Nat) (s : State) (r : Recorder)
    (rounds : (Nat → Nat) → Except Misuse (Outcome Suspension × Recorder))
    (last : Outcome Checkpoint × Interrupt) (outcome : Outcome Suspension) (r' : Recorder) : Prop where
  ended : ∀ number, r'.Numbered number → rounds number = .ok (outcome, r')
  longer : r.events.length ≤ r'.events.length
  bounded : ∃ reached, Steps source oldTree s reached ∧ r'.events.length ≤ reached.volume
  interrupt : r'.interrupt = last.2
  orderly : Orderly source generation outcome r'
  tells : Tells outcome last.1

namespace Concludes

variable {source : Source} {oldTree : Option Tree} {generation : Nat} {s s' : State} {r₁ r r' : Recorder}
  {rounds more : (Nat → Nat) → Except Misuse (Outcome Suspension × Recorder)}
  {last : Outcome Checkpoint × Interrupt} {outcome : Outcome Suspension}

/-- Rounds that come to other ones, which go on with more events. -/
lemma of_longer (h : Concludes source oldTree generation s r₁ more last outcome r')
    (hle : r.events.length ≤ r₁.events.length)
    (hrounds : ∀ number, r₁.Numbered number → rounds number = more number) :
    Concludes source oldTree generation s r rounds last outcome r' where
  ended number hnumber := (hrounds number (hnumber.of_length_le h.longer)).trans (h.ended number hnumber)
  longer := Nat.le_trans hle h.longer
  bounded := h.bounded
  interrupt := h.interrupt
  orderly := h.orderly
  tells := h.tells

/-- Rounds after a step. -/
lemma head (h : Concludes source oldTree generation s' r rounds last outcome r')
    (hl : Leads source oldTree s s') : Concludes source oldTree generation s r rounds last outcome r' := by
  obtain ⟨reached, hsteps, hle⟩ := h.bounded
  exact ⟨h.ended, h.longer, ⟨reached, .head hl hsteps, hle⟩, h.interrupt, h.orderly, h.tells⟩

end Concludes

/-- A recorder that is halted leaves its markers, and hands out what its bookmark stands for. -/
lemma halt_spec {s : State} {r : Recorder} {blocks : List BlockMark} {c : Checkpoint} (source : Source)
    (oldTree : Option Tree) (generation : Nat)
    (ho : r.opened = blocks.flatMap BlockMark.starts ++ [root]) (hs : Spells r.suspension c)
    (hle : r.events.length ≤ s.volume) : ∃ outcome r',
    Concludes source oldTree generation s r (fun _ => r.halt blocks) (.halted c, r.interrupt) outcome r' := by
  obtain ⟨left, hhalt⟩ := halt_eq ho
  have horderly : Orderly source generation
      (.halted ({ r with blocks := left, opened := [] } : Recorder).suspension)
      { r with blocks := left, opened := [] } := .halted rfl
  exact ⟨_, _, fun _ _ => hhalt, Nat.le_refl _, ⟨s, .refl, hle⟩, rfl, horderly, .halted hs⟩

/-! ## Runs -/

section

variable {source : Source} {oldTree : Option Tree} {s s' : State} {r : Recorder}

/-- A move never leaves more tokens than there are characters. -/
lemma Moves.length_tokens_le (h : Moves source oldTree s s')
    (hl : s.tokens.length ≤ source.chars.length) : s'.tokens.length ≤ source.chars.length := by
  have hpending := length_pending_le s
  cases h with
  | closes _ _ =>
    have hle := (keeps_expect .rightBrace none s.pending).length_le
    exact Nat.le_trans hle (Nat.le_trans hpending hl)
  | reuses _ _ _ => exact length_tokensFrom_le source _
  | @reads t rest piece rest' hp _ _ hr =>
    have hle : rest'.length ≤ rest.length := by
      split at hr
      · have hread := length_topLevel_le t rest
        rwa [hr] at hread
      · have hread := length_statement_le t rest
        rwa [hr] at hread
    rw [hp, List.length_cons] at hpending
    show rest'.length ≤ _
    omega

/-- A recorder that has noted a whole document makes its tree. -/
lemma finish_spec (source : Source) (generation : Nat) {r : Recorder} {inner : List Event}
    {parts : List Item} (ho : r.opened = [])
    (he : r.events = .start (some .document) none none :: (inner ++ [Event.finish]))
    (hn : NotesAll inner parts) : ∃ outcome, r.finish source generation = .ok (outcome, r) ∧
    Orderly source generation outcome r ∧ Tells outcome (C.finish source generation parts) := by
  obtain ⟨calls, tree, hcalls, hone, htree, hitem⟩ := Event.treeOf_eq source generation hn
  rw [← he] at hcalls htree
  refine ⟨.complete tree, ?_, .complete ho hcalls hone htree, ?_⟩
  · rw [Recorder.finish, settle, ho]
    show (Event.treeOf source generation r.events).bind _ = _
    rw [htree]
    rfl
  · rw [C.finish, hitem]
    exact .complete tree

/-- Setting the bookmark checks the interrupt, which counts unless the call was resumed just here. -/
lemma save_eq (hh : r.isHalted = false) : r.save probes source =
    { r with
      bookmark := ⟨r.events.length, (r.tokens.head?.map (·.start)).getD source.endOfInput, r.lastStop,
        r.blocks⟩
      interrupt := r.interrupt.poll probes
      isHalted := r.resumedAt.all (· < r.events.length) && (r.interrupt.poll probes).isHalted } := by
  rw [Recorder.save, hh, if_neg Bool.false_ne_true, Recorder.poll]
  simp only [Bool.false_or]
  rw [Bool.and_comm]
  rfl

/-- A bookmark leaves what a recorder mirrors. -/
lemma mirrors_save (hm : Mirrors s r) (hh : r.isHalted = false) :
    Mirrors s (r.save probes source) := by
  rw [save_eq hh]
  exact ⟨hm.draws, hm.tokens, hm.lastStop, hm.opened⟩

/-- A recorder that goes on from its bookmark has it where it stands. -/
lemma saved_save (hh : r.isHalted = false) (hgoes : (r.save probes source).isHalted = false) :
    Saved (r.save probes source) := by
  rw [save_eq hh] at hgoes ⊢
  refine ⟨rfl, rfl, hgoes, fun hmay => ?_⟩
  have hmay' : r.resumedAt.all (· < r.events.length) = true := hmay
  dsimp only at hgoes
  dsimp only
  rw [hmay', Bool.true_and]

/-- What is handed out at a bookmark that was set just now stands for the checkpoint there. -/
lemma spells_save (hm : Mirrors s r) (hh : r.isHalted = false) :
    Spells (r.save probes source).suspension (s.checkpoint source) := by
  rw [save_eq hh]
  refine ⟨?_, ?_, hm.lastStop⟩
  · show Draws (r.events.take r.events.length) _ _
    rw [List.take_length]
    exact hm.draws
  · show (r.tokens.head?.map (·.start)).getD source.endOfInput = _
    rw [hm.tokens]
    rfl

/-- What is handed out by a round that was halted stands for the checkpoint before it. -/
lemma spells_of_leaves {checks : Nat} {s' : State} {r' : Recorder} (hm : Mirrors s r)
    (hh : r.isHalted = false) (hl : Leaves probes s (r.save probes source) checks s' r') :
    Spells r'.suspension (s.checkpoint source) := by
  have hspells : Spells (r.save probes source).suspension (s.checkpoint source) := spells_save hm hh
  have hkept := hl.kept
  rw [Recorder.suspension, hl.bookmark]
  rw [save_eq hh] at hspells hkept ⊢
  exact ⟨hkept, hspells.byte, hspells.lastStop⟩

/-- A recorder that is halted runs no further. -/
lemma run_of_isHalted {room generation steps : Nat} {blocks : List BlockMark} (h : r.isHalted = true) :
    r.run number probes source oldTree room generation steps blocks = r.halt blocks := by
  cases steps <;> rw [Recorder.run, if_pos h]

/-- A recorder that is not halted sets its bookmark and goes on with a round, unless the interrupt halts
it there. -/
lemma run_succ {room generation steps : Nat} {blocks : List BlockMark} (hh : r.isHalted = false) :
    r.run number probes source oldTree room generation (steps + 1) blocks =
      if (r.save probes source).isHalted then (r.save probes source).halt blocks
      else ((r.save probes source).round number probes source oldTree room blocks).bind fun
        | (none, r) => r.finish source generation
        | (some blocks, r) => r.run number probes source oldTree room generation steps blocks := by
  rw [Recorder.run, hh, if_neg Bool.false_ne_true]
  rfl

/-- What a recorder has noted is no more than what its state may come to. -/
lemma Mirrors.length_le (hm : Mirrors s r) : r.events.length ≤ s.volume :=
  Nat.le_trans hm.draws.length_le s.volume_draft_lt

/-- Setting the bookmark changes neither what was noted nor where the call goes on. -/
lemma save_fields (hh : r.isHalted = false) :
    (r.save probes source).events = r.events ∧ (r.save probes source).blocks = r.blocks ∧
      (r.save probes source).resumedAt = r.resumedAt ∧
      (r.save probes source).interrupt = r.interrupt.poll probes ∧
      (r.save probes source).mayHalt = r.resumedAt.all (· < r.events.length) ∧
      (r.save probes source).isHalted =
        (r.resumedAt.all (· < r.events.length) && (r.interrupt.poll probes).isHalted) := by
  rw [save_eq hh]
  exact ⟨rfl, rfl, rfl, rfl, rfl, rfl⟩

/-- Rounds end as steps do. -/
theorem run_spec {room : Nat} (generation steps : Nat) (hm : Mirrors s r) (hh : r.isHalted = false)
    (hat : ∀ at' ∈ r.resumedAt, at' ≤ r.events.length) (hl : s.tokens.length ≤ source.chars.length)
    (hr : source.chars.length < room) : ∃ outcome r', Concludes source oldTree generation s r
      (fun number => r.run number probes source oldTree room generation steps r.blocks)
      (C.run generation probes source oldTree steps (r.resumedAt.all (· < r.events.length)) s r.interrupt)
      outcome r' := by
  induction steps generalizing s r with
  | zero =>
    refine ⟨.stalled, r, fun number _ => ?_, Nat.le_refl _, ⟨s, .refl, hm.length_le⟩, rfl, .stalled, .stalled⟩
    rw [Recorder.run, hh, if_neg Bool.false_ne_true]
  | succ steps ih =>
    obtain ⟨hevents, hblocks, hresumed, hinterrupt, hmay, hhalts⟩ := @save_fields probes source r hh
    rw [C.run]
    dsimp only
    rw [← hhalts, ← hinterrupt]
    cases hgoes : (r.save probes source).isHalted with
    | true =>
      -- the interrupt has fired at the bookmark
      rw [if_pos rfl]
      have hsave : Mirrors s (r.save probes source) := mirrors_save hm hh
      obtain ⟨outcome, r', h⟩ :=
        halt_spec source oldTree generation hsave.opened (spells_save hm hh) hsave.length_le
      refine ⟨outcome, r', h.of_longer (Nat.le_of_eq (by rw [hevents])) fun number _ => ?_⟩
      rw [run_succ hh, if_pos hgoes, hblocks]
    | false =>
      rw [if_neg Bool.false_ne_true]
      have hround : ∀ number, r.run number probes source oldTree room generation (steps + 1) r.blocks = _ :=
        fun number => (run_succ hh).trans (if_neg (by rw [hgoes]; exact Bool.false_ne_true))
      have hsaved : Saved (r.save probes source) := saved_save hh hgoes
      rcases @round_spec probes source oldTree s (r.save probes source) room (mirrors_save hm hh) hsaved
          (Nat.lt_of_le_of_lt hl hr) with
        ⟨parts, r', inner, hstep, hends, ho, he, hn, hi, hle, hbounded⟩ |
        ⟨checks, s', r', hstep, hends, hleaves⟩
      · rw [hstep]
        obtain ⟨outcome, hfinish, horderly, htells⟩ := finish_spec source generation ho he hn
        refine ⟨outcome, r', fun number _ => ?_, hevents ▸ hle, ⟨s, .refl, hbounded⟩, hi, horderly, htells⟩
        rw [hround, ← hblocks, hends number]
        exact hfinish
      have hlonger := hleaves.longer
      rw [hevents] at hlonger
      rw [hstep]
      dsimp only
      rw [← hleaves.interrupt, ← hmay, ← hleaves.isHalted]
      -- what is left are the rounds after this one
      suffices hrest : ∃ outcome r'', Concludes source oldTree generation s r'
          (fun number => r'.run number probes source oldTree room generation steps r'.blocks) _ outcome r'' by
        obtain ⟨outcome, r'', h⟩ := hrest
        refine ⟨outcome, r'', h.of_longer (Nat.le_of_lt hlonger) fun number hnumber => ?_⟩
        rw [hround, ← hblocks, hends number hnumber]
        rfl
      cases hgoes' : r'.isHalted with
      | true =>
        -- the interrupt has fired in the round
        rw [if_pos rfl]
        obtain ⟨outcome, r'', h⟩ := halt_spec source oldTree generation hleaves.opened
          (spells_of_leaves hm hh hleaves) hleaves.bounded
        exact ⟨outcome, r'', h.of_longer (Nat.le_refl _) fun number _ => run_of_isHalted hgoes'⟩
      | false =>
        rw [if_neg Bool.false_ne_true]
        have hleads : Leads source oldTree s s' := ⟨checks, hstep⟩
        have hpast : r'.resumedAt.all (· < r'.events.length) = true := by
          rw [hleaves.resumedAt, hresumed, Option.all_eq_true]
          exact fun at' hat' => decide_eq_true (Nat.lt_of_le_of_lt (hat at' hat') hlonger)
        obtain ⟨outcome, r'', h⟩ := @ih s' r' (hleaves.mirrors hgoes') hgoes'
          (fun at' hat' => Nat.le_of_lt (by simpa using (Option.all_eq_true _ _).1 hpast at' hat'))
          (hleads.moves.length_tokens_le hl)
        rw [hpast] at h
        exact ⟨outcome, r'', h.head hleads⟩

end

/-! ## Calls -/

namespace Turn

/-- A call after a series of calls. -/
lemma recordedBy_cons {source : Source} {turn : Turn} {earlier : List Turn} {x : Option Suspension}
    {outcome : Outcome Suspension} {r : Recorder} (hx : recordedBy number source earlier = .ok x)
    (h : turn.recordBy number source x = .ok (outcome, r)) :
    recordedBy number source (turn :: earlier) = .ok outcome.progress? := by
  rw [recordedBy, hx]
  show (turn.recordBy number source x).bind _ = _
  rw [h]
  rfl

/-- What a call of a series counts, from where the calls before it have left off. -/
lemma eventCount_eq {source : Source} {turn : Turn} {earlier : List Turn} {x : Option Suspension}
    (hx : recorded source earlier = .ok x) : turn.eventCount source earlier =
      C.eventCount turn.generation turn.probes (turn.task source x) (.start turn.timeout) := by
  rw [eventCount, hx]

end Turn

/-- Where a call notes no more events than there are numbers, 32 bits are enough for them. -/
lemma numbered_of_eventCount {generation : Nat} {task : Task Suspension} {i : Interrupt}
    {outcome : Outcome Suspension} {r : Recorder}
    (h : C.record id generation probes task i = .ok (outcome, r))
    (hle : eventCount generation probes task i ≤ limit) : r.Numbered Span.countOf := by
  rw [eventCount, h] at hle
  exact numbered_countOf hle

/-- Whether what a call that notes events goes on from, if anything, stands for what a call of the
engine goes on from. -/
inductive Resumes : Option Suspension → Option Checkpoint → Prop where
  | start : Resumes none none
  | halted {x c} : Spells x c → Resumes (some x) (some c)

/-- A recorder begins where the engine does. -/
lemma Resumes.mirrors {x : Option Suspension} {c : Option Checkpoint} (h : Resumes x c)
    (source : Source) (i : Interrupt) :
    Mirrors (State.start source c) (Recorder.ofProgress source i x) := by
  cases h with
  | start => exact ⟨.empty, rfl, rfl, rfl⟩
  | halted hs =>
    refine ⟨hs.draws, ?_, hs.lastStop, rfl⟩
    show tokensFrom source _ = tokensFrom source _
    rw [hs.byte]

/-- A call that notes events leaves its recorder in order and ends as the engine does, with the same
interrupt, under every numbering that numbers the events by their places. It notes no more of them than a state
may come to that the engine reaches. -/
lemma Resumes.record {x : Option Suspension} {c : Option Checkpoint} (h : Resumes x c) (generation : Nat)
    (probes : Nat → Probe) (source : Source) (oldTree : Option Tree) (patience : Nat) (i : Interrupt) :
    ∃ outcome r, (∀ number, r.Numbered number →
      C.record number generation probes ⟨source, oldTree, x, patience⟩ i = .ok (outcome, r)) ∧
    (∃ reached, Steps source oldTree (.start source c) reached ∧ r.events.length ≤ reached.volume) ∧
    r.interrupt = (engine generation probes ⟨source, oldTree, c, patience⟩ i).2 ∧
    Orderly source generation outcome r ∧
    Tells outcome (engine generation probes ⟨source, oldTree, c, patience⟩ i).1 := by
  have hmirrors := h.mirrors source i
  have hlength : (State.start source c).tokens.length ≤ source.chars.length := by
    cases c with
    | none => exact length_tokensFrom_le source 0
    | some c => exact length_tokensFrom_le source c.byte
  obtain ⟨front, inner, -, houtline, -⟩ := hmirrors.draws
  have hsteps : stepBound source (State.start source c) =
      4 * source.chars.length + (Recorder.ofProgress source i x).blocks.length + 4 := by
    rw [stepBound, houtline.length_eq]
  have hmay : (Recorder.ofProgress source i x).resumedAt.all
      (· < (Recorder.ofProgress source i x).events.length) = c.isNone := by
    cases h with
    | start => rfl
    | halted _ => exact decide_eq_false (Nat.lt_irrefl _)
  have hat : ∀ at' ∈ (Recorder.ofProgress source i x).resumedAt,
      at' ≤ (Recorder.ofProgress source i x).events.length := by
    cases h with
    | start => exact fun _ hat' => by cases hat'
    | halted _ =>
      rintro _ ⟨⟩
      exact Nat.le_refl _
  have hinterrupt : (Recorder.ofProgress source i x).interrupt = i := by
    cases x <;> rfl
  have hhalted : (Recorder.ofProgress source i x).isHalted = false := by
    cases x <;> rfl
  obtain ⟨outcome, r', hrun, -, hbounded, hi, horderly, htells⟩ := @run_spec probes source oldTree _ _
    (source.chars.length + 1) generation (stepBound source (State.start source c) + patience) hmirrors
    hhalted hat hlength (Nat.lt_succ_self _)
  rw [hmay, hinterrupt] at hi htells
  rw [hsteps] at hrun
  exact ⟨outcome, r', hrun, hbounded, hi, horderly, htells⟩

/-- What a call has left to go on from stands for what the call of the engine has left. -/
lemma Tells.resumes {outcome : Outcome Suspension} {outcome' : Outcome Checkpoint}
    (h : Tells outcome outcome') :
    Resumes outcome.progress? outcome'.progress? := by
  cases h with
  | complete tree => exact .start
  | halted hs => exact .halted hs
  | stalled => exact .start

/-- A call of a series, from where the calls before it have left off. -/
lemma Resumes.recordBy {x : Option Suspension} {c : Option Checkpoint} (h : Resumes x c) (source : Source)
    (turn : Turn) : ∃ outcome r,
    (∀ number, r.Numbered number → turn.recordBy number source x = .ok (outcome, r)) ∧
    Orderly source turn.generation outcome r ∧ Tells outcome (turn.run source c) := by
  obtain ⟨outcome, r, hrecord, -, -, hends⟩ :=
    h.record turn.generation turn.probes source turn.oldTree turn.patience (.start turn.timeout)
  exact ⟨outcome, r, hrecord, hends⟩

/-- After a series of calls both go on from the same place, under every numbering that numbers the events
of each of the calls by their places. -/
lemma resumes_reached (source : Source) (earlier : List Turn) : ∃ x,
    Turn.recorded source earlier = .ok x ∧ Resumes x (Turn.reached source earlier) ∧
    (Turn.Fits source earlier → Turn.recordedBy Span.countOf source earlier = .ok x) := by
  induction earlier with
  | nil => exact ⟨none, rfl, .start, fun _ => rfl⟩
  | cons turn earlier ih =>
    obtain ⟨x, hx, hresumes, hcounted⟩ := ih
    obtain ⟨outcome, r, hrecord, -, htells⟩ := hresumes.recordBy source turn
    refine ⟨outcome.progress?, ?_, htells.resumes, fun hfits => ?_⟩
    · exact Turn.recordedBy_cons hx (hrecord id (numbered_id r))
    · exact Turn.recordedBy_cons (hcounted hfits.2)
        (hrecord _ (numbered_of_eventCount (hrecord id (numbered_id r)) (Turn.eventCount_eq hx ▸ hfits.1)))

/-- No call misuses its recorder, whatever calls for the source came before it and were halted, from
which old trees parts were taken over, and when interrupts fired, where each of the calls notes fewer
events than there are numbers of 32 bits: no marker is closed that is not open, a completed marker stands
at a start, no event is shifted to which an open marker, an open block, the bookmark or a start refers, and
no chain of starts leads elsewhere than to starts. At its end no marker is open, and the events of a
complete document stand for calls in which nodes begin and end in turn and that make one node. The call
ends as the engine does after the same calls. -/
theorem record_orderly (source : Source) (earlier : List Turn) (turn : Turn)
    (h : Turn.Fits source (turn :: earlier)) : ∃ x outcome r,
    Turn.recordedBy Span.countOf source earlier = .ok x ∧
    turn.recordBy Span.countOf source x = .ok (outcome, r) ∧
    Orderly source turn.generation outcome r ∧
    Tells outcome (turn.run source (Turn.reached source earlier)) := by
  obtain ⟨x, hx, hresumes, hcounted⟩ := resumes_reached source earlier
  obtain ⟨outcome, r, hrecord, hends⟩ := hresumes.recordBy source turn
  have hnumbered := numbered_of_eventCount (hrecord id (numbered_id r)) (Turn.eventCount_eq hx ▸ h.1)
  exact ⟨x, outcome, r, hcounted h.2, hrecord _ hnumbered, hends⟩

/-- A call for `a+b;` that is halted at once, and the call after it, which is not halted: the start of the
sum is put before the token of `a`, and the document is completed. -/
theorem record_orderly_resumed : ∃ x outcome r,
    Turn.recordedBy Span.countOf (.ofDocument ⟨[97, 43, 98, 59], .utf8⟩ [])
      [⟨none, 0, 0, 0, fun _ => ⟨1, 0⟩⟩] = .ok x ∧ x.isSome = true ∧
    Turn.recordBy Span.countOf ⟨none, 0, 0, 0, fun _ => ⟨0, 0⟩⟩ (.ofDocument ⟨[97, 43, 98, 59], .utf8⟩ []) x =
      .ok (outcome, r) ∧ outcome.progress?.isNone = true ∧ r.events.length = 10 ∧
    Orderly (.ofDocument ⟨[97, 43, 98, 59], .utf8⟩ []) 0 outcome r := by
  obtain ⟨x, outcome, r, hx, hcall, horderly, -⟩ := record_orderly (.ofDocument ⟨[97, 43, 98, 59], .utf8⟩ [])
    [⟨none, 0, 0, 0, fun _ => ⟨1, 0⟩⟩] ⟨none, 0, 0, 0, fun _ => ⟨0, 0⟩⟩
    ⟨by decide +kernel, by decide +kernel, trivial⟩
  have hsome : (Turn.recordedBy Span.countOf (.ofDocument ⟨[97, 43, 98, 59], .utf8⟩ [])
      [⟨none, 0, 0, 0, fun _ => ⟨1, 0⟩⟩]).toOption.any (·.isSome) = true := by decide +kernel
  have hdone : (Turn.recordedBy Span.countOf (.ofDocument ⟨[97, 43, 98, 59], .utf8⟩ [])
      [⟨none, 0, 0, 0, fun _ => ⟨1, 0⟩⟩] >>= Turn.recordBy Span.countOf ⟨none, 0, 0, 0, fun _ => ⟨0, 0⟩⟩
        (.ofDocument ⟨[97, 43, 98, 59], .utf8⟩ [])).toOption.map
          (fun y => (y.1.progress?.isNone, y.2.events.length)) = some (true, 10) := by decide +kernel
  have hbind : (Except.ok x >>= Turn.recordBy Span.countOf ⟨none, 0, 0, 0, fun _ => ⟨0, 0⟩⟩
      (.ofDocument ⟨[97, 43, 98, 59], .utf8⟩ [])) = .ok (outcome, r) := hcall
  rw [hx] at hsome
  rw [hx, hbind] at hdone
  obtain ⟨hnone, hlength⟩ := Prod.mk.inj (Option.some.inj hdone)
  exact ⟨x, outcome, r, hx, hsome, hcall, hnone, hlength, horderly⟩

end Reparse.C
