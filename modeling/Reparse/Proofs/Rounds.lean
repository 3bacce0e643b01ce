import Reparse.Proofs.Outlines
import Reparse.Proofs.Simulation

/-!
# Rounds of a recorder

A round of a recorder that is not halted does what a step of the engine does: it takes the same
tokens, checks the interrupt as often, and notes what the step adds to the draft (`round_spec`). If
the interrupt fires on the way, what was noted before the round still stands for the draft before the
step. In any case the recorder has noted at most ten events for each token that was still to come, besides
those of the draft (`State.volume`).
-/

namespace Reparse.C

open Event Item Recorder Script

variable {number : Nat → Nat} {probes : Nat → Probe}

/-! ## Volumes -/

/-- How many events are noted at most when a round is over that began in a state. -/
def State.volume (s : State) : Nat := s.draft.volume + 10 * s.tokens.length + 2

namespace State

variable {s : State}

/-- A draft is noted by fewer events than the round after it may come to. -/
lemma volume_draft_lt (s : State) : s.draft.volume < s.volume := by
  rw [State.volume]
  omega

/-- What is taken over takes one event. -/
lemma volume_reused_lt (g : Green) {t : Token} {rest : List Token} (hp : s.pending = t :: rest) :
    (s.here.add [.reused g]).volume < s.volume := by
  have hhere := s.volume_here_add_le
  rw [Draft.volume_add, State.volume]
  rw [hp, List.length_cons] at hhere
  simp only [volumeOf, Item.volume]
  omega

/-- The end of a block has no more events than the tokens that come next afford, which may be those that
are seen of them only. -/
lemma volume_closed_lt {b : Block} {outer : List Block} (hb : s.draft.blocks = b :: outer)
    {ts : List Token} (hts : ts.length ≤ s.pending.length) (lastStop : Nat) :
    (Draft.mk (Draft.closedBlock b (s.here.parts.reverse ++ (expect .rightBrace none ts).1) :: b.outer) outer
      lastStop).volume < s.volume := by
  have hhere := s.volume_here_add_le
  have hclosed := Draft.volume_closed (s.blocks_here.trans hb) (expect .rightBrace none ts).1 lastStop
  have hbrace := affords_expect .rightBrace none ts
  have hkeeps := congrArg List.length (keeps_expect .rightBrace none ts)
  rw [State.volume]
  simp only [Affords, List.length_append] at hbrace hkeeps
  omega

/-- A piece has no more events than the tokens that come next afford, which may be those that are seen of
them only. -/
lemma volume_place_lt {t : Token} {rest : List Token} (hp : s.pending = t :: rest) (isTop : Bool)
    {ts : List Token} (hts : ts.length ≤ rest.length) :
    (s.here.place (if isTop then C.topLevel t ts else C.statement t ts).1).volume < s.volume := by
  have hhere := s.volume_here_add_le
  generalize hr : (if isTop then C.topLevel t ts else C.statement t ts) = read
  have hpiece := Piece.volume_of_read (State.isComment_of_pending hp) hr
  have htokens := congrArg List.length (Piece.Inner.of_read hr).2
  rw [hp, List.length_cons] at hhere
  rw [List.length_append, List.length_cons] at htokens
  rw [Draft.volume_place, State.volume]
  omega

/-- The node of a document takes two events besides those of its parts. -/
lemma volume_parts_add_le (s : State) : volumeOf s.here.parts + 2 ≤ s.volume := by
  have hhere := s.volume_here_add_le
  have hparts : volumeOf s.here.parts ≤ s.here.volume := Nat.le_add_right _ _
  rw [State.volume]
  omega

end State

/-! ## Scripts that may halt -/

/-- What a recorder has gone through when it has taken tokens up to `rest`. -/
structure Reaches (probes : Nat → Probe) (r r' : Recorder) (rest : List Token) : Prop where
  resumedAt : r'.resumedAt = r.resumedAt
  interrupt : r'.interrupt = r.interrupt.pollTimes probes (checksFor (taken r.tokens rest))
  isHalted : r'.isHalted = (r.mayHalt && r'.interrupt.isHalted)
  tokens : r'.isHalted = false → r'.tokens = rest
  lastStop : r'.isHalted = false → r'.lastStop = endOf r.lastStop (taken r.tokens rest)

/-- A recorder that may halt has halted just if its interrupt has fired. -/
lemma Recorder.Passes.isHalted_eq {r r' : Recorder} (h : Passes r r') (hh : r.isHalted = false)
    (ha : r.Alert) : r'.isHalted = (r.mayHalt && r'.interrupt.isHalted) := by
  cases hm : r.mayHalt with
  | true => rw [Bool.true_and, h.alert ha (h.mayHalt.trans hm)]
  | false =>
    rw [Bool.false_and, ← Bool.not_eq_true]
    intro hh'
    rw [(h.halts hh hh').1] at hm
    cases hm

/-- What is calm stays so. -/
lemma view_of_passes_calm {r r' : Recorder} (h : Passes r.calm r') : r'.view probes = r'.tokens := by
  have hmay : r'.mayHalt = false := h.mayHalt.trans r.mayHalt_calm
  have hhalted : r'.isHalted = false := by
    rw [← Bool.not_eq_true]
    intro hh
    have hm := (h.halts rfl hh).1
    rw [mayHalt_calm] at hm
    cases hm
  rw [view_of_not_isHalted hhalted, hmay, if_neg Bool.false_ne_true]

/-- A recorder and its calm copy go through a script together: both check the interrupt as often, and
as long as the recorder is not halted they end alike. -/
lemma Script.reaches {α : Type} {p : Script α} {r r' rc : Recorder} {a b : α} (hh : r.isHalted = false)
    (ha : r.Alert) (h : p.exec number probes r = .ok (a, r'))
    (hc : p.exec number probes r.calm = .ok (b, rc)) :
    Reaches probes r r' (rc.view probes) ∧ (r'.isHalted = false → b = a ∧ rc = r'.calm) := by
  obtain ⟨ts, htakes⟩ := Script.takes hc
  have hview := @view_of_passes_calm probes _ _ (Script.passes hc)
  have htaken : taken r.tokens (rc.view probes) = ts := by
    rw [hview, show r.tokens = ts ++ rc.tokens from htakes.tokens, taken_append]
  have hend : r'.isHalted = false → b = a ∧ rc = r'.calm := by
    intro hh'
    have hcalm := exec_calm h hh'
    rw [hc] at hcalm
    exact ⟨congrArg Prod.fst (Except.ok.inj hcalm), congrArg Prod.snd (Except.ok.inj hcalm)⟩
  have hinterrupt : r'.interrupt = rc.interrupt := by
    cases hh' : r'.isHalted with
    | true => exact (exec_calm_of_isHalted h hh hh' hc).symm
    | false => rw [(hend hh').2]; rfl
  have hpasses := Script.passes h
  refine ⟨⟨hpasses.resumedAt, ?_, hpasses.isHalted_eq hh ha, fun hh' => ?_, fun hh' => ?_⟩, hend⟩
  · rw [hinterrupt, htaken]
    exact htakes.interrupt
  · rw [hview, (hend hh').2]
    rfl
  · rw [htaken, ← show rc.lastStop = r'.lastStop by rw [(hend hh').2]; rfl]
    exact htakes.lastStop

/-! ## Recorders and states -/

/-- Whether a recorder stands where a state of the engine does. -/
structure Mirrors (s : State) (r : Recorder) : Prop where
  draws : Draws r.events s.draft r.blocks
  tokens : r.tokens = s.tokens
  lastStop : r.lastStop = s.draft.lastStop
  opened : r.opened = r.blocks.flatMap BlockMark.starts ++ [root]

/-- Whether a recorder has set its bookmark just now and goes on. -/
structure Saved (r : Recorder) : Prop where
  events : r.bookmark.events = r.events.length
  blocks : r.bookmark.blocks = r.blocks
  isHalted : r.isHalted = false
  alert : r.Alert

/-- What comes of a recorder that stands at a state when it takes the comments that come next. -/
structure Faces (s : State) (r r₁ : Recorder) : Prop where
  current : r.current = (s.pending.head?.map (·.kind), r₁)
  before : Mirrors s r
  mirrors : Mirrors ⟨s.here, s.pending⟩ r₁
  appends : ∃ events, Appends r r₁ events ∧ NotesAll events (comments s.tokens).1
  tame : r₁.Tame
  interrupt : r₁.interrupt = r.interrupt
  resumedAt : r₁.resumedAt = r.resumedAt
  isHalted : r₁.isHalted = false
  alert : r₁.Alert

namespace Faces

variable {s : State} {r r₁ : Recorder}

/-- A recorder that mirrors a state and is saved faces it once it looks at a token. -/
lemma of_mirrors (hm : Mirrors s r) (hs : Saved r) : Faces s r r.current.2 := by
  have hcurrent : r.current = (s.pending.head?.map (·.kind), r.takeComments) := by
    rw [Recorder.current, hs.isHalted, if_neg Bool.false_ne_true, takeComments_eq, hm.tokens]
    rfl
  rw [hcurrent]
  have heq := takeComments_eq r
  have happends : Appends r r.takeComments (commentEvents s.tokens) := by
    rw [heq, hm.tokens]
    exact ⟨rfl, rfl, rfl, rfl⟩
  have hnotes := notesAll_comments s.tokens
  have htakes := @Takes.takeComments (fun _ => ⟨0, 0⟩) r
  have htokens : r.takeComments.tokens = s.pending := by
    rw [heq, hm.tokens]
    rfl
  have htaken : taken s.tokens s.pending = r.tokens.takeWhile (·.isComment) := by
    rw [← htokens, ← hm.tokens, htakes.tokens, taken_append, ← htakes.tokens]
  have ht := hm.draws.tame hm.opened hs.blocks hs.events
  refine ⟨hcurrent, hm, ⟨?_, htokens, ?_, ?_⟩, ⟨_, happends, hnotes⟩, happends.tame ht hnotes.inside, ?_, ?_,
    ?_, (Passes.takeComments r).alert hs.alert⟩
  · rw [happends.events, happends.blocks]
    exact hm.draws.add hnotes
  · show r.takeComments.lastStop = endOf s.draft.lastStop (taken s.tokens s.pending)
    rw [htakes.lastStop, htaken, hm.lastStop]
  · rw [happends.opened, happends.blocks]
    exact hm.opened
  · rw [heq]
  · rw [heq]
  · rw [heq]
    exact hs.isHalted

/-- To look at a token does not change whether a recorder may halt. -/
lemma mayHalt (h : Faces s r r₁) : r₁.mayHalt = r.mayHalt := by
  obtain ⟨events, happends, -⟩ := h.appends
  rw [Recorder.mayHalt, Recorder.mayHalt, h.resumedAt, happends.bookmark]

end Faces

/-- What a round comes to that began at a state, where a step leads on with some checks. -/
structure Leaves (probes : Nat → Probe) (s : State) (r : Recorder) (checks : Nat) (s' : State)
    (r' : Recorder) : Prop where
  opened : r'.opened = r'.blocks.flatMap BlockMark.starts ++ [root]
  bookmark : r'.bookmark = r.bookmark
  resumedAt : r'.resumedAt = r.resumedAt
  interrupt : r'.interrupt = r.interrupt.pollTimes probes checks
  isHalted : r'.isHalted = (r.mayHalt && r'.interrupt.isHalted)
  kept : Draws (r'.events.take r.events.length) s.draft r.blocks
  longer : r.events.length < r'.events.length
  bounded : r'.events.length ≤ s.volume
  mirrors : r'.isHalted = false → Mirrors s' r'

/-! ## Ends of blocks -/

/-- A tame recorder that leaves a block is tame. -/
lemma tame_leaveBlock {r : Recorder} (h : r.Tame) : r.leaveBlock.Tame := by
  obtain ⟨hle, hr⟩ := isFree_iff.1 h
  refine isFree_iff.2 ⟨hle, fun x hx => hr x ?_⟩
  simp only [references, leaveBlock, List.flatMap_append, List.mem_append, List.mem_flatMap] at hx ⊢
  rcases hx with (hx | ⟨b, hb, hx⟩ | hx) | hx
  · exact .inl (.inl hx)
  · exact .inl (.inr (.inl ⟨b, List.mem_of_mem_tail hb, hx⟩))
  · exact .inl (.inr (.inr hx))
  · exact .inr hx

/-- The end of a block, as the recorder comes to it that may halt on the way. The starts of the block get
their rules in any case, and they note the block with its brace, if that is among the tokens that are seen; as
long as the recorder is not halted these are all. -/
lemma exec_leaveBlock {r : Recorder} {front starts inner : List Event} {b : Block} {mark : BlockMark}
    {parts : List Item} {opened : List Nat} (ht : r.Tame) (hh : r.isHalted = false) (ha : r.Alert)
    (he : r.events = front ++ starts ++ inner) (hs : Opens front.length b.definition starts mark)
    (hn : NotesAll inner parts) (ho : r.opened = mark.starts ++ opened) : ∃ r' starts' after,
    Yields probes (endOfBlock mark) r.leaveBlock () r' ∧
    r'.events = front ++ starts' ++ inner ++ after ∧ after ≠ [] ∧ starts'.length = starts.length ∧
    Opens front.length b.definition starts' mark ∧ r'.opened = opened ∧ r'.blocks = r.blocks.tail ∧
    r'.bookmark = r.bookmark ∧
    Reaches probes r.leaveBlock r' (expect .rightBrace none r.tokens).2 ∧
    (∃ ts : List Token, ts.length ≤ r.tokens.length ∧ NotesAll (starts' ++ inner ++ after)
      [Draft.closedBlock b (parts ++ (expect .rightBrace none ts).1)]) ∧
    (r'.isHalted = false → NotesAll (starts' ++ inner ++ after)
      [Draft.closedBlock b (parts ++ (expect .rightBrace none r.tokens).1)]) := by
  have htame := tame_leaveBlock ht
  have hview : (r.leaveBlock.calm).view probes = r.tokens := view_calm _
  obtain ⟨r', starts', after, hexec, he', hne, hlength, hs', hseen, ho', hblocks, hbookmark, -⟩ :=
    @exec_endOfBlock probes r.leaveBlock _ _ _ _ _ _ _ htame he hs hn ho
  -- what the events note is known of the copy that does not halt
  obtain ⟨rc, startsc, afterc, hexecc, hec, -, -, -, hnotes, -, -, -, hviewc⟩ :=
    @exec_endOfBlock probes r.leaveBlock.calm _ _ _ _ _ _ _ htame he hs hn ho
  rw [hview] at hnotes hviewc
  obtain ⟨hreach, hend⟩ := Script.reaches (r := r.leaveBlock) hh ha hexec.exec_id hexecc.exec_id
  rw [hviewc] at hreach
  refine ⟨r', starts', after, hexec, he', hne, hlength, hs', ho', hblocks, hbookmark, hreach,
    ⟨_, length_view_le r.leaveBlock, hseen⟩, fun hh' => ?_⟩
  have hsame : front ++ (starts' ++ inner ++ after) = front ++ (startsc ++ inner ++ afterc) := by
    have hevents : rc.events = r'.events := by
      rw [(hend hh').2]
      rfl
    rw [hec, he'] at hevents
    simpa only [List.append_assoc] using hevents.symm
  rw [List.append_cancel_left hsame]
  exact hnotes

/-- A block is ended. -/
lemma endBlock_leaves {s : State} {r r₁ : Recorder} {b : Block} {outer : List Block}
    (hf : Faces s r r₁) (hb : s.draft.blocks = b :: outer) : ∃ mark marks r', r.blocks = mark :: marks ∧
    (∀ number, r'.Numbered number → r₁.endBlock number probes mark marks = .ok (r'.blocks, r')) ∧
    Leaves probes s r (checksFor (taken s.pending (expect .rightBrace none s.pending).2))
      ⟨(Draft.mk (Draft.closedBlock b (s.here.parts.reverse ++ (expect .rightBrace none s.pending).1) ::
          b.outer) outer s.here.lastStop).after (taken s.pending (expect .rightBrace none s.pending).2),
        (expect .rightBrace none s.pending).2⟩ r' := by
  obtain ⟨front, inner, hevents, hout, hinner⟩ := hf.before.draws
  obtain ⟨more, happends, hmore⟩ := hf.appends
  have hopened := hf.before.opened
  rw [hb] at hout
  generalize hmarks : r.blocks = blocks at hout hopened
  cases hout with
  | @block front outside starts _ _ mark marks hfront houtside hstarts =>
    have hparts : s.here.parts.reverse = s.draft.parts.reverse ++ (comments s.tokens).1 := by
      rw [State.parts_here, List.reverse_append, List.reverse_reverse]
    have hevents₁ : r₁.events = (front ++ outside) ++ starts ++ (inner ++ more) := by
      rw [happends.events, hevents, List.append_assoc]
    have hopened₁ : r₁.opened = mark.starts ++ (marks.flatMap BlockMark.starts ++ [root]) := by
      rw [happends.opened, hopened, List.flatMap_cons, List.append_assoc]
    have htokens : r₁.tokens = s.pending := hf.mirrors.tokens
    obtain ⟨r', starts', after, hexec, he, hne, hlength, hstarts', ho, hbl, hbm, hreach, ⟨ts, hts, hseen⟩,
        hnotes⟩ :=
      @exec_leaveBlock probes r₁ _ _ _ _ _ _ _ hf.tame hf.isHalted hf.alert hevents₁ hstarts
        (hmore.append hinner) hopened₁
    rw [htokens] at hreach hts hnotes
    rw [← hparts] at hnotes hseen
    have hblocks : r'.blocks = marks := by
      rw [hbl, happends.blocks, hmarks]
      rfl
    have hnode : r'.events = front ++ outside ++ (starts' ++ (inner ++ more) ++ after) := by
      rw [he]
      simp only [List.append_assoc]
    refine ⟨mark, marks, r', rfl, ?_, ?_⟩
    · intro number hnumber
      rw [Recorder.endBlock, hexec number hnumber, hblocks]
      rfl
    · constructor
      case opened => rw [ho, hblocks]
      case bookmark => exact hbm.trans happends.bookmark
      case resumedAt => exact hreach.resumedAt.trans hf.resumedAt
      case interrupt => rw [hreach.interrupt, ← htokens, ← hf.interrupt]; rfl
      case isHalted => rw [hreach.isHalted, ← hf.mayHalt]; rfl
      case kept =>
        -- the starts of the block may have got their rules, and nothing else is changed
        have hsplit : r'.events = front ++ outside ++ starts' ++ inner ++ (more ++ after) := by
          rw [he]
          simp only [List.append_assoc]
        rw [hsplit, hevents, hmarks]
        exact .take_reopened hb hfront houtside hstarts' hinner hlength (more ++ after)
      case longer =>
        have hpos := List.length_pos_iff.2 hne
        rw [he, hevents]
        simp only [List.length_append]
        omega
      case bounded =>
        rw [hnode]
        exact Nat.le_trans (Draws.closed hfront houtside hseen 0).length_le
          (State.volume_closed_lt hb hts 0)
      case mirrors =>
        intro hh
        refine ⟨?_, hreach.tokens hh, ?_, ?_⟩
        · rw [hblocks, hnode]
          exact .closed hfront houtside (hnotes hh) _
        · rw [hreach.lastStop hh, ← htokens]
          exact congrArg (endOf · _) hf.mirrors.lastStop
        · rw [ho, hblocks]

/-! ## Pieces -/

/-- What a recorder is after a piece, in the block that the piece may have opened. -/
def Recorder.entered (r : Recorder) : Option BlockMark → Recorder
  | none => r
  | some b => r.enterBlock b

/-- To enter a block takes no token. -/
lemma tokens_entered (r : Recorder) (a : Option BlockMark) : (r.entered a).tokens = r.tokens := by
  cases a <;> rfl

/-- A piece adds some events, and opens the markers of a block if it opens one. -/
lemma Script.PieceNoted.appends {piece : Piece} {rest : List Token} {r r' : Recorder}
    {a : Option BlockMark} (h : PieceNoted probes piece rest r a r')
    (ho : r.opened = r.blocks.flatMap BlockMark.starts ++ [root]) :
    (∃ events, events ≠ [] ∧ (r'.entered a).events = r.events ++ events) ∧
      (r'.entered a).opened = (r'.entered a).blocks.flatMap BlockMark.starts ++ [root] ∧
      (r'.entered a).bookmark = r.bookmark ∧ r'.blocks = r.blocks := by
  obtain ⟨-, h⟩ := h
  cases piece with
  | whole item =>
    obtain ⟨rfl, events, happends, hn⟩ := h
    exact ⟨⟨events, hn.ne_nil, happends.events⟩, by
      rw [Recorder.entered, happends.opened, happends.blocks, ho], happends.bookmark, happends.blocks⟩
  | opened definition brace =>
    obtain ⟨mark, starts, rfl, -, hopened, events, hn, happends⟩ := h
    refine ⟨⟨starts ++ events, fun hnil => hn.ne_nil (List.append_eq_nil_iff.1 hnil).2,
      happends.events⟩, ?_, happends.bookmark, happends.blocks⟩
    show r'.opened = (mark :: r'.blocks).flatMap BlockMark.starts ++ [root]
    rw [hopened, ho, show r'.blocks = r.blocks from happends.blocks, List.flatMap_cons, List.append_assoc]

/-- A piece is noted after what was noted before. -/
lemma Script.PieceNoted.draws {piece : Piece} {rest : List Token} {r r' : Recorder}
    {a : Option BlockMark} {d : Draft} (h : PieceNoted probes piece rest r a r')
    (hd : Draws r.events d r.blocks) :
    Draws (r'.entered a).events (d.place piece) (r'.entered a).blocks := by
  obtain ⟨-, h⟩ := h
  cases piece with
  | whole item =>
    obtain ⟨rfl, events, happends, hn⟩ := h
    rw [Recorder.entered, happends.events, happends.blocks]
    exact hd.add hn
  | opened definition brace =>
    obtain ⟨mark, starts, rfl, hopens, -, events, hn, happends⟩ := h
    show Draws r'.events _ (mark :: r'.blocks)
    rw [show r'.events = _ from happends.events, show r'.blocks = r.blocks from happends.blocks]
    exact hd.opened hopens hn

/-- What comes next is seen where the recorder goes on. -/
lemma exists_view_cons {r : Recorder} {t : Token} {rest : List Token} (hh : r.isHalted = false)
    (ht : r.tokens = t :: rest) : ∃ ts, r.view probes = t :: ts := by
  rw [view_of_not_isHalted hh]
  split
  · refine List.head?_eq_some_iff.1 ?_
    rw [head?_untilHalt, ht]
    rfl
  · exact ⟨rest, ht⟩

/-- What comes next is noted as it is read, at the top as in blocks. -/
lemma runs_piece {room : Nat} {t : Token} {ts : List Token} (isTop : Bool) (hr : (t :: ts).length < room)
    (hc : comments (t :: ts) = ([], t :: ts)) :
    Runs probes (if isTop then Script.topLevel room else Script.statement room) (t :: ts)
      (PieceNoted probes (if isTop then C.topLevel t ts else C.statement t ts).1
        (if isTop then C.topLevel t ts else C.statement t ts).2) := by
  cases isTop with
  | true => exact runs_topLevel hr hc
  | false => exact runs_statement hr hc

section

variable {source : Source} {oldTree : Option Tree} {s : State} {r r₁ : Recorder} {t : Token}
  {rest : List Token}

/-- A recorder has open blocks if the state that it mirrors has. -/
lemma isEmpty_blocks (hm : Mirrors s r) : r.blocks.isEmpty = s.draft.blocks.isEmpty := by
  obtain ⟨front, inner, -, hout, -⟩ := hm.draws
  exact hout.isEmpty_eq

/-- The recorder takes over what the engine does. -/
lemma reuse?_eq (hf : Faces s r r₁) (ht : s.pending = t :: rest) :
    r₁.reuse? probes source oldTree (if r.blocks.isEmpty then reusableAtTop else reusableInBlock) =
      (State.reusable? source oldTree s.here t).map fun n =>
        { r₁.push (.reused n.green) with
          lastStop := n.stopByte
          tokens := tokensFrom source n.stopByte }.poll probes := by
  have htokens : r₁.tokens = t :: rest := hf.mirrors.tokens.trans ht
  rw [Recorder.reuse?, hf.isHalted, htokens, State.reusable?, isEmpty_blocks hf.before, hf.mirrors.lastStop]
  rfl

/-- What is noted after the comments leaves what was noted before them. -/
lemma Faces.kept {r' : Recorder} {events : List Event} (hf : Faces s r r₁)
    (he : r'.events = r₁.events ++ events) (hne : events ≠ []) :
    Draws (r'.events.take r.events.length) s.draft r.blocks ∧ r.events.length < r'.events.length := by
  obtain ⟨more, happends, -⟩ := hf.appends
  have hpos := List.length_pos_iff.2 hne
  rw [he, happends.events, List.append_assoc, List.take_left, List.length_append, List.length_append]
  exact ⟨hf.before.draws, by omega⟩

/-- A node of the old tree is taken over. -/
lemma reuse_leaves (hf : Faces s r r₁) (ht : s.pending = t :: rest) (n : Node) : Leaves probes s r 1
    ⟨{ s.here.add [.reused n.green] with lastStop := n.stopByte }, tokensFrom source n.stopByte⟩
    ({ r₁.push (.reused n.green) with
      lastStop := n.stopByte
      tokens := tokensFrom source n.stopByte }.poll probes) := by
  obtain ⟨more, happends, -⟩ := hf.appends
  generalize hr' : ({ r₁.push (.reused n.green) with
      lastStop := n.stopByte
      tokens := tokensFrom source n.stopByte } : Recorder) = r'
  have hhalted : r'.isHalted = false := by
    rw [← hr']
    exact hf.isHalted
  have hfrom : Passes r₁ r' := by
    rw [← hr']
    exact .of_eq rfl rfl rfl rfl
  have hpasses := hfrom.trans (@Passes.poll probes _ hhalted)
  have hkept := @Faces.kept _ _ _ (r'.poll probes) [.reused n.green] hf (by rw [← hr']; rfl)
    (List.cons_ne_nil _ _)
  have hopened : (r'.poll probes).opened = (r'.poll probes).blocks.flatMap BlockMark.starts ++ [root] := by
    rw [← hr']
    exact hf.mirrors.opened
  have hdraws : Draws (r'.poll probes).events (s.here.add [.reused n.green]) (r'.poll probes).blocks := by
    rw [← hr']
    exact hf.mirrors.draws.add (.single .reused)
  constructor
  case opened => exact hopened
  case bookmark => rw [hpasses.bookmark, happends.bookmark]
  case resumedAt => rw [hpasses.resumedAt, hf.resumedAt]
  case interrupt =>
    rw [← hf.interrupt, ← hr']
    rfl
  case isHalted => rw [hpasses.isHalted_eq hf.isHalted hf.alert, hf.mayHalt]
  case kept => exact hkept.1
  case longer => exact hkept.2
  case bounded => exact Nat.le_trans hdraws.length_le (State.volume_reused_lt _ ht)
  case mirrors =>
    intro _
    refine ⟨hdraws, ?_, ?_, hopened⟩
    · rw [← hr']
      rfl
    · rw [← hr']
      rfl

/-- A piece is read. -/
lemma piece_leaves {room : Nat} (hf : Faces s r r₁) (ht : s.pending = t :: rest)
    (hr : s.tokens.length < room) : ∃ a r',
    Yields probes (if r.blocks.isEmpty then Script.topLevel room else Script.statement room) r₁ a r' ∧
    r'.blocks = r.blocks ∧
    Leaves probes s r
      (checksFor (taken s.pending (if r.blocks.isEmpty then C.topLevel t rest else C.statement t rest).2))
      ⟨(s.here.place (if r.blocks.isEmpty then C.topLevel t rest else C.statement t rest).1).after
          (taken s.pending (if r.blocks.isEmpty then C.topLevel t rest else C.statement t rest).2),
        (if r.blocks.isEmpty then C.topLevel t rest else C.statement t rest).2⟩ (r'.entered a) := by
  obtain ⟨more, happends, -⟩ := hf.appends
  have htokens : r₁.tokens = t :: rest := hf.mirrors.tokens.trans ht
  have hc : ∀ ts, comments (t :: ts) = ([], t :: ts) := fun ts =>
    comments_of_commentAhead (by simpa [commentAhead] using State.isComment_of_pending ht)
  have hlength : (t :: rest).length ≤ s.tokens.length := ht ▸ length_comments_le s.tokens
  obtain ⟨ts, hview⟩ := @exists_view_cons probes _ _ _ hf.isHalted htokens
  have hle := @length_view_le probes r₁
  rw [hview, htokens] at hle
  obtain ⟨a, r', hexec, -, hpiece⟩ :=
    runs_piece r.blocks.isEmpty (Nat.lt_of_le_of_lt (Nat.le_trans hle hlength) hr) (hc ts) r₁ hf.tame hview
  obtain ⟨b, rc, hexecc, -, hpiecec⟩ :=
    runs_piece r.blocks.isEmpty (Nat.lt_of_le_of_lt hlength hr) (hc rest) r₁.calm hf.tame
      ((view_calm r₁).trans htokens)
  obtain ⟨hreach, hend⟩ := Script.reaches hf.isHalted hf.alert hexec.exec_id hexecc.exec_id
  rw [hpiecec.1] at hreach
  obtain ⟨⟨events, hne, hevents⟩, hopened, hbookmark, hblocks⟩ := hpiece.appends hf.mirrors.opened
  have hkept := hf.kept hevents hne
  have hpending : r₁.tokens = s.pending := hf.mirrors.tokens
  have hbounded := (hpiece.draws hf.mirrors.draws).length_le
  refine ⟨a, r', hexec, hblocks.trans happends.blocks, ?_⟩
  constructor
  case opened => exact hopened
  case bookmark => exact hbookmark.trans happends.bookmark
  case resumedAt => cases a <;> exact hreach.resumedAt.trans hf.resumedAt
  case interrupt =>
    rw [← hf.interrupt, ← hpending]
    cases a <;> exact hreach.interrupt
  case isHalted =>
    rw [← hf.mayHalt]
    cases a <;> exact hreach.isHalted
  case kept => exact hkept.1
  case longer => exact hkept.2
  case bounded => exact Nat.le_trans hbounded (State.volume_place_lt ht _ (Nat.le_of_succ_le_succ hle))
  case mirrors =>
    intro hh
    have hh' : r'.isHalted = false := by cases a <;> exact hh
    obtain ⟨rfl, rfl⟩ := hend hh'
    refine ⟨?_, ?_, ?_, hopened⟩
    · have hdraws := hpiecec.draws hf.mirrors.draws
      cases b <;> exact hdraws
    · rw [tokens_entered]
      exact hreach.tokens hh'
    · have hlast := hreach.lastStop hh'
      rw [hpending, hf.mirrors.lastStop, ← lastStop_place s.here] at hlast
      cases b <;> exact hlast

/-- What comes next is taken over or read. -/
lemma advance_leaves {room : Nat} (hf : Faces s r r₁) (ht : s.pending = t :: rest)
    (hr : s.tokens.length < room) : ∃ checks s' r', C.advance source oldTree s.here t rest = .next checks s' ∧
      (∀ number, r'.Numbered number →
        r₁.advance number probes source oldTree room r.blocks = .ok (r'.blocks, r')) ∧
      Leaves probes s r checks s' r' := by
  obtain ⟨more, happends, -⟩ := hf.appends
  simp only [C.advance, Recorder.advance, reuse?_eq hf ht]
  cases State.reusable? source oldTree s.here t with
  | some n =>
    refine ⟨_, _, _, rfl, fun number _ => ?_, reuse_leaves hf ht n⟩
    exact congrArg (fun blocks => Except.ok (blocks, _)) happends.blocks.symm
  | none =>
    obtain ⟨a, r', hexec, hblocks, hleaves⟩ := @piece_leaves probes _ _ _ _ _ _ hf ht hr
    rw [ht, isEmpty_blocks hf.before] at hleaves
    refine ⟨_, _, r'.entered a, rfl, fun number hnumber => ?_, hleaves⟩
    have hsame : (r'.entered a).events = r'.events := by cases a <;> rfl
    show (Script.exec number probes _ r₁).bind _ = _
    rw [hexec number (hnumber.of_length_le (by rw [hsame]))]
    cases a with
    | none => exact congrArg (fun blocks => Except.ok (blocks, r')) hblocks.symm
    | some b => exact congrArg (fun blocks => Except.ok (b :: blocks, r'.enterBlock b)) hblocks.symm

/-- At the end of the input, outside of all blocks, the document is completed. -/
lemma complete_root (hf : Faces s r r₁) (hb : s.draft.blocks = []) : ∃ r' inner,
    r₁.complete root .document none = .ok r' ∧ r'.opened = [] ∧
    r'.events = .start (some .document) none none :: (inner ++ [Event.finish]) ∧
    NotesAll inner s.here.parts.reverse ∧ r'.interrupt = r.interrupt ∧
    r.events.length ≤ r'.events.length ∧ r'.events.length ≤ s.volume := by
  obtain ⟨front, inner, hevents, hout, hinner⟩ := hf.mirrors.draws
  obtain ⟨more, happends, -⟩ := hf.appends
  have hopened := hf.mirrors.opened
  rw [show s.here.blocks = [] from hb] at hout
  generalize r₁.blocks = blocks at hout hopened
  cases hout with
  | root =>
    have hcomplete := @complete_spec _ [] _ [] _ _ _ (hevents.trans rfl) hopened .document none
    refine ⟨_, inner, hcomplete, rfl, rfl, hinner, hf.interrupt, Nat.le_trans happends.length_le ?_, ?_⟩
    · simp [hevents]
    · have hparts := s.volume_parts_add_le
      have hlength : inner.length ≤ volumeOf s.here.parts := by
        rw [← volumeOf_reverse]
        exact hinner.length_le
      show (Event.start (some .document) none none :: (inner ++ [Event.finish])).length ≤ _
      rw [List.length_cons, List.length_append, List.length_singleton]
      omega

/-- A round does what a step does. -/
theorem round_spec {room : Nat} (hm : Mirrors s r) (hs : Saved r) (hr : s.tokens.length < room) :
    (∃ parts r' inner, step source oldTree s = .finished parts ∧
      (∀ number, r.round number probes source oldTree room r.blocks = .ok (none, r')) ∧ r'.opened = [] ∧
      r'.events = .start (some .document) none none :: (inner ++ [Event.finish]) ∧ NotesAll inner parts ∧
      r'.interrupt = r.interrupt ∧ r.events.length ≤ r'.events.length ∧ r'.events.length ≤ s.volume) ∨
    ∃ checks s' r', step source oldTree s = .next checks s' ∧
      (∀ number, r'.Numbered number →
        r.round number probes source oldTree room r.blocks = .ok (some r'.blocks, r')) ∧
      Leaves probes s r checks s' r' := by
  have hf := Faces.of_mirrors hm hs
  generalize r.current.2 = r₁ at hf
  have hisEmpty := isEmpty_blocks hm
  simp only [step_eq, Recorder.round.eq_def, hf.current]
  cases hp : s.pending with
  | nil =>
    cases hb : s.draft.blocks with
    | nil =>
      obtain ⟨r', inner, hcomplete, ho, he, hn, hi, hle, hbounded⟩ := complete_root hf hb
      rw [hb, List.isEmpty_nil, List.isEmpty_iff] at hisEmpty
      rw [hisEmpty]
      refine .inl ⟨_, r', inner, rfl, fun number => ?_, ho, he, hn, hi, hle, hbounded⟩
      show (r₁.complete root .document none).bind _ = _
      rw [hcomplete]
      rfl
    | cons b outer =>
      obtain ⟨mark, marks, r', hblocks, hend, hleaves⟩ := @endBlock_leaves probes _ _ _ _ _ hf hb
      rw [hp] at hleaves
      refine .inr ⟨_, _, r', rfl, fun number hnumber => ?_, hleaves⟩
      rw [hblocks]
      show (r₁.endBlock number probes mark marks).bind _ = _
      rw [hend number hnumber]
      rfl
  | cons t rest =>
    obtain ⟨checks, s', r', hnext, hadvance, hleaves⟩ :=
      @advance_leaves probes source oldTree _ _ _ _ _ _ hf hp hr
    cases hb : s.draft.blocks with
    | nil =>
      rw [hb, List.isEmpty_nil, List.isEmpty_iff] at hisEmpty
      rw [hisEmpty] at hadvance ⊢
      refine .inr ⟨checks, s', r', hnext, fun number hnumber => ?_, hleaves⟩
      show (r₁.advance number probes source oldTree room []).bind _ = _
      rw [hadvance number hnumber]
      rfl
    | cons b outer =>
      obtain ⟨mark, marks, r'', hblocks, hend, hleaves'⟩ := @endBlock_leaves probes _ _ _ _ _ hf hb
      rw [hblocks] at hadvance ⊢
      dsimp only [List.head?_cons, Option.map_some]
      by_cases hk : t.kind = .rightBrace
      · rw [if_pos hk]
        rw [hp] at hleaves'
        refine .inr ⟨_, _, r'', rfl, fun number hnumber => ?_, hleaves'⟩
        rw [if_pos hk]
        show (r₁.endBlock number probes mark marks).bind _ = _
        rw [hend number hnumber]
        rfl
      · rw [if_neg hk]
        refine .inr ⟨checks, s', r', hnext, fun number hnumber => ?_, hleaves⟩
        rw [if_neg hk]
        show (r₁.advance number probes source oldTree room (mark :: marks)).bind _ = _
        rw [hadvance number hnumber]
        rfl

end

end Reparse.C
