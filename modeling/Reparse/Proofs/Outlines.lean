import Reparse.C.Stream
import Reparse.Proofs.Lockstep
import Reparse.Proofs.Pieces
import Reparse.Proofs.Volumes

/-!
# Open blocks

Where a parse can be resumed, its events note where the open blocks begin and what stands before each
of them (`Outline`), and then the parts of the innermost one (`Draws`). So there are no more of them than
the volume of what was read, and one for the root (`Draws.length_le`). The start of a block may have
its rule already, from a call that was halted while it ended the block; completing it then changes
nothing (`exec_endOfBlock`).
-/

namespace Reparse.C

open Event Item Recorder Script

variable {probes : Nat → Probe}

/-! ## Numbers of events -/

mutual

/-- An item is noted by no more events than its volume. -/
lemma Notes.length_le : ∀ {events i anchor}, Notes events i anchor → events.length ≤ i.volume
  | _, _, _, .token => Nat.le_succ 1
  | _, _, _, .missing | _, _, _, .reused => Nat.le_refl 1
  | _, _, _, .node hs => by
    have h := hs.length_le
    simp only [List.length_cons, List.length_append, List.length_nil, volume]
    omega
  | _, _, _, .chain hl _ hs => by
    have h := hl.length_le
    have h' := hs.length_le
    simp only [List.length_cons, List.length_append, List.length_modify, List.length_nil, volume, volumeOf]
    omega

/-- Items are noted by no more events than their volume. -/
lemma NotesAll.length_le : ∀ {events is}, NotesAll events is → events.length ≤ volumeOf is
  | _, _, .nil => Nat.le_refl 0
  | _, _, .cons h hs => by
    rw [List.length_append, volumeOf]
    exact Nat.add_le_add h.length_le hs.length_le
  | _, _, .loose hs => by
    have h := hs.length_le
    simp only [List.length_cons, volumeOf, volume]
    omega

end

/-! ## Outlines -/

namespace Script.Opens

variable {n : Nat} {definition : Option (List Item)} {starts : List Event} {mark : BlockMark}

/-- The events that open a block refer to none but themselves. -/
lemma inside (h : Opens n definition starts mark) : Inside starts := by
  cases h with
  | compound => exact .start _ none
  | body hn => exact (Inside.start _ none).append (hn.inside.append (.start _ _))

/-- The starts of a block are among its events. -/
lemma lt (h : Opens n definition starts mark) : ∀ x ∈ mark.starts, x < n + starts.length := by
  intro x hx
  cases h with
  | compound =>
    simp only [BlockMark.starts, Option.toList_none, List.mem_singleton] at hx
    subst hx
    exact Nat.lt_succ_self _
  | body hn =>
    simp only [BlockMark.starts, Option.toList_some, List.mem_cons, List.not_mem_nil, or_false] at hx
    simp only [List.length_cons, List.length_append, List.length_nil]
    omega

/-- A block is opened by fewer events than its volume, which counts its ends and its brace too. -/
lemma length_le (h : Opens n definition starts mark) (outer : List Item) :
    volumeOf outer + starts.length + 2 ≤ (Block.mk definition outer).volume := by
  cases h with
  | compound => exact Nat.le_refl _
  | body hn =>
    have hhead := hn.length_le
    simp only [Block.volume, Option.elim_some, List.length_cons, List.length_append, List.length_nil]
    omega

end Script.Opens

/-- Events that note where some open blocks begin, given innermost first, and what stands before each
of them. -/
inductive Outline : List Event → List Block → List BlockMark → Prop where
  | root : Outline [.tombstone] [] []
  | block {front outer starts b blocks mark marks} :
    Outline front blocks marks → NotesAll outer b.outer.reverse →
    Opens (front ++ outer).length b.definition starts mark →
    Outline (front ++ outer ++ starts) (b :: blocks) (mark :: marks)

namespace Outline

variable {front : List Event} {blocks : List Block} {marks : List BlockMark}

/-- The events of an outline refer to none but themselves. -/
lemma inside (h : Outline front blocks marks) : Inside front := by
  induction h with
  | root => exact .start none none
  | block _ hn ho ih => exact (ih.append hn.inside).append ho.inside

/-- An outline has an event, that of the root. -/
lemma length_pos (h : Outline front blocks marks) : 0 < front.length := by
  induction h with
  | root => exact Nat.one_pos
  | block _ _ _ ih =>
    rw [List.length_append, List.length_append]
    omega

/-- The markers of open blocks are among the events of the outline. -/
lemma lt (h : Outline front blocks marks) : ∀ x ∈ marks.flatMap BlockMark.starts, x < front.length := by
  induction h with
  | root => exact fun x hx => by cases hx
  | block _ _ ho ih =>
    intro x hx
    rw [List.flatMap_cons, List.mem_append] at hx
    rw [List.length_append]
    rcases hx with hx | hx
    · exact ho.lt x hx
    · have := ih x hx
      rw [List.length_append]
      omega

/-- There are no markers exactly if no block is open. -/
lemma isEmpty_eq (h : Outline front blocks marks) : marks.isEmpty = blocks.isEmpty := by
  cases h <;> rfl

/-- An outline has no more events than its blocks may have, and that of the root. -/
lemma length_le (h : Outline front blocks marks) : front.length ≤ (blocks.map Block.volume).sum + 1 := by
  induction h with
  | root => exact Nat.le_refl 1
  | @block front outer starts b blocks mark marks _ hn ho ih =>
    have houter := hn.length_le
    have hopens : _ ≤ b.volume := ho.length_le b.outer
    rw [volumeOf_reverse] at houter
    simp only [List.length_append, List.map_cons, List.sum_cons]
    omega

/-- There are as many markers as open blocks. -/
lemma length_eq (h : Outline front blocks marks) : marks.length = blocks.length := by
  induction h with
  | root => rfl
  | block _ _ _ ih => rw [List.length_cons, List.length_cons, ih]

end Outline

/-- Whether events note what was read for a draft. -/
def Draws (events : List Event) (d : Draft) (marks : List BlockMark) : Prop :=
  ∃ front inner, events = front ++ inner ∧ Outline front d.blocks marks ∧ NotesAll inner d.parts.reverse

namespace Draws

variable {events : List Event} {d : Draft} {marks : List BlockMark}

/-- At first the root alone is noted. -/
lemma empty : Draws [.tombstone] .empty [] := ⟨_, [], rfl, .root, .nil⟩

/-- Further parts of the innermost block are noted after the others. -/
lemma add (h : Draws events d marks) {more : List Event} {is : List Item} (hn : NotesAll more is) :
    Draws (events ++ more) (d.add is) marks := by
  obtain ⟨front, inner, rfl, ho, hinner⟩ := h
  refine ⟨front, inner ++ more, List.append_assoc .., ho, ?_⟩
  show NotesAll _ (is.reverse ++ d.parts).reverse
  rw [List.reverse_append, List.reverse_reverse]
  exact hn.append hinner

/-- What is still to come is no part of what is noted. -/
lemma after (h : Draws events d marks) (ts : List Token) : Draws events (d.after ts) marks := h

/-- A piece is noted after the other parts; of a block that it opens the start is remembered. -/
lemma opened (h : Draws events d marks) {definition : Option (List Item)} {brace : Token}
    {starts more : List Event} {mark : BlockMark} (ho : Opens events.length definition starts mark)
    (hn : NotesAll more [.token none brace]) :
    Draws (events ++ (starts ++ more)) (d.place (.opened definition brace)) (mark :: marks) := by
  obtain ⟨front, inner, rfl, hfront, hinner⟩ := h
  exact ⟨front ++ inner ++ starts, more, (List.append_assoc ..).symm,
    .block (b := ⟨definition, d.parts⟩) hfront hinner ho, hn⟩

/-- A block that is closed is noted with all its parts after what stands before it. -/
lemma closed {front outside node : List Event} {b : Block} {outer : List Block} {parts : List Item}
    (hfront : Outline front outer marks) (houtside : NotesAll outside b.outer.reverse)
    (hn : NotesAll node [Draft.closedBlock b parts]) (lastStop : Nat) :
    Draws (front ++ outside ++ node) ⟨Draft.closedBlock b parts :: b.outer, outer, lastStop⟩ marks := by
  refine ⟨front, outside ++ node, List.append_assoc .., hfront, ?_⟩
  rw [List.reverse_cons]
  exact hn.append houtside

/-- Where the starts of the innermost block have got their rules and more is noted after its parts, what
stands where the draft was noted still notes it. -/
lemma take_reopened {front outside starts starts' inner : List Event} {b : Block} {outer : List Block}
    {mark : BlockMark} (hb : d.blocks = b :: outer) (hfront : Outline front outer marks)
    (houtside : NotesAll outside b.outer.reverse)
    (hopens : Opens (front ++ outside).length b.definition starts' mark)
    (hinner : NotesAll inner d.parts.reverse) (hlength : starts'.length = starts.length)
    (more : List Event) :
    Draws ((front ++ outside ++ starts' ++ inner ++ more).take (front ++ outside ++ starts ++ inner).length)
      d (mark :: marks) := by
  have hsame : (front ++ outside ++ starts ++ inner).length =
      (front ++ outside ++ starts' ++ inner).length := by
    simp only [List.length_append, hlength]
  rw [hsame, List.take_left]
  refine ⟨front ++ outside ++ starts', inner, rfl, ?_, hinner⟩
  rw [hb]
  exact .block hfront houtside hopens

/-- The events of a draft refer to none but themselves. -/
lemma inside (h : Draws events d marks) : Inside events := by
  obtain ⟨front, inner, rfl, ho, hinner⟩ := h
  exact ho.inside.append hinner.inside

/-- A draft is noted by no more events than its volume, and that of the root. -/
lemma length_le (h : Draws events d marks) : events.length ≤ d.volume + 1 := by
  obtain ⟨front, inner, rfl, hfront, hn⟩ := h
  have hlength := hfront.length_le
  have hinner := hn.length_le
  rw [volumeOf_reverse] at hinner
  rw [List.length_append, Draft.volume]
  omega

/-- The open markers are among the events of a draft. -/
lemma lt (h : Draws events d marks) :
    ∀ x ∈ marks.flatMap BlockMark.starts ++ [root], x < events.length := by
  obtain ⟨front, inner, rfl, ho, -⟩ := h
  intro x hx
  rw [List.length_append]
  have hpos := ho.length_pos
  rcases List.mem_append.1 hx with hx | hx
  · have := ho.lt x hx
    omega
  · rw [List.mem_singleton.1 hx, root]
    omega

/-- A recorder that is at a bookmark is tame. -/
lemma tame {r : Recorder} (h : Draws r.events d r.blocks)
    (ho : r.opened = r.blocks.flatMap BlockMark.starts ++ [root]) (hb : r.bookmark.blocks = r.blocks)
    (he : r.bookmark.events = r.events.length) : r.Tame := by
  refine isFree_iff.2 ⟨Nat.le_of_eq he, fun x hx => ?_⟩
  simp only [references, ho, hb, List.flatMap_append, List.mem_append] at hx
  rcases hx with (hx | hx | hx) | hx
  · exact h.lt x (List.mem_append.2 hx)
  · exact h.lt x (List.mem_append_left _ hx)
  · exact h.lt x (List.mem_append_left _ hx)
  · have := h.inside 0 x hx
    omega

end Draws

/-! ## Ends of blocks -/

/-- Ending a block: its starts get their rules, and its ends come last. -/
lemma exec_endOfBlock {r : Recorder} {front starts inner : List Event} {b : Block} {mark : BlockMark}
    {parts : List Item} {opened : List Nat} (ht : r.Tame) (he : r.events = front ++ starts ++ inner)
    (hs : Opens front.length b.definition starts mark) (hn : NotesAll inner parts)
    (ho : r.opened = mark.starts ++ opened) : ∃ r' starts' after,
    Yields probes (endOfBlock mark) r () r' ∧ r'.events = front ++ starts' ++ inner ++ after ∧
    after ≠ [] ∧ starts'.length = starts.length ∧ Opens front.length b.definition starts' mark ∧
    NotesAll (starts' ++ inner ++ after)
      [Draft.closedBlock b (parts ++ (C.expect .rightBrace none (r.view probes)).1)] ∧
    r'.opened = opened ∧ r'.blocks = r.blocks ∧ r'.bookmark = r.bookmark ∧
    r'.view probes = (C.expect .rightBrace none (r.view probes)).2 := by
  obtain ⟨r₁, brace, hexpect, hadds, hview, hbrace⟩ :=
    reads_expect .rightBrace none (r.view probes) r ht rfl
  have hparts := hbrace.append hn
  rw [Draft.closedBlock]
  generalize b.definition = definition at hs ⊢
  cases hs with
  | @compound rule =>
    have he₁ : r₁.events = front ++ .start rule none none :: (inner ++ brace) := by
      rw [hadds.events, he, List.append_assoc, List.append_assoc]
      rfl
    have ho₁ : r₁.opened = front.length :: opened := hadds.opened.trans ho
    have hcomplete := complete_spec he₁ ho₁ .compoundStatement none
    rw [Option.none_or] at hcomplete
    refine ⟨{ r₁ with
      events := front ++ .start (some .compoundStatement) none none :: (inner ++ brace ++ [Event.finish])
      opened := opened }, [.start (some .compoundStatement) none none], brace ++ [Event.finish], ?_, ?_,
      by simp, rfl, .compound, ?_, rfl, hadds.blocks, hadds.bookmark, hview⟩
    · exact hexpect.bind ((yields_complete hcomplete).bind (.pure () _) (Nat.le_refl _)) (by simp [he₁])
    · simp
    · have hnode := NotesAll.single (@Notes.node none .compoundStatement _ _ hparts)
      simpa using hnode
  | @body rule rule' field head parts' hhead =>
    have he₁ : r₁.events = (front ++ .start rule none none :: head) ++
        .start rule' field none :: (inner ++ brace) := by
      rw [hadds.events, he]
      simp
    have ho₁ : r₁.opened = (front ++ Event.start rule none none :: head).length ::
        (front.length :: opened) := by
      rw [hadds.opened, ho, List.length_append, List.length_cons, ← Nat.add_assoc, Nat.add_right_comm]
      rfl
    -- the block first, and then the definition around it
    have hblock := complete_spec he₁ ho₁ .compoundStatement (some .body)
    rw [List.length_append, List.length_cons, ← Nat.add_assoc, Nat.add_right_comm] at hblock
    have hdefinition := complete_spec (r := { r₁ with
        events := (front ++ .start rule none none :: head) ++
          .start (some .compoundStatement) (some .body) none :: (inner ++ brace ++ [Event.finish])
        opened := front.length :: opened }) (List.append_assoc ..) rfl .functionDefinition none
    refine ⟨{ r₁ with
      events := front ++ .start (some .functionDefinition) none none :: (head ++
        .start (some .compoundStatement) (some .body) none :: (inner ++ brace ++ [Event.finish]) ++
          [Event.finish])
      opened := opened }, .start (some .functionDefinition) none none ::
        (head ++ [Event.start (some .compoundStatement) (some .body) none]),
      brace ++ [Event.finish, .finish], ?_, ?_, by simp, ?_, .body hhead, ?_, rfl, hadds.blocks,
      hadds.bookmark, hview⟩
    · have hfirst : Yields probes _ _ _ _ := yields_complete hblock
      have hsecond : Yields probes _ _ _ _ := yields_complete hdefinition
      exact hexpect.bind (hfirst.bind hsecond (by simp)) (by simp [he₁])
    · simp
    · simp
    · have hnode := NotesAll.single (@Notes.node (some .body) .compoundStatement _ _ hparts)
      have hall := NotesAll.single (@Notes.node none .functionDefinition _ _ (hnode.append hhead))
      simpa using hall

end Reparse.C
