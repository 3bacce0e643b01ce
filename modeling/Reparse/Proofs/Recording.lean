import Reparse.C.Script
import Reparse.Proofs.Noting
import Reparse.Proofs.Reading

/-!
# What recorders note

A recorder sees the tokens up to the one at which its interrupt fires (`Recorder.view`), and goes by
nothing else. A script reads what it sees as the readers do, `Script.Reads`: the events that it adds
note the items of the reading, and it sees what the reading leaves. Nothing that a script adds is
referred to from before it (`Appends.tame`), which is what lets the next marker open where the last
token stands. All this is so under every numbering that tells the events apart (`Numbered`).
-/

namespace Reparse.C

open Event Item

variable {probes : Nat → Probe}

/-! ## References -/

namespace Event

/-- The events that starts refer to are those of both parts. -/
lemma targets_append (n : Nat) (a b : List Event) :
    targets n (a ++ b) = targets n a ++ targets (n + a.length) b := by
  induction a generalizing n with
  | nil => rfl
  | cons e a ih =>
    rw [List.cons_append, targets, ih, targets, List.append_assoc, List.length_cons, Nat.add_right_comm,
      Nat.add_assoc]

/-- Whether starts among some events refer to none but these. -/
def Inside (events : List Event) : Prop := ∀ n, ∀ x ∈ targets n events, x < n + events.length

namespace Inside

/-- No events refer to none but themselves. -/
lemma nil : Inside [] := fun _ x hx => by cases hx

/-- Two parts that refer to none but themselves do so together. -/
lemma append {a b : List Event} (ha : Inside a) (hb : Inside b) : Inside (a ++ b) := by
  intro n x hx
  rw [targets_append] at hx
  rw [List.length_append]
  rcases List.mem_append.1 hx with hx | hx
  · have := ha n x hx
    omega
  · have := hb _ x hx
    omega

/-- An event that refers to none. -/
lemma single {e : Event} (h : ∀ n, targets n [e] = []) : Inside [e] := by
  intro n x hx
  rw [h] at hx
  cases hx

/-- A start without a reference refers to nothing. -/
lemma start (rule : Option Rule) (field : Option Field) : Inside [.start rule field none] :=
  .single fun _ => rfl

end Inside

/-- The references of events of which one has become the start of an inner node. -/
lemma mem_targets_modify {events : List Event} {n i distance x : Nat}
    (h : x ∈ targets n (events.modify i (.within distance))) :
    x ∈ targets n events ∨ x = n + i + distance := by
  induction events generalizing n i with
  | nil => exact .inl (by rwa [List.modify_nil] at h)
  | cons e events ih =>
    cases i with
    | zero =>
      rw [List.modify_zero_cons, targets] at h
      rcases List.mem_append.1 h with h | h
      · cases e with
        | start rule field outer => exact .inr (List.mem_singleton.1 h)
        | token | missing | reused | finish => cases h
      · exact .inl (List.mem_append_right _ h)
    | succ i =>
      rw [List.modify_succ_cons, targets] at h
      rcases List.mem_append.1 h with h | h
      · exact .inl (List.mem_append_left _ h)
      · rcases ih h with h | h
        · exact .inl (List.mem_append_right _ h)
        · exact .inr (by omega)

end Event

mutual

/-- What notes an item refers to nothing else. -/
lemma Notes.inside : ∀ {events i anchor}, Notes events i anchor → Inside events
  | _, _, _, .token | _, _, _, .missing | _, _, _, .reused => .single fun _ => rfl
  | _, _, _, .node hs => (Inside.start _ _).append (hs.inside.append (.single fun _ => rfl))
  | _, _, _, @Notes.chain field rule left parts inner anchor events h _ hs => by
    have htail : Inside (Event.start (some rule) field none :: (events ++ [Event.finish])) :=
      (Inside.start _ _).append (hs.inside.append (.single fun _ => rfl))
    intro n x hx
    rw [targets_append] at hx
    rw [List.length_append, List.length_modify, List.length_cons]
    rcases List.mem_append.1 hx with hx | hx
    · have hlt := h.anchor_lt
      rcases mem_targets_modify hx with hx | hx
      · have := h.inside n x hx
        omega
      · omega
    · have := htail _ x hx
      rw [List.length_modify, List.length_cons] at this
      omega

/-- The events of items refer to none but themselves. -/
lemma NotesAll.inside : ∀ {events is}, NotesAll events is → Inside events
  | _, _, .nil => .nil
  | _, _, .cons h hs => h.inside.append hs.inside
  | _, _, .loose hs =>
    (Inside.start none none).append ((Inside.single fun _ => rfl).append hs.inside)

end

/-- Items are noted by some events. -/
lemma NotesAll.ne_nil : ∀ {events i is}, NotesAll events (i :: is) → events ≠ []
  | _, _, _, .cons h _ => by
    have hlt := h.anchor_lt
    intro hnil
    rw [List.append_eq_nil_iff] at hnil
    rw [hnil.1] at hlt
    cases hlt
  | _, _, _, .loose _ => List.cons_ne_nil _ _

/-! ## What a recorder sees -/

/-- The tokens up to the one at which the interrupt fires. -/
def untilHalt (probes : Nat → Probe) : Interrupt → List Token → List Token
  | _, [] => []
  | i, t :: ts =>
    if t.isComment then t :: untilHalt probes i ts
    else t :: if (i.poll probes).isHalted then [] else untilHalt probes (i.poll probes) ts

/-- The comments ahead are seen also where the interrupt fires. -/
lemma takeWhile_untilHalt (i : Interrupt) (ts : List Token) :
    (untilHalt probes i ts).takeWhile (·.isComment) = ts.takeWhile (·.isComment) := by
  induction ts with
  | nil => rfl
  | cons t ts ih =>
    rw [untilHalt]
    cases ht : t.isComment with
    | true => rw [if_pos rfl, List.takeWhile_cons_of_pos ht, List.takeWhile_cons_of_pos ht, ih]
    | false =>
      rw [if_neg Bool.false_ne_true, List.takeWhile_cons_of_neg (by simp [ht]),
        List.takeWhile_cons_of_neg (by simp [ht])]

/-- What is seen after the comments ahead is what is seen of the tokens after them. -/
lemma dropWhile_untilHalt (i : Interrupt) (ts : List Token) :
    (untilHalt probes i ts).dropWhile (·.isComment) =
      untilHalt probes i (ts.dropWhile (·.isComment)) := by
  induction ts with
  | nil => rfl
  | cons t ts ih =>
    cases ht : t.isComment with
    | true => rw [untilHalt, ht, if_pos rfl, List.dropWhile_cons_of_pos ht,
        List.dropWhile_cons_of_pos ht, ih]
    | false =>
      rw [List.dropWhile_cons_of_neg (by simp [ht]), untilHalt, ht, if_neg Bool.false_ne_true,
        List.dropWhile_cons_of_neg (by simp [ht])]

/-- The first token is seen also where the interrupt fires. -/
lemma head?_untilHalt (i : Interrupt) (ts : List Token) :
    (untilHalt probes i ts).head? = ts.head? := by
  cases ts with
  | nil => rfl
  | cons t ts =>
    rw [untilHalt]
    split <;> rfl

/-- No more tokens are seen than there are. -/
lemma length_untilHalt_le (i : Interrupt) (ts : List Token) :
    (untilHalt probes i ts).length ≤ ts.length := by
  induction ts generalizing i with
  | nil => exact Nat.le_refl _
  | cons t ts ih =>
    rw [untilHalt]
    split
    · exact Nat.succ_le_succ (ih i)
    · split
      · exact Nat.succ_le_succ (Nat.zero_le _)
      · exact Nat.succ_le_succ (ih _)

namespace Recorder

/-- The tokens that a recorder will still give out: none once it is halted, and none after the one at
which its interrupt fires. -/
def view (probes : Nat → Probe) (r : Recorder) : List Token :=
  if r.isHalted then []
  else if r.mayHalt then untilHalt probes r.interrupt r.tokens
  else r.tokens

/-- A halted recorder gives out no token. -/
lemma view_of_isHalted {r : Recorder} (h : r.isHalted = true) : r.view probes = [] := if_pos h

/-- A recorder that is not halted gives out tokens up to where its interrupt fires, if it may halt. -/
lemma view_of_not_isHalted {r : Recorder} (h : r.isHalted = false) :
    r.view probes = if r.mayHalt then untilHalt probes r.interrupt r.tokens else r.tokens :=
  if_neg (by simp [h])

/-- A recorder gives out no more tokens than it has. -/
lemma length_view_le (r : Recorder) : (r.view probes).length ≤ r.tokens.length := by
  rw [view]
  split
  · exact Nat.zero_le _
  · split
    · exact length_untilHalt_le _ _
    · exact Nat.le_refl _

/-- What comes next is seen. -/
lemma ahead?_view {r : Recorder} (h : r.isHalted = false) : ahead? (r.view probes) = ahead? r.tokens := by
  rw [view_of_not_isHalted h]
  split
  · rw [ahead?, dropWhile_untilHalt, head?_untilHalt, ahead?]
  · rfl

/-- The kind that a recorder peeks at is that of the first token it gives out, comments apart. -/
lemma peek_eq (r : Recorder) : r.peek = ahead? (r.view probes) := by
  rw [peek]
  cases h : r.isHalted with
  | true => rw [view_of_isHalted h]; rfl
  | false => rw [ahead?_view h, if_neg Bool.false_ne_true]

/-- Whether a numbering numbers the events, and the one that is noted next, by their places. -/
def Numbered (number : Nat → Nat) (r : Recorder) : Prop := ∀ k ≤ r.events.length, number k = k

/-- Without a bound all events are numbered by their places. -/
lemma numbered_id (r : Recorder) : r.Numbered id := fun _ _ => rfl

/-- What numbers some events by their places numbers fewer so. -/
lemma Numbered.of_length_le {number : Nat → Nat} {r r' : Recorder} (h : r'.Numbered number)
    (hle : r.events.length ≤ r'.events.length) : r.Numbered number :=
  fun k hk => h k (Nat.le_trans hk hle)

/-- Fewer events are numbered by their places if more are. -/
lemma Numbered.of_append {number : Nat → Nat} {r r' : Recorder} {events : List Event}
    (h : r'.Numbered number) (he : r'.events = r.events ++ events) : r.Numbered number :=
  h.of_length_le (by rw [he, List.length_append]; exact Nat.le_add_right _ _)

/-- The event that is noted next has the number of its place. -/
lemma Numbered.next {number : Nat → Nat} {r : Recorder} (h : r.Numbered number) :
    number r.events.length = r.events.length := h _ (Nat.le_refl _)

/-- Numbers of 32 bits are enough for fewer than `2 ^ 32` events. -/
lemma numbered_countOf {r : Recorder} (h : r.events.length ≤ limit) : r.Numbered Span.countOf :=
  fun _ hk => Nat.mod_eq_of_lt (Nat.lt_succ_of_le (Nat.le_trans hk h))

/-- Whether nothing refers to an event that is not yet noted. -/
def Tame (r : Recorder) : Prop := r.isFree r.events.length = true

/-- A number is free if it comes after the bookmark and after all that is referred to. -/
lemma isFree_iff {r : Recorder} {n : Nat} :
    r.isFree n = true ↔ r.bookmark.events ≤ n ∧ ∀ x ∈ r.references, x < n := by
  simp [isFree, List.all_eq_true]

end Recorder

open Recorder

/-- Whether a recorder has noted some more events and is else in the middle of the same things. -/
structure Appends (r r' : Recorder) (events : List Event) : Prop where
  events : r'.events = r.events ++ events
  opened : r'.opened = r.opened
  blocks : r'.blocks = r.blocks
  bookmark : r'.bookmark = r.bookmark

namespace Appends

/-- A recorder may append nothing. -/
lemma refl (r : Recorder) : Appends r r [] := ⟨(List.append_nil _).symm, rfl, rfl, rfl⟩

/-- A recorder may append events in two parts. -/
lemma trans {r r' r'' : Recorder} {a b : List Event} (h : Appends r r' a) (h' : Appends r' r'' b) :
    Appends r r'' (a ++ b) where
  events := by rw [h'.events, h.events, List.append_assoc]
  opened := h'.opened.trans h.opened
  blocks := h'.blocks.trans h.blocks
  bookmark := h'.bookmark.trans h.bookmark

/-- A recorder that appends events has no fewer. -/
lemma length_le {r r' : Recorder} {events : List Event} (h : Appends r r' events) :
    r.events.length ≤ r'.events.length := by
  rw [h.events, List.length_append]
  exact Nat.le_add_right _ _

/-- A numbering by places is one before the events were added. -/
lemma numbered {r r' : Recorder} {events : List Event} {number : Nat → Nat} (h : Appends r r' events)
    (hn : r'.Numbered number) : r.Numbered number := hn.of_length_le h.length_le

/-- What refers to none but itself leaves a recorder tame. -/
lemma tame {r r' : Recorder} {events : List Event} (h : Appends r r' events) (ht : r.Tame)
    (hi : Inside events) : r'.Tame := by
  obtain ⟨hb, hr⟩ := isFree_iff.1 ht
  have hlength : r'.events.length = r.events.length + events.length := by
    rw [h.events, List.length_append]
  refine isFree_iff.2 ⟨by rw [h.bookmark, hlength]; omega, fun x hx => ?_⟩
  rw [references, h.opened, h.blocks, h.bookmark, h.events, targets_append, ← List.append_assoc] at hx
  rcases List.mem_append.1 hx with hx | hx
  · have := hr x hx
    omega
  · have := hi _ x hx
    omega

end Appends

/-! ## Comments -/

/-- The events of the comments at the front. -/
def commentEvents (ts : List Token) : List Event :=
  (ts.takeWhile (·.isComment)).map fun t => .token none t t.isComment

/-- The events of comments note them. -/
lemma notesAll_comments (ts : List Token) : NotesAll (commentEvents ts) (comments ts).1 :=
  .tokens none _

/-- There is one event for each comment. -/
lemma length_commentEvents (ts : List Token) : (commentEvents ts).length = (comments ts).1.length := by
  rw [commentEvents, comments, List.length_map, List.length_map]

/-- Where no comment is at the front there is no event for one. -/
lemma commentEvents_eq_nil {ts us : List Token} (hc : comments ts = ([], us)) : commentEvents ts = [] := by
  rw [← List.length_eq_zero_iff, length_commentEvents, hc]
  rfl

namespace Recorder

/-- Comments that are pushed are appended one by one. -/
lemma foldl_pushToken (cs : List Token) (h : ∀ c ∈ cs, c.isComment = true) (r : Recorder) :
    cs.foldl (fun r t => r.pushToken none t true) r =
      { r with
        events := r.events ++ cs.map fun t => .token none t t.isComment
        lastStop := (cs.getLast?.map (·.stop)).getD r.lastStop } := by
  induction cs generalizing r with
  | nil => simp
  | cons c cs ih =>
    rw [List.foldl_cons, ih fun c' hc' => h c' (List.mem_cons_of_mem _ hc')]
    simp only [pushToken, push, List.map_cons, List.append_assoc, List.singleton_append,
      h c (List.mem_cons_self ..), List.getLast?_cons]
    cases cs.getLast? <;> rfl

/-- The comments are noted, and what comes after them is left. -/
lemma takeComments_eq (r : Recorder) : r.takeComments =
    { r with
      events := r.events ++ commentEvents r.tokens
      tokens := r.tokens.dropWhile (·.isComment)
      lastStop := ((r.tokens.takeWhile (·.isComment)).getLast?.map (·.stop)).getD r.lastStop } :=
  foldl_pushToken _ (fun _ hc => List.all_eq_true.1 List.all_takeWhile _ hc) _

/-- The comments ahead are given out by a recorder that is not halted. -/
lemma commentEvents_view {r : Recorder} (h : r.isHalted = false) :
    commentEvents (r.view probes) = commentEvents r.tokens := by
  rw [view_of_not_isHalted h]
  split
  · rw [commentEvents, takeWhile_untilHalt, commentEvents]
  · rfl

/-- After the comments a recorder gives out what comes after them. -/
lemma view_takeComments {r : Recorder} (h : r.isHalted = false) :
    r.takeComments.view probes = (comments (r.view probes)).2 := by
  have hview : r.takeComments.view probes = if r.mayHalt then
      untilHalt probes r.interrupt (r.tokens.dropWhile (·.isComment))
      else r.tokens.dropWhile (·.isComment) := by
    rw [takeComments_eq]
    exact view_of_not_isHalted h
  rw [hview, view_of_not_isHalted h]
  split
  · rw [comments, dropWhile_untilHalt]
  · rfl

/-- To take comments appends their events. -/
lemma appends_takeComments {r : Recorder} (h : r.isHalted = false) :
    Appends r r.takeComments (commentEvents (r.view probes)) := by
  rw [takeComments_eq, commentEvents_view h]
  exact ⟨rfl, rfl, rfl, rfl⟩

/-- Asking what comes next takes the comments before it. -/
lemma current_spec (r : Recorder) : ∃ r', r.current = (ahead? (r.view probes), r') ∧
    Appends r r' (commentEvents (r.view probes)) ∧ r'.view probes = (comments (r.view probes)).2 ∧
    r'.isHalted = r.isHalted ∧ r'.mayHalt = r.mayHalt ∧ r'.interrupt = r.interrupt := by
  rw [current]
  cases h : r.isHalted with
  | true => exact ⟨r, by rw [view_of_isHalted h]; rfl, by rw [view_of_isHalted h]; exact .refl r,
      by rw [view_of_isHalted h]; rfl, h, rfl, rfl⟩
  | false =>
    have heq := takeComments_eq r
    refine ⟨r.takeComments, ?_, appends_takeComments h, view_takeComments h, ?_, ?_, ?_⟩
    · rw [if_neg Bool.false_ne_true, ahead?_view h, ahead?, heq]
    all_goals rw [heq]
    · exact h
    · rfl

/-- Where no comment comes next, asking what does changes nothing. -/
lemma current_of_comments {r : Recorder} {ts : List Token} (hv : r.view probes = ts)
    (hc : comments ts = ([], ts)) : r.current = (ahead? ts, r) := by
  rw [current]
  cases h : r.isHalted with
  | true =>
    rw [view_of_isHalted h] at hv
    rw [← hv]
    rfl
  | false =>
    have hnil : r.tokens.takeWhile (·.isComment) = [] := by
      have hlength := length_commentEvents ts
      rwa [← hv, commentEvents_view h, hv, hc, commentEvents, List.length_map, List.length_nil,
        List.length_eq_zero_iff] at hlength
    have hsplit := List.takeWhile_append_dropWhile (p := fun t : Token => t.isComment) (l := r.tokens)
    rw [hnil, List.nil_append] at hsplit
    have hsame : r.takeComments = r := by
      rw [takeComments_eq, commentEvents, hnil, hsplit, List.map_nil, List.append_nil]
      rfl
    rw [if_neg Bool.false_ne_true, hsame, ← hv, ahead?_view h, ahead?, hsplit]

/-! ## Tokens and starts -/

/-- A token that is seen is there, and after it is seen what the interrupt lets through. -/
lemma exists_of_view {r : Recorder} {t : Token} {rest : List Token} (h : r.view probes = t :: rest)
    (ht : t.isComment = false) : ∃ more, r.tokens = t :: more ∧
      ({ r with tokens := more }.poll probes).view probes = rest := by
  have hh : r.isHalted = false := by
    cases hh : r.isHalted with
    | true => rw [view_of_isHalted hh] at h; cases h
    | false => rfl
  rw [view_of_not_isHalted hh] at h
  cases hm : r.mayHalt with
  | false =>
    rw [hm, if_neg Bool.false_ne_true] at h
    refine ⟨rest, h, ?_⟩
    have hmay : ({ r with tokens := rest }.poll probes).mayHalt = false := hm
    have hhalted : ({ r with tokens := rest }.poll probes).isHalted = false := by
      show (r.isHalted || ((r.interrupt.poll probes).isHalted && r.mayHalt)) = false
      rw [hh, hm, Bool.and_false]
      rfl
    rw [view_of_not_isHalted hhalted, hmay, if_neg Bool.false_ne_true]
    rfl
  | true =>
    rw [hm, if_pos rfl] at h
    cases hts : r.tokens with
    | nil => rw [hts] at h; cases h
    | cons u more =>
      have hhead := congrArg List.head? h
      rw [head?_untilHalt, hts] at hhead
      obtain rfl : u = t := Option.some.inj hhead
      rw [hts, untilHalt, ht, if_neg Bool.false_ne_true] at h
      refine ⟨more, rfl, ?_⟩
      have hhalted : ({ r with tokens := more }.poll probes).isHalted =
          (r.interrupt.poll probes).isHalted := by
        show (r.isHalted || ((r.interrupt.poll probes).isHalted && r.mayHalt)) = _
        rw [hh, hm, Bool.and_true]
        rfl
      have hrest := List.tail_eq_of_cons_eq h
      rw [← hrest, view, hhalted]
      split
      · rfl
      · have hmay : ({ r with tokens := more }.poll probes).mayHalt = true := hm
        rw [hmay, if_pos rfl]
        rfl

/-- Taking the next token: its event comes after those of the comments before it. -/
lemma bump_spec (r : Recorder) (field : Option Field) : ∃ r' events,
    (∀ number, r'.Numbered number →
      r.bump number probes field = (r.events.length + (commentEvents (r.view probes)).length, r')) ∧
    Appends r r' (commentEvents (r.view probes) ++ events) ∧
    (match (comments (r.view probes)).2 with
      | [] => events = [] ∧ r'.view probes = []
      | t :: rest => events = [.token field t t.isComment] ∧ r'.view probes = rest) := by
  obtain ⟨r', hcurrent, hadds, hview, -⟩ := @current_spec probes r
  have hlength : r'.events.length = r.events.length + (commentEvents (r.view probes)).length := by
    rw [hadds.events, List.length_append]
  have hahead : ahead? (r.view probes) = (comments (r.view probes)).2.head?.map (·.kind) := rfl
  cases hc : (comments (r.view probes)).2 with
  | nil =>
    rw [hc] at hahead hview
    refine ⟨r', [], fun number hnumber => ?_, ?_, rfl, hview⟩
    · rw [bump, hcurrent, hahead, ← hlength]
      exact congrArg (·, r') hnumber.next
    · rwa [List.append_nil]
  | cons t rest =>
    rw [hc] at hahead hview
    have ht : t.isComment = false := by
      have hno := commentAhead_comments (r.view probes)
      rw [hc] at hno
      simpa [commentAhead] using hno
    obtain ⟨more, htokens, hrest⟩ := exists_of_view hview ht
    refine ⟨({ r' with tokens := more }.poll probes).pushToken field t false, _, fun number hnumber => ?_,
      ?_, rfl, hrest⟩
    · have hplace : number r'.events.length = r'.events.length :=
        (@Numbered.of_append number r' _ [.token field t false] hnumber rfl).next
      rw [hlength] at hplace
      rw [bump, hcurrent, hahead]
      simp only [List.head?_cons, Option.map_some, htokens, hplace, hlength]
    · refine hadds.trans ⟨?_, rfl, rfl, rfl⟩
      rw [ht]
      rfl

/-- A marker is the place of its start, where the numbering gives that. -/
lemma pushStart_eq {number : Nat → Nat} {r : Recorder} (h : number r.events.length = r.events.length) :
    r.pushStart number = r.pushStart id := by
  rw [pushStart, pushStart, h]
  rfl

/-- Opening a marker: its start comes after the events of the comments before it. -/
lemma start_spec (r : Recorder) : ∃ r₁ r₂,
    (∀ number, r₂.Numbered number → r.start number = (r₁.events.length, r₂)) ∧
    Appends r r₁ (commentEvents (r.view probes)) ∧ r₂.events = r₁.events ++ [Event.tombstone] ∧
    r₂.opened = r₁.events.length :: r₁.opened ∧ r₂.blocks = r₁.blocks ∧
    r₂.bookmark = r₁.bookmark ∧ r₂.view probes = (comments (r.view probes)).2 := by
  have hstart : ∀ (r₁ : Recorder) (number : Nat → Nat), (r₁.pushStart id).2.Numbered number →
      r₁.pushStart number = (r₁.events.length, (r₁.pushStart id).2) :=
    fun r₁ number hnumber => pushStart_eq (hnumber.of_append (r := r₁) rfl).next
  simp only [start]
  cases h : r.isHalted with
  | true =>
    refine ⟨r, (r.pushStart id).2, hstart r, by rw [view_of_isHalted h]; exact .refl r, rfl, rfl, rfl, rfl,
      ?_⟩
    rw [view_of_isHalted (show (r.pushStart id).2.isHalted = true from h), view_of_isHalted h]
    rfl
  | false => exact ⟨r.takeComments, (r.takeComments.pushStart id).2, hstart _, appends_takeComments h, rfl,
      rfl, rfl, rfl, view_takeComments h⟩

/-- A marker that is open leaves a recorder tame. -/
lemma tame_of_start {r₁ r₂ : Recorder} (h : r₁.Tame) (he : r₂.events = r₁.events ++ [Event.tombstone])
    (ho : r₂.opened = r₁.events.length :: r₁.opened) (hb : r₂.blocks = r₁.blocks)
    (hm : r₂.bookmark = r₁.bookmark) : r₂.Tame := by
  obtain ⟨hle, hr⟩ := isFree_iff.1 h
  refine isFree_iff.2 ⟨by rw [hm, he, List.length_append]; omega, fun x hx => ?_⟩
  rw [references, ho, hb, hm, he, targets_append] at hx
  rw [he, List.length_append, List.length_singleton]
  simp only [List.cons_append, List.append_assoc, List.mem_cons] at hx
  rcases hx with rfl | hx
  · omega
  · have := hr x (by
      rw [references]
      simp only [List.mem_append] at hx ⊢
      rcases hx with hx | hx | hx | hx
      · exact .inl (.inl hx)
      · exact .inl (.inr hx)
      · exact .inr hx
      · cases hx)
    omega

/-- The marker that was opened last may be closed. -/
lemma close_head {r : Recorder} {marker : Nat} {opened : List Nat} (ho : r.opened = marker :: opened) :
    r.close marker = .ok { r with opened := opened } := by
  rw [close, if_pos (by rw [ho]; exact List.mem_cons_self ..), ho, List.erase_cons_head]

/-- Completing a marker: its start gets its rule, and an end comes last. -/
lemma complete_spec {r : Recorder} {before after : List Event} {opened : List Nat}
    {rule' : Option Rule} {field' : Option Field} {outer : Option Nat}
    (he : r.events = before ++ .start rule' field' outer :: after)
    (ho : r.opened = before.length :: opened) (rule : Rule) (field : Option Field) :
    r.complete before.length rule field = .ok { r with
      events := before ++ .start (some rule) (field.or field') outer :: (after ++ [Event.finish])
      opened := opened } := by
  rw [complete, close_head ho]
  show (if _ then _ else _) = _
  have hstart : r.events[before.length]? = some (.start rule' field' outer) := by
    rw [he, List.getElem?_append_right (Nat.le_refl _), Nat.sub_self]
    rfl
  have hmodify : r.events.modify before.length (.completed rule field) =
      before ++ .start (some rule) (field.or field') outer :: after := by
    rw [he, modify_append_cons rfl]
    rfl
  rw [if_pos (by rw [hstart]; rfl), hmodify, List.append_assoc, List.cons_append]
  rfl

/-- Giving up a marker after which something is noted: its start stays. -/
lemma abandon_spec {r : Recorder} {before after : List Event} {opened : List Nat}
    (he : r.events = before ++ .tombstone :: after) (hne : after ≠ [])
    (ho : r.opened = before.length :: opened) :
    r.abandon before.length = .ok { r with opened := opened } := by
  have hpos := List.length_pos_iff.2 hne
  rw [abandon, close_head ho]
  refine congrArg Except.ok (if_neg ?_)
  rw [he, List.length_append, List.length_cons]
  omega

end Recorder

end Reparse.C
