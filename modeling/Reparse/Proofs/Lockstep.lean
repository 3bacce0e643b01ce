import Reparse.Proofs.Layout
import Reparse.Proofs.Scripts

/-!
# Halted and calm recorders

A script asks the same of a recorder whose interrupt is of no effect (`Recorder.calm`). As long as the
recorder is not halted both answer alike (`exec_calm`); if it halts, the interrupt of the calm one has
fired in the end just so (`exec_calm_of_isHalted`). A calm recorder takes tokens from the front, and
checks its interrupt once for each that is no comment (`Recorder.Takes`).
-/

namespace Reparse.C

open Event Recorder

variable {number : Nat → Nat} {probes : Nat → Probe}

namespace Recorder

/-- The recorder with an interrupt that is of no effect before the next bookmark. -/
def calm (r : Recorder) : Recorder :=
  { r with resumedAt := some r.bookmark.events, isHalted := false }

/-- A calm recorder may not halt. -/
@[simp]
lemma mayHalt_calm (r : Recorder) : r.calm.mayHalt = false := by
  simp [mayHalt, calm]

/-- A calm recorder has all tokens before it. -/
lemma view_calm (r : Recorder) : r.calm.view probes = r.tokens := by
  rw [view_of_not_isHalted (show r.calm.isHalted = false from rfl), mayHalt_calm]
  rfl

/-- An interrupt that has fired does not change. -/
lemma poll_of_isHalted {i : Interrupt} (h : i.isHalted = true) : i.poll probes = i :=
  Interrupt.check_of_isHalted h _

/-- To take comments is the same for a calm recorder. -/
lemma takeComments_calm (r : Recorder) : r.calm.takeComments = r.takeComments.calm := by
  rw [takeComments_eq, takeComments_eq]
  rfl

/-- To check the interrupt leaves a calm recorder calm. -/
lemma poll_calm (r : Recorder) : r.calm.poll probes = (r.poll probes).calm := by
  have hmay := mayHalt_calm r
  simp only [poll, hmay, Bool.and_false]
  rfl

/-- As long as nothing halts, a calm recorder sees the same token. -/
lemma current_calm {r : Recorder} (hh : r.isHalted = false) :
    r.calm.current = (r.current.1, r.current.2.calm) := by
  rw [current, current, hh, if_neg Bool.false_ne_true, takeComments_calm]
  rfl

/-- As long as nothing halts, a calm recorder takes the same token. -/
lemma bump_calm {r : Recorder} (hh : r.isHalted = false) (field : Option Field) :
    r.calm.bump number probes field =
      ((r.bump number probes field).1, (r.bump number probes field).2.calm) := by
  rw [bump, bump, current_calm hh]
  obtain ⟨ahead, r₁⟩ := r.current
  cases ahead with
  | none => rfl
  | some kind =>
    dsimp only
    rw [show r₁.calm.tokens = r₁.tokens from rfl]
    cases r₁.tokens with
    | nil => rfl
    | cons t rest =>
      have hpoll := @poll_calm probes { r₁ with tokens := rest }
      exact Prod.ext rfl (congrArg (fun r => r.pushToken field t false) hpoll)

/-- As long as nothing halts, a calm recorder opens the same marker. -/
lemma start_calm {r : Recorder} (hh : r.isHalted = false) :
    r.calm.start number = ((r.start number).1, (r.start number).2.calm) := by
  rw [start, start, hh, if_neg Bool.false_ne_true, takeComments_calm]
  rfl

/-- A calm recorder closes the same marker. -/
lemma close_calm (r : Recorder) (marker : Nat) : r.calm.close marker = (r.close marker).map calm := by
  rw [close, close]
  split <;> rename_i h
  · rw [if_pos (show marker ∈ r.opened from h)]
    rfl
  · rw [if_neg (show marker ∉ r.opened from h)]
    rfl

/-- A calm recorder puts the same marker before a token. -/
lemma precedeToken_calm (r : Recorder) (event : Nat) :
    r.calm.precedeToken number event =
      (r.precedeToken number event).map fun x => (x.1, x.2.calm) := by
  have hsame : r.calm.precedeToken number event = if r.isFree (min event r.events.length) then
      .ok (number (min event r.events.length), { r.calm with
        events := r.events.insertIdx (min event r.events.length) .tombstone
        opened := number (min event r.events.length) :: r.opened })
    else .error (.shifted (min event r.events.length)) := rfl
  rw [hsame, precedeToken]
  dsimp only
  split <;> rfl

/-- A calm recorder puts the same marker before a completed node. -/
lemma precede_calm (r : Recorder) (completed : Nat) :
    r.calm.precede number completed = (r.precede number completed).map fun x => (x.1, x.2.calm) := by
  by_cases h : number r.events.length < completed ∧
      ((r.events ++ [Event.tombstone])[completed]?).any (·.isStart)
  · rw [show r.precede number completed = _ from if_pos h]
    exact if_pos h
  · rw [show r.precede number completed = _ from if_neg h]
    exact if_neg h

/-- A calm recorder completes the same node. -/
lemma complete_calm (r : Recorder) (marker : Nat) (rule : Rule) (field : Option Field) :
    r.calm.complete marker rule field = (r.complete marker rule field).map calm := by
  rw [complete, complete, close_calm]
  cases r.close marker with
  | error misuse => rfl
  | ok r =>
    show (if (r.events[marker]?).any (·.isStart) then _ else _) =
      Except.map calm (if (r.events[marker]?).any (·.isStart) then _ else _)
    split <;> rfl

/-- A calm recorder abandons the same marker. -/
lemma abandon_calm (r : Recorder) (marker : Nat) :
    r.calm.abandon marker = (r.abandon marker).map calm := by
  rw [abandon, abandon, close_calm]
  cases r.close marker with
  | error misuse => rfl
  | ok r =>
    show Except.ok (if marker + 1 = r.events.length then _ else _) =
      Except.map calm (.ok (if marker + 1 = r.events.length then _ else _))
    split <;> rfl

/-- A marker before a token changes only events and open markers. -/
lemma precedeToken_ok {r r' : Recorder} {event marker : Nat}
    (h : r.precedeToken number event = .ok (marker, r')) :
    ∃ events opened, r' = { r with events := events, opened := opened } := by
  rw [precedeToken] at h
  split at h
  · cases h
    exact ⟨_, _, rfl⟩
  · cases h

/-- A marker before a completed node changes only events and open markers. -/
lemma precede_ok {r r' : Recorder} {completed marker : Nat}
    (h : r.precede number completed = .ok (marker, r')) :
    ∃ events opened, r' = { r with events := events, opened := opened } := by
  rw [precede] at h
  dsimp only at h
  split at h
  · cases h
  · cases h
    exact ⟨_, _, rfl⟩

/-- A marker that is closed is no longer among the open ones, and nothing else changes. -/
lemma close_ok {r r' : Recorder} {marker : Nat} (h : r.close marker = .ok r') :
    r' = { r with opened := r.opened.erase marker } := by
  rw [close] at h
  split at h
  · exact (Except.ok.inj h).symm
  · cases h

/-- A completed node changes only events and open markers. -/
lemma complete_ok {r r' : Recorder} {marker : Nat} {rule : Rule} {field : Option Field}
    (h : r.complete marker rule field = .ok r') :
    ∃ events opened, r' = { r with events := events, opened := opened } := by
  obtain ⟨r₁, hclose, h⟩ := bind_ok h
  rw [close_ok hclose] at h
  split at h
  · cases h
    exact ⟨_, _, rfl⟩
  · cases h

/-- An abandoned marker changes only events and open markers. -/
lemma abandon_ok {r r' : Recorder} {marker : Nat} (h : r.abandon marker = .ok r') :
    ∃ events opened, r' = { r with events := events, opened := opened } := by
  obtain ⟨r₁, hclose, h⟩ := bind_ok h
  rw [close_ok hclose] at h
  cases h
  split
  · exact ⟨_, _, rfl⟩
  · exact ⟨_, _, rfl⟩

/-- Either no token comes next, or the interrupt is checked for the one that is taken. -/
lemma bump_cases (r : Recorder) (field : Option Field) :
    (r.bump number probes field).2 = r.current.2 ∨ ∃ t rest, r.isHalted = false ∧
      r.current.2.tokens = t :: rest ∧ t.isComment = false ∧ (r.bump number probes field).2 =
        ({ r.current.2 with tokens := rest }.poll probes).pushToken field t false := by
  rw [bump, current]
  cases hh : r.isHalted with
  | true => exact .inl rfl
  | false =>
    rw [if_neg Bool.false_ne_true]
    have htokens : r.takeComments.tokens = r.tokens.dropWhile (·.isComment) := by rw [takeComments_eq]
    cases hd : r.tokens.dropWhile (·.isComment) with
    | nil =>
      rw [hd] at htokens
      rw [htokens]
      exact .inl rfl
    | cons t rest =>
      have hno := List.head?_dropWhile_not (fun t : Token => t.isComment) r.tokens
      rw [hd] at htokens hno
      rw [htokens]
      refine .inr ⟨t, rest, rfl, rfl, by simpa using hno, ?_⟩
      simp only [List.head?_cons, Option.map_some, htokens]

/-- To look at a token halts nothing. -/
lemma isHalted_current (r : Recorder) : r.current.2.isHalted = r.isHalted := by
  obtain ⟨r', hcurrent, -, -, hhalted, -⟩ := @current_spec (fun _ => ⟨0, 0⟩) r
  rw [hcurrent]
  exact hhalted

/-! ## What a recorder goes through -/

/-- Whether a recorder that may halt has halted where its interrupt has fired. -/
def Alert (r : Recorder) : Prop := r.mayHalt = true → r.interrupt.isHalted = r.isHalted

/-- Whether a recorder may have come about from another one between two bookmarks: it halts where its
interrupt fires, if it may, and then stays as it is. -/
structure Passes (r r' : Recorder) : Prop where
  resumedAt : r'.resumedAt = r.resumedAt
  bookmark : r'.bookmark = r.bookmark
  halted : r.isHalted = true → r'.isHalted = true ∧ r'.interrupt = r.interrupt
  fired : r.interrupt.isHalted = true → r'.interrupt = r.interrupt
  halts : r.isHalted = false → r'.isHalted = true → r.mayHalt = true ∧ r'.interrupt.isHalted = true
  alert : r.Alert → r'.Alert

namespace Passes

/-- Between two bookmarks a recorder may halt if it may at the first. -/
lemma mayHalt {r r' : Recorder} (h : Passes r r') : r'.mayHalt = r.mayHalt := by
  rw [Recorder.mayHalt, Recorder.mayHalt, h.resumedAt, h.bookmark]

/-- What does not check the interrupt. -/
lemma of_eq {r r' : Recorder} (hr : r'.resumedAt = r.resumedAt) (hb : r'.bookmark = r.bookmark)
    (hi : r'.interrupt = r.interrupt) (hh : r'.isHalted = r.isHalted) : Passes r r' where
  resumedAt := hr
  bookmark := hb
  halted h := ⟨hh.trans h, hi⟩
  fired _ := hi
  halts h h' := by rw [hh, h] at h'; cases h'
  alert h hm := by
    rw [Recorder.mayHalt, hr, hb] at hm
    rw [hi, hh]
    exact h hm

/-- A recorder comes about from itself. -/
lemma refl (r : Recorder) : Passes r r := of_eq rfl rfl rfl rfl

/-- A recorder comes about in two parts. -/
lemma trans {r r' r'' : Recorder} (h : Passes r r') (h' : Passes r' r'') : Passes r r'' where
  resumedAt := h'.resumedAt.trans h.resumedAt
  bookmark := h'.bookmark.trans h.bookmark
  halted hh := by
    obtain ⟨hh', hi⟩ := h.halted hh
    obtain ⟨hh'', hi'⟩ := h'.halted hh'
    exact ⟨hh'', hi'.trans hi⟩
  fired hi := by
    have hi' := h.fired hi
    exact (h'.fired (hi' ▸ hi)).trans hi'
  halts hh hh'' := by
    cases hh' : r'.isHalted with
    | true =>
      obtain ⟨hm, hi⟩ := h.halts hh hh'
      exact ⟨hm, by rw [(h'.halted hh').2, hi]⟩
    | false =>
      obtain ⟨hm, hi⟩ := h'.halts hh' hh''
      exact ⟨h.mayHalt ▸ hm, hi⟩
  alert ha := h'.alert (h.alert ha)

/-- A recorder may check its interrupt. -/
lemma poll {r : Recorder} (hh : r.isHalted = false) : Passes r (r.poll probes) where
  resumedAt := rfl
  bookmark := rfl
  halted h := by rw [hh] at h; cases h
  fired hi := poll_of_isHalted hi
  halts _ hh' := by
    have hboth : (r.isHalted || ((r.interrupt.poll probes).isHalted && r.mayHalt)) = true := hh'
    rw [hh, Bool.false_or, Bool.and_eq_true] at hboth
    exact ⟨hboth.2, hboth.1⟩
  alert _ hm := by
    show (r.interrupt.poll probes).isHalted =
      (r.isHalted || ((r.interrupt.poll probes).isHalted && r.mayHalt))
    rw [hh, Bool.false_or, show r.mayHalt = true from hm, Bool.and_true]

/-- A recorder may take comments. -/
lemma takeComments (r : Recorder) : Passes r r.takeComments := by
  rw [takeComments_eq]
  exact of_eq rfl rfl rfl rfl

/-- A recorder may look at the next token. -/
lemma current (r : Recorder) : Passes r r.current.2 := by
  rw [Recorder.current]
  split
  · exact refl r
  · exact takeComments r

/-- A recorder may take a token. -/
lemma bump (r : Recorder) (field : Option Field) : Passes r (r.bump number probes field).2 := by
  rcases bump_cases r field with h | ⟨t, rest, hh, -, -, h⟩
  · rw [h]
    exact current r
  · have hhalted := r.isHalted_current.trans hh
    rw [h]
    exact (current r).trans (.trans (of_eq rfl rfl rfl rfl) (.trans (poll hhalted) (of_eq rfl rfl rfl rfl)))

end Passes

/-- Whether a recorder comes about from another one by taking some tokens, for each of which, comments
apart, the interrupt is checked. -/
structure Takes (probes : Nat → Probe) (r r' : Recorder) (ts : List Token) : Prop where
  tokens : r.tokens = ts ++ r'.tokens
  lastStop : r'.lastStop = endOf r.lastStop ts
  interrupt : r'.interrupt = r.interrupt.pollTimes probes (checksFor ts)

namespace Takes

/-- Where tokens, end and interrupt stay, no token is taken. -/
lemma of_eq {r r' : Recorder} (ht : r'.tokens = r.tokens) (hl : r'.lastStop = r.lastStop)
    (hi : r'.interrupt = r.interrupt) : Takes probes r r' [] := ⟨ht.symm, hl, hi⟩

/-- Tokens may be taken in two parts. -/
lemma trans {r r' r'' : Recorder} {ts us : List Token} (h : Takes probes r r' ts)
    (h' : Takes probes r' r'' us) : Takes probes r r'' (ts ++ us) where
  tokens := by rw [h.tokens, h'.tokens, List.append_assoc]
  lastStop := by rw [h'.lastStop, h.lastStop, endOf_append]
  interrupt := by
    rw [h'.interrupt, h.interrupt, checksFor, checksFor, checksFor, List.countP_append,
      Interrupt.pollTimes_add]

/-- The comments ahead may be taken. -/
lemma takeComments (r : Recorder) :
    Takes probes r r.takeComments (r.tokens.takeWhile (·.isComment)) := by
  rw [takeComments_eq]
  refine ⟨List.takeWhile_append_dropWhile.symm, rfl, ?_⟩
  have hnone : checksFor (r.tokens.takeWhile (·.isComment)) = 0 := by
    rw [checksFor, List.countP_eq_zero]
    intro t ht
    simp [List.all_eq_true.1 List.all_takeWhile t ht]
  rw [hnone]
  rfl

/-- To look at the next token takes the comments before it. -/
lemma current (r : Recorder) : ∃ ts, Takes probes r r.current.2 ts := by
  rw [Recorder.current]
  split
  · exact ⟨[], of_eq rfl rfl rfl⟩
  · exact ⟨_, takeComments r⟩

/-- To take a token takes the comments before it and the token. -/
lemma bump (r : Recorder) (field : Option Field) :
    ∃ ts, Takes probes r (r.bump number probes field).2 ts := by
  obtain ⟨ts, hcurrent⟩ := @current probes r
  rcases bump_cases r field with h | ⟨t, rest, -, htokens, ht, h⟩
  · rw [h]
    exact ⟨ts, hcurrent⟩
  · rw [h]
    refine ⟨ts ++ [t], hcurrent.trans ⟨htokens, rfl, ?_⟩⟩
    have hone : checksFor [t] = 1 := by simp [checksFor, ht]
    rw [hone]
    rfl

end Takes

end Recorder

namespace Request

/-- A recorder and its calm copy answer a request alike. -/
lemma perform_calm {r : Recorder} (hh : r.isHalted = false) (q : Request) :
    q.perform number probes r.calm = (q.perform number probes r).map fun x => (x.1, x.2.calm) := by
  cases q with
  | current => exact congrArg Except.ok (current_calm hh)
  | peek =>
    show Except.ok (r.calm.peek, r.calm) = .ok (r.peek, r.calm)
    rw [Recorder.peek, Recorder.peek, hh]
    rfl
  | bump field => exact congrArg Except.ok (bump_calm hh field)
  | missing kind field => rfl
  | start => exact congrArg Except.ok (start_calm hh)
  | precedeToken event => exact precedeToken_calm r event
  | precede completed => exact precede_calm r completed
  | setField event field => rfl
  | complete marker rule field =>
    show (r.calm.complete marker rule field).map _ = ((r.complete marker rule field).map _).map _
    rw [complete_calm]
    cases r.complete marker rule field <;> rfl
  | abandon marker =>
    show (r.calm.abandon marker).map _ = ((r.abandon marker).map _).map _
    rw [abandon_calm]
    cases r.abandon marker <;> rfl

/-- Besides events and markers a request changes what taking a token changes, or taking comments, or
nothing. -/
lemma perform_cases {r r' : Recorder} {q : Request} {a : q.Answer}
    (h : q.perform number probes r = .ok (a, r')) :
    (∃ field, r' = (r.bump number probes field).2) ∨
    (∃ events opened, r' = { r.current.2 with events := events, opened := opened }) ∨
    ∃ events opened, r' = { r with events := events, opened := opened } := by
  cases q with
  | current =>
    have hr : r' = r.current.2 := congrArg Prod.snd (Except.ok.inj h).symm
    exact .inr (.inl ⟨_, _, hr⟩)
  | peek =>
    cases h
    exact .inr (.inr ⟨_, _, rfl⟩)
  | bump field =>
    have hr : r' = (r.bump number probes field).2 := congrArg Prod.snd (Except.ok.inj h).symm
    exact .inl ⟨field, hr⟩
  | missing kind field =>
    cases h
    exact .inr (.inr ⟨_, _, rfl⟩)
  | start =>
    have hr : r' = (r.start number).2 := congrArg Prod.snd (Except.ok.inj h).symm
    refine .inr (.inl ⟨(r.start number).2.events, (r.start number).2.opened, hr.trans ?_⟩)
    rw [Recorder.start, Recorder.current]
    split <;> rfl
  | precedeToken event =>
    obtain ⟨events, opened, hr⟩ := precedeToken_ok h
    exact .inr (.inr ⟨events, opened, hr⟩)
  | precede completed =>
    obtain ⟨events, opened, hr⟩ := precede_ok h
    exact .inr (.inr ⟨events, opened, hr⟩)
  | setField event field =>
    cases h
    exact .inr (.inr ⟨_, _, rfl⟩)
  | complete marker rule field =>
    obtain ⟨r₁, hr, he⟩ := map_ok h
    obtain ⟨events, opened, rfl⟩ := complete_ok hr
    cases he
    exact .inr (.inr ⟨events, opened, rfl⟩)
  | abandon marker =>
    obtain ⟨r₁, hr, he⟩ := map_ok h
    obtain ⟨events, opened, rfl⟩ := abandon_ok hr
    cases he
    exact .inr (.inr ⟨events, opened, rfl⟩)

/-- Between two bookmarks every request may be answered. -/
lemma passes {r r' : Recorder} {q : Request} {a : q.Answer} (h : q.perform number probes r = .ok (a, r')) :
    Passes r r' := by
  rcases perform_cases h with ⟨field, rfl⟩ | ⟨events, opened, rfl⟩ | ⟨events, opened, rfl⟩
  · exact .bump r field
  · exact (Passes.current r).trans (.of_eq rfl rfl rfl rfl)
  · exact .of_eq rfl rfl rfl rfl

/-- Every request takes some tokens. -/
lemma takes {r r' : Recorder} {q : Request} {a : q.Answer} (h : q.perform number probes r = .ok (a, r')) :
    ∃ ts, Takes probes r r' ts := by
  rcases perform_cases h with ⟨field, rfl⟩ | ⟨events, opened, rfl⟩ | ⟨events, opened, rfl⟩
  · exact Takes.bump r field
  · obtain ⟨ts, hts⟩ := @Takes.current probes r
    exact ⟨ts ++ [], hts.trans (.of_eq rfl rfl rfl)⟩
  · exact ⟨[], .of_eq rfl rfl rfl⟩

end Request

namespace Script

variable {α : Type}

/-- A script that is done with its first request goes on. -/
lemma exec_ask {q : Request} {more : q.Answer → Script α} {r r' : Recorder} {a : α}
    (h : (ask q more).exec number probes r = .ok (a, r')) : ∃ x r₁, q.perform number probes r = .ok (x, r₁) ∧
      (more x).exec number probes r₁ = .ok (a, r') := by
  obtain ⟨⟨x, r₁⟩, hq, hmore⟩ := bind_ok h
  exact ⟨x, r₁, hq, hmore⟩

/-- Between two bookmarks every script may be run. -/
lemma passes {p : Script α} {r r' : Recorder} {a : α} (h : p.exec number probes r = .ok (a, r')) :
    Passes r r' := by
  induction p generalizing r with
  | done b =>
    cases h
    exact .refl _
  | ask q more ih =>
    obtain ⟨x, r₁, hq, hmore⟩ := exec_ask h
    exact (Request.passes hq).trans (ih x hmore)

/-- Every script takes some tokens. -/
lemma takes {p : Script α} {r r' : Recorder} {a : α} (h : p.exec number probes r = .ok (a, r')) :
    ∃ ts, Takes probes r r' ts := by
  induction p generalizing r with
  | done b =>
    cases h
    exact ⟨[], .of_eq rfl rfl rfl⟩
  | ask q more ih =>
    obtain ⟨x, r₁, hq, hmore⟩ := exec_ask h
    obtain ⟨ts, hts⟩ := Request.takes hq
    obtain ⟨us, hus⟩ := ih x hmore
    exact ⟨ts ++ us, hts.trans hus⟩

/-- As long as a recorder does not halt, its calm copy goes the same way. -/
lemma exec_calm {p : Script α} {r r' : Recorder} {a : α} (h : p.exec number probes r = .ok (a, r'))
    (hh : r'.isHalted = false) : p.exec number probes r.calm = .ok (a, r'.calm) := by
  induction p generalizing r with
  | done b =>
    cases h
    rfl
  | ask q more ih =>
    obtain ⟨x, r₁, hq, hmore⟩ := exec_ask h
    have hh' : r.isHalted = false := by
      rw [← Bool.not_eq_true]
      intro hr
      rw [((passes h).halted hr).1] at hh
      cases hh
    rw [exec, Request.perform_calm hh', hq]
    exact ih x hmore

/-- Where a recorder halts, the interrupt of its calm copy has fired in the end. -/
lemma exec_calm_of_isHalted {p : Script α} {r r' r'' : Recorder} {a b : α}
    (h : p.exec number probes r = .ok (a, r')) (hr : r.isHalted = false) (hh : r'.isHalted = true)
    (hc : p.exec number probes r.calm = .ok (b, r'')) : r''.interrupt = r'.interrupt := by
  induction p generalizing r with
  | done b =>
    cases h
    rw [hr] at hh
    cases hh
  | ask q more ih =>
    obtain ⟨x, r₁, hq, hmore⟩ := exec_ask h
    rw [exec, Request.perform_calm hr, hq] at hc
    have hc' : (more x).exec number probes r₁.calm = .ok (b, r'') := hc
    cases hr₁ : r₁.isHalted with
    | false => exact ih x hmore hr₁ hc'
    | true =>
      have hfired := ((Request.passes hq).halts hr hr₁).2
      rw [((passes hmore).halted hr₁).2, (passes hc').fired hfired]
      rfl

end Script

end Reparse.C
