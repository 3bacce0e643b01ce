import Mathlib.Tactic.Lemma
import Reparse.Interrupt.Monitor

/-!
# When a call is halted

The first check that has a reason to stop halts an interrupt for good (`Monitor.halts_at_first`): every
later check says to stop, whatever is stored in the flag, and the reason stays. `Monitor.Keeps` is what
one check preserves, the checks being numbered among all those before. It makes no difference to any
answer that an interrupt counts only to the next look at the clock (`Monitor.ticks_eq`), or that a clock
ends before the deadline, since it never shows such an instant (`Monitor.answers_start`).
-/

namespace Reparse

/-! ## Single checks -/

namespace Interrupt

/-- What a check does to an interrupt that has not halted: a flag that is not 0 halts it, and otherwise
the check is counted, and the interrupt halts if that brings it to a look at the clock too late. -/
lemma check_cases {i : Interrupt} (h : i.halted = none) (p : Probe) :
    (p.flag ≠ 0 ∧ i.check p = { i with halted := some .flag }) ∨
    (p.flag = 0 ∧ ((i.checks + 1) % clockInterval = 0 ∧ i.isLate p.elapsed = true) ∧
      i.check p = { i with checks := i.checks + 1, halted := some .timeout }) ∨
    (p.flag = 0 ∧ ¬ ((i.checks + 1) % clockInterval = 0 ∧ i.isLate p.elapsed = true) ∧
      i.check p = { i with checks := i.checks + 1 }) := by
  have hnone : ¬ i.halted.isSome = true := by
    rw [h]
    exact Bool.false_ne_true
  rw [check, if_neg hnone]
  by_cases hflag : p.flag = 0
  · rw [if_neg (not_not_intro hflag)]
    by_cases hstop : (i.checks + 1) % clockInterval = 0 ∧ i.isLate p.elapsed = true
    · exact .inr (.inl ⟨hflag, hstop, if_pos hstop⟩)
    · exact .inr (.inr ⟨hflag, hstop, if_neg hstop⟩)
  · exact .inl ⟨hflag, if_pos hflag⟩

/-- A check leaves the deadline. -/
lemma deadline_check (i : Interrupt) (p : Probe) : (i.check p).deadline = i.deadline := by
  rw [check]
  split
  · rfl
  split
  · rfl
  dsimp only
  split <;> rfl

/-- A check does not depend on a deadline beyond whether it has passed. -/
lemma check_congr {i : Interrupt} {d : Option Nat} {p : Probe}
    (h : i.isLate p.elapsed = isLate { i with deadline := d } p.elapsed) :
    check { i with deadline := d } p = { i.check p with deadline := d } := by
  simp only [check, ← h]
  split
  · rfl
  split
  · rfl
  split <;> rfl

/-- An interrupt that counts to the next look at the clock looks at it when the count gets there. -/
lemma clockInterval_le_iff (n : Nat) :
    clockInterval ≤ n % clockInterval + 1 ↔ (n + 1) % clockInterval = 0 := by
  rw [clockInterval]
  omega

/-- A tick of an interrupt that counts to the next look at the clock is a check of the interrupt. -/
theorem tick_wrapped (i : Interrupt) (p : Probe) :
    i.wrapped.tick p = ((i.check p).isHalted, (i.check p).wrapped) := by
  cases hhalted : i.halted with
  | some r =>
    have hsome : i.isHalted = true := congrArg Option.isSome hhalted
    rw [check_of_isHalted hsome, hsome, tick]
    exact if_pos hsome
  | none =>
    have hnone : ¬ i.wrapped.halted.isSome = true := by
      rw [wrapped, hhalted]
      exact Bool.false_ne_true
    rw [tick, if_neg hnone]
    rcases check_cases hhalted p with ⟨hflag, hcheck⟩ | ⟨hflag, ⟨hmod, hlate⟩, hcheck⟩ | ⟨hflag, hno, hcheck⟩
    · rw [if_pos hflag, hcheck]
      rfl
    · have hle : clockInterval ≤ i.wrapped.checks + 1 := (clockInterval_le_iff i.checks).2 hmod
      have hlate : i.wrapped.isLate p.elapsed = true := hlate
      rw [if_neg (not_not_intro hflag), if_pos hle, if_pos hlate, hcheck]
      simp only [wrapped, hmod]
      rfl
    · rw [if_neg (not_not_intro hflag), hcheck]
      by_cases hmod : (i.checks + 1) % clockInterval = 0
      · have hle : clockInterval ≤ i.wrapped.checks + 1 := (clockInterval_le_iff i.checks).2 hmod
        have hlate : ¬ i.wrapped.isLate p.elapsed = true := fun hlate => hno ⟨hmod, hlate⟩
        rw [if_pos hle, if_neg hlate]
        simp only [wrapped, hmod, isHalted, hhalted]
      · have hle : ¬ clockInterval ≤ i.wrapped.checks + 1 := mt (clockInterval_le_iff i.checks).1 hmod
        have hcount : (i.checks + 1) % clockInterval = i.checks % clockInterval + 1 := by
          rw [clockInterval] at hmod ⊢
          omega
        rw [if_neg hle]
        simp only [wrapped, hcount, isHalted, hhalted]
        rfl

end Interrupt

namespace Monitor

open Interrupt

/-! ## Reasons to stop -/

/-- What the checks among some events find: the value of the flag, 0 if there is none, and the instant. -/
def calls : Option Nat → List Event → List (Nat × Nat)
  | _, [] => []
  | flag, .store value :: rest => calls (flag.map fun _ => value) rest
  | flag, .check now :: rest => (flag.getD 0, now) :: calls flag rest

/-- Whether the check with a number, counted from 1, has a reason to stop: the flag is not 0, or the
number is a multiple of 100 and the deadline has passed. If both are so, the flag is the reason. -/
inductive Stops (deadline : Option Nat) (number : Nat) : Nat × Nat → HaltReason → Prop where
  | flag {value now} : value ≠ 0 → Stops deadline number (value, now) .flag
  | timeout {now d} :
    100 ∣ number → deadline = some d → d ≤ now → Stops deadline number (0, now) .timeout

/-- Whether `k` checks without a reason to stop come before one with the reason `r`. -/
structure FirstStop (deadline : Option Nat) (calls : List (Nat × Nat)) (k : Nat) (r : HaltReason) :
    Prop where
  stops : ∃ c, calls[k]? = some c ∧ Stops deadline (k + 1) c r
  first : ∀ j < k, ∀ c, calls[j]? = some c → ∀ r, ¬ Stops deadline (j + 1) c r

variable {deadline : Option Nat} {done more : List (Nat × Nat)} {k j : Nat} {r r' : HaltReason}
  {m : Monitor} {events : List Event}

/-- A check has one reason to stop. -/
lemma Stops.unique {number : Nat} {c : Nat × Nat} (h : Stops deadline number c r)
    (h' : Stops deadline number c r') : r = r' := by
  cases h with
  | flag hne =>
    cases h' with
    | flag _ => rfl
    | timeout _ _ _ => exact absurd rfl hne
  | timeout _ _ _ =>
    cases h' with
    | flag hne => exact absurd rfl hne
    | timeout _ _ _ => rfl

namespace FirstStop

/-- The check that stops is one of those made. -/
lemma lt_length (h : FirstStop deadline done k r) : k < done.length := by
  obtain ⟨c, hc, -⟩ := h.stops
  exact (List.getElem?_eq_some_iff.1 hc).1

/-- There is only one first reason to stop. -/
lemma unique (h : FirstStop deadline done k r) (h' : FirstStop deadline done j r') : k = j ∧ r = r' := by
  obtain ⟨c, hc, hstops⟩ := h.stops
  obtain ⟨c', hc', hstops'⟩ := h'.stops
  obtain hlt | rfl | hlt := Nat.lt_trichotomy k j
  · exact absurd hstops (h'.first k hlt c hc r)
  · obtain rfl := Option.some.inj (hc.symm.trans hc')
    exact ⟨rfl, hstops.unique hstops'⟩
  · exact absurd hstops' (h.first j hlt c' hc' r')

/-- What the first checks of many come to does not depend on the later ones. -/
lemma append_iff : FirstStop deadline (done ++ more) k r ∧ k < done.length ↔
    FirstStop deadline done k r := by
  have hsame : ∀ {j}, j < done.length → (done ++ more)[j]? = done[j]? := fun h =>
    List.getElem?_append_left h
  constructor
  · rintro ⟨⟨⟨c, hc, hstops⟩, hfirst⟩, hlt⟩
    refine ⟨⟨c, (hsame hlt).symm.trans hc, hstops⟩, fun j hj c hc => hfirst j hj c ?_⟩
    exact (hsame (Nat.lt_trans hj hlt)).trans hc
  · intro h
    have hlt := h.lt_length
    obtain ⟨⟨c, hc, hstops⟩, hfirst⟩ := h
    refine ⟨⟨⟨c, (hsame hlt).trans hc, hstops⟩, fun j hj c hc => hfirst j hj c ?_⟩, hlt⟩
    exact (hsame (Nat.lt_trans hj hlt)).symm.trans hc

end FirstStop

/-! ## Single events -/

/-- What a monitor keeps from check to check, `done` being what the checks so far have found: as long as
it goes on none of them had a reason to stop and all are counted, and once it has halted it knows the
reason of the first that had one. -/
structure Keeps (m : Monitor) (deadline : Option Nat) (done : List (Nat × Nat)) : Prop where
  late : ∀ now, m.interrupt.isLate (now - m.began) = true ↔ ∃ d, deadline = some d ∧ d ≤ now
  going : m.halted = none → m.interrupt.checks = done.length ∧
    ∀ j c, done[j]? = some c → ∀ r, ¬ Stops deadline (j + 1) c r
  stopped : ∀ r, m.halted = some r → ∃ k, FirstStop deadline done k r

/-- A monitor has halted exactly if there was a reason to stop. -/
lemma Keeps.halted_iff (h : m.Keeps deadline done) :
    m.halted = some r ↔ ∃ k, FirstStop deadline done k r := by
  refine ⟨h.stopped r, fun ⟨k, hk⟩ => ?_⟩
  cases hm : m.halted with
  | none =>
    obtain ⟨c, hc, hstops⟩ := hk.stops
    exact absurd hstops ((h.going hm).2 k c hc r)
  | some r' =>
    obtain ⟨k', hk'⟩ := h.stopped r' hm
    rw [(hk'.unique hk).2]

/-- A check of a monitor that goes on halts it exactly if it has a reason to stop, and counts otherwise. -/
lemma Keeps.check (h : m.Keeps deadline done) (hm : m.halted = none) (now : Nat) :
    (∃ r, Stops deadline (done.length + 1) (m.flag.getD 0, now) r ∧
      (m.step (.check now)).halted = some r) ∨
    ((∀ r, ¬ Stops deadline (done.length + 1) (m.flag.getD 0, now) r) ∧
      (m.step (.check now)).halted = none ∧
      (m.step (.check now)).interrupt.checks = done.length + 1) := by
  have hcount := (h.going hm).1
  have hstep : (m.step (.check now)).interrupt = m.interrupt.check (m.probe now) := rfl
  rcases Interrupt.check_cases hm (m.probe now) with
    ⟨hflag, hcheck⟩ | ⟨hflag, ⟨hmod, hlate⟩, hcheck⟩ | ⟨hflag, hno, hcheck⟩
  · exact .inl ⟨.flag, .flag hflag, by rw [Monitor.halted, hstep, hcheck]⟩
  · obtain ⟨d, hd, hle⟩ := (h.late now).1 hlate
    have hflag : m.flag.getD 0 = 0 := hflag
    refine .inl ⟨.timeout, ?_, by rw [Monitor.halted, hstep, hcheck]⟩
    rw [hflag, ← hcount]
    exact .timeout (Nat.dvd_of_mod_eq_zero hmod) hd hle
  · refine .inr ⟨fun r hr => ?_, ?_, ?_⟩
    · have hflag : m.flag.getD 0 = 0 := hflag
      rw [hflag, ← hcount] at hr
      cases hr with
      | flag hne => exact hne rfl
      | timeout hdvd hd hle => exact hno ⟨Nat.mod_eq_zero_of_dvd hdvd, (h.late now).2 ⟨_, hd, hle⟩⟩
    · rw [Monitor.halted, hstep, hcheck]
      exact hm
    · rw [hstep, hcheck, ← hcount]

/-- The checks after an event follow those of the event. -/
lemma calls_cons (m : Monitor) (e : Event) (rest : List Event) :
    calls m.flag (e :: rest) = calls m.flag [e] ++ calls (m.step e).flag rest := by
  cases e <;> rfl

/-- What a monitor keeps, it keeps at any event. -/
theorem Keeps.step (h : m.Keeps deadline done) (e : Event) :
    (m.step e).Keeps deadline (done ++ calls m.flag [e]) := by
  cases e with
  | store value =>
    rw [show calls m.flag [.store value] = [] from rfl, List.append_nil]
    exact ⟨h.late, h.going, h.stopped⟩
  | check now =>
    rw [show calls m.flag [.check now] = [(m.flag.getD 0, now)] from rfl]
    cases hm : m.halted with
    | some r₀ =>
      -- a monitor that has halted is changed by nothing
      have hsame : m.step (.check now) = m := congrArg (fun i => { m with interrupt := i })
        (Interrupt.check_of_isHalted (congrArg Option.isSome hm) (m.probe now))
      rw [hsame]
      refine ⟨h.late, fun hgoing => ?_, fun r hr => ?_⟩
      · rw [hm] at hgoing
        cases hgoing
      · obtain ⟨k, hk⟩ := h.stopped r hr
        exact ⟨k, (FirstStop.append_iff.2 hk).1⟩
    | none =>
      obtain ⟨-, hnone⟩ := h.going hm
      have hlate : ∀ t, (m.step (.check now)).interrupt.isLate (t - m.began) = true ↔
          ∃ d, deadline = some d ∧ d ≤ t := by
        intro t
        have hdeadline := Interrupt.deadline_check m.interrupt (m.probe now)
        rw [← h.late t, Interrupt.isLate, Interrupt.isLate, ← hdeadline]
        rfl
      have hbefore : ∀ j < done.length, ∀ c, (done ++ [(m.flag.getD 0, now)])[j]? = some c →
          ∀ r, ¬ Stops deadline (j + 1) c r := by
        intro j hj c hc
        rw [List.getElem?_append_left hj] at hc
        exact hnone j c hc
      rcases h.check hm now with ⟨r, hstops, hr⟩ | ⟨hno, hgoing, hcount⟩
      · refine ⟨hlate, fun hgoing => ?_, fun r' hr' => ?_⟩
        · rw [hr] at hgoing
          cases hgoing
        · obtain rfl := Option.some.inj (hr.symm.trans hr')
          exact ⟨done.length, ⟨_, List.getElem?_concat_length, hstops⟩, hbefore⟩
      · refine ⟨hlate, fun _ => ⟨?_, fun j c hc => ?_⟩, fun r' hr' => ?_⟩
        · rw [hcount, List.length_append]
          rfl
        · rcases Nat.lt_or_ge j done.length with hlt | hge
          · exact hbefore j hlt c hc
          · rw [List.getElem?_append_right hge] at hc
            obtain rfl : j = done.length := by
              have := (List.getElem?_eq_some_iff.1 hc).1
              rw [List.length_singleton] at this
              omega
            rw [Nat.sub_self] at hc
            obtain rfl := Option.some.inj hc
            exact hno
        · rw [hgoing] at hr'
          cases hr'

/-! ## Calls -/

/-- The checks of events in two parts follow each other. -/
lemma calls_append (m : Monitor) (events more : List Event) :
    calls m.flag (events ++ more) = calls m.flag events ++ calls (m.after events).flag more := by
  induction events generalizing m with
  | nil => rfl
  | cons e rest ih =>
    rw [List.cons_append, calls_cons, ih, ← List.append_assoc, ← calls_cons]
    rfl

/-- So it does at any events. -/
theorem Keeps.after (h : m.Keeps deadline done) (events : List Event) :
    (m.after events).Keeps deadline (done ++ calls m.flag events) := by
  induction events generalizing m done with
  | nil =>
    rw [calls, List.append_nil]
    exact h
  | cons e rest ih =>
    rw [calls_cons, ← List.append_assoc]
    exact ih (h.step e)

/-- After the first of some events a call has halted if a check among them was the first with a reason. -/
lemma Keeps.halted_after (h : m.Keeps deadline []) {n : Nat} :
    (m.after (events.take n)).halted = some r ↔
      ∃ k, FirstStop deadline (calls m.flag events) k r ∧ k < (calls m.flag (events.take n)).length := by
  have hcalls := calls_append m (events.take n) (events.drop n)
  rw [List.take_append_drop] at hcalls
  rw [(h.after (events.take n)).halted_iff, List.nil_append, hcalls]
  simp only [FirstStop.append_iff]

/-- A check says to stop exactly if it is the first with a reason or a later one. -/
theorem Keeps.answers (h : m.Keeps deadline done) {answer : Bool}
    (ha : (m.answers events)[j]? = some answer) :
    answer = true ↔ ∃ k r, FirstStop deadline (done ++ calls m.flag events) k r ∧ k ≤ done.length + j := by
  induction events generalizing m done j with
  | nil => cases ha
  | cons e rest ih =>
    rw [calls_cons, ← List.append_assoc]
    cases e with
    | store value =>
      rw [show calls m.flag [.store value] = [] from rfl, List.append_nil]
      have hstep := h.step (.store value)
      rw [show calls m.flag [.store value] = [] from rfl, List.append_nil] at hstep
      exact ih hstep ha
    | check now =>
      have hstep := h.step (.check now)
      have hlength : (done ++ calls m.flag [.check now]).length = done.length + 1 :=
        List.length_append
      cases j with
      | zero =>
        -- the first of the answers is about the checks so far
        obtain rfl : (m.step (.check now)).interrupt.isHalted = answer := Option.some.inj ha
        rw [Interrupt.isHalted, Option.isSome_iff_exists]
        constructor
        · rintro ⟨r, hr⟩
          obtain ⟨k, hk⟩ := hstep.stopped r hr
          obtain ⟨hk', hlt⟩ := FirstStop.append_iff.2 hk
          exact ⟨k, r, hk', by omega⟩
        · rintro ⟨k, r, hk, hle⟩
          exact ⟨r, hstep.halted_iff.2 ⟨k, FirstStop.append_iff.1 ⟨hk, by omega⟩⟩⟩
      | succ j =>
        rw [ih hstep ha, hlength]
        simp only [Nat.add_assoc, Nat.add_comm 1 j]

/-- A deadline comes after the instant at which the call began. -/
lemma lt_of_deadline? {last began timeout d : Nat} (h : deadline? last began timeout = some d) :
    began < d := by
  rw [deadline?] at h
  split at h
  · cases h
  · obtain rfl := Option.some.inj h
    omega

/-- There are as many answers as checks. -/
lemma length_answers (m : Monitor) (events : List Event) :
    (m.answers events).length = (calls m.flag events).length := by
  induction events generalizing m with
  | nil => rfl
  | cons e rest ih =>
    cases e with
    | store value => exact ih _
    | check now => exact congrArg (· + 1) (ih _)

/-- It does not show that an interrupt counts only to the next look at the clock. -/
theorem ticks_eq (m : Monitor) (events : List Event) :
    { m with interrupt := m.interrupt.wrapped }.ticks events = m.answers events := by
  induction events generalizing m with
  | nil => rfl
  | cons e rest ih =>
    cases e with
    | store value => exact ih (m.step (.store value))
    | check now =>
      have htick := Interrupt.tick_wrapped m.interrupt (m.probe now)
      rw [ticks, show probe { m with interrupt := m.interrupt.wrapped } now = m.probe now from rfl, htick]
      exact congrArg (_ :: ·) (ih (m.step (.check now)))

/-- A deadline makes no difference to the answers beyond whether it has passed at the checks. -/
lemma answers_congr {began : Nat} {d : Option Nat} {i : Interrupt} (flag : Option Nat)
    (h : ∀ now, .check now ∈ events →
      i.isLate (now - began) = isLate { i with deadline := d } (now - began)) :
    (Monitor.mk began flag i).answers events =
      (Monitor.mk began flag { i with deadline := d }).answers events := by
  induction events generalizing flag i with
  | nil => rfl
  | cons e rest ih =>
    have hrest : ∀ now, .check now ∈ rest →
        i.isLate (now - began) = isLate { i with deadline := d } (now - began) := fun now hnow =>
      h now (List.mem_cons_of_mem e hnow)
    cases e with
    | store value => exact ih _ hrest
    | check now =>
      have hcheck := check_congr (p := ⟨flag.getD 0, now - began⟩) (h now (List.mem_cons_self ..))
      have hstep := @ih (i.check ⟨flag.getD 0, now - began⟩) flag fun t ht => by
        have ht := hrest t ht
        rw [isLate, isLate] at ht ⊢
        rw [deadline_check]
        exact ht
      rw [← hcheck] at hstep
      exact List.cons_eq_cons.2 ⟨(congrArg isHalted hcheck).symm, hstep⟩

/-- A clock that ends before the deadline of a call never shows that its time is up, so that a deadline
makes no difference where the clock cannot tell it. -/
theorem answers_start {last began : Nat} (timeout : Nat) (flag : Option Nat) (hbegan : began ≤ last)
    (hclock : ∀ now, .check now ∈ events → now ≤ last) :
    (start last began timeout flag).answers events =
      (Monitor.mk began flag (.start timeout)).answers events := by
  -- the two differ in nothing but a deadline that is never reached
  refine answers_congr flag fun now hnow => ?_
  have hnow := hclock now hnow
  simp only [isLate, deadline?]
  by_cases htimeout : timeout = 0
  · rw [if_pos (.inl htimeout), if_pos htimeout]
    rfl
  · rw [if_neg htimeout]
    by_cases hend : last < began + timeout
    · rw [if_pos (.inr hend)]
      exact (decide_eq_false (by omega)).symm
    · rw [if_neg (not_or.2 ⟨htimeout, hend⟩), Option.map_some, Nat.add_sub_cancel_left]

/-- A call that begins has made no check. -/
lemma keeps_start (last began timeout : Nat) (flag : Option Nat) :
    (start last began timeout flag).Keeps (deadline? last began timeout) [] := by
  refine ⟨fun now => ?_, fun _ => ⟨rfl, fun j c hc => by cases hc⟩, fun r hr => by cases hr⟩
  rw [start, Interrupt.isLate]
  cases hd : deadline? last began timeout with
  | none => exact ⟨nofun, nofun⟩
  | some d =>
    have hlt := lt_of_deadline? hd
    simp only [Option.map_some, Option.some.injEq, exists_eq_left', decide_eq_true_eq]
    omega

/-- The first check with a reason to stop halts a call, and nothing else does. Let `k` checks without such
a reason come before one that has the reason `r`, whatever is stored in the flag and whatever the clock
shows: then the checks up to there say to go on, and this one and all later ones say to stop; and there
is no reason for a halt before it, and `r` for ever after. Where no check has a reason to stop, all say to
go on. Reasons are a flag that is not 0 and, at each hundredth check, a deadline that has passed; there is
no deadline without a timeout, or if the clock ends before it. -/
theorem halts_at_first (last began timeout : Nat) (flag : Option Nat) (events : List Event) :
    ((start last began timeout flag).answers events).length = (calls flag events).length ∧
    (∀ k r, FirstStop (deadline? last began timeout) (calls flag events) k r →
      (∀ j answer, ((start last began timeout flag).answers events)[j]? = some answer →
        answer = decide (k ≤ j)) ∧
      ∀ n, ((start last began timeout flag).after (events.take n)).halted =
        if k < (calls flag (events.take n)).length then some r else none) ∧
    ((∀ k r, ¬ FirstStop (deadline? last began timeout) (calls flag events) k r) →
      (∀ answer ∈ (start last began timeout flag).answers events, answer = false) ∧
      ∀ n, ((start last began timeout flag).after (events.take n)).halted = none) := by
  have hkeeps := keeps_start last began timeout flag
  generalize hm : start last began timeout flag = m at hkeeps ⊢
  obtain rfl : m.flag = flag := by
    rw [← hm]
    rfl
  generalize deadline? last began timeout = deadline at hkeeps ⊢
  have hanswer : ∀ j answer, (m.answers events)[j]? = some answer →
      (answer = true ↔ ∃ k r, FirstStop deadline (calls m.flag events) k r ∧ k ≤ j) := by
    intro j answer ha
    have h := hkeeps.answers ha
    rwa [List.nil_append, List.length_nil, Nat.zero_add] at h
  refine ⟨length_answers m events, fun k r hk => ⟨fun j answer ha => ?_, fun n => ?_⟩,
    fun hno => ⟨fun answer ha => ?_, fun n => ?_⟩⟩
  · rw [Bool.eq_iff_iff, hanswer j answer ha, decide_eq_true_eq]
    constructor
    · rintro ⟨k', r', hk', hle⟩
      rwa [(hk.unique hk').1]
    · exact fun hle => ⟨k, r, hk, hle⟩
  · split
    · rename_i hlt
      exact hkeeps.halted_after.2 ⟨k, hk, hlt⟩
    · rename_i hge
      refine Option.eq_none_iff_forall_ne_some.2 fun r' hr' => ?_
      obtain ⟨k', hk', hlt⟩ := hkeeps.halted_after.1 hr'
      exact hge (by rwa [(hk.unique hk').1])
  · obtain ⟨j, hj⟩ := List.getElem?_of_mem ha
    refine Bool.eq_false_iff.2 fun htrue => ?_
    obtain ⟨k, r, hk, -⟩ := (hanswer j answer hj).1 htrue
    exact hno k r hk
  · refine Option.eq_none_iff_forall_ne_some.2 fun r hr => ?_
    obtain ⟨k, hk, -⟩ := hkeeps.halted_after.1 hr
    exact hno k r hk

end Monitor

end Reparse
