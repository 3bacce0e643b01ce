import Reparse.Interrupt

/-!
# Monitors

An interrupt among the things that it watches: a flag that others store values in at any time, and a
clock. A monitor tells instants, where an interrupt tells the time since its call began, and its clock
ends at some instant. `Interrupt.tick` is a check that counts up to the next look at the clock and no
further.
-/

namespace Reparse

namespace Interrupt

/-- The interrupt with only the checks since the last look at the clock counted. -/
def wrapped (i : Interrupt) : Interrupt := { i with checks := i.checks % clockInterval }

/-- A check and its answer, where the count starts again with each look at the clock. -/
def tick (i : Interrupt) (p : Probe) : Bool × Interrupt :=
  if i.halted.isSome then (true, i)
  else if p.flag ≠ 0 then (true, { i with halted := some .flag })
  else if clockInterval ≤ i.checks + 1 then
    let halted := if i.isLate p.elapsed then some HaltReason.timeout else none
    (halted.isSome, { i with checks := 0, halted := halted })
  else (false, { i with checks := i.checks + 1 })

end Interrupt

/-- The interrupt of a call, the instant at which the call began, and the value of its flag, if it has
one. -/
structure Monitor where
  began : Nat
  flag : Option Nat
  interrupt : Interrupt

namespace Monitor

/-- What may happen during a call: a value is stored in the flag, or the interrupt is checked at an
instant. -/
inductive Event where
  | store (value : Nat)
  | check (now : Nat)
deriving DecidableEq, Repr

/-- The instant at which the time of a call is up, on a clock that ends at `last`: there is none without
a timeout, or if the clock ends before it. -/
def deadline? (last began timeout : Nat) : Option Nat :=
  if timeout = 0 ∨ last < began + timeout then none else some (began + timeout)

/-- The monitor of a call that begins. -/
def start (last began timeout : Nat) (flag : Option Nat) : Monitor :=
  ⟨began, flag, ⟨(deadline? last began timeout).map (· - began), 0, none⟩⟩

/-- What a check at an instant finds. -/
def probe (m : Monitor) (now : Nat) : Probe := ⟨m.flag.getD 0, now - m.began⟩

/-- The monitor after an event; without a flag a value is stored nowhere. -/
def step (m : Monitor) : Event → Monitor
  | .store value => { m with flag := m.flag.map fun _ => value }
  | .check now => { m with interrupt := m.interrupt.check (m.probe now) }

/-- The monitor after some events. -/
def after (m : Monitor) (events : List Event) : Monitor := events.foldl step m

/-- Why the monitor has halted, if it has. -/
def halted (m : Monitor) : Option HaltReason := m.interrupt.halted

/-- The answers to the checks among some events: whether to stop. -/
def answers (m : Monitor) : List Event → List Bool
  | [] => []
  | .store value :: rest => (m.step (.store value)).answers rest
  | .check now :: rest =>
    (m.step (.check now)).interrupt.isHalted :: (m.step (.check now)).answers rest

/-- The same answers, from an interrupt that ticks. -/
def ticks (m : Monitor) : List Event → List Bool
  | [] => []
  | .store value :: rest => (m.step (.store value)).ticks rest
  | .check now :: rest =>
    let (answer, interrupt) := m.interrupt.tick (m.probe now)
    answer :: { m with interrupt := interrupt }.ticks rest

end Monitor

end Reparse
