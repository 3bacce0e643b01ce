/-!
# Interrupts

A parse asks at its checkpoints whether it has to stop: because a cancellation flag is set, or
because its time is up. The flag is looked at on every check, the clock on every hundredth. Once
a parse has to stop, every later check says so too.

The outside world enters as a sequence of probes: the value of the flag and the time since the
call began, as found at each check.
-/

namespace Reparse

/-- Why a parse stopped before its end. -/
inductive HaltReason where
  | timeout
  | flag
deriving DecidableEq, Repr

/-- The wording of a reason. -/
def HaltReason.message : HaltReason → String
  | timeout => "timeout exceeded"
  | flag => "cancellation flag set"

/-- What one check finds: the value of the cancellation flag, 0 if there is none, and the
nanoseconds since the call began. -/
structure Probe where
  flag : Nat
  elapsed : Nat
deriving DecidableEq, Repr

/-- The interrupt of one call: its deadline, how often it was checked without a flag being set,
and why it halted. -/
structure Interrupt where
  deadline : Option Nat
  checks : Nat
  halted : Option HaltReason
deriving DecidableEq, Repr

namespace Interrupt

/-- The number of checks from one look at the clock to the next. -/
def clockInterval : Nat := 100

/-- The interrupt of a call that begins now; a timeout of 0 is none. -/
def start (timeout : Nat) : Interrupt := ⟨if timeout = 0 then none else some timeout, 0, none⟩

/-- The interrupt without a timeout. -/
def never : Interrupt := start 0

/-- Whether the deadline has passed when `elapsed` is the time. -/
def isLate (i : Interrupt) (elapsed : Nat) : Bool :=
  match i.deadline with
  | none => false
  | some d => d ≤ elapsed

/-- The interrupt after a check that finds `p`. -/
def check (i : Interrupt) (p : Probe) : Interrupt :=
  if i.halted.isSome then i
  else if p.flag ≠ 0 then { i with halted := some .flag }
  else
    let checks := i.checks + 1
    if checks % clockInterval = 0 ∧ i.isLate p.elapsed then
      { i with checks := checks, halted := some .timeout }
    else { i with checks := checks }

/-- Whether the parse has to stop. -/
def isHalted (i : Interrupt) : Bool := i.halted.isSome

/-- An interrupt that has halted is changed by nothing. -/
theorem check_of_isHalted {i : Interrupt} (h : i.isHalted = true) (p : Probe) : i.check p = i :=
  if_pos h

/-- The interrupt after one more check, where `probes k` is what the check number `k` finds. -/
def poll (probes : Nat → Probe) (i : Interrupt) : Interrupt := i.check (probes i.checks)

/-- The interrupt after `n` more checks. -/
def pollTimes (probes : Nat → Probe) (i : Interrupt) : Nat → Interrupt
  | 0 => i
  | n + 1 => pollTimes probes (i.poll probes) n

/-- Polls may be counted in two parts. -/
theorem pollTimes_add (probes : Nat → Probe) (i : Interrupt) (m n : Nat) :
    i.pollTimes probes (m + n) = (i.pollTimes probes m).pollTimes probes n := by
  induction m generalizing i with
  | zero => rw [Nat.zero_add, pollTimes]
  | succ m ih => rw [Nat.succ_add, pollTimes, pollTimes, ih]

end Interrupt

end Reparse
