import Reparse.Interrupt
import Reparse.Source.Basic
import Reparse.Tree.Builder

/-!
# Engines

An engine parses the documents of one language. It may be given an old tree to take parts from,
and the progress of an earlier call to go on with. It asks its interrupt whether to stop, and
then hands out its progress instead of a tree.
-/

namespace Reparse

/-- How a call of an engine ends, where `σ` is the progress that the engine can go on with. -/
inductive Outcome (σ : Type) where
  | complete (tree : Tree)
  | halted (progress : σ)
  | failed (fault : Fault)
  /-- The call was neither done nor halted when it was given up. -/
  | stalled

/-- What an engine is given to work on, and how long it is waited for: `patience` is the number of
steps that it may make beyond those that lead on in the document. -/
structure Task (σ : Type) where
  source : Source
  oldTree : Option Tree
  progress : Option σ
  patience : Nat

/-- How a language is parsed. New nodes belong to the given generation; the answer holds the
interrupt as it was left. -/
abbrev Engine (σ : Type) : Type :=
  (generation : Nat) → (probes : Nat → Probe) → Task σ → Interrupt → Outcome σ × Interrupt

/-- A grammar together with the engine that parses it. -/
structure Language (σ : Type) where
  grammar : Grammar
  engine : Engine σ

namespace Outcome

/-- The outcome with `f` applied to its progress. -/
def map {σ τ : Type} (f : σ → τ) : Outcome σ → Outcome τ
  | complete tree => complete tree
  | halted progress => halted (f progress)
  | failed fault => failed fault
  | stalled => stalled

/-- What a later call can go on from: the progress of a call that was halted. -/
def progress? {σ : Type} : Outcome σ → Option σ
  | halted progress => some progress
  | _ => none

end Outcome

namespace Language

/-- The name of the language's grammar. -/
def name {σ : Type} (l : Language σ) : String := l.grammar.name

/-- The version of the language's grammar. -/
def version {σ : Type} (l : Language σ) : Nat := l.grammar.version

/-- The written form of a language. -/
def display {σ : Type} (l : Language σ) : String := l.grammar.displayAs "Language"

/-- The language with progress of a wider type; progress that it cannot have made itself is left
aside. -/
def embed {σ τ : Type} (into : σ → τ) (back : τ → Option σ) (l : Language σ) : Language τ where
  grammar := l.grammar
  engine := fun generation probes task interrupt =>
    let (outcome, interrupt) :=
      l.engine generation probes
        ⟨task.source, task.oldTree, task.progress.bind back, task.patience⟩ interrupt
    (outcome.map into, interrupt)

end Language

end Reparse
