import Reparse.Parser.Engine
import Reparse.Text.Blank

/-!
# Words

A small language for trying out parsers: a document is a sequence of words, and a word is a run
of characters without blanks inside one included range. The engine checks its interrupt before
every word and takes nothing from old trees.
-/

namespace Reparse.Words

/-- The symbol of a word. -/
def wordSymbol : Symbol := ⟨1, by decide, by decide⟩

/-- The symbol of a document. -/
def documentSymbol : Symbol := ⟨2, by decide, by decide⟩

/-- The grammar of words under a given name and version. -/
def grammar (serial : Nat) (name : String) (version : Nat) : Grammar where
  serial := serial
  name := name
  version := version
  symbols := [⟨"end", .auxiliary⟩, ⟨"word", .regular⟩, ⟨"document", .regular⟩]
  fields := []
  symbols_lt := by decide
  fields_le := Nat.zero_le maxId

/-- The words found so far, newest first, each with its first byte and the byte after its last,
and the number of characters that were read. -/
structure Progress where
  words : List (Nat × Nat)
  read : Nat

/-- Nothing was read yet. -/
def Progress.empty : Progress := ⟨[], 0⟩

/-- The characters after the first that belong to the word that starts with `c`. -/
def restOfWord (c : SourceChar) (cs : List SourceChar) : List SourceChar :=
  cs.takeWhile fun d => !Text.isBlank d.char && d.range == c.range

/-- Reads words until the characters or the `steps` are used up or the interrupt fires. -/
def scan (probes : Nat → Probe) : Nat → List SourceChar → Progress → Interrupt →
    (Bool × Progress) × Interrupt
  | 0, _, p, i => ((false, p), i)
  | _, [], p, i => ((false, p), i)
  | steps + 1, c :: cs, p, i =>
    if Text.isBlank c.char then scan probes steps cs { p with read := p.read + 1 } i
    else
      let i := i.poll probes
      if i.isHalted then ((true, p), i)
      else
        let more := restOfWord c cs
        let stop := (more.getLast?.getD c).stop
        scan probes steps (cs.drop more.length)
          ⟨(c.byte, stop) :: p.words, p.read + more.length + 1⟩ i

/-- The tree of a document with some words, in order. -/
def treeOf (g : Grammar) (s : Source) (generation : Nat) (words : List (Nat × Nat)) :
    Except Fault Tree :=
  let leaf := fun (b : Builder) (w : Nat × Nat) =>
    b.leaf ⟨wordSymbol, none, s.positionAt w.1, s.positionAt w.2, 1, false⟩
  let b := words.foldl leaf ((Builder.new g generation).startNode documentSymbol none)
  b.finishNode.bind fun b => b.finish (s.positionAt s.endOfInput) s.ranges

/-- The engine of words. -/
def engine (g : Grammar) : Engine Progress := fun generation probes task interrupt =>
  let p := task.progress.getD .empty
  let cs := task.source.chars.drop p.read
  match scan probes cs.length cs p interrupt with
  | ((true, p), i) => (.halted p, i)
  | ((false, p), i) =>
    match treeOf g task.source generation p.words.reverse with
    | .ok tree => (.complete tree, i)
    | .error fault => (.failed fault, i)

/-- The language of words under a given name and version. -/
def language (serial : Nat) (name : String) (version : Nat) : Language Progress :=
  let g := grammar serial name version
  ⟨g, engine g⟩

end Reparse.Words
