import Reparse.Node.Family
import Reparse.Node.Lookup
import Reparse.Node.Outline
import Reparse.Node.Walk
import Reparse.Tree.Changes
import Reparse.Parser.Basic
import Reparse.C.Engine
import Reparse.Words
import Reparse.Proofs.Conservation
import Reparse.Proofs.Shape
import Reparse.Proofs.Derivation
import Reparse.Proofs.Reading
import Reparse.Proofs.Soundness
import Reparse.Proofs.Completeness
import Reparse.Proofs.Runs
import Reparse.Proofs.Drafts
import Reparse.Proofs.Building
import Reparse.Proofs.Acceptance
import Reparse.Proofs.Decoding
import Reparse.Proofs.Lexing
import Reparse.Proofs.Places
import Reparse.Proofs.Agreement
import Reparse.Proofs.Layout
import Reparse.Proofs.Locality
import Reparse.Proofs.Slices
import Reparse.Proofs.Editing
import Reparse.Proofs.Contents
import Reparse.Proofs.Grafts
import Reparse.Proofs.Resumption
import Reparse.Proofs.ClosedStrings
import Reparse.Proofs.Volumes
import Reparse.Proofs.Growth
import Reparse.Proofs.Differences
import Reparse.Proofs.Simulation
import Reparse.Proofs.Histories
import Reparse.Proofs.Losslessness
import Reparse.Proofs.Progress
import Reparse.Proofs.Capacity
import Reparse.Proofs.Reparsing
import Reparse.Proofs.Locations
import Reparse.Proofs.Motion
import Reparse.Proofs.Charts
import Reparse.Proofs.Guards
import Reparse.Proofs.Starts
import Reparse.Proofs.Lookaheads
import Reparse.Proofs.Marks
import Reparse.Proofs.Cursors
import Reparse.Proofs.Walks
import Reparse.Parser.Fingerprint
import Reparse.Proofs.Handover
import Reparse.Proofs.Encodings
import Reparse.Proofs.Transport
import Reparse.Proofs.Twins
import Reparse.Proofs.Recoding
import Reparse.C.Event
import Reparse.C.Recorder
import Reparse.C.Script
import Reparse.C.Stream
import Reparse.C.Watch
import Reparse.Proofs.Bounds
import Reparse.Proofs.Noting
import Reparse.Proofs.Recording
import Reparse.Proofs.Rounds
import Reparse.Proofs.Streams
import Reparse.Proofs.Tiling
import Reparse.Proofs.Bracketing
import Reparse.Proofs.Iterations
import Reparse.Proofs.Landings
import Reparse.Proofs.Lines
import Reparse.Proofs.Takeovers
import Reparse.Proofs.Replacements
import Reparse.Proofs.Spanning
import Reparse.Proofs.Origins
import Reparse.Proofs.Sessions
import Reparse.Proofs.Kinship
import Reparse.Proofs.Unchanged
import Reparse.Proofs.Sharing
import Reparse.Proofs.IncludedRanges
import Reparse.Proofs.Sources
import Reparse.Proofs.Watches
import Reparse.Interrupt.Monitor
import Reparse.Proofs.Monitors
import Reparse.Proofs.Settings
import Reparse.Proofs.Summaries
import Reparse.Proofs.Lineage
import Reparse.Proofs.Quotations
import Reparse.Proofs.Legibility
import Reparse.Proofs.SExpressions
import Reparse.Proofs.Arithmetic
import Reparse.Grammar.Index
import Reparse.Proofs.Tables
import Reparse.C.Tokenizer
import Reparse.Proofs.Tokenizing
import Reparse.Proofs.Glances
import Reparse.Proofs.Candidates
