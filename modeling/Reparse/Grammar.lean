import Reparse.Text.Quoted

/-!
# Grammars

A grammar is a table of symbols and a table of fields. Ids index the tables directly; slot 0 of
both is reserved, so that an id is never 0. One symbol, `Symbol.error`, belongs to every grammar
and stands outside all tables.
-/

namespace Reparse

/-- The largest id: ids are 16-bit numbers. -/
def maxId : Nat := 65535

/-- There are ids. -/
theorem maxId_pos : 0 < maxId := by decide

/-- The id of a rule or token of a grammar. -/
structure Symbol where
  raw : Nat
  raw_pos : 0 < raw
  raw_le : raw ≤ maxId
deriving DecidableEq, Repr

/-- The id of a named child slot of a grammar. -/
structure FieldId where
  raw : Nat
  raw_pos : 0 < raw
  raw_le : raw ≤ maxId
deriving DecidableEq, Repr

namespace Symbol

/-- The symbol with a given id, unless the id is reserved or too large. -/
def ofNat? (raw : Nat) : Option Symbol :=
  if h : 0 < raw ∧ raw ≤ maxId then some ⟨raw, h.1, h.2⟩ else none

/-- A symbol has the number that it is made of. -/
theorem raw_of_ofNat? {raw : Nat} {s : Symbol} (h : ofNat? raw = some s) : s.raw = raw := by
  unfold ofNat? at h
  split at h
  · cases h
    rfl
  · cases h

/-- The symbol of nodes made by error recovery. -/
def error : Symbol := ⟨maxId, by decide, by decide⟩

/-- The written form of a symbol, as in `Symbol(1)`. -/
def display (s : Symbol) : String := "Symbol(" ++ toString s.raw ++ ")"

end Symbol

namespace FieldId

/-- The field with a given id, unless the id is reserved or too large. -/
def ofNat? (raw : Nat) : Option FieldId :=
  if h : 0 < raw ∧ raw ≤ maxId then some ⟨raw, h.1, h.2⟩ else none

/-- A field id has the number that it is made of. -/
theorem raw_of_ofNat? {raw : Nat} {f : FieldId} (h : ofNat? raw = some f) : f.raw = raw := by
  unfold ofNat? at h
  split at h
  · cases h
    rfl
  · cases h

/-- The written form of a field, as in `FieldId(1)`. -/
def display (f : FieldId) : String := "FieldId(" ++ toString f.raw ++ ")"

end FieldId

/-- How a symbol appears in a tree. -/
inductive SymbolKind where
  /-- A rule or a token with a name of its own. -/
  | regular
  /-- A token named by its text. -/
  | anonymous
  /-- A helper that appears in no tree. -/
  | auxiliary
deriving DecidableEq, Repr

/-- One slot of a symbol table. -/
structure SymbolInfo where
  name : String
  kind : SymbolKind
deriving DecidableEq, Repr

/-- The tables of one language. Grammars with equal tables are told apart by `serial`: two
grammars are the same exactly when they are equal. -/
structure Grammar where
  serial : Nat
  name : String
  version : Nat
  symbols : List SymbolInfo
  fields : List String
  symbols_lt : symbols.length < maxId
  fields_le : fields.length ≤ maxId
deriving DecidableEq, Repr

namespace Grammar

/-- The grammar with the given tables, provided that every slot has an id and none has the id of
`Symbol.error`. -/
def ofTables? (serial : Nat) (name : String) (version : Nat) (symbols : List SymbolInfo)
    (fields : List String) : Option Grammar :=
  if h : symbols.length < maxId ∧ fields.length ≤ maxId then
    some ⟨serial, name, version, symbols, fields, h.1, h.2⟩
  else none

/-- The number of symbol slots, the reserved one included. -/
def symbolCount (g : Grammar) : Nat := g.symbols.length

/-- The number of fields, the reserved slot left out. -/
def fieldCount (g : Grammar) : Nat := g.fields.length - 1

/-- What the grammar says about a symbol; the error symbol is the same in every grammar. -/
def info? (g : Grammar) (s : Symbol) : Option SymbolInfo :=
  if s = .error then some ⟨"ERROR", .regular⟩ else g.symbols[s.raw]?

/-- The name of a symbol. -/
def symbolName? (g : Grammar) (s : Symbol) : Option String := (g.info? s).map (·.name)

/-- The kind of a symbol. -/
def symbolKind? (g : Grammar) (s : Symbol) : Option SymbolKind := (g.info? s).map (·.kind)

/-- Whether nodes of a symbol are named. -/
def isNamed (g : Grammar) (s : Symbol) : Bool := g.symbolKind? s == some .regular

/-- The first id, counted from `next`, whose slot satisfies `p`. -/
def firstId? {α : Type} (p : α → Bool) : Nat → List α → Option Nat
  | _, [] => none
  | next, a :: rest => if p a then some next else firstId? p (next + 1) rest

/-- The last id, counted from `next`, whose slot satisfies `p`, and `found` where none does. -/
def lastId? {α : Type} (p : α → Bool) : Nat → Option Nat → List α → Option Nat
  | _, found, [] => found
  | next, found, a :: rest => lastId? p (next + 1) (if p a then some next else found) rest

/-- The symbol with a given name: among the regular symbols if `named`, else among the anonymous
ones. The first slot wins, and the name of the error symbol always means that symbol. -/
def symbolForName? (g : Grammar) (name : String) (named : Bool) : Option Symbol :=
  if named && name == "ERROR" then some .error
  else
    let kind : SymbolKind := if named then .regular else .anonymous
    (firstId? (fun i => i.kind == kind && i.name == name) 1 g.symbols.tail).bind Symbol.ofNat?

/-- The name of a field. -/
def fieldName? (g : Grammar) (f : FieldId) : Option String := g.fields[f.raw]?

/-- The field with a given name; of several slots the last one wins. -/
def fieldForName? (g : Grammar) (name : String) : Option FieldId :=
  (lastId? (· == name) 1 none g.fields.tail).bind FieldId.ofNat?

/-- A name and a version under a heading, as in `Grammar \x7b name: "c", version: 14 \x7d`. -/
def displayAs (heading : String) (g : Grammar) : String :=
  heading ++ " \x7b name: " ++ Text.readable g.name ++ ", version: " ++ toString g.version ++ " \x7d"

/-- The written form of a grammar. -/
def display (g : Grammar) : String := g.displayAs "Grammar"

end Grammar

end Reparse
