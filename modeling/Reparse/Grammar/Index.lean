import Reparse.Grammar

/-!
# Indexes

The maps that names are looked up in, filled once, slot by slot, from the tables of a grammar. The id of a
slot is its number as a 16-bit word, and a map cannot be filled if that is the reserved id. Of the symbols
with one name the first one stays, of the fields the last one, and the error symbol takes its name from
whatever symbol has it.
-/

namespace Reparse.Grammar

/-- A map from names to ids. -/
structure NameMap (ι : Type) where
  find? : String → Option ι

namespace NameMap

variable {ι : Type}

/-- The map without names. -/
def empty : NameMap ι := ⟨fun _ => none⟩

/-- Enters an id under a name, in the place of the one that is there. -/
def insert (m : NameMap ι) (name : String) (id : ι) : NameMap ι :=
  ⟨fun other => if other = name then some id else m.find? other⟩

/-- Enters an id under a name that has none. -/
def insertNew (m : NameMap ι) (name : String) (id : ι) : NameMap ι :=
  match m.find? name with
  | some _ => m
  | none => m.insert name id

end NameMap

/-- The number of a slot as a 16-bit word, without what goes beyond one. -/
def toWord (number : Nat) : Nat := number % (maxId + 1)

/-- The maps for the names of a grammar. -/
structure Index where
  regular : NameMap Symbol
  anonymous : NameMap Symbol
  fields : NameMap FieldId

namespace Index

/-- The index without names. -/
def empty : Index := ⟨.empty, .empty, .empty⟩

/-- Enters the symbol of a slot, unless it is a helper or its name has a symbol. -/
def enterSymbol (x : Index) (slot : SymbolInfo × Nat) : Option Index :=
  (Symbol.ofNat? (toWord slot.2)).map fun s =>
    match slot.1.kind with
    | .regular => { x with regular := x.regular.insertNew slot.1.name s }
    | .anonymous => { x with anonymous := x.anonymous.insertNew slot.1.name s }
    | .auxiliary => x

/-- Enters the error symbol under its name. -/
def enterError (x : Index) : Index := { x with regular := x.regular.insert "ERROR" .error }

/-- Enters the field of a slot. -/
def enterField (x : Index) (slot : String × Nat) : Option Index :=
  (FieldId.ofNat? (toWord slot.2)).map fun f => { x with fields := x.fields.insert slot.1 f }

/-- The index of some tables, if every slot after the first has an id. -/
def ofTables? (symbols : List SymbolInfo) (fields : List String) : Option Index := do
  let x ← (symbols.tail.zipIdx 1).foldlM enterSymbol empty
  (fields.tail.zipIdx 1).foldlM enterField x.enterError

/-- The symbols of one kind by their names. -/
def symbols (x : Index) (named : Bool) : NameMap Symbol := if named then x.regular else x.anonymous

end Index

end Reparse.Grammar
