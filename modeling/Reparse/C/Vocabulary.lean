import Reparse.Grammar

/-!
# The vocabulary of C

The tokens, rules and fields of a small C, and the grammar whose tables list them.
-/

namespace Reparse.C

/-- The kinds of tokens. -/
inductive Terminal where
  | identifier
  | semicolon
  | equals
  | comma
  | leftParen
  | rightParen
  | leftBrace
  | rightBrace
  | plus
  | minus
  | star
  | slash
  | quote
  | returnKeyword
  | primitiveType
  | numberLiteral
  | stringContent
  | comment
  /-- A character that no token starts with. -/
  | unknown
deriving DecidableEq, Repr

/-- The kinds of nodes with parts. -/
inductive Rule where
  | document
  | declaration
  | initDeclarator
  | functionDefinition
  | functionDeclarator
  | parameterList
  | parameterDeclaration
  | compoundStatement
  | returnStatement
  | expressionStatement
  | assignmentExpression
  | binaryExpression
  | callExpression
  | argumentList
  | parenthesizedExpression
  | stringLiteral
  /-- Tokens that fit no rule. -/
  | error
deriving DecidableEq, Repr

/-- The named slots for parts of a node. -/
inductive Field where
  | arguments
  | body
  | declarator
  | function
  | left
  | operator
  | parameters
  | right
  | type
  | value
deriving DecidableEq, Repr

/-- Ids are positive. -/
theorem pos_of_isId {raw : Nat} (h : 0 < raw ∧ raw ≤ maxId) : 0 < raw := h.1

/-- Ids have 16 bits. -/
theorem le_of_isId {raw : Nat} (h : 0 < raw ∧ raw ≤ maxId) : raw ≤ maxId := h.2

/-- The symbol with a known id. -/
def symbolOf (raw : Nat) (h : 0 < raw ∧ raw ≤ maxId := by decide) : Symbol :=
  ⟨raw, pos_of_isId h, le_of_isId h⟩

/-- The field with a known id. -/
def fieldOf (raw : Nat) (h : 0 < raw ∧ raw ≤ maxId := by decide) : FieldId :=
  ⟨raw, pos_of_isId h, le_of_isId h⟩

/-- The symbol of the nodes made from a token; unknown characters become error nodes. -/
def Terminal.symbol : Terminal → Symbol
  | identifier => symbolOf 1
  | semicolon => symbolOf 2
  | equals => symbolOf 3
  | comma => symbolOf 4
  | leftParen => symbolOf 5
  | rightParen => symbolOf 6
  | leftBrace => symbolOf 7
  | rightBrace => symbolOf 8
  | plus => symbolOf 9
  | minus => symbolOf 10
  | star => symbolOf 11
  | slash => symbolOf 12
  | quote => symbolOf 13
  | returnKeyword => symbolOf 14
  | primitiveType => symbolOf 15
  | numberLiteral => symbolOf 16
  | stringContent => symbolOf 17
  | comment => symbolOf 18
  | unknown => .error

/-- The symbol of the nodes made by a rule. -/
def Rule.symbol : Rule → Symbol
  | document => symbolOf 19
  | declaration => symbolOf 20
  | initDeclarator => symbolOf 21
  | functionDefinition => symbolOf 22
  | functionDeclarator => symbolOf 23
  | parameterList => symbolOf 24
  | parameterDeclaration => symbolOf 25
  | compoundStatement => symbolOf 26
  | returnStatement => symbolOf 27
  | expressionStatement => symbolOf 28
  | assignmentExpression => symbolOf 29
  | binaryExpression => symbolOf 30
  | callExpression => symbolOf 31
  | argumentList => symbolOf 32
  | parenthesizedExpression => symbolOf 33
  | stringLiteral => symbolOf 34
  | error => .error

/-- The id of a field. -/
def Field.id : Field → FieldId
  | arguments => fieldOf 1
  | body => fieldOf 2
  | declarator => fieldOf 3
  | function => fieldOf 4
  | left => fieldOf 5
  | operator => fieldOf 6
  | parameters => fieldOf 7
  | right => fieldOf 8
  | type => fieldOf 9
  | value => fieldOf 10

/-- The names of tokens that are named by their text, by id from 2 on. -/
def literalNames : List String :=
  [";", "=", ",", "(", ")", "\x7b", "\x7d", "+", "-", "*", "/", "\"", "return"]

/-- The names of tokens and rules with a name of their own, by id from 15 on. -/
def ruleNames : List String :=
  ["primitive_type", "number_literal", "string_content", "comment", "translation_unit",
   "declaration", "init_declarator", "function_definition", "function_declarator",
   "parameter_list", "parameter_declaration", "compound_statement", "return_statement",
   "expression_statement", "assignment_expression", "binary_expression", "call_expression",
   "argument_list", "parenthesized_expression", "string_literal"]

/-- The names of fields, by id from 1 on. -/
def fieldNames : List String :=
  ["arguments", "body", "declarator", "function", "left", "operator", "parameters", "right",
   "type", "value"]

/-- The symbol table: between the reserved slot and the helpers that stand for the end of the
input and for unknown characters come all tokens and rules. -/
def symbols : List SymbolInfo :=
  [⟨"end", .auxiliary⟩, ⟨"identifier", .regular⟩] ++
    literalNames.map (⟨·, .anonymous⟩) ++ ruleNames.map (⟨·, .regular⟩) ++
    [⟨"_eof", .auxiliary⟩, ⟨"_unknown", .auxiliary⟩]

/-- The grammar of C. -/
def grammar : Grammar where
  serial := 0
  name := "c"
  version := 14
  symbols := symbols
  fields := "" :: fieldNames
  symbols_lt := by decide
  fields_le := by decide

/-- The field of C with a given name. -/
def fieldForName? (name : String) : Option FieldId := grammar.fieldForName? name

end Reparse.C
