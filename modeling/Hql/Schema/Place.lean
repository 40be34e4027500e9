import Hql.Model.Entity

/-!
The grammar of schemas as an automaton. A place stands between two tokens of a schema and says what
may come next.

A schema is a sequence of definitions:

* `N::Name { fields }` and `V::Name { fields }`,
* `E::Name UNIQUE { From: A, To: B, Properties: { fields } }`, where `UNIQUE` may be missing and the
  clauses may be missing, be repeated and come in any order.

A field is `UNIQUE INDEX name: Type DEFAULT literal`. It may have `INDEX` alone or no modifier, the
type may stand in brackets, and the default may be missing. Fields and clauses are separated by
commas, and a comma may follow the last of them.
-/

namespace Hql.Schema

/-- The fixed texts of schemas. -/
inductive Mark where
  | node | edge | vector | source | target | properties | unique | index | default
  | colons | colon | comma | openBrace | closeBrace | openBracket | closeBracket
  deriving DecidableEq, Repr

namespace Mark

def all : List Mark := [
  node, edge, vector, source, target, properties, unique, index, default,
  colons, colon, comma, openBrace, closeBrace, openBracket, closeBracket]

def text : Mark → String
  | node => "N"
  | edge => "E"
  | vector => "V"
  | source => "From"
  | target => "To"
  | properties => "Properties"
  | unique => "UNIQUE"
  | index => "INDEX"
  | default => "DEFAULT"
  | colons => "::"
  | colon => ":"
  | comma => ","
  | openBrace => "\x7b"
  | closeBrace => "\x7d"
  | openBracket => "["
  | closeBracket => "]"

theorem mem_all (m : Mark) : m ∈ all := by cases m <;> decide

/-- The letter that starts the definition of an entity. -/
def ofKind : EntityKind → Mark
  | .node => node
  | .edge => edge
  | .vector => vector

end Mark

/-- The kinds of tokens. -/
inductive Terminal where
  | mark (m : Mark)
  | name | quoted | number
  deriving DecidableEq, Repr

/-- What a list of fields belongs to. -/
inductive Owner where
  | plain | edge
  deriving DecidableEq, Repr

/-- The two ends of an edge. -/
inductive Side where
  | source | target
  deriving DecidableEq, Repr

/-- The places of a schema. -/
inductive Place where
  | outside
  | letter (kind : EntityKind)
  | entityName (kind : EntityKind)
  | head (kind : EntityKind)
  | uniqueHead
  | clauses
  | sideColon (side : Side)
  | sideName (side : Side)
  | propertiesColon
  | propertiesBody
  | clauseEnd
  | fields (owner : Owner)
  | afterUnique (owner : Owner)
  | fieldName (owner : Owner)
  | fieldColon (owner : Owner)
  | fieldType (owner : Owner)
  | itemType (owner : Owner)
  | itemTypeEnd (owner : Owner)
  | afterType (owner : Owner)
  | fieldDefault (owner : Owner)
  | fieldEnd (owner : Owner)
  | firstItem (owner : Owner)
  | afterItem (owner : Owner)
  | nextItem (owner : Owner)
  deriving DecidableEq, Repr

namespace Place

/-- The place after the fields of an owner have been closed. -/
def closed : Owner → Place
  | .plain => outside
  | .edge => clauseEnd

/-- The place after a field, which a comma or a closing brace ends. -/
def afterField (owner : Owner) : Mark → Option Place
  | .comma => some (fields owner)
  | .closeBrace => some (closed owner)
  | _ => none

/-- The place after a token, if the token may stand here. -/
def next : Place → Terminal → Option Place
  -- the head of a definition
  | outside, .mark .node => some (letter .node)
  | outside, .mark .edge => some (letter .edge)
  | outside, .mark .vector => some (letter .vector)
  | letter k, .mark .colons => some (entityName k)
  | entityName k, .name => some (head k)
  | head .edge, .mark .unique => some uniqueHead
  | head .edge, .mark .openBrace => some clauses
  | head _, .mark .openBrace => some (fields .plain)
  | uniqueHead, .mark .openBrace => some clauses
  -- the clauses of an edge
  | clauses, .mark .source => some (sideColon .source)
  | clauses, .mark .target => some (sideColon .target)
  | clauses, .mark .properties => some propertiesColon
  | clauses, .mark .closeBrace => some outside
  | sideColon s, .mark .colon => some (sideName s)
  | sideName _, .name => some clauseEnd
  | propertiesColon, .mark .colon => some propertiesBody
  | propertiesBody, .mark .openBrace => some (fields .edge)
  | clauseEnd, .mark .comma => some clauses
  | clauseEnd, .mark .closeBrace => some outside
  -- the modifiers and the name of a field
  | fields o, .mark .unique => some (afterUnique o)
  | fields o, .mark .index => some (fieldName o)
  | fields o, .name => some (fieldColon o)
  | fields o, .mark .closeBrace => some (closed o)
  | afterUnique o, .mark .index => some (fieldName o)
  | fieldName o, .name => some (fieldColon o)
  -- the type of a field
  | fieldColon o, .mark .colon => some (fieldType o)
  | fieldType o, .name => some (afterType o)
  | fieldType o, .mark .openBracket => some (itemType o)
  | itemType o, .name => some (itemTypeEnd o)
  | itemTypeEnd o, .mark .closeBracket => some (afterType o)
  | afterType o, .mark .default => some (fieldDefault o)
  | afterType o, .mark m => afterField o m
  -- the default of a field
  | fieldDefault o, .quoted => some (fieldEnd o)
  | fieldDefault o, .number => some (fieldEnd o)
  | fieldDefault o, .name => some (fieldEnd o)
  | fieldDefault o, .mark .openBracket => some (firstItem o)
  | fieldEnd o, .mark m => afterField o m
  -- the items of a list; no comma follows the last
  | firstItem o, .quoted => some (afterItem o)
  | firstItem o, .number => some (afterItem o)
  | firstItem o, .name => some (afterItem o)
  | firstItem o, .mark .closeBracket => some (fieldEnd o)
  | afterItem o, .mark .comma => some (nextItem o)
  | afterItem o, .mark .closeBracket => some (fieldEnd o)
  | nextItem o, .quoted => some (afterItem o)
  | nextItem o, .number => some (afterItem o)
  | nextItem o, .name => some (afterItem o)
  | _, _ => none

/-- A token of this kind may stand here. -/
def accepts (p : Place) (t : Terminal) : Bool := (p.next t).isSome

end Place

end Hql.Schema
