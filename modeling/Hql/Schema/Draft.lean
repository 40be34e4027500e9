import Hql.Literal
import Hql.Schema.Token

/-!
From the tokens of a schema to its entities. A draft holds the entities that are complete and the
parts of the one that is being read.
-/

namespace Hql.Schema

/-- Why a text is no schema: a character or the end of the text where no token may stand, or a type
that the language does not have. Offsets count the characters before the place of the fault. -/
inductive Fault where
  | unexpected (offset : Nat)
  | unfinished (offset : Nat)
  | unknownType (name : String) (offset : Nat)
  deriving DecidableEq, Repr

def Fault.offset : Fault → Nat
  | unexpected n | unfinished n | unknownType _ n => n

/-- A field that is being read. Its type is only looked up when the token after it is there. -/
structure FieldDraft where
  name : String := ""
  isUnique : Bool := false
  isIndex : Bool := false
  isArray : Bool := false
  typeName : String := ""
  typeOffset : Nat := 0
  type : PropertyType := .string
  default : Option String := none
  items : List String := []

/-- The property that a field declares. -/
def FieldDraft.property (f : FieldDraft) : Property where
  name := f.name
  type := f.type
  isUnique := f.isUnique
  isIndex := f.isIndex
  isArray := f.isArray
  defaultValue := f.default

/-- The complete entities, and the parts of the entity and of the field that are being read. -/
structure Draft where
  entities : List Entity := []
  kind : EntityKind := .node
  name : String := ""
  isUniqueRelation : Bool := false
  source : Option String := none
  target : Option String := none
  properties : List Property := []
  field : FieldDraft := {}

namespace Draft

/-- The end of an edge that a name stands for. -/
def endOf (name : String) : Option String := if name = undefinedEnd then none else some name

/-- The draft at the start of a definition. -/
def start (d : Draft) (kind : EntityKind) : Draft := { entities := d.entities, kind }

/-- The entity that has been read. Its id tells its kind and its position in the text. -/
def entity (d : Draft) : Entity where
  id := d.kind.lowerName ++ "-" ++ toString d.entities.length
  name := d.name
  kind := d.kind
  properties := d.properties.map some
  source := d.source
  target := d.target
  isUniqueRelation := d.isUniqueRelation

/-- The draft at the end of a definition. -/
def finish (d : Draft) : Draft := { d with entities := d.entities ++ [d.entity] }

/-- The draft with a change to the field that is being read. -/
def withField (d : Draft) (change : FieldDraft → FieldDraft) : Draft :=
  { d with field := change d.field }

/-- The draft at the end of a field. -/
def finishField (d : Draft) : Draft :=
  { d with properties := d.properties ++ [d.field.property], field := {} }

/-- The draft after the mark that ends a field: a closing brace of a node or vector ends the
definition as well. -/
def endField (d : Draft) (owner : Owner) (m : Mark) : Draft :=
  if m = .closeBrace && owner = .plain then d.finishField.finish else d.finishField

/-- The draft with the type of its field looked up. -/
def resolveType (d : Draft) : Except Fault Draft :=
  match PropertyType.ofName? d.field.typeName with
  | some type => .ok (d.withField fun f => { f with type })
  | none => .error (.unknownType d.field.typeName d.field.typeOffset)

/-- The text between the quotes of a quoted lexeme. -/
def quotedText (lexeme : List Char) : String :=
  String.ofList (Literal.unescape false (lexeme.drop 1).dropLast)

/-- The text of a list of items. -/
def listText (items : List String) : String := "[" ++ String.intercalate ", " items ++ "]"

/-- The draft after one more token. -/
def push (d : Draft) (t : Token) : Except Fault Draft :=
  let word := String.ofList t.lexeme
  match t.place, t.terminal with
  -- the head of a definition
  | .outside, .mark .node => .ok (d.start .node)
  | .outside, .mark .edge => .ok (d.start .edge)
  | .outside, .mark .vector => .ok (d.start .vector)
  | .entityName _, _ => .ok { d with name := word }
  | .head _, .mark .unique => .ok { d with isUniqueRelation := true }
  -- the clauses of an edge: of a clause that is repeated the last counts
  | .clauses, .mark .closeBrace => .ok d.finish
  | .sideName .source, _ => .ok { d with source := endOf word }
  | .sideName .target, _ => .ok { d with target := endOf word }
  | .propertiesBody, _ => .ok { d with properties := [] }
  | .clauseEnd, .mark .closeBrace => .ok d.finish
  -- a field up to its type
  | .fields _, .mark .index => .ok (d.withField fun f => { f with isIndex := true })
  | .fields .plain, .mark .closeBrace => .ok d.finish
  | .fields _, .name => .ok (d.withField fun f => { f with name := word })
  | .afterUnique _, _ => .ok (d.withField fun f => { f with isUnique := true })
  | .fieldName _, _ => .ok (d.withField fun f => { f with name := word })
  | .fieldType _, .mark .openBracket => .ok (d.withField fun f => { f with isArray := true })
  | .fieldType _, _ | .itemType _, _ =>
    .ok (d.withField fun f => { f with typeName := word, typeOffset := t.offset })
  -- any token that may follow a type has the type looked up
  | .afterType _, .mark .default => d.resolveType
  | .afterType o, .mark m => do return (← d.resolveType).endField o m
  -- the default of a field: numbers, names and the items of lists keep their text
  | .fieldDefault _, .quoted =>
    .ok (d.withField fun f => { f with default := some (quotedText t.lexeme) })
  | .fieldDefault _, .mark .openBracket => .ok (d.withField fun f => { f with items := [] })
  | .fieldDefault _, _ => .ok (d.withField fun f => { f with default := some word })
  | .fieldEnd o, .mark m => .ok (d.endField o m)
  | .firstItem _, .mark .closeBracket | .afterItem _, .mark .closeBracket =>
    .ok (d.withField fun f => { f with default := some (listText f.items) })
  | .firstItem _, _ | .nextItem _, _ =>
    .ok (d.withField fun f => { f with items := f.items ++ [word] })
  | _, _ => .ok d

end Draft

/-- The entities that the tokens of a text define. A token with an unknown type before it is a fault
ahead of whatever is wrong after it; a text that ends too early is at fault at its last token. -/
def entitiesOf (tokens : List Token) (ending : Ending) : Except Fault (List Entity) := do
  let draft ← tokens.foldlM Draft.push {}
  match ending with
  | .complete => .ok draft.entities
  | .unexpected offset => .error (.unexpected offset)
  | .unfinished => .error (.unfinished ((tokens.getLast?.map Token.offset).getD 0))

end Hql.Schema
