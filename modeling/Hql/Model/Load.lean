import Hql.Model.Entity

/-!
Models as stored data: entities read from objects and written to objects again. Reading is lenient
about everything but the kind of an entity and the type of a property.
-/

namespace Hql

/-- Why stored data is no model. -/
inductive LoadError where
  | unknownKind (kind : Value)
  | unknownType (type : Value)
  deriving DecidableEq

def LoadError.message : LoadError → String
  | unknownKind v => "Unknown entity kind: " ++ v.shown
  | unknownType v => "Unknown property type: " ++ v.shown

/-- The type that a value names. -/
def PropertyType.ofValue (v : Value) : Except LoadError PropertyType :=
  match v with
  | .string s =>
    match ofName? s with
    | some t => .ok t
    | none => .error (.unknownType v)
  | _ => .error (.unknownType v)

/-- The kind that a value names. -/
def EntityKind.ofValue (v : Value) : Except LoadError EntityKind :=
  match v with
  | .string s =>
    match ofName? s with
    | some k => .ok k
    | none => .error (.unknownKind v)
  | _ => .error (.unknownKind v)

/-- The end of an edge that a value names; none if it is not given. -/
def endOfValue (v : Value) : Option String := if v.isGiven then some v.text else none

namespace Property

/-- The literal text of a stored default. Booleans are written as the language writes them. -/
def defaultOfValue : Value → Option String
  | .null => none
  | .bool true => some "true"
  | .bool false => some "false"
  | v => some v.text

/-- The property that an object describes. -/
def ofValue (data : Value) : Except LoadError Property := do
  let given := data.field "type"
  let type ← PropertyType.ofValue (if given.isGiven then given else .string "String")
  return {
    name := (data.field "name").givenText
    type
    isUnique := (data.field "isUnique").isGiven
    isIndex := (data.field "isIndex").isGiven
    isArray := (data.field "isArray").isGiven
    defaultValue := defaultOfValue (data.field "defaultValue")
    description := data.field "description" }

/-- The object that describes a property. Flags that are off and texts that are not given have no
field. -/
def toValue (p : Property) : Value :=
  .object <|
    [("name", .string p.name), ("type", .string p.type.name)] ++
    (if p.isUnique then [("isUnique", .bool true)] else []) ++
    (if p.isIndex then [("isIndex", .bool true)] else []) ++
    (if p.isArray then [("isArray", .bool true)] else []) ++
    (p.defaultValue.toList.map fun s => ("defaultValue", .string s)) ++
    (if p.description.isGiven then [("description", p.description)] else [])

end Property

namespace Entity

/-- The properties that the items of a list describe. A null leaves a gap. -/
def readProperties : List Value → Except LoadError (List (Option Property))
  | [] => .ok []
  | .null :: vs => do return none :: (← readProperties vs)
  | v :: vs => do
    let p ← Property.ofValue v
    return some p :: (← readProperties vs)

/-- The entity that an object describes, with a gap for each null among its properties. The kind is
looked at before the properties. -/
def ofValueWithGaps (data : Value) : Except LoadError Entity := do
  let kind ← EntityKind.ofValue (data.field "kind")
  let properties ← readProperties (data.field "properties").items
  return {
    id := (data.field "id").givenText
    name := (data.field "name").givenText
    kind
    properties
    description := data.field "description"
    vectorDim := data.field "vectorDim"
    source := endOfValue (data.field "from")
    target := endOfValue (data.field "to")
    isUniqueRelation := (data.field "isUniqueRelation").isGiven }

/-- The entity that an object describes. -/
def ofValue (data : Value) : Except LoadError Entity :=
  return (← ofValueWithGaps data).withoutGaps

/-- The object that describes an entity. -/
def toValue (e : Entity) : Value :=
  .object <|
    [("id", .string e.id), ("name", .string e.name), ("kind", .string e.kind.name),
      ("properties", .list ((e.properties.filterMap fun p => p).map Property.toValue))] ++
    (if e.description.isGiven then [("description", e.description)] else []) ++
    (if e.vectorDim.isNull then [] else [("vectorDim", e.vectorDim)]) ++
    ((setEnd e.source).toList.map fun s => ("from", .string s)) ++
    ((setEnd e.target).toList.map fun s => ("to", .string s)) ++
    (if e.isUniqueRelation then [("isUniqueRelation", .bool true)] else [])

end Entity

/-- The entities that the items of a list describe; nulls are passed over. -/
def loadEntities : List Value → Except LoadError (List Entity)
  | [] => .ok []
  | .null :: vs => loadEntities vs
  | v :: vs => do
    let e ← Entity.ofValue v
    return e :: (← loadEntities vs)

end Hql
