import Hql.Model.Property

/-!
Entities: the nodes, edges and vectors of a model, in the order in which their author keeps them.
-/

namespace Hql

/-- The kinds of entities. -/
inductive EntityKind where
  | node | edge | vector
  deriving DecidableEq, Repr

namespace EntityKind

def all : List EntityKind := [node, edge, vector]

/-- The name of a kind in stored models. -/
def name : EntityKind → String
  | node => "Node"
  | edge => "Edge"
  | vector => "Vector"

/-- The name of a kind in identifiers. -/
def lowerName : EntityKind → String
  | node => "node"
  | edge => "edge"
  | vector => "vector"

def ofName? (s : String) : Option EntityKind := all.find? fun k => k.name = s

/-- The fields that the database manages for entities of a kind, in alphabetical order. -/
def reservedFields : EntityKind → List String
  | node => ["id", "label", "type", "version"]
  | edge => ["from_node", "id", "label", "to_node", "type", "version"]
  | vector => ["data", "id", "label", "score", "type", "version"]

end EntityKind

/-- A node, edge or vector. Its list of properties may have gaps, which count for the positions of
the properties and for nothing else. `source`, `target` and `isUniqueRelation` describe edges,
`vectorDim` describes vectors. -/
structure Entity where
  id : String
  name : String
  kind : EntityKind
  properties : List (Option Property) := []
  description : Value := .null
  vectorDim : Value := .null
  source : Option String := none
  target : Option String := none
  isUniqueRelation : Bool := false
  deriving DecidableEq

/-- A model lists entities and may have gaps, which stand for nothing. -/
abbrev Model := List (Option Entity)

/-- The entities of a model, in order. -/
def Model.entities (model : Model) : List Entity := model.filterMap fun e => e

/-- An end of an edge is set when it is there and not empty. -/
def setEnd (name : Option String) : Option String := name.filter fun s => s ≠ ""

/-- What is written for the end of an edge that is not set. -/
def undefinedEnd : String := "Undefined"

/-- The end of an edge as it is written. -/
def endName (name : Option String) : String := (setEnd name).getD undefinedEnd

namespace Entity

/-- The properties with a name, in order. -/
def namedProperties (e : Entity) : List Property :=
  (e.properties.filterMap fun p => p).filter fun p => p.name ≠ ""

def isNode (e : Entity) : Bool := e.kind = .node

def isEdge (e : Entity) : Bool := e.kind = .edge

def isVector (e : Entity) : Bool := e.kind = .vector

/-- An edge with both ends set. -/
def isConnected (e : Entity) : Bool :=
  e.isEdge && (setEnd e.source).isSome && (setEnd e.target).isSome

/-- The entity without the gaps of its properties. -/
def withoutGaps (e : Entity) : Entity :=
  { e with properties := e.properties.filter Option.isSome }

end Entity

end Hql
