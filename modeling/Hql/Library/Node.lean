import Hql.Naming
import Hql.Query.Fragment
import Hql.Text.Case

/-!
Queries about nodes: creating, reading and deleting them, their view with edge counts, and
aggregates over their properties.
-/

namespace Hql.Library

open Fragment Naming

/-- The parameters that carry properties. -/
def propertyParams (ps : List Property) : List (String × String) :=
  ps.map fun p => (p.name, p.typeName)

/-- The entity of this type whose id is the parameter `id`. -/
def byIdParam (origin : String) (e : Entity) : Fragment :=
  source origin (some e.name) (some [text "id"]) [] false

/-- Creates a node from its properties. -/
def createNode (node : Entity) : Query where
  name := "Create" ++ pascalCase node.name
  params := propertyParams node.namedProperties
  statements :=
    let args := match node.namedProperties with
      | [] => none
      | ps => some [assignAll ps]
    [assignment "new_node" (source "AddN" (some node.name) args [] false)]
  returns := text "new_node"

/-- Creates or changes a node; nothing for one without properties. -/
def upsertNode? (node : Entity) : Option Query :=
  match node.namedProperties with
  | [] => none
  | ps => some {
      name := "Upsert" ++ pascalCase node.name
      params := ("id", "ID") :: propertyParams ps
      statements := [
        assignment "existing" (byIdParam "N" node),
        assignment "upsert_node"
          (source "existing" none none [step "UpsertN" none (some [assignAll ps]) false] false)]
      returns := text "upsert_node" }

/-- Reads a node by its id. -/
def nodeById (node : Entity) : Query where
  name := "Get" ++ pascalCase node.name ++ "ById"
  params := [("id", "ID")]
  statements := [assignment "result" (byIdParam "N" node)]
  returns := text "result"

/-- Reads nodes by the value of a unique property. -/
def nodeByUnique (node : Entity) (p : Property) : Query where
  name := "Get" ++ pascalCase node.name ++ "By" ++ pascalCase p.name
  params := [("val", p.typeName)]
  statements :=
    let condition := (property p.name).op "EQ" (some [text "val"])
    [assignment "result"
      (source "N" (some node.name) none [step "WHERE" none (some [condition]) false] false)]
  returns := text "result"

/-- Reads all nodes in slices. With `proControl` they are ordered and the slice may start
anywhere. -/
def allNodes (node : Entity) (proControl : Bool) : Query :=
  if proControl then {
    name := "GetAll" ++ pascalCase node.name
    params := [("offset", "I32"), ("limit", "I32"), ("order_field", "String"),
      ("is_desc", "Boolean")]
    statements := [assignment "results"
      (source "N" (some node.name) none
        [step "ORDER" (some "Asc") (some [identity]) false,
          step "RANGE" none (some [text "offset", text "limit"]) false] true)]
    returns := text "results" }
  else {
    name := "GetAll" ++ pascalCase node.name
    params := [("limit", "I32")]
    statements := [assignment "results"
      (source "N" (some node.name) none
        [step "RANGE" none (some [text "0", text "limit"]) false] false)]
    returns := text "results" }

/-- Deletes a node by its id. -/
def deleteNode (node : Entity) : Query where
  name := "Delete" ++ pascalCase node.name
  params := [("id", "ID")]
  statements := [drop (byIdParam "N" node)]
  returns := literal "Deleted"

/-- The edges of a model that start or end at a node, in order. -/
def relatedEdges (node : Entity) (model : Model) : List Entity :=
  model.entities.filter fun e =>
    e.isEdge && (e.source == some node.name || e.target == some node.name)

/-- A view counts the edges of at most this many edge types. -/
def maxEdgeCounts : Nat := 3

/-- The field that counts the edges of one type at a node. -/
def edgeCount (node edge : Entity) : String × Fragment :=
  let direction := if edge.source == some node.name then "OutE" else "InE"
  (Text.lowercase edge.name ++ "_count",
    ((ident "_").op direction none (some edge.name)).op "COUNT")

/-- Reads a node with its properties and the counts of its edges. -/
def deepDetail (node : Entity) (model : Model) : Query where
  name := "Get" ++ pascalCase node.name ++ "DeepDetail"
  params := [("id", "ID")]
  statements :=
    let fields := ("node_id", identity) ::
      node.namedProperties.map (fun p => (p.name, ident p.name)) ++
      ((relatedEdges node model).take maxEdgeCounts).map (edgeCount node)
    [assignment "origin" (byIdParam "N" node),
      assignment "detail" (source "origin" none none [projection fields] false)]
  returns := text "detail"

/-- Counts the nodes of a type. -/
def countNodes (node : Entity) : Query where
  name := "Count" ++ pascalCase node.name
  statements := [assignment "total"
    (source "N" (some node.name) none [step "COUNT" none none false] false)]
  returns := text "total"

/-- The aggregates that are offered for numeric properties. -/
def aggregates : List String := ["SUM", "AVG", "MIN", "MAX"]

/-- A function name with all letters but the first in lower case. -/
def titleCase (function : String) : String :=
  match function.toList with
  | [] => ""
  | c :: cs => String.ofList (c :: Text.lower cs)

/-- Aggregates one property over all nodes of a type. `MIN` and `MAX` take two arguments, so there
is nothing for them. -/
def aggregate? (node : Entity) (p : Property) (function : String) : Option Query :=
  if function = "MIN" || function = "MAX" then none
  else some {
    name := titleCase function ++ pascalCase node.name ++ pascalCase p.name
    statements := [assignment "result" (source "N" (some node.name) none [] false)]
    returns := call function [property p.name "result"] }

/-- Groups nodes by a property. -/
def groupBy (node : Entity) (p : Property) : Query where
  name := "GroupBy" ++ pascalCase node.name ++ "By" ++ pascalCase p.name
  statements := [assignment "groups"
    (source "N" (some node.name) none [step "GROUP_BY" none (some [text p.name]) false] false)]
  returns := text "groups"

end Hql.Library
