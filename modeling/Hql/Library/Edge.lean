import Hql.Library.Node

/-!
Queries about edges: connecting nodes, following edges, and paths along them.
-/

namespace Hql.Library

open Fragment Naming

/-- The parameters of a connection: both ends and the properties of the edge. -/
def edgeParams (edge : Entity) : List (String × String) :=
  ("from_id", "ID") :: ("to_id", "ID") :: propertyParams edge.namedProperties

/-- The steps that name the ends of a connection. -/
def connectionSteps : List Fragment :=
  [step "From" none (some [text "from_id"]) false, step "To" none (some [text "to_id"]) false]

/-- A chain from the node at the start of an edge, which a parameter gives. -/
def fromStart (edge : Entity) (param : String) (steps : List Fragment) (multiline : Bool) :
    Fragment :=
  source "N" (some (endName edge.source)) (some [text param]) steps multiline

/-- Connects two nodes. -/
def connect (edge : Entity) : Query where
  name := "Connect" ++ pascalCase edge.name
  params := edgeParams edge
  statements :=
    let args := match edge.namedProperties with
      | [] => none
      | ps => some [assignAll ps]
    [assignment "edge" (source "AddE" (some edge.name) args connectionSteps false)]
  returns := text "edge"

/-- Connects two nodes or changes their connection; nothing for an edge without properties. -/
def upsertEdge? (edge : Entity) : Option Query :=
  match edge.namedProperties with
  | [] => none
  | ps => some {
      name := "Upsert" ++ pascalCase edge.name
      params := edgeParams edge
      statements := [assignment "edge"
        (source "E" (some edge.name) none
          (step "UpsertE" none (some [assignAll ps]) false :: connectionSteps) false)]
      returns := text "edge" }

/-- Follows an edge from a node. -/
def traversal (edge : Entity) : Query where
  name := "Get" ++ pascalCase edge.name ++ "Of" ++ pascalCase (edge.source.getD "")
  params := [("start_id", "ID")]
  statements := [assignment "results"
    (fromStart edge "start_id" [step "Out" (some edge.name) none false] false)]
  returns := text "results"

/-- Explores the network around a node: two hops along an edge that leads back to its own type, one
hop along any other. -/
def twoHop (edge : Entity) : Query where
  name := "Explore" ++ pascalCase edge.name ++ "Network"
  params := [("start_id", "ID"), ("limit", "I32")]
  statements :=
    let hop := step "Out" (some edge.name) none false
    let hops := if edge.source == edge.target then [hop, hop] else [hop]
    [assignment "network" (fromStart edge "start_id"
      (hops ++ [step "RANGE" none (some [text "0", text "limit"]) false]) true)]
  returns := text "network"

/-- Finds the nodes that are connected with a node both ways. -/
def mutualConnections (edge : Entity) : Query where
  name := "GetMutual" ++ pascalCase edge.name
  params := [("a_id", "ID"), ("b_id", "ID")]
  statements :=
    let reciprocal := ((ident "_").op "In" none (some edge.name)).op "WHERE"
      (some [identity.op "EQ" (some [text "b_id"])])
    [assignment "mutual" (fromStart edge "a_id"
      [step "Out" (some edge.name) none true,
        step "WHERE" none (some [call "EXISTS" [reciprocal]]) false] true)]
  returns := text "mutual"

/-- The first numeric property of an edge weighs its paths. -/
def weightProperty? (edge : Entity) : Option Property :=
  edge.namedProperties.find? fun p => p.type.isNumeric

/-- A path between two nodes. -/
def pathQuery (edge : Entity) (title : String) (search : Fragment) : Query where
  name := title ++ pascalCase edge.name
  params := [("start", "ID"), ("end", "ID")]
  statements := [assignment "path" (fromStart edge "start"
    [search, step "To" none (some [text "end"]) true] true)]
  returns := text "path"

/-- The shortest path between two nodes. -/
def shortestPath (edge : Entity) : Query :=
  pathQuery edge "ShortestPath" (step "ShortestPathBFS" (some edge.name) none false)

/-- The path of least weight between two nodes. -/
def weightedPath (edge : Entity) (weight : Property) : Query :=
  pathQuery edge "WeightedPath"
    (step "ShortestPathDijkstras" (some edge.name) (some [property weight.name]) false)

end Hql.Library
