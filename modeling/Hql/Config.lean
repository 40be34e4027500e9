import Hql.Value

/-!
The flags that decide which queries a library holds, in five categories.
-/

namespace Hql

/-- Single entities and the edges between them. -/
structure CrudFlags where
  basic : Bool := true
  mutation : Bool := true
  upsert : Bool := true
  drop : Bool := true
  proControl : Bool := true
  deriving DecidableEq, Repr

/-- Search and exploration. -/
structure DiscoveryFlags where
  keywordSearch : Bool := true
  vectorSearch : Bool := false
  vectorUpsert : Bool := false
  prefilter : Bool := false
  multiHop : Bool := true
  mutualConnections : Bool := false
  deriving DecidableEq, Repr

/-- Views that join an entity with its edges. -/
structure IntelligenceFlags where
  richDetail : Bool := true
  deriving DecidableEq, Repr

/-- Paths along edges. -/
structure PathfindingFlags where
  bfs : Bool := false
  dijkstra : Bool := false
  deriving DecidableEq, Repr

/-- Aggregates over the properties of nodes. -/
structure AnalyticsFlags where
  aggregation : Bool := true
  grouping : Bool := true
  deriving DecidableEq, Repr

/-- The flags of a query library. -/
structure Config where
  crud : CrudFlags := {}
  discovery : DiscoveryFlags := {}
  intelligence : IntelligenceFlags := {}
  pathfinding : PathfindingFlags := {}
  analytics : AnalyticsFlags := {}
  deriving DecidableEq, Repr

namespace Config

/-- All flags on, or all off. -/
def uniform (on : Bool) : Config where
  crud := ⟨on, on, on, on, on⟩
  discovery := ⟨on, on, on, on, on, on⟩
  intelligence := ⟨on⟩
  pathfinding := ⟨on, on⟩
  analytics := ⟨on, on⟩

/-- A stored flag. One that is not stored keeps its default. -/
def readFlag (category : Value) (name : String) (default : Bool) : Bool :=
  match category with
  | .object fields => ((fields.lookup name).map Value.isGiven).getD default
  | _ => default

/-- The flags that an object stores. A category that is no object has its defaults. The category
`analytics` may be stored under the name `grouping` instead. -/
def ofValue (data : Value) : Config :=
  let crud := readFlag (data.field "crud")
  let discovery := readFlag (data.field "discovery")
  let intelligence := readFlag (data.field "intelligence")
  let pathfinding := readFlag (data.field "pathfinding")
  let stored := data.field "analytics"
  let analytics := readFlag (if stored.isNull then data.field "grouping" else stored)
  { crud := {
      basic := crud "basic" true
      mutation := crud "mutation" true
      upsert := crud "upsert" true
      drop := crud "drop" true
      proControl := crud "pro_control" true }
    discovery := {
      keywordSearch := discovery "keyword_search" true
      vectorSearch := discovery "vector_search" false
      vectorUpsert := discovery "vector_upsert" false
      prefilter := discovery "prefilter" false
      multiHop := discovery "multi_hop" true
      mutualConnections := discovery "mutual_connections" false }
    intelligence := { richDetail := intelligence "rich_detail" true }
    pathfinding := {
      bfs := pathfinding "bfs" false
      dijkstra := pathfinding "dijkstra" false }
    analytics := {
      aggregation := analytics "aggregation" true
      grouping := analytics "grouping" true } }

/-- The object that stores every flag. -/
def toValue (c : Config) : Value :=
  .object [
    ("crud", .object [
      ("basic", .bool c.crud.basic), ("mutation", .bool c.crud.mutation),
      ("upsert", .bool c.crud.upsert), ("drop", .bool c.crud.drop),
      ("pro_control", .bool c.crud.proControl)]),
    ("discovery", .object [
      ("keyword_search", .bool c.discovery.keywordSearch),
      ("vector_search", .bool c.discovery.vectorSearch),
      ("vector_upsert", .bool c.discovery.vectorUpsert),
      ("prefilter", .bool c.discovery.prefilter),
      ("multi_hop", .bool c.discovery.multiHop),
      ("mutual_connections", .bool c.discovery.mutualConnections)]),
    ("intelligence", .object [("rich_detail", .bool c.intelligence.richDetail)]),
    ("pathfinding", .object [
      ("bfs", .bool c.pathfinding.bfs), ("dijkstra", .bool c.pathfinding.dijkstra)]),
    ("analytics", .object [
      ("aggregation", .bool c.analytics.aggregation),
      ("grouping", .bool c.analytics.grouping)])]

end Config

end Hql
