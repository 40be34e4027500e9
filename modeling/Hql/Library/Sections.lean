import Hql.Config
import Hql.Library.Edge
import Hql.Library.Search
import Hql.Query.Printer

/-!
The query library of a model: for each entity the queries that its kind and the flags call for, in
five sections, and the text of all of them.
-/

namespace Hql.Library

/-- The sections of a library, in the order in which they are written. -/
inductive Section where
  | crud | discovery | pathfinding | intelligence | analytics
  deriving DecidableEq, Repr

namespace Section

def all : List Section := [crud, discovery, pathfinding, intelligence, analytics]

def title : Section → String
  | crud => "DATA OPERATIONS (CRUD)"
  | discovery => "SEARCH & DISCOVERY"
  | pathfinding => "PATHFINDING & TRAVERSAL"
  | intelligence => "SMART VIEWS & INSIGHTS"
  | analytics => "CONTEXTUAL ANALYTICS"

/-- The comment above a section. -/
def header (s : Section) : String := "// --- " ++ s.title ++ " ---"

end Section

/-- The queries if a flag is on. -/
def whenOn (flag : Bool) (queries : List Query) : List Query := if flag then queries else []

/-- Reading, writing and deleting nodes. -/
def nodeCrud (flags : CrudFlags) (node : Entity) : List Query :=
  whenOn flags.mutation [createNode node] ++
  whenOn flags.upsert (upsertNode? node).toList ++
  -- one query by id, one for each unique property, one for all
  whenOn flags.basic (nodeById node ::
    (node.namedProperties.filter Property.isUnique).map (nodeByUnique node) ++
    [allNodes node flags.proControl]) ++
  whenOn flags.drop [deleteNode node]

/-- Writing and following edges. -/
def edgeCrud (flags : CrudFlags) (edge : Entity) : List Query :=
  whenOn flags.mutation [connect edge] ++
  whenOn flags.upsert (upsertEdge? edge).toList ++
  whenOn flags.basic [traversal edge]

/-- Reading and writing entities. -/
def crudQueries (flags : CrudFlags) (e : Entity) : List Query :=
  whenOn e.isNode (nodeCrud flags e) ++ whenOn e.isConnected (edgeCrud flags e)

/-- Exploring the network of an edge. -/
def edgeDiscovery (flags : DiscoveryFlags) (edge : Entity) : List Query :=
  whenOn flags.multiHop [twoHop edge] ++
  whenOn flags.mutualConnections [mutualConnections edge]

/-- Searching and storing vectors. -/
def vectorDiscovery (flags : DiscoveryFlags) (vector : Entity) : List Query :=
  whenOn flags.vectorSearch ([vectorSearch vector, hybridSearch vector] ++
    whenOn flags.prefilter ((prefilterProperties vector).flatMap fun p =>
      [vectorSearch vector (some p), hybridSearch vector (some p)])) ++
  whenOn flags.vectorUpsert (addVector vector :: (upsertVector? vector).toList)

/-- Searching texts by keyword, for entities that have one. -/
def keywordDiscovery (flags : DiscoveryFlags) (e : Entity) : List Query :=
  whenOn (flags.keywordSearch && e.namedProperties.any fun p => p.type == .string)
    [keywordSearch e]

/-- Searching entities and exploring their networks. -/
def discoveryQueries (flags : DiscoveryFlags) (e : Entity) : List Query :=
  whenOn e.isConnected (edgeDiscovery flags e) ++
  whenOn e.isVector (vectorDiscovery flags e) ++
  whenOn (e.isNode || e.isVector) (keywordDiscovery flags e)

/-- Paths along edges. -/
def pathfindingQueries (flags : PathfindingFlags) (e : Entity) : List Query :=
  whenOn e.isEdge (
    whenOn flags.bfs [shortestPath e] ++
    whenOn flags.dijkstra ((weightProperty? e).toList.map (weightedPath e)))

/-- Views of nodes with their edges. -/
def intelligenceQueries (flags : IntelligenceFlags) (model : Model) (e : Entity) : List Query :=
  whenOn (e.isNode && flags.richDetail) [deepDetail e model]

/-- Counts and aggregates of nodes. -/
def aggregationQueries (node : Entity) : List Query :=
  countNodes node ::
    (node.namedProperties.filter fun p => !p.isArray && p.type.isNumeric).flatMap fun p =>
      aggregates.filterMap (aggregate? node p)

/-- Groups of nodes by their texts and booleans. -/
def groupingQueries (node : Entity) : List Query :=
  (node.namedProperties.filter fun p =>
    !p.isArray && (p.type == .string || p.type == .boolean)).map (groupBy node)

/-- Aggregates and groups of nodes. -/
def analyticsQueries (flags : AnalyticsFlags) (e : Entity) : List Query :=
  whenOn e.isNode (
    whenOn flags.aggregation (aggregationQueries e) ++
    whenOn flags.grouping (groupingQueries e))

/-- The queries of one entity in one section. -/
def sectionQueries (config : Config) (model : Model) (e : Entity) : Section → List Query
  | .crud => crudQueries config.crud e
  | .discovery => discoveryQueries config.discovery e
  | .pathfinding => pathfindingQueries config.pathfinding e
  | .intelligence => intelligenceQueries config.intelligence model e
  | .analytics => analyticsQueries config.analytics e

/-- The queries of one entity, section by section. -/
structure Group where
  entity : Entity
  queries : Section → List Query

/-- The queries of every entity, in the order of the model. -/
def build (config : Config) (model : Model) : List Group :=
  model.entities.map fun e => ⟨e, sectionQueries config model e⟩

namespace Group

/-- The sections that hold queries, in order. -/
def sections (g : Group) : List (Section × List Query) :=
  (Section.all.map fun s => (s, g.queries s)).filter fun s => !s.2.isEmpty

/-- All queries of an entity, in order. -/
def all (g : Group) : List Query := Section.all.flatMap g.queries

end Group

/-- The text of a section: its header, then its queries with a blank line between two. -/
def sectionText (s : Section × List Query) : String :=
  s.1.header ++ "\n" ++ String.intercalate "\n\n" (s.2.map Query.text)

/-- The text of a library: its sections, entity by entity, with a blank line between two. -/
def print (config : Config) (model : Model) : String :=
  String.intercalate "\n\n" ((build config model).flatMap fun g => g.sections.map sectionText)

end Hql.Library
