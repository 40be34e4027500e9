import Hql.Proofs.Library.Core

/-!
The sections of a library and the cores of a model. Only the view of a node looks at other entities,
and all it reads of them is which edges name the node.
-/

namespace Hql

/-- The model of the cores. -/
def Model.core (model : Model) : Model := (model.entities.map Entity.core).map some

theorem Model.entities_core (model : Model) :
    model.core.entities = model.entities.map Entity.core :=
  Schema.entities_map_some _

namespace Library

/-! ### Views -/

/-- An end that is not set names no entity with a name. -/
theorem setEnd_beq_some {s : String} (h : s ≠ "") (name : Option String) :
    (setEnd name == some s) = (name == some s) := by
  cases name with
  | none => rfl
  | some t =>
    rw [setEnd, Option.filter_some]
    split
    · rfl
    · next hempty =>
      have ht : t = "" := by simpa using hempty
      have hne : t ≠ s := ht ▸ h.symm
      have hfalse : (some t == some s) = false := beq_eq_false_iff_ne.2 fun heq =>
        hne (Option.some.inj heq)
      rw [hfalse]
      rfl

theorem edgeCount_core {node edge : Entity} (hname : node.name ≠ "") (h : edge.isEdge = true) :
    edgeCount node.core edge.core = edgeCount node edge := by
  have hdirection : (edge.core.source == some node.core.name) =
      (edge.source == some node.name) := by
    rw [Entity.source_core h, Entity.name_core, setEnd_beq_some hname]
  rw [edgeCount, edgeCount, hdirection]
  rfl

theorem relatedEdges_core {node : Entity} (hname : node.name ≠ "") (model : Model) :
    relatedEdges node.core model.core = (relatedEdges node model).map Entity.core := by
  rw [relatedEdges, relatedEdges, Model.entities_core, List.filter_map]
  congr 2
  funext e
  -- ends of entities that are no edges are lost, but these are no related edges
  show (e.core.isEdge &&
      (e.core.source == some node.core.name || e.core.target == some node.core.name)) =
    (e.isEdge && (e.source == some node.name || e.target == some node.name))
  rw [Entity.isEdge_core, Entity.name_core]
  cases hedge : e.isEdge with
  | false => rfl
  | true =>
    rw [Entity.source_core hedge, Entity.target_core hedge, setEnd_beq_some hname,
      setEnd_beq_some hname]

theorem deepDetail_core {node : Entity} (hname : node.name ≠ "") (model : Model) :
    deepDetail node.core model.core = deepDetail node model := by
  have hfields : node.core.namedProperties.map (fun p => (p.name, Fragment.ident p.name)) =
      node.namedProperties.map fun p => (p.name, Fragment.ident p.name) := by
    rw [Entity.namedProperties_core, List.map_map]
    rfl
  have hcounts : ((relatedEdges node.core model.core).take maxEdgeCounts).map
      (edgeCount node.core) = ((relatedEdges node model).take maxEdgeCounts).map
        (edgeCount node) := by
    rw [relatedEdges_core hname, ← List.map_take, List.map_map]
    apply List.map_congr_left
    intro e he
    -- whatever is counted is an edge, so its ends are kept
    have hmem := List.mem_of_mem_take he
    have hedge := (List.mem_filter.1 hmem).2
    rw [Bool.and_eq_true] at hedge
    exact edgeCount_core hname hedge.1
  rw [deepDetail, deepDetail, hfields, hcounts]
  rfl

/-! ### Sections -/

theorem whenOn_congr {flag : Bool} {qs rs : List Query} (h : flag = true → qs = rs) :
    whenOn flag qs = whenOn flag rs := by
  cases flag with
  | false => rfl
  | true => rw [h rfl]

theorem crudQueries_core (flags : CrudFlags) (e : Entity) :
    crudQueries flags e.core = crudQueries flags e := by
  rw [crudQueries, crudQueries, Entity.isNode_core, Entity.isConnected_core, nodeCrud_core,
    whenOn_congr (edgeCrud_core flags)]

theorem discoveryQueries_core (flags : DiscoveryFlags) (e : Entity) :
    discoveryQueries flags e.core = discoveryQueries flags e := by
  rw [discoveryQueries, discoveryQueries, Entity.isNode_core, Entity.isVector_core,
    Entity.isConnected_core, vectorDiscovery_core, keywordDiscovery_core,
    whenOn_congr (edgeDiscovery_core flags)]

theorem pathfindingQueries_core (flags : PathfindingFlags) (e : Entity) :
    pathfindingQueries flags e.core = pathfindingQueries flags e := by
  rw [pathfindingQueries, pathfindingQueries, Entity.isEdge_core]
  apply whenOn_congr
  intro hedge
  have hpath (title : String) (search : Fragment) :
      pathQuery e.core title search = pathQuery e title search := by
    rw [pathQuery, pathQuery, fromStart_core hedge, Entity.name_core]
  have hweighted : (weightProperty? e.core).toList.map (weightedPath e.core) =
      (weightProperty? e).toList.map (weightedPath e) := by
    rw [weightProperty?_core]
    cases weightProperty? e with
    | none => rfl
    | some p => exact congrArg (fun q => [q]) (hpath _ _)
  rw [hweighted, shortestPath, hpath]
  rfl

theorem intelligenceQueries_core (flags : IntelligenceFlags) (model : Model) {e : Entity}
    (hname : e.name ≠ "") :
    intelligenceQueries flags model.core e.core = intelligenceQueries flags model e := by
  rw [intelligenceQueries, intelligenceQueries, deepDetail_core hname, Entity.isNode_core]

theorem analyticsQueries_core (flags : AnalyticsFlags) (e : Entity) :
    analyticsQueries flags e.core = analyticsQueries flags e := by
  have haggregates : aggregationQueries e.core = aggregationQueries e := by
    rw [aggregationQueries, aggregationQueries, Entity.namedProperties_core,
      filter_declared fun _ => rfl, List.flatMap_map]
    rfl
  have hgroups : groupingQueries e.core = groupingQueries e := by
    rw [groupingQueries, groupingQueries, Entity.namedProperties_core,
      filter_declared fun _ => rfl, List.map_map]
    rfl
  rw [analyticsQueries, analyticsQueries, haggregates, hgroups, Entity.isNode_core]

/-- No section reads more of an entity or of its model than the cores. -/
theorem sectionQueries_core (config : Config) (model : Model) {e : Entity} (hname : e.name ≠ "")
    (s : Section) :
    sectionQueries config model.core e.core s = sectionQueries config model e s := by
  cases s with
  | crud => exact crudQueries_core config.crud e
  | discovery => exact discoveryQueries_core config.discovery e
  | pathfinding => exact pathfindingQueries_core config.pathfinding e
  | intelligence => exact intelligenceQueries_core config.intelligence model hname
  | analytics => exact analyticsQueries_core config.analytics e

/-- The text of a library depends on the queries of its groups alone. -/
theorem print_congr_of_queries {config : Config} {model other : Model}
    (h : (build config model).map Group.queries = (build config other).map Group.queries) :
    print config model = print config other := by
  have htext (groups : List Group) : groups.flatMap (fun g => g.sections.map sectionText) =
      (groups.map Group.queries).flatMap fun queries =>
        ((Section.all.map fun s => (s, queries s)).filter fun s => !s.2.isEmpty).map
          sectionText := by
    rw [List.flatMap_map]
    rfl
  rw [print, print, htext, h, ← htext]

/-- The library of a model is that of its cores. -/
theorem print_core (config : Config) {model : Model} (h : ∀ e ∈ model.entities, e.name ≠ "") :
    print config model.core = print config model := by
  apply print_congr_of_queries
  rw [build, build, Model.entities_core, List.map_map, List.map_map, List.map_map]
  apply List.map_congr_left
  intro e he
  funext s
  exact sectionQueries_core config model (h e he) s

/-- Models with the same cores have one library, whatever the flags. -/
theorem print_congr (config : Config) {model other : Model}
    (h : model.entities.map Entity.core = other.entities.map Entity.core)
    (hnames : ∀ e ∈ other.entities, e.name ≠ "") : print config model = print config other := by
  have hcore : model.core = other.core := congrArg (List.map some) h
  have hmodel : ∀ e ∈ model.entities, e.name ≠ "" := by
    intro e he
    have hmem : e.core ∈ other.entities.map Entity.core := by
      rw [← h]
      exact List.mem_map_of_mem he
    obtain ⟨x, hx, hxe⟩ := List.mem_map.1 hmem
    have hname : x.core.name = e.core.name := congrArg Entity.name hxe
    rw [← e.name_core, ← hname]
    exact hnames x hx
  rw [← print_core config hmodel, hcore, print_core config hnames]

end Library

end Hql
