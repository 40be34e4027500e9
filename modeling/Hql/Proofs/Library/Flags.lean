import Hql.Library.Sections
import Mathlib.Data.List.Forall2

/-!
Libraries under more and under fewer flags. A flag that is turned on adds queries and takes none
away; the slices of `proControl` alone change a query that is there. Main statement: the queries
under some flags are among those under more flags, in the same order, and without flags there are
none.
-/

namespace Hql

/-- Every flag that is on in one configuration is on in the other. -/
structure Config.AtMost (c d : Config) : Prop where
  basic : c.crud.basic → d.crud.basic
  mutation : c.crud.mutation → d.crud.mutation
  upsert : c.crud.upsert → d.crud.upsert
  drop : c.crud.drop → d.crud.drop
  proControl : c.crud.proControl → d.crud.proControl
  keywordSearch : c.discovery.keywordSearch → d.discovery.keywordSearch
  vectorSearch : c.discovery.vectorSearch → d.discovery.vectorSearch
  vectorUpsert : c.discovery.vectorUpsert → d.discovery.vectorUpsert
  prefilter : c.discovery.prefilter → d.discovery.prefilter
  multiHop : c.discovery.multiHop → d.discovery.multiHop
  mutualConnections : c.discovery.mutualConnections → d.discovery.mutualConnections
  richDetail : c.intelligence.richDetail → d.intelligence.richDetail
  bfs : c.pathfinding.bfs → d.pathfinding.bfs
  dijkstra : c.pathfinding.dijkstra → d.pathfinding.dijkstra
  aggregation : c.analytics.aggregation → d.analytics.aggregation
  grouping : c.analytics.grouping → d.analytics.grouping

namespace Library

section Growth

/-! What is compared of two lists of queries is `look`: the queries themselves or their names. -/

variable {α : Type} {look : Query → α} {c d : Config}

theorem whenOn_sublist {flag flag' : Bool} {qs rs : List Query} (hflag : flag → flag')
    (h : (qs.map look).Sublist (rs.map look)) :
    ((whenOn flag qs).map look).Sublist ((whenOn flag' rs).map look) := by
  cases flag with
  | false => exact List.nil_sublist _
  | true =>
    rw [hflag rfl]
    exact h

/-- A flag only adds queries. -/
theorem whenOn_sublist_whenOn {flag flag' : Bool} (qs : List Query) (hflag : flag → flag') :
    ((whenOn flag qs).map look).Sublist ((whenOn flag' qs).map look) :=
  whenOn_sublist hflag (List.Sublist.refl _)

theorem append_sublist {qs rs qs' rs' : List Query} (h : (qs.map look).Sublist (qs'.map look))
    (h' : (rs.map look).Sublist (rs'.map look)) :
    ((qs ++ rs).map look).Sublist ((qs' ++ rs').map look) := by
  rw [List.map_append, List.map_append]
  exact h.append h'

theorem crudQueries_sublist (h : c.AtMost d) (e : Entity)
    (hall : look (allNodes e c.crud.proControl) = look (allNodes e d.crud.proControl)) :
    ((crudQueries c.crud e).map look).Sublist ((crudQueries d.crud e).map look) := by
  have hbasic : ((nodeById e :: (e.namedProperties.filter Property.isUnique).map (nodeByUnique e) ++
        [allNodes e c.crud.proControl]).map look).Sublist
      ((nodeById e :: (e.namedProperties.filter Property.isUnique).map (nodeByUnique e) ++
        [allNodes e d.crud.proControl]).map look) := by
    rw [List.map_append, List.map_append, List.map_singleton, List.map_singleton, hall]
  have hnode : ((nodeCrud c.crud e).map look).Sublist ((nodeCrud d.crud e).map look) :=
    append_sublist (append_sublist (append_sublist
      (whenOn_sublist_whenOn _ h.mutation) (whenOn_sublist_whenOn _ h.upsert))
      (whenOn_sublist h.basic hbasic)) (whenOn_sublist_whenOn _ h.drop)
  have hedge : ((edgeCrud c.crud e).map look).Sublist ((edgeCrud d.crud e).map look) :=
    append_sublist (append_sublist
      (whenOn_sublist_whenOn _ h.mutation) (whenOn_sublist_whenOn _ h.upsert))
      (whenOn_sublist_whenOn _ h.basic)
  exact append_sublist (whenOn_sublist id hnode) (whenOn_sublist id hedge)

theorem discoveryQueries_sublist (h : c.AtMost d) (e : Entity) :
    ((discoveryQueries c.discovery e).map look).Sublist
      ((discoveryQueries d.discovery e).map look) := by
  have hedge : ((edgeDiscovery c.discovery e).map look).Sublist
      ((edgeDiscovery d.discovery e).map look) :=
    append_sublist (whenOn_sublist_whenOn _ h.multiHop)
      (whenOn_sublist_whenOn _ h.mutualConnections)
  -- narrowed searches need two flags, one inside the other
  have hvector : ((vectorDiscovery c.discovery e).map look).Sublist
      ((vectorDiscovery d.discovery e).map look) :=
    append_sublist
      (whenOn_sublist h.vectorSearch
        (append_sublist (List.Sublist.refl _) (whenOn_sublist_whenOn _ h.prefilter)))
      (whenOn_sublist_whenOn _ h.vectorUpsert)
  have hkeyword : ((keywordDiscovery c.discovery e).map look).Sublist
      ((keywordDiscovery d.discovery e).map look) := by
    apply whenOn_sublist_whenOn
    intro hon
    obtain ⟨hflag, htext⟩ := Bool.and_eq_true_iff.1 hon
    exact Bool.and_eq_true_iff.2 ⟨h.keywordSearch hflag, htext⟩
  exact append_sublist (append_sublist (whenOn_sublist id hedge) (whenOn_sublist id hvector))
    (whenOn_sublist id hkeyword)

theorem pathfindingQueries_sublist (h : c.AtMost d) (e : Entity) :
    ((pathfindingQueries c.pathfinding e).map look).Sublist
      ((pathfindingQueries d.pathfinding e).map look) :=
  whenOn_sublist id
    (append_sublist (whenOn_sublist_whenOn _ h.bfs) (whenOn_sublist_whenOn _ h.dijkstra))

theorem intelligenceQueries_sublist (h : c.AtMost d) (model : Model) (e : Entity) :
    ((intelligenceQueries c.intelligence model e).map look).Sublist
      ((intelligenceQueries d.intelligence model e).map look) := by
  apply whenOn_sublist_whenOn
  intro hon
  obtain ⟨hnode, hflag⟩ := Bool.and_eq_true_iff.1 hon
  exact Bool.and_eq_true_iff.2 ⟨hnode, h.richDetail hflag⟩

theorem analyticsQueries_sublist (h : c.AtMost d) (e : Entity) :
    ((analyticsQueries c.analytics e).map look).Sublist
      ((analyticsQueries d.analytics e).map look) :=
  whenOn_sublist id
    (append_sublist (whenOn_sublist_whenOn _ h.aggregation) (whenOn_sublist_whenOn _ h.grouping))

/-- More flags add queries to every section and take none away, as far as `proControl` makes no
difference to what is looked at. -/
theorem sectionQueries_sublist (h : c.AtMost d) (model : Model) (e : Entity) (s : Section)
    (hall : look (allNodes e c.crud.proControl) = look (allNodes e d.crud.proControl)) :
    ((sectionQueries c model e s).map look).Sublist ((sectionQueries d model e s).map look) := by
  cases s with
  | crud => exact crudQueries_sublist h e hall
  | discovery => exact discoveryQueries_sublist h e
  | pathfinding => exact pathfindingQueries_sublist h e
  | intelligence => exact intelligenceQueries_sublist h model e
  | analytics => exact analyticsQueries_sublist h e

end Growth

/-- The slices of all nodes have one name with and without `proControl`. -/
theorem name_allNodes (node : Entity) (proControl : Bool) :
    (allNodes node proControl).name = (allNodes node false).name := by
  cases proControl with
  | false => rfl
  | true => rfl

/-- Without flags there are no queries. -/
theorem sectionQueries_uniform_false (model : Model) (e : Entity) (s : Section) :
    sectionQueries (Config.uniform false) model e s = [] := by
  have hoff (flag : Bool) : whenOn flag [] = [] := ite_self _
  cases s with
  | crud => exact congrArg₂ (· ++ ·) (hoff e.isNode) (hoff e.isConnected)
  | discovery =>
    exact congrArg₂ (· ++ ·) (congrArg₂ (· ++ ·) (hoff e.isConnected) (hoff e.isVector))
      (hoff (e.isNode || e.isVector))
  | pathfinding => exact hoff e.isEdge
  | intelligence =>
    have hflag : (e.isNode && (Config.uniform false).intelligence.richDetail) = false :=
      Bool.and_false _
    rw [sectionQueries, intelligenceQueries, hflag]
    rfl
  | analytics => exact hoff e.isNode

theorem print_uniform_false (model : Model) : print (Config.uniform false) model = "" := by
  have hsections (e : Entity) :
      (Group.mk e (sectionQueries (Config.uniform false) model e)).sections = [] := by
    rw [Group.sections, List.filter_eq_nil_iff]
    intro s hs
    obtain ⟨section', -, rfl⟩ := List.mem_map.1 hs
    simp [sectionQueries_uniform_false]
  have hnone : (build (Config.uniform false) model).flatMap
      (fun g => g.sections.map sectionText) = [] := by
    rw [List.flatMap_eq_nil_iff]
    intro g hg
    obtain ⟨e, -, rfl⟩ := List.mem_map.1 hg
    rw [hsections, List.map_nil]
  rw [print, hnone]
  rfl

/-- The groups of a model under some flags and under more flags belong to the same entities. In each
section the names under the fewer flags are among those under the more, in order and as often, and
so are the queries themselves when `proControl` is the same on both sides. With all flags off every
section is empty and the library has no text. -/
theorem build_grows {c d : Config} (h : c.AtMost d) (model : Model) :
    List.Forall₂ (fun g g' : Group => g.entity = g'.entity ∧ ∀ s,
        ((g.queries s).map Query.name).Sublist ((g'.queries s).map Query.name) ∧
        (c.crud.proControl = d.crud.proControl → (g.queries s).Sublist (g'.queries s)))
      (build c model) (build d model) ∧
    (∀ g ∈ build (Config.uniform false) model, ∀ s, g.queries s = []) ∧
    print (Config.uniform false) model = "" := by
  refine ⟨?_, ?_, print_uniform_false model⟩
  · rw [build, build, List.forall₂_map_left_iff, List.forall₂_map_right_iff, List.forall₂_same]
    intro e _
    refine ⟨rfl, fun s => ⟨?_, fun hsame => ?_⟩⟩
    · apply sectionQueries_sublist h
      rw [name_allNodes, name_allNodes _ d.crud.proControl]
    · have hqueries : ((sectionQueries c model e s).map id).Sublist
          ((sectionQueries d model e s).map id) :=
        sectionQueries_sublist h model e s (by rw [hsame])
      rwa [List.map_id, List.map_id] at hqueries
  · intro g hg s
    obtain ⟨e, -, rfl⟩ := List.mem_map.1 hg
    exact sectionQueries_uniform_false model e s

/-- A model with an entity of each kind. -/
def kindsModel : Model := [
  some { id := "u", name := "User", kind := .node
         properties := [some { name := "email", isUnique := true }] },
  some { id := "d", name := "Doc", kind := .vector
         properties := [some { name := "key", isIndex := true }] },
  none,
  some { id := "f", name := "Follows", kind := .edge, source := some "User", target := some "User" }]

theorem build_grows_kinds :
    ({} : Config).AtMost (Config.uniform true) ∧
    List.Forall₂ (fun g g' : Group => g.entity = g'.entity ∧ ∀ s,
        (g.queries s).Sublist (g'.queries s))
      (build {} kindsModel) (build (Config.uniform true) kindsModel) := by
  have h : ({} : Config).AtMost (Config.uniform true) := by
    constructor <;> exact fun _ => rfl
  refine ⟨h, (build_grows h kindsModel).1.imp ?_⟩
  intro g g' hg
  exact ⟨hg.1, fun s => (hg.2 s).2 rfl⟩

end Library

end Hql
