import Hql.Proofs.Library.Core
import Hql.Proofs.Validation.ErrorFree

/-!
Where queries come from. Whatever the model and the flags, a query of a library is what one of the
templates gives for an entity of the right kind. What holds of every template holds of every query.
-/

namespace Hql.Library

open Fragment

/-- A query is one that a template gives for an entity. -/
inductive Template (config : Config) (model : Model) (e : Entity) : Query → Prop
  | createNode (he : e.isNode = true) : Template config model e (createNode e)
  | upsertNode {q : Query} (he : e.isNode = true) (h : upsertNode? e = some q) :
      Template config model e q
  | nodeById (he : e.isNode = true) : Template config model e (nodeById e)
  | nodeByUnique {p : Property} (he : e.isNode = true) (hp : p ∈ e.namedProperties) :
      Template config model e (nodeByUnique e p)
  | allNodes (he : e.isNode = true) : Template config model e (allNodes e config.crud.proControl)
  | deleteNode (he : e.isNode = true) : Template config model e (deleteNode e)
  | connect (he : e.isConnected = true) : Template config model e (connect e)
  | upsertEdge {q : Query} (hflag : config.crud.upsert = true) (he : e.isConnected = true)
      (h : upsertEdge? e = some q) : Template config model e q
  | traversal (he : e.isConnected = true) : Template config model e (traversal e)
  | twoHop (he : e.isConnected = true) : Template config model e (twoHop e)
  | mutualConnections (he : e.isConnected = true) : Template config model e (mutualConnections e)
  | vectorSearch {prefilter : Option Property} (he : e.isVector = true)
      (h : ∀ p ∈ prefilter, p ∈ e.namedProperties) :
      Template config model e (vectorSearch e prefilter)
  | hybridSearch {prefilter : Option Property} (he : e.isVector = true)
      (h : ∀ p ∈ prefilter, p ∈ e.namedProperties) :
      Template config model e (hybridSearch e prefilter)
  | addVector (he : e.isVector = true) : Template config model e (addVector e)
  | upsertVector {q : Query} (he : e.isVector = true) (h : upsertVector? e = some q) :
      Template config model e q
  | keywordSearch (he : e.isNode = true ∨ e.isVector = true) :
      Template config model e (keywordSearch e)
  | shortestPath (he : e.isEdge = true) : Template config model e (shortestPath e)
  | weightedPath {p : Property} (he : e.isEdge = true) (hp : p ∈ e.namedProperties) :
      Template config model e (weightedPath e p)
  | deepDetail (he : e.isNode = true) : Template config model e (deepDetail e model)
  | countNodes (he : e.isNode = true) : Template config model e (countNodes e)
  | aggregate {p : Property} {function : String} {q : Query} (he : e.isNode = true)
      (hp : p ∈ e.namedProperties) (hfunction : function ∈ aggregates)
      (h : aggregate? e p function = some q) : Template config model e q
  | groupBy {p : Property} (he : e.isNode = true) (hp : p ∈ e.namedProperties) :
      Template config model e (groupBy e p)

theorem mem_whenOn {flag : Bool} {qs : List Query} {q : Query} :
    q ∈ whenOn flag qs ↔ flag = true ∧ q ∈ qs := by
  cases flag <;> simp [whenOn]

section Sections

variable {config : Config} {model : Model} {e : Entity} {q : Query}

theorem Template.of_mem_crudQueries (h : q ∈ crudQueries config.crud e) :
    Template config model e q := by
  simp only [crudQueries, nodeCrud, edgeCrud, List.mem_append, mem_whenOn,
    List.mem_cons, List.not_mem_nil, or_false, List.mem_map, Option.mem_toList] at h
  rcases h with ⟨hnode, ((⟨-, rfl⟩ | ⟨-, h⟩) | ⟨-, (rfl | ⟨p, hp, rfl⟩) | rfl⟩) | ⟨-, rfl⟩⟩ |
    ⟨hconnected, (⟨-, rfl⟩ | ⟨hflag, h⟩) | ⟨-, rfl⟩⟩
  · exact .createNode hnode
  · exact .upsertNode hnode h
  · exact .nodeById hnode
  · exact .nodeByUnique hnode (List.mem_filter.1 hp).1
  · exact .allNodes hnode
  · exact .deleteNode hnode
  · exact .connect hconnected
  · exact .upsertEdge hflag hconnected h
  · exact .traversal hconnected

theorem Template.of_mem_discoveryQueries (h : q ∈ discoveryQueries config.discovery e) :
    Template config model e q := by
  simp only [discoveryQueries, edgeDiscovery, vectorDiscovery, keywordDiscovery, List.mem_append,
    mem_whenOn, List.mem_cons, List.not_mem_nil, or_false, List.mem_flatMap, Option.mem_toList] at h
  have hnone : ∀ p ∈ (none : Option Property), p ∈ e.namedProperties := by simp
  have hsome {p : Property} (hp : p ∈ prefilterProperties e) :
      ∀ r ∈ some p, r ∈ e.namedProperties := by
    rintro r ⟨⟩
    exact (List.mem_filter.1 hp).1
  rcases h with (⟨hconnected, ⟨-, rfl⟩ | ⟨-, rfl⟩⟩ |
    ⟨hvector, ⟨-, (rfl | rfl) | ⟨-, p, hp, rfl | rfl⟩⟩ | ⟨-, rfl | h⟩⟩) | ⟨hkind, -, rfl⟩
  · exact .twoHop hconnected
  · exact .mutualConnections hconnected
  · exact .vectorSearch hvector hnone
  · exact .hybridSearch hvector hnone
  · exact .vectorSearch hvector (hsome hp)
  · exact .hybridSearch hvector (hsome hp)
  · exact .addVector hvector
  · exact .upsertVector hvector h
  · exact .keywordSearch (Bool.or_eq_true_iff.1 hkind)

theorem Template.of_mem_pathfindingQueries (h : q ∈ pathfindingQueries config.pathfinding e) :
    Template config model e q := by
  simp only [pathfindingQueries, mem_whenOn, List.mem_append, List.mem_singleton, List.mem_map,
    Option.mem_toList] at h
  obtain ⟨hedge, ⟨-, rfl⟩ | ⟨-, p, hp, rfl⟩⟩ := h
  · exact .shortestPath hedge
  · exact .weightedPath hedge (List.mem_of_find?_eq_some hp)

theorem Template.of_mem_analyticsQueries (h : q ∈ analyticsQueries config.analytics e) :
    Template config model e q := by
  simp only [analyticsQueries, aggregationQueries, groupingQueries, mem_whenOn, List.mem_append,
    List.mem_cons, List.mem_flatMap, List.mem_filterMap, List.mem_map] at h
  rcases h with ⟨hnode, ⟨-, rfl | ⟨p, hp, function, hfunction, h⟩⟩ | ⟨-, p, hp, rfl⟩⟩
  · exact .countNodes hnode
  · exact .aggregate hnode (List.mem_filter.1 hp).1 hfunction h
  · exact .groupBy hnode (List.mem_filter.1 hp).1

/-- Each query of a library comes from a template. -/
theorem template_of_mem {s : Section} (h : q ∈ sectionQueries config model e s) :
    Template config model e q := by
  cases s with
  | crud => exact .of_mem_crudQueries h
  | discovery => exact .of_mem_discoveryQueries h
  | pathfinding => exact .of_mem_pathfindingQueries h
  | intelligence =>
    obtain ⟨hon, h⟩ := mem_whenOn.1 h
    obtain rfl := List.mem_singleton.1 h
    exact .deepDetail (Bool.and_eq_true_iff.1 hon).1
  | analytics => exact .of_mem_analyticsQueries h

theorem template_of_mem_build {g : Group} (hg : g ∈ build config model) (hq : q ∈ g.all) :
    g.entity ∈ model.entities ∧ Template config model g.entity q := by
  obtain ⟨e, he, rfl⟩ := List.mem_map.1 hg
  obtain ⟨s, -, hq⟩ := List.mem_flatMap.1 hq
  exact ⟨he, template_of_mem hq⟩

end Sections

/-! ### Templates that may give nothing -/

section Optional

variable {e : Entity} {q : Query}

theorem upsertNode?_eq_some (h : upsertNode? e = some q) : e.namedProperties ≠ [] ∧ q = {
    name := "Upsert" ++ Naming.pascalCase e.name
    params := ("id", "ID") :: propertyParams e.namedProperties
    statements := [
      assignment "existing" (byIdParam "N" e),
      assignment "upsert_node" (source "existing" none none
        [step "UpsertN" none (some [assignAll e.namedProperties]) false] false)]
    returns := text "upsert_node" } := by
  rw [upsertNode?] at h
  cases hps : e.namedProperties with
  | nil =>
    rw [hps] at h
    cases h
  | cons p ps =>
    rw [hps] at h
    exact ⟨List.cons_ne_nil _ _, (Option.some.inj h).symm⟩

theorem upsertEdge?_eq_some (h : upsertEdge? e = some q) : e.namedProperties ≠ [] ∧ q = {
    name := "Upsert" ++ Naming.pascalCase e.name
    params := edgeParams e
    statements := [assignment "edge" (source "E" (some e.name) none
      (step "UpsertE" none (some [assignAll e.namedProperties]) false :: connectionSteps) false)]
    returns := text "edge" } := by
  rw [upsertEdge?] at h
  cases hps : e.namedProperties with
  | nil =>
    rw [hps] at h
    cases h
  | cons p ps =>
    rw [hps] at h
    exact ⟨List.cons_ne_nil _ _, (Option.some.inj h).symm⟩

theorem upsertVector?_eq_some (h : upsertVector? e = some q) : e.namedProperties ≠ [] ∧ q = {
    name := "Upsert" ++ Naming.pascalCase e.name ++ "Vector"
    params := ("id", "ID") :: ("data", "[F64]") :: propertyParams e.namedProperties
    statements := [
      assignment "existing" (byIdParam "V" e),
      assignment "upsert_v" (source "existing" none none
        [step "UpsertV" none (some [text "data", assignAll e.namedProperties]) false] false)]
    returns := text "upsert_v" } := by
  rw [upsertVector?] at h
  cases hps : e.namedProperties with
  | nil =>
    rw [hps] at h
    cases h
  | cons p ps =>
    rw [hps] at h
    exact ⟨List.cons_ne_nil _ _, (Option.some.inj h).symm⟩

/-- Only sums and averages are given. -/
theorem aggregate?_eq_some {p : Property} {function : String} (hfunction : function ∈ aggregates)
    (h : aggregate? e p function = some q) : (function = "SUM" ∨ function = "AVG") ∧ q = {
    name := titleCase function ++ Naming.pascalCase e.name ++ Naming.pascalCase p.name
    statements := [assignment "result" (source "N" (some e.name) none [] false)]
    returns := call function [property p.name "result"] } := by
  rw [aggregate?] at h
  split at h
  · cases h
  · next hbinary =>
    have hbinary : function ≠ "MIN" ∧ function ≠ "MAX" := by simpa using hbinary
    refine ⟨?_, (Option.some.inj h).symm⟩
    simp only [aggregates, List.mem_cons, List.not_mem_nil, or_false] at hfunction
    rcases hfunction with rfl | rfl | rfl | rfl
    · exact .inl rfl
    · exact .inr rfl
    · exact absurd rfl hbinary.1
    · exact absurd rfl hbinary.2

end Optional

/-! ### A model -/

/-- A model in which every template gives a query when all flags are on. -/
def socialModel : Model := [
  some { id := "person", name := "Person", kind := .node
         properties := [some { name := "email", isUnique := true }, some { name := "age", type := .i32 }] },
  none,
  some { id := "post", name := "PostItem", kind := .node },
  some { id := "knows", name := "Knows", kind := .edge, source := some "Person", target := some "Person"
         properties := [some { name := "since", type := .date }, some { name := "weight", type := .f64 }] },
  some { id := "photo", name := "Photo", kind := .vector
         properties := [none, some { name := "caption", isIndex := true }] }]

theorem errorFree_socialModel : Validation.ErrorFree (Validation.validate socialModel) := by
  decide +kernel

end Hql.Library
