import Hql.Library.Sections
import Hql.Proofs.Schema.Definition

/-!
Queries and the cores of entities. No template reads of an entity what its core does not hold, so
models whose cores are the same have one library.
-/

namespace Hql.Library

open Fragment

/-! ### Properties -/

@[simp] theorem propertyParams_declared (ps : List Property) :
    propertyParams (ps.map Property.declared) = propertyParams ps := by
  rw [propertyParams, propertyParams, List.map_map]
  rfl

@[simp] theorem assignAll_declared (ps : List Property) :
    assignAll (ps.map Property.declared) = assignAll ps := by
  rw [assignAll, assignAll, List.map_map]
  rfl

/-- Choosing properties by what is declared of them commutes with declaring them. -/
theorem filter_declared {keep : Property → Bool} (h : ∀ p, keep p.declared = keep p)
    (ps : List Property) :
    (ps.map Property.declared).filter keep = (ps.filter keep).map Property.declared := by
  rw [List.filter_map]
  congr 2
  funext p
  exact h p

/-! ### Nodes -/

theorem createNode_core (e : Entity) : createNode e.core = createNode e := by
  simp only [createNode, Entity.name_core, Entity.namedProperties_core, propertyParams_declared]
  cases e.namedProperties with
  | nil => rfl
  | cons p ps => simp only [List.map_cons, ← assignAll_declared (p :: ps)]

theorem upsertNode?_core (e : Entity) : upsertNode? e.core = upsertNode? e := by
  simp only [upsertNode?, byIdParam, Entity.name_core, Entity.namedProperties_core]
  cases e.namedProperties with
  | nil => rfl
  | cons p ps =>
    simp only [List.map_cons, ← assignAll_declared (p :: ps), ← propertyParams_declared (p :: ps)]

theorem nodeCrud_core (flags : CrudFlags) (e : Entity) :
    nodeCrud flags e.core = nodeCrud flags e := by
  have hunique : (e.core.namedProperties.filter Property.isUnique).map (nodeByUnique e.core) =
      (e.namedProperties.filter Property.isUnique).map (nodeByUnique e) := by
    rw [Entity.namedProperties_core, filter_declared fun _ => rfl, List.map_map]
    rfl
  rw [nodeCrud, nodeCrud, createNode_core, upsertNode?_core, hunique]
  rfl

/-! ### Edges -/

theorem setEnd_of_isSome {name : Option String} (h : (setEnd name).isSome = true) :
    setEnd name = name := by
  cases name with
  | none => rfl
  | some s =>
    rw [setEnd, Option.isSome_filter] at h
    rw [setEnd, Option.filter_some]
    exact if_pos h

theorem isEdge_of_isConnected {e : Entity} (h : e.isConnected = true) : e.isEdge = true := by
  rw [Entity.isConnected, Bool.and_eq_true, Bool.and_eq_true] at h
  exact h.1.1

/-- The ends of a connected edge are in its core as they are. -/
theorem ends_core {e : Entity} (h : e.isConnected = true) :
    e.core.source = e.source ∧ e.core.target = e.target := by
  have hedge := isEdge_of_isConnected h
  rw [Entity.isConnected, Bool.and_eq_true, Bool.and_eq_true] at h
  rw [Entity.source_core hedge, Entity.target_core hedge]
  exact ⟨setEnd_of_isSome h.1.2, setEnd_of_isSome h.2⟩

theorem fromStart_core {e : Entity} (h : e.isEdge = true) : fromStart e.core = fromStart e := by
  funext param steps multiline
  rw [fromStart, fromStart, Entity.source_core h, endName_setEnd]

theorem connect_core (e : Entity) : connect e.core = connect e := by
  simp only [connect, edgeParams, Entity.name_core, Entity.namedProperties_core,
    propertyParams_declared]
  cases e.namedProperties with
  | nil => rfl
  | cons p ps => simp only [List.map_cons, ← assignAll_declared (p :: ps)]

theorem upsertEdge?_core (e : Entity) : upsertEdge? e.core = upsertEdge? e := by
  simp only [upsertEdge?, edgeParams, Entity.name_core, Entity.namedProperties_core,
    propertyParams_declared]
  cases e.namedProperties with
  | nil => rfl
  | cons p ps => simp only [List.map_cons, ← assignAll_declared (p :: ps)]

theorem edgeCrud_core (flags : CrudFlags) {e : Entity} (h : e.isConnected = true) :
    edgeCrud flags e.core = edgeCrud flags e := by
  have htraversal : traversal e.core = traversal e := by
    rw [traversal, traversal, fromStart_core (isEdge_of_isConnected h), (ends_core h).1]
    rfl
  rw [edgeCrud, edgeCrud, connect_core, upsertEdge?_core, htraversal]

theorem edgeDiscovery_core (flags : DiscoveryFlags) {e : Entity} (h : e.isConnected = true) :
    edgeDiscovery flags e.core = edgeDiscovery flags e := by
  have hstart := fromStart_core (isEdge_of_isConnected h)
  have htwo : twoHop e.core = twoHop e := by
    rw [twoHop, twoHop, hstart, (ends_core h).1, (ends_core h).2]
    rfl
  have hmutual : mutualConnections e.core = mutualConnections e := by
    rw [mutualConnections, mutualConnections, hstart]
    rfl
  rw [edgeDiscovery, edgeDiscovery, htwo, hmutual]

/-- The property that weighs the paths of an edge is found by its type. -/
theorem weightProperty?_core (e : Entity) :
    weightProperty? e.core = (weightProperty? e).map Property.declared := by
  rw [weightProperty?, weightProperty?, Entity.namedProperties_core, List.find?_map]
  rfl

/-! ### Vectors -/

theorem prefilterProperties_core (e : Entity) :
    prefilterProperties e.core = (prefilterProperties e).map Property.declared := by
  rw [prefilterProperties, prefilterProperties, Entity.namedProperties_core]
  apply filter_declared
  intro p
  -- `isIndex` is lost where `isUnique` is set, which narrows a search as well
  cases hunique : p.isUnique <;> simp [Property.declared, hunique]

theorem addVector_core (e : Entity) : addVector e.core = addVector e := by
  simp only [addVector, Entity.name_core, Entity.namedProperties_core, propertyParams_declared]
  cases e.namedProperties with
  | nil => rfl
  | cons p ps => simp only [List.map_cons, ← assignAll_declared (p :: ps)]

theorem upsertVector?_core (e : Entity) : upsertVector? e.core = upsertVector? e := by
  simp only [upsertVector?, byIdParam, Entity.name_core, Entity.namedProperties_core]
  cases e.namedProperties with
  | nil => rfl
  | cons p ps =>
    simp only [List.map_cons, ← assignAll_declared (p :: ps), ← propertyParams_declared (p :: ps)]

theorem vectorDiscovery_core (flags : DiscoveryFlags) (e : Entity) :
    vectorDiscovery flags e.core = vectorDiscovery flags e := by
  have hsearches : (prefilterProperties e.core).flatMap (fun p =>
      [vectorSearch e.core (some p), hybridSearch e.core (some p)]) =
        (prefilterProperties e).flatMap fun p =>
          [vectorSearch e (some p), hybridSearch e (some p)] := by
    rw [prefilterProperties_core, List.flatMap_map]
    rfl
  rw [vectorDiscovery, vectorDiscovery, hsearches, addVector_core, upsertVector?_core]
  rfl

theorem keywordDiscovery_core (flags : DiscoveryFlags) (e : Entity) :
    keywordDiscovery flags e.core = keywordDiscovery flags e := by
  rw [keywordDiscovery, keywordDiscovery, Entity.namedProperties_core, List.any_map]
  rfl

end Hql.Library
