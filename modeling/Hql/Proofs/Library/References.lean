import Hql.Proofs.Library.Origin
import Hql.Proofs.Query.Parts
import Hql.Proofs.Validation.ErrorFree

/-!
What the type parameters of queries refer to. In a model without errors they name entities, and of
the kind that the operator works on, with the exception of the start of an edge, which may be any
entity and may be missing.
-/

namespace Hql.Library

open Fragment

/-- The kinds of entities that an operator works on. -/
def operatorKinds (operator : String) : List EntityKind :=
  if operator ∈ ["N", "AddN"] then [.node]
  else if operator ∈ ["E", "AddE", "Out", "In", "OutE", "InE", "ShortestPathBFS",
    "ShortestPathDijkstras"] then [.edge]
  else if operator ∈ ["V", "AddV", "SearchV"] then [.vector]
  else if operator = "SearchBM25" then [.node, .vector]
  else []

/-- A query that searches for a path along an edge. -/
def IsPath (edge : Entity) (q : Query) : Prop :=
  q = shortestPath edge ∨ ∃ weight, q = weightedPath edge weight

/-- What a type parameter may be in a query about an entity. -/
inductive Fits (model : Model) (e : Entity) (q : Query) : String → String → Prop
  /-- An entity of a kind that the operator works on. -/
  | entity {operator : String} {x : Entity} (hx : x ∈ model.entities)
      (hkind : x.kind ∈ operatorKinds operator) : Fits model e q operator x.name
  /-- The entity at the start of an edge, of any kind. -/
  | start {x : Entity} (he : e.isEdge = true) (hx : x ∈ model.entities)
      (hsource : e.source = some x.name) : Fits model e q "N" x.name
  /-- The start of a path along an edge that starts nowhere. -/
  | undefined (he : e.isEdge = true) (hsource : setEnd e.source = none) (hpath : IsPath e q) :
      Fits model e q "N" undefinedEnd

/-- The type parameter of a fragment by itself, other than the direction of an order, fits its
operator. -/
@[simp] def Refers (fits : String → String → Prop) : Fragment → Prop
  | step operator (some t) _ _ => operator = "ORDER" ∨ fits operator t
  | source operator (some t) _ _ _ => fits operator t
  | _ => True

/-- Every type parameter in a query fits its operator. -/
def AllRefer (fits : String → String → Prop) (q : Query) : Prop :=
  Everywhere (Refers fits) q.toFragment

section Templates

variable {fits : String → String → Prop} {e : Entity}

@[simp] theorem everywhere_refers_identity : Everywhere (Refers fits) identity := by simp [identity]

@[simp] theorem everywhere_refers_condition (p : Property) (args : List Fragment) :
    Everywhere (Refers fits) ((property p.name).op "EQ" (some args)) ↔
      ∀ f ∈ args, Everywhere (Refers fits) f := by
  simp [property, op]

@[simp] theorem everywhere_refers_assignAll (ps : List Property) :
    Everywhere (Refers fits) (assignAll ps) := by
  rw [assignAll, everywhere_projection, List.forall_mem_map]
  exact ⟨trivial, fun p _ => by simp [ident]⟩

theorem allRefer_iff (q : Query) : AllRefer fits q ↔
    (∀ f ∈ q.statements, Everywhere (Refers fits) f) ∧ Everywhere (Refers fits) q.returns := by
  rw [AllRefer, Query.toFragment, everywhere_query, Refers.eq_def, true_and]

/-! Each template refers to the types that its operators are given. -/

theorem allRefer_createNode (hadd : fits "AddN" e.name) : AllRefer fits (createNode e) := by
  rw [allRefer_iff, createNode]
  cases e.namedProperties <;> simp [hadd]

theorem allRefer_upsertNode? (hn : fits "N" e.name) {q : Query} (h : upsertNode? e = some q) :
    AllRefer fits q := by
  obtain ⟨-, rfl⟩ := upsertNode?_eq_some h
  simp [allRefer_iff, byIdParam, hn]

theorem allRefer_nodeById (hn : fits "N" e.name) : AllRefer fits (nodeById e) := by
  simp [allRefer_iff, nodeById, byIdParam, hn]

theorem allRefer_nodeByUnique (hn : fits "N" e.name) (p : Property) :
    AllRefer fits (nodeByUnique e p) := by
  simp [allRefer_iff, nodeByUnique, hn]

theorem allRefer_allNodes (hn : fits "N" e.name) (proControl : Bool) :
    AllRefer fits (allNodes e proControl) := by
  rw [allRefer_iff, allNodes]
  cases proControl <;> simp [hn]

theorem allRefer_deleteNode (hn : fits "N" e.name) : AllRefer fits (deleteNode e) := by
  simp [allRefer_iff, deleteNode, byIdParam, literal, hn]

theorem allRefer_deepDetail (hn : fits "N" e.name) {model : Model}
    (hedge : ∀ edge ∈ relatedEdges e model, fits "OutE" edge.name ∧ fits "InE" edge.name) :
    AllRefer fits (deepDetail e model) := by
  rw [allRefer_iff, deepDetail]
  have hcount : ∀ edge ∈ (relatedEdges e model).take maxEdgeCounts,
      Everywhere (Refers fits) (edgeCount e edge).2 := by
    intro edge hmem
    have hfits := hedge edge (List.mem_of_mem_take hmem)
    rw [edgeCount]
    dsimp only
    split <;> simp [ident, op, hfits]
  have hfields : Everywhere (Refers fits) (projection (("node_id", identity) ::
      e.namedProperties.map (fun p => (p.name, ident p.name)) ++
        ((relatedEdges e model).take maxEdgeCounts).map (edgeCount e))) := by
    simp only [everywhere_projection, List.cons_append, List.forall_mem_cons, List.forall_mem_append,
      List.forall_mem_map]
    exact ⟨trivial, by simp, fun p _ => by simp [ident], hcount⟩
  simpa [hn, byIdParam] using hfields

theorem allRefer_countNodes (hn : fits "N" e.name) : AllRefer fits (countNodes e) := by
  simp [allRefer_iff, countNodes, hn]

theorem allRefer_aggregate? (hn : fits "N" e.name) {p : Property} {function : String}
    (hfunction : function ∈ aggregates) {q : Query} (h : aggregate? e p function = some q) :
    AllRefer fits q := by
  obtain ⟨-, rfl⟩ := aggregate?_eq_some hfunction h
  simp [allRefer_iff, call, property, hn]

theorem allRefer_groupBy (hn : fits "N" e.name) (p : Property) : AllRefer fits (groupBy e p) := by
  simp [allRefer_iff, groupBy, hn]

theorem allRefer_connect (hadd : fits "AddE" e.name) : AllRefer fits (connect e) := by
  rw [allRefer_iff, connect]
  cases e.namedProperties <;> simp [connectionSteps, hadd]

theorem allRefer_upsertEdge? (hedge : fits "E" e.name) {q : Query} (h : upsertEdge? e = some q) :
    AllRefer fits q := by
  obtain ⟨-, rfl⟩ := upsertEdge?_eq_some h
  simp [allRefer_iff, connectionSteps, hedge]

theorem allRefer_traversal (hn : fits "N" (endName e.source)) (hout : fits "Out" e.name) :
    AllRefer fits (traversal e) := by
  simp [allRefer_iff, traversal, fromStart, hn, hout]

theorem allRefer_twoHop (hn : fits "N" (endName e.source)) (hout : fits "Out" e.name) :
    AllRefer fits (twoHop e) := by
  rw [allRefer_iff, twoHop]
  cases e.source == e.target <;> simp [fromStart, hn, hout]

theorem allRefer_mutualConnections (hn : fits "N" (endName e.source)) (hout : fits "Out" e.name)
    (hin : fits "In" e.name) : AllRefer fits (mutualConnections e) := by
  simp [allRefer_iff, mutualConnections, fromStart, call, op, ident, identity, hn, hout, hin]

theorem allRefer_shortestPath (hn : fits "N" (endName e.source))
    (hpath : fits "ShortestPathBFS" e.name) : AllRefer fits (shortestPath e) := by
  simp [allRefer_iff, shortestPath, pathQuery, fromStart, hn, hpath]

theorem allRefer_weightedPath (hn : fits "N" (endName e.source))
    (hpath : fits "ShortestPathDijkstras" e.name) (weight : Property) :
    AllRefer fits (weightedPath e weight) := by
  simp [allRefer_iff, weightedPath, pathQuery, fromStart, property, hn, hpath]

theorem allRefer_vectorSearch (hsearch : fits "SearchV" e.name) (prefilter : Option Property) :
    AllRefer fits (vectorSearch e prefilter) := by
  simp [allRefer_iff, vectorSearch, searchSource, hsearch]

theorem allRefer_hybridSearch (hsearch : fits "SearchV" e.name) (prefilter : Option Property) :
    AllRefer fits (hybridSearch e prefilter) := by
  cases prefilter <;> simp [allRefer_iff, hybridSearch, searchSource, andThen, hsearch]

theorem allRefer_addVector (hadd : fits "AddV" e.name) : AllRefer fits (addVector e) := by
  rw [allRefer_iff, addVector]
  cases e.namedProperties <;> simp [hadd]

theorem allRefer_upsertVector? (hv : fits "V" e.name) {q : Query} (h : upsertVector? e = some q) :
    AllRefer fits q := by
  obtain ⟨-, rfl⟩ := upsertVector?_eq_some h
  simp [allRefer_iff, byIdParam, hv]

theorem allRefer_keywordSearch (hsearch : fits "SearchBM25" e.name) :
    AllRefer fits (keywordSearch e) := by
  simp [allRefer_iff, keywordSearch, hsearch]

end Templates

section Kinds

variable {config : Config} {model : Model} {e : Entity} {q : Query}

/-- The start of an edge between entities of the model. -/
theorem fits_start (haccepts : Validation.Accepts (model.entities.map Entity.name) e)
    (he : e.isConnected = true) : Fits model e q "N" (endName e.source) := by
  have hedge := isEdge_of_isConnected he
  obtain ⟨s, hs⟩ := Option.isSome_iff_exists.1
    (Bool.and_eq_true_iff.1 (Bool.and_eq_true_iff.1 he).1).2
  obtain ⟨x, hx, rfl⟩ := List.mem_map.1 (haccepts.source hedge s hs)
  rw [endName, hs, Option.getD_some]
  exact .start hedge hx ((setEnd_of_isSome (by rw [hs]; rfl)).symm.trans hs)

/-- The start of a path. -/
theorem fits_path (haccepts : Validation.Accepts (model.entities.map Entity.name) e)
    (he : e.isEdge = true) (hpath : IsPath e q) : Fits model e q "N" (endName e.source) := by
  cases hs : setEnd e.source with
  | none =>
    rw [endName, hs, Option.getD_none]
    exact .undefined he hs hpath
  | some s =>
    obtain ⟨x, hx, rfl⟩ := List.mem_map.1 (haccepts.source he s hs)
    rw [endName, hs, Option.getD_some]
    exact .start he hx ((setEnd_of_isSome (by rw [hs]; rfl)).symm.trans hs)

/-- The type parameters of what a template gives fit their operators. -/
theorem Template.allRefer (he : e ∈ model.entities)
    (haccepts : Validation.Accepts (model.entities.map Entity.name) e)
    (h : Template config model e q) : AllRefer (Fits model e q) q := by
  have hkind {kind : EntityKind} (hkind : e.kind = kind) {o : String} (ho : kind ∈ operatorKinds o) :
      Fits model e q o e.name := .entity he (hkind ▸ ho)
  have hnode (h : e.isNode = true) := @hkind .node (of_decide_eq_true h)
  have hedge (h : e.isEdge = true) := @hkind .edge (of_decide_eq_true h)
  have hvector (h : e.isVector = true) := @hkind .vector (of_decide_eq_true h)
  -- the condition of each template gives the kind of its entity, and the kind fits the operators
  cases h with
  | createNode h => exact allRefer_createNode (hnode h (by decide))
  | upsertNode h hq => exact allRefer_upsertNode? (hnode h (by decide)) hq
  | nodeById h => exact allRefer_nodeById (hnode h (by decide))
  | nodeByUnique h => exact allRefer_nodeByUnique (hnode h (by decide)) _
  | allNodes h => exact allRefer_allNodes (hnode h (by decide)) _
  | deleteNode h => exact allRefer_deleteNode (hnode h (by decide))
  | connect h => exact allRefer_connect (hedge (isEdge_of_isConnected h) (by decide))
  | upsertEdge _ h hq =>
    exact allRefer_upsertEdge? (hedge (isEdge_of_isConnected h) (by decide)) hq
  | traversal h =>
    exact allRefer_traversal (fits_start haccepts h) (hedge (isEdge_of_isConnected h) (by decide))
  | twoHop h =>
    exact allRefer_twoHop (fits_start haccepts h) (hedge (isEdge_of_isConnected h) (by decide))
  | mutualConnections h =>
    have hconnected := isEdge_of_isConnected h
    exact allRefer_mutualConnections (fits_start haccepts h) (hedge hconnected (by decide))
      (hedge hconnected (by decide))
  | vectorSearch h => exact allRefer_vectorSearch (hvector h (by decide)) _
  | hybridSearch h => exact allRefer_hybridSearch (hvector h (by decide)) _
  | addVector h => exact allRefer_addVector (hvector h (by decide))
  | upsertVector h hq => exact allRefer_upsertVector? (hvector h (by decide)) hq
  | keywordSearch h =>
    exact allRefer_keywordSearch (h.elim (fun h => hnode h (by decide)) fun h => hvector h (by decide))
  | shortestPath h =>
    exact allRefer_shortestPath (fits_path haccepts h (.inl rfl)) (hedge h (by decide))
  | weightedPath h =>
    exact allRefer_weightedPath (fits_path haccepts h (.inr ⟨_, rfl⟩)) (hedge h (by decide)) _
  | deepDetail h =>
    refine allRefer_deepDetail (hnode h (by decide)) fun edge hmem => ?_
    obtain ⟨hedge, hrelated⟩ := List.mem_filter.1 hmem
    have hkind := of_decide_eq_true (Bool.and_eq_true_iff.1 hrelated).1
    exact ⟨.entity hedge (hkind ▸ by decide), .entity hedge (hkind ▸ by decide)⟩
  | countNodes h => exact allRefer_countNodes (hnode h (by decide))
  | aggregate h _ hfunction hq => exact allRefer_aggregate? (hnode h (by decide)) hfunction hq
  | groupBy h => exact allRefer_groupBy (hnode h (by decide)) _

/-- In a model without errors the type parameters of every query fit their operators. -/
theorem allRefer_of_mem_build (h : Validation.ErrorFree (Validation.validate model)) {g : Group}
    (hg : g ∈ build config model) (hq : q ∈ g.all) : AllRefer (Fits model g.entity q) q := by
  obtain ⟨he, htemplate⟩ := template_of_mem_build hg hq
  exact htemplate.allRefer he (Validation.accepts_of_validate h _ he)

end Kinds

theorem allRefer_socialModel : Validation.ErrorFree (Validation.validate socialModel) ∧
    ∃ g ∈ build (Config.uniform true) socialModel, ∃ q ∈ g.all,
      AllRefer (Fits socialModel g.entity q) q := by
  have herror : Validation.ErrorFree (Validation.validate socialModel) := by decide +kernel
  let g := (build (Config.uniform true) socialModel).get ⟨2, by decide⟩
  let q := g.all.get ⟨2, by decide +kernel⟩
  have hg : g ∈ build (Config.uniform true) socialModel := List.get_mem _ _
  have hq : q ∈ g.all := List.get_mem _ _
  exact ⟨herror, g, hg, q, hq, allRefer_of_mem_build herror hg hq⟩

/-- A model with an edge that starts at a vector. -/
def citationModel : Model := [
  some { id := "p", name := "Person", kind := .node },
  some { id := "d", name := "Doc", kind := .vector },
  some { id := "c", name := "Cites", kind := .edge, source := some "Doc", target := some "Person" }]

/-- Edges may start at entities that are not nodes, and their queries look for nodes all the same. -/
theorem not_allRefer : ¬ ∀ (config : Config) (model : Model),
    Validation.ErrorFree (Validation.validate model) →
      ∀ g ∈ build config model, ∀ q ∈ g.all,
        AllRefer (fun operator t => ∃ x ∈ model.entities, x.name = t ∧
          x.kind ∈ operatorKinds operator) q := by
  intro h
  let edge := citationModel.entities.get ⟨2, by decide⟩
  have hg : ⟨edge, sectionQueries {} citationModel edge⟩ ∈ build {} citationModel :=
    List.mem_map_of_mem (List.get_mem _ _)
  have hq : traversal edge ∈ Group.all ⟨edge, sectionQueries {} citationModel edge⟩ :=
    List.mem_flatMap.2 ⟨.crud, by decide, List.mem_of_getElem? (i := 1) rfl⟩
  have hrefer := h {} citationModel (by decide +kernel) _ hg _ hq
  simp only [allRefer_iff, traversal, fromStart, List.forall_mem_singleton, everywhere_assignment,
    everywhere_source, Refers] at hrefer
  exact absurd hrefer.1.2.1 (by decide)

end Hql.Library
