import Hql.Proofs.Library.Names
import Hql.Proofs.Library.Origin
import Hql.Proofs.Query.Lines

/-!
The texts of a library without empty lines. When the names of a model are identifiers, every name that
a template puts together from them stands on one line, so no query has an empty line.
-/

namespace Hql.Library

open Text Fragment Layout Naming

/-! ### Names -/

theorem isLine_of_identChars {s : String} (h : ∀ c ∈ s.toList, isIdentChar c = true) : IsLine s :=
  fun hmem => absurd (h '\n' hmem) (by decide)

theorem identChars_of_isIdentifier {cs : List Char} (h : isIdentifier cs = true) :
    ∀ c ∈ cs, isIdentChar c = true := fun _ hc => Schema.isIdentChar_of_mem h _ hc

theorem identChars_pascalFrom {cs : List Char} (h : ∀ c ∈ cs, isIdentChar c = true)
    (atStart : Bool) : ∀ c ∈ pascalFrom atStart cs, isIdentChar c = true := by
  refine forall_mem_pascalFrom (fun c hc => ?_) h atStart
  rw [upperChar, if_pos (toNat_lt_of_isIdentChar hc)]
  exact List.forall_mem_singleton.2 (isIdentChar_toUpper hc).1

theorem isLine_pascalCase {name : String} (h : ∀ c ∈ name.toList, isIdentChar c = true) :
    IsLine (pascalCase name) := by
  refine isLine_of_identChars ?_
  rw [pascalCase, String.toList_ofList]
  exact identChars_pascalFrom h true

theorem isLine_lowercase {name : String} (h : ∀ c ∈ name.toList, isIdentChar c = true) :
    IsLine (lowercase name) := by
  have hlower := lower_name (a := []) (b := []) (fun _ hc => nomatch hc) h (fun _ hc => nomatch hc)
  simp only [List.nil_append, List.append_nil] at hlower
  refine isLine_of_identChars ?_
  rw [lowercase, String.toList_ofList, hlower]
  exact List.forall_mem_map.2 fun c hc => (isIdentChar_toUpper (h c hc)).2

theorem isLine_typeName (p : Property) : IsLine p.typeName := by
  have htype : IsLine p.type.name := by cases p.type <;> decide
  rw [Property.typeName]
  split
  · simp only [isLine_append]
    exact ⟨⟨by decide, htype⟩, by decide⟩
  · exact htype

/-- The names of an entity that queries are made from are identifiers: its own, that of the entity at
the start of an edge if it is set, and those of its properties. -/
structure HasIdentifiers (e : Entity) : Prop where
  name : isIdentifier e.name.toList = true
  source : e.isEdge = true → ∀ s ∈ setEnd e.source, isIdentifier s.toList = true
  properties : ∀ p ∈ e.namedProperties, isIdentifier p.name.toList = true

instance (e : Entity) : Decidable (HasIdentifiers e) :=
  decidable_of_iff (isIdentifier e.name.toList = true ∧
      (e.isEdge = true → ∀ s ∈ setEnd e.source, isIdentifier s.toList = true) ∧
      ∀ p ∈ e.namedProperties, isIdentifier p.name.toList = true)
    ⟨fun ⟨hname, hsource, hproperties⟩ => ⟨hname, hsource, hproperties⟩,
      fun h => ⟨h.name, h.source, h.properties⟩⟩

namespace HasIdentifiers

variable {e : Entity} (h : HasIdentifiers e)

include h

theorem isLine_name : IsLine e.name := isLine_of_identChars (identChars_of_isIdentifier h.name)

theorem isLine_title : IsLine (pascalCase e.name) :=
  isLine_pascalCase (identChars_of_isIdentifier h.name)

theorem isLine_count : IsLine (lowercase e.name ++ "_count") :=
  (isLine_append _ _).2 ⟨isLine_lowercase (identChars_of_isIdentifier h.name), by decide⟩

theorem isLine_property {p : Property} (hp : p ∈ e.namedProperties) :
    IsLine p.name ∧ IsLine (pascalCase p.name) := by
  have hident := identChars_of_isIdentifier (h.properties p hp)
  exact ⟨isLine_of_identChars hident, isLine_pascalCase hident⟩

theorem isLine_source (he : e.isEdge = true) :
    IsLine (endName e.source) ∧ IsLine (pascalCase (e.source.getD "")) := by
  rw [← getD_setEnd, endName]
  cases hset : setEnd e.source with
  | some s =>
    have hident := identChars_of_isIdentifier (h.source he s hset)
    exact ⟨isLine_of_identChars hident, isLine_pascalCase hident⟩
  | none => decide

theorem isLine_params : ∀ p ∈ propertyParams e.namedProperties, IsLine p.1 ∧ IsLine p.2 :=
  List.forall_mem_map.2 fun p hp => ⟨(h.isLine_property hp).1, isLine_typeName p⟩

end HasIdentifiers

/-! ### Templates -/

/-- All texts in a query stand on one line. -/
def AllOneLine (q : Query) : Prop := Everywhere IsOneLine q.toFragment

theorem allOneLine_iff (q : Query) : AllOneLine q ↔
    (IsLine q.name ∧ ∀ p ∈ q.params, IsLine p.1 ∧ IsLine p.2) ∧
      (∀ f ∈ q.statements, Everywhere IsOneLine f) ∧ Everywhere IsOneLine q.returns := by
  rw [AllOneLine, Query.toFragment, everywhere_query, IsOneLine]

section Templates

variable {e : Entity} (h : HasIdentifiers e)

include h

theorem everywhere_isOneLine_assignAll : Everywhere IsOneLine (assignAll e.namedProperties) := by
  rw [assignAll, everywhere_projection, IsOneLine, List.forall_mem_map, List.forall_mem_map]
  refine ⟨fun p hp => (h.isLine_property hp).1, fun p hp => ?_⟩
  simp [ident, IsOneLine, (h.isLine_property hp).1]

theorem everywhere_isOneLine_byIdParam {origin : String} (horigin : IsLine origin) :
    Everywhere IsOneLine (byIdParam origin e) := by
  simp +decide [byIdParam, IsOneLine, horigin, h.isLine_name]

theorem everywhere_isOneLine_fromStart (he : e.isEdge = true) {param : String}
    (hparam : IsLine param) {steps : List Fragment} (hsteps : ∀ f ∈ steps, Everywhere IsOneLine f)
    (multiline : Bool) : Everywhere IsOneLine (fromStart e param steps multiline) := by
  simpa +decide [fromStart, IsOneLine, hparam, (h.isLine_source he).1] using hsteps

theorem allOneLine_createNode : AllOneLine (createNode e) := by
  have hassign := everywhere_isOneLine_assignAll h
  rw [allOneLine_iff, createNode]
  refine ⟨⟨by simpa +decide using h.isLine_title, h.isLine_params⟩, ?_⟩
  cases hps : e.namedProperties with
  | nil => simp +decide [IsOneLine, h.isLine_name]
  | cons p ps =>
    rw [hps] at hassign
    simp +decide [IsOneLine, h.isLine_name, hassign]

theorem allOneLine_upsertNode? {q : Query} (hq : upsertNode? e = some q) : AllOneLine q := by
  obtain ⟨-, rfl⟩ := upsertNode?_eq_some hq
  rw [allOneLine_iff]
  refine ⟨⟨by simpa +decide using h.isLine_title,
    List.forall_mem_cons.2 ⟨by decide, h.isLine_params⟩⟩, ?_⟩
  simp +decide [IsOneLine, everywhere_isOneLine_byIdParam h, everywhere_isOneLine_assignAll h]

theorem allOneLine_nodeById : AllOneLine (nodeById e) := by
  simp +decide [allOneLine_iff, nodeById, IsOneLine, h.isLine_title, everywhere_isOneLine_byIdParam h]

theorem allOneLine_nodeByUnique {p : Property} (hp : p ∈ e.namedProperties) :
    AllOneLine (nodeByUnique e p) := by
  simp +decide [allOneLine_iff, nodeByUnique, IsOneLine, property, op, h.isLine_title, h.isLine_name,
    h.isLine_property hp, isLine_typeName]

theorem allOneLine_allNodes (proControl : Bool) : AllOneLine (allNodes e proControl) := by
  rw [allOneLine_iff, allNodes]
  cases proControl <;> simp +decide [IsOneLine, identity, h.isLine_title, h.isLine_name]

theorem allOneLine_deleteNode : AllOneLine (deleteNode e) := by
  simp +decide [allOneLine_iff, deleteNode, IsOneLine, literal, h.isLine_title,
    everywhere_isOneLine_byIdParam h]

theorem allOneLine_countNodes : AllOneLine (countNodes e) := by
  simp +decide [allOneLine_iff, countNodes, IsOneLine, h.isLine_title, h.isLine_name]

theorem allOneLine_aggregate? {p : Property} (hp : p ∈ e.namedProperties) {function : String}
    (hfunction : function ∈ aggregates) {q : Query} (hq : aggregate? e p function = some q) :
    AllOneLine q := by
  obtain ⟨hcases, rfl⟩ := aggregate?_eq_some hfunction hq
  have hnames : IsLine function ∧ IsLine (titleCase function) := by
    rcases hcases with rfl | rfl <;> decide
  simp +decide [allOneLine_iff, IsOneLine, call, property, hnames, h.isLine_title, h.isLine_name,
    h.isLine_property hp]

theorem allOneLine_groupBy {p : Property} (hp : p ∈ e.namedProperties) :
    AllOneLine (groupBy e p) := by
  simp +decide [allOneLine_iff, groupBy, IsOneLine, h.isLine_title, h.isLine_name, h.isLine_property hp]

theorem allOneLine_deepDetail {model : Model}
    (hedges : ∀ edge ∈ relatedEdges e model, HasIdentifiers edge) : AllOneLine (deepDetail e model) := by
  have hfields : Everywhere IsOneLine (projection (("node_id", identity) ::
      e.namedProperties.map (fun p => (p.name, ident p.name)) ++
        ((relatedEdges e model).take maxEdgeCounts).map (edgeCount e))) := by
    rw [everywhere_projection, IsOneLine]
    simp only [List.cons_append, List.forall_mem_cons, List.forall_mem_append, List.forall_mem_map]
    have hcount {edge : Entity} (hmem : edge ∈ (relatedEdges e model).take maxEdgeCounts) :=
      hedges edge (List.mem_of_mem_take hmem)
    refine ⟨⟨by decide, fun p hp => (h.isLine_property hp).1, fun edge hmem => (hcount hmem).isLine_count⟩,
      ?_, fun p hp => ?_, fun edge hmem => ?_⟩
    · decide
    · simp [ident, IsOneLine, (h.isLine_property hp).1]
    · rw [edgeCount]
      dsimp only
      split <;> simp +decide [ident, op, IsOneLine, (hcount hmem).isLine_name]
  rw [allOneLine_iff, deepDetail]
  simpa +decide [IsOneLine, h.isLine_title, everywhere_isOneLine_byIdParam h] using hfields

theorem isLine_edgeParams : ∀ p ∈ edgeParams e, IsLine p.1 ∧ IsLine p.2 :=
  List.forall_mem_cons.2 ⟨by decide, List.forall_mem_cons.2 ⟨by decide, h.isLine_params⟩⟩

theorem allOneLine_connect : AllOneLine (connect e) := by
  have hassign := everywhere_isOneLine_assignAll h
  rw [allOneLine_iff, connect]
  refine ⟨⟨by simpa +decide using h.isLine_title, isLine_edgeParams h⟩, ?_⟩
  cases hps : e.namedProperties with
  | nil => simp +decide [IsOneLine, connectionSteps, h.isLine_name]
  | cons p ps =>
    rw [hps] at hassign
    simp +decide [IsOneLine, connectionSteps, h.isLine_name, hassign]

theorem allOneLine_upsertEdge? {q : Query} (hq : upsertEdge? e = some q) : AllOneLine q := by
  obtain ⟨-, rfl⟩ := upsertEdge?_eq_some hq
  rw [allOneLine_iff]
  refine ⟨⟨by simpa +decide using h.isLine_title, isLine_edgeParams h⟩, ?_⟩
  simp +decide [IsOneLine, connectionSteps, h.isLine_name, everywhere_isOneLine_assignAll h]

theorem allOneLine_traversal (he : e.isEdge = true) : AllOneLine (traversal e) := by
  have hstart := @everywhere_isOneLine_fromStart e h he
  simp +decide [allOneLine_iff, traversal, IsOneLine, hstart, h.isLine_title, h.isLine_name,
    h.isLine_source he]

theorem allOneLine_twoHop (he : e.isEdge = true) : AllOneLine (twoHop e) := by
  have hstart := @everywhere_isOneLine_fromStart e h he
  rw [allOneLine_iff, twoHop]
  cases e.source == e.target <;>
    simp +decide [IsOneLine, hstart, h.isLine_title, h.isLine_name]

theorem allOneLine_mutualConnections (he : e.isEdge = true) : AllOneLine (mutualConnections e) := by
  have hstart := @everywhere_isOneLine_fromStart e h he
  simp +decide [allOneLine_iff, mutualConnections, IsOneLine, call, op, ident, identity, hstart,
    h.isLine_title, h.isLine_name]

theorem allOneLine_shortestPath (he : e.isEdge = true) : AllOneLine (shortestPath e) := by
  have hstart := @everywhere_isOneLine_fromStart e h he
  simp +decide [allOneLine_iff, shortestPath, pathQuery, IsOneLine, hstart, h.isLine_title,
    h.isLine_name]

theorem allOneLine_weightedPath (he : e.isEdge = true) {weight : Property}
    (hweight : weight ∈ e.namedProperties) : AllOneLine (weightedPath e weight) := by
  have hstart := @everywhere_isOneLine_fromStart e h he
  simp +decide [allOneLine_iff, weightedPath, pathQuery, IsOneLine, property, hstart, h.isLine_title,
    h.isLine_name, h.isLine_property hweight]

theorem isLine_prefilter {prefilter : Option Property}
    (hprefilter : ∀ p ∈ prefilter, p ∈ e.namedProperties) :
    IsLine (prefilterSuffix prefilter) ∧ ∀ p ∈ searchParams prefilter, IsLine p.1 ∧ IsLine p.2 := by
  cases prefilter with
  | none => decide
  | some p =>
    have hp := h.isLine_property (hprefilter p rfl)
    simp +decide [prefilterSuffix, searchParams, hp, isLine_typeName]

theorem everywhere_isOneLine_search {prefilter : Option Property}
    (hprefilter : ∀ p ∈ prefilter, p ∈ e.namedProperties) {more : List Fragment}
    (hmore : ∀ f ∈ more, Everywhere IsOneLine f) :
    Everywhere IsOneLine ((searchSource e prefilter).andThen more) := by
  cases prefilter with
  | none => simpa +decide [searchSource, andThen, IsOneLine, h.isLine_name] using hmore
  | some p =>
    have hp := h.isLine_property (hprefilter p rfl)
    simpa +decide [searchSource, andThen, IsOneLine, property, op, h.isLine_name, hp] using hmore

theorem allOneLine_vectorSearch {prefilter : Option Property}
    (hprefilter : ∀ p ∈ prefilter, p ∈ e.namedProperties) : AllOneLine (vectorSearch e prefilter) := by
  obtain ⟨hsuffix, hparams⟩ := isLine_prefilter h hprefilter
  have hnone : ∀ f ∈ ([] : List Fragment), Everywhere IsOneLine f := fun _ hf => nomatch hf
  have hsearch := everywhere_isOneLine_search h hprefilter hnone
  have hplain : (searchSource e prefilter).andThen [] = searchSource e prefilter := by
    simp [searchSource, andThen]
  rw [hplain] at hsearch
  rw [allOneLine_iff, vectorSearch]
  exact ⟨⟨by simpa +decide [hsuffix] using h.isLine_title, hparams⟩,
    by simpa +decide [IsOneLine] using hsearch⟩

theorem allOneLine_hybridSearch {prefilter : Option Property}
    (hprefilter : ∀ p ∈ prefilter, p ∈ e.namedProperties) : AllOneLine (hybridSearch e prefilter) := by
  obtain ⟨hsuffix, hparams⟩ := isLine_prefilter h hprefilter
  have hrerank : Everywhere IsOneLine
      (step "RerankRRF" none (some [text ("k: " ++ toString rankConstant)]) false) := by
    decide
  have hsearch := everywhere_isOneLine_search h hprefilter (List.forall_mem_singleton.2 hrerank)
  rw [allOneLine_iff, hybridSearch]
  exact ⟨⟨by simpa +decide [hsuffix] using h.isLine_title, hparams⟩,
    by simpa +decide [IsOneLine] using hsearch⟩

theorem allOneLine_addVector : AllOneLine (addVector e) := by
  have hassign := everywhere_isOneLine_assignAll h
  rw [allOneLine_iff, addVector]
  refine ⟨⟨by simpa +decide using h.isLine_title,
    List.forall_mem_cons.2 ⟨by decide, h.isLine_params⟩⟩, ?_⟩
  cases hps : e.namedProperties with
  | nil => simp +decide [IsOneLine, h.isLine_name]
  | cons p ps =>
    rw [hps] at hassign
    simp +decide [IsOneLine, h.isLine_name, hassign]

theorem allOneLine_upsertVector? {q : Query} (hq : upsertVector? e = some q) : AllOneLine q := by
  obtain ⟨-, rfl⟩ := upsertVector?_eq_some hq
  rw [allOneLine_iff]
  refine ⟨⟨by simpa +decide using h.isLine_title, List.forall_mem_cons.2 ⟨by decide,
    List.forall_mem_cons.2 ⟨by decide, h.isLine_params⟩⟩⟩, ?_⟩
  simp +decide [IsOneLine, everywhere_isOneLine_byIdParam h, everywhere_isOneLine_assignAll h]

theorem allOneLine_keywordSearch : AllOneLine (keywordSearch e) := by
  simp +decide [allOneLine_iff, keywordSearch, IsOneLine, h.isLine_title, h.isLine_name]

end Templates

/-- Every template gives queries whose texts stand on one line. -/
theorem Template.allOneLine {config : Config} {model : Model} {e : Entity} {q : Query}
    (hmodel : ∀ e ∈ model.entities, HasIdentifiers e) (he : e ∈ model.entities)
    (h : Template config model e q) : AllOneLine q := by
  have hentity := hmodel e he
  cases h with
  | createNode => exact allOneLine_createNode hentity
  | upsertNode _ hq => exact allOneLine_upsertNode? hentity hq
  | nodeById => exact allOneLine_nodeById hentity
  | nodeByUnique _ hp => exact allOneLine_nodeByUnique hentity hp
  | allNodes => exact allOneLine_allNodes hentity _
  | deleteNode => exact allOneLine_deleteNode hentity
  | connect => exact allOneLine_connect hentity
  | upsertEdge _ _ hq => exact allOneLine_upsertEdge? hentity hq
  | traversal h => exact allOneLine_traversal hentity (isEdge_of_isConnected h)
  | twoHop h => exact allOneLine_twoHop hentity (isEdge_of_isConnected h)
  | mutualConnections h => exact allOneLine_mutualConnections hentity (isEdge_of_isConnected h)
  | vectorSearch _ hprefilter => exact allOneLine_vectorSearch hentity hprefilter
  | hybridSearch _ hprefilter => exact allOneLine_hybridSearch hentity hprefilter
  | addVector => exact allOneLine_addVector hentity
  | upsertVector _ hq => exact allOneLine_upsertVector? hentity hq
  | keywordSearch => exact allOneLine_keywordSearch hentity
  | shortestPath h => exact allOneLine_shortestPath hentity h
  | weightedPath h hp => exact allOneLine_weightedPath hentity h hp
  | deepDetail =>
    exact allOneLine_deepDetail hentity fun edge hmem => hmodel edge (List.mem_filter.1 hmem).1
  | countNodes => exact allOneLine_countNodes hentity
  | aggregate _ hp hfunction hq => exact allOneLine_aggregate? hentity hp hfunction hq
  | groupBy _ hp => exact allOneLine_groupBy hentity hp

/-- No query of a library has an empty line. -/
theorem unbroken_text {config : Config} {model : Model}
    (hmodel : ∀ e ∈ model.entities, HasIdentifiers e) {g : Group} (hg : g ∈ build config model)
    {q : Query} (hq : q ∈ g.all) : Unbroken q.text.toList := by
  obtain ⟨he, htemplate⟩ := template_of_mem_build hg hq
  exact unbroken_render (htemplate.allOneLine hmodel he) (by decide)

end Hql.Library
