import Hql.Proofs.Library.Origin
import Hql.Proofs.Query.Parts

/-!
What queries are made of. Whatever the model and the flags, the parameters of a query, the types and
fields in it and the heads of its expressions are words of the templates or names of the model, and
few queries have more than one statement.
-/

namespace Hql.Library

open Fragment

/-! ### Parameters and statements -/

/-- The queries that connect the ends of an edge. -/
def IsConnection (edge : Entity) (q : Query) : Prop := q = connect edge ∨ upsertEdge? edge = some q

/-- The queries that look up an entity and then change it. -/
def IsRevision (e : Entity) (q : Query) : Prop := upsertNode? e = some q ∨ upsertVector? e = some q

/-- The parameters of queries that store no properties. -/
def fixedParams : List (List String) := [
  [], ["id"], ["val"], ["offset", "limit", "order_field", "is_desc"], ["limit"], ["start_id"],
  ["start_id", "limit"], ["a_id", "b_id"], ["start", "end"], ["vec", "limit"],
  ["vec", "limit", "val"], ["text", "limit"]]

/-- The parameters that come before those of the properties of a node or vector. -/
def leadingParams : EntityKind → List (List String)
  | .node => [[], ["id"]]
  | .edge => []
  | .vector => [["data"], ["id", "data"]]

/-- The parameters of a query about an entity. -/
inductive HasParams (e : Entity) (q : Query) : Prop
  | fixed (names : List String) (hnames : names ∈ fixedParams)
      (h : q.params.map Prod.fst = names) : HasParams e q
  | storing (leading : List String) (hleading : leading ∈ leadingParams e.kind)
      (h : q.params.map Prod.fst = leading ++ e.namedProperties.map Property.name) : HasParams e q
  | connecting (h : IsConnection e q) : HasParams e q

/-- A query about an entity of a model has one statement, or two if it changes what it looks up or
shows a node in detail. -/
inductive HasStatements (model : Model) (e : Entity) (q : Query) : Prop
  | lone {f : Fragment} (h : q.statements = [f]) : HasStatements model e q
  | revising (h : IsRevision e q) : HasStatements model e q
  | detailing (h : q = deepDetail e model) : HasStatements model e q

/-! ### Types, fields and heads -/

/-- The types in a query about an entity of a model. -/
inductive IsType (model : Model) (e : Entity) : String → Prop
  | direction : IsType model e "Asc"
  | own : IsType model e e.name
  | start (he : e.isEdge = true) : IsType model e (endName e.source)
  | related {edge : Entity} (h : edge ∈ relatedEdges e model) : IsType model e edge.name

/-- The fields that store the properties of an entity. -/
def storedFields (e : Entity) : List (String × Fragment) :=
  e.namedProperties.map fun p => (p.name, ident p.name)

/-- The fields of the view of a node. -/
def detailFields (node : Entity) (model : Model) : List (String × Fragment) :=
  ("node_id", identity) :: storedFields node ++
    ((relatedEdges node model).take maxEdgeCounts).map (edgeCount node)

/-- The heads of the expressions in a query about an entity: words of the templates, names of
properties, and accessors of properties. -/
inductive IsHead (e : Entity) : String → Prop
  | word {w : String} (h : w ∈ ["_", "_::ID", "\"Deleted\"", "EXISTS", "SUM", "AVG"]) : IsHead e w
  | named {p : Property} (hp : p ∈ e.namedProperties) : IsHead e p.name
  | accessor {p : Property} (hp : p ∈ e.namedProperties) (target : String)
      (htarget : target ∈ ["_", "result"]) : IsHead e (target ++ "::\x7b" ++ p.name ++ "\x7d")

/-- A fragment by itself, in a query about an entity of a model. -/
@[simp] def Draws (model : Model) (e : Entity) (q : Query) : Fragment → Prop
  | step _ (some t) _ _ => IsType model e t
  | source _ (some t) _ _ _ => IsType model e t
  | projection fields =>
    fields = storedFields e ∨ q = deepDetail e model ∧ fields = detailFields e model
  | expression head _ _ => IsHead e head
  | _ => True

/-- What a query about an entity of a model is made of. -/
structure Makeup (model : Model) (e : Entity) (q : Query) : Prop where
  params : HasParams e q
  statements : HasStatements model e q
  draws : (∀ f ∈ q.statements, Everywhere (Draws model e q) f) ∧
    Everywhere (Draws model e q) q.returns

section Parts

variable {model : Model} {e : Entity} {q : Query}

attribute [local simp] IsType.direction IsType.own

@[simp] theorem everywhere_draws_identity : Everywhere (Draws model e q) identity := by
  simpa [identity] using IsHead.word (by decide)

theorem everywhere_draws_ident {p : Property} (hp : p ∈ e.namedProperties) :
    Everywhere (Draws model e q) (ident p.name) := by
  simpa [ident] using IsHead.named hp

theorem everywhere_draws_property {p : Property} (hp : p ∈ e.namedProperties) (target : String)
    (htarget : target ∈ ["_", "result"]) : Everywhere (Draws model e q) (property p.name target) := by
  simpa [property] using IsHead.accessor hp target htarget

/-- A condition that compares a property with a parameter. -/
theorem everywhere_draws_condition {p : Property} (hp : p ∈ e.namedProperties) (val : String) :
    Everywhere (Draws model e q) ((property p.name).op "EQ" (some [text val])) := by
  simpa [property, op] using IsHead.accessor hp "_" (by decide)

theorem everywhere_draws_storedFields :
    ∀ field ∈ storedFields e, Everywhere (Draws model e q) field.2 :=
  List.forall_mem_map.2 fun _ hp => everywhere_draws_ident hp

/-- The projection that stores the properties of an entity. -/
theorem everywhere_draws_assignAll {ps : List Property} (h : e.namedProperties = ps) :
    Everywhere (Draws model e q) (assignAll ps) := by
  subst h
  rw [assignAll, everywhere_projection]
  exact ⟨.inl rfl, everywhere_draws_storedFields⟩

theorem map_fst_propertyParams (ps : List Property) :
    (propertyParams ps).map Prod.fst = ps.map Property.name := by
  rw [propertyParams, List.map_map]
  rfl

/-- The source at the start of an edge. -/
theorem everywhere_draws_fromStart (he : e.isEdge = true) (param : String) {steps : List Fragment}
    (hsteps : ∀ f ∈ steps, Everywhere (Draws model e q) f) (multiline : Bool) :
    Everywhere (Draws model e q) (fromStart e param steps multiline) := by
  simpa [fromStart] using ⟨IsType.start he, hsteps⟩

/-- The lookup of an entity by its id. -/
theorem everywhere_draws_byIdParam (origin : String) :
    Everywhere (Draws model e q) (byIdParam origin e) := by
  simp [byIdParam]

end Parts

/-! ### Templates -/

section Templates

variable {model : Model} {e : Entity}

attribute [local simp] IsType.direction IsType.own everywhere_draws_byIdParam

theorem makeup_createNode (he : e.isNode = true) : Makeup model e (createNode e) where
  params := by
    refine .storing [] ?_ (map_fst_propertyParams _)
    rw [of_decide_eq_true he]
    decide
  statements := .lone rfl
  draws := by
    rw [createNode]
    cases hps : e.namedProperties with
    | nil => simp
    | cons p ps => simpa using everywhere_draws_assignAll hps

theorem makeup_upsertNode? (he : e.isNode = true) {q : Query} (h : upsertNode? e = some q) :
    Makeup model e q where
  params := by
    refine .storing ["id"] ?_ ?_
    · rw [of_decide_eq_true he]
      decide
    · rw [(upsertNode?_eq_some h).2]
      exact congrArg ("id" :: ·) (map_fst_propertyParams _)
  statements := .revising (.inl h)
  draws := by
    rw [(upsertNode?_eq_some h).2]
    simpa using everywhere_draws_assignAll rfl

theorem makeup_nodeById : Makeup model e (nodeById e) where
  params := .fixed ["id"] (by decide) rfl
  statements := .lone rfl
  draws := by simp [nodeById]

theorem makeup_nodeByUnique {p : Property} (hp : p ∈ e.namedProperties) :
    Makeup model e (nodeByUnique e p) where
  params := .fixed ["val"] (by decide) rfl
  statements := .lone rfl
  draws := by simpa [nodeByUnique] using everywhere_draws_condition hp "val"

theorem makeup_allNodes (proControl : Bool) : Makeup model e (allNodes e proControl) := by
  cases proControl with
  | false => exact ⟨.fixed ["limit"] (by decide) rfl, .lone rfl, by simp [allNodes]⟩
  | true =>
    exact ⟨.fixed ["offset", "limit", "order_field", "is_desc"] (by decide) rfl,
      .lone rfl, by simp [allNodes]⟩

theorem makeup_deleteNode : Makeup model e (deleteNode e) where
  params := .fixed ["id"] (by decide) rfl
  statements := .lone rfl
  draws := by
    have hdeleted : IsHead e (Literal.quote "Deleted") := .word (by decide)
    simpa [deleteNode, literal] using hdeleted

theorem makeup_deepDetail : Makeup model e (deepDetail e model) where
  params := .fixed ["id"] (by decide) rfl
  statements := .detailing rfl
  draws := by
    have hcount : ∀ edge ∈ (relatedEdges e model).take maxEdgeCounts,
        Everywhere (Draws model e (deepDetail e model)) (edgeCount e edge).2 := by
      intro edge hmem
      have htype : IsType model e edge.name := .related (List.mem_of_mem_take hmem)
      have hitem : IsHead e "_" := .word (by decide)
      rw [edgeCount]
      split <;> simp [ident, op, htype, hitem]
    have hfields : Everywhere (Draws model e (deepDetail e model))
        (projection (detailFields e model)) := by
      rw [everywhere_projection]
      refine ⟨.inr ⟨rfl, rfl⟩, ?_⟩
      rw [detailFields, List.cons_append, List.forall_mem_cons, List.forall_mem_append,
        List.forall_mem_map]
      exact ⟨everywhere_draws_identity, everywhere_draws_storedFields, hcount⟩
    simpa [deepDetail, detailFields, storedFields] using hfields

theorem makeup_countNodes : Makeup model e (countNodes e) where
  params := .fixed [] (by decide) rfl
  statements := .lone rfl
  draws := by simp [countNodes]

theorem makeup_aggregate? {p : Property} {function : String} {q : Query}
    (hp : p ∈ e.namedProperties) (hfunction : function ∈ aggregates)
    (h : aggregate? e p function = some q) : Makeup model e q := by
  obtain ⟨hcases, rfl⟩ := aggregate?_eq_some hfunction h
  have hhead : IsHead e function := by
    rcases hcases with rfl | rfl <;> exact .word (by decide)
  refine ⟨.fixed [] (by decide) rfl, .lone rfl, ?_⟩
  simpa [call] using ⟨hhead, everywhere_draws_property hp _ (by decide)⟩

theorem makeup_groupBy (p : Property) : Makeup model e (groupBy e p) where
  params := .fixed [] (by decide) rfl
  statements := .lone rfl
  draws := by simp [groupBy]

theorem makeup_connect : Makeup model e (connect e) where
  params := .connecting (.inl rfl)
  statements := .lone rfl
  draws := by
    rw [connect]
    cases hps : e.namedProperties with
    | nil => simp [connectionSteps]
    | cons p ps => simpa [connectionSteps] using everywhere_draws_assignAll hps

theorem makeup_upsertEdge? {q : Query} (h : upsertEdge? e = some q) : Makeup model e q where
  params := .connecting (.inr h)
  statements := .lone (by rw [(upsertEdge?_eq_some h).2])
  draws := by
    rw [(upsertEdge?_eq_some h).2]
    simpa [connectionSteps] using everywhere_draws_assignAll rfl

theorem params_of_isConnection {q : Query} (h : IsConnection e q) :
    q.params.map Prod.fst = "from_id" :: "to_id" :: e.namedProperties.map Property.name := by
  have hparams : q.params = edgeParams e := by
    rcases h with rfl | h
    · rfl
    · rw [(upsertEdge?_eq_some h).2]
  rw [hparams, edgeParams, List.map_cons, List.map_cons, map_fst_propertyParams]

theorem makeup_traversal (he : e.isEdge = true) : Makeup model e (traversal e) where
  params := .fixed ["start_id"] (by decide) rfl
  statements := .lone rfl
  draws := by simpa [traversal] using everywhere_draws_fromStart he _ (by simp) _

theorem makeup_twoHop (he : e.isEdge = true) : Makeup model e (twoHop e) where
  params := .fixed ["start_id", "limit"] (by decide) rfl
  statements := .lone rfl
  draws := by
    rw [twoHop]
    cases e.source == e.target <;>
      simpa using everywhere_draws_fromStart he _ (by simp) _

theorem makeup_mutualConnections (he : e.isEdge = true) :
    Makeup model e (mutualConnections e) where
  params := .fixed ["a_id", "b_id"] (by decide) rfl
  statements := .lone rfl
  draws := by
    have hexists : IsHead e "EXISTS" := .word (by decide)
    have hitem : IsHead e "_" := .word (by decide)
    have hidentity : IsHead e "_::ID" := .word (by decide)
    simpa [mutualConnections] using everywhere_draws_fromStart he _
      (by simp [call, op, ident, identity, hexists, hitem, hidentity]) _

theorem makeup_shortestPath (he : e.isEdge = true) : Makeup model e (shortestPath e) where
  params := .fixed ["start", "end"] (by decide) rfl
  statements := .lone rfl
  draws := by
    simpa [shortestPath, pathQuery] using everywhere_draws_fromStart he _ (by simp) _

theorem makeup_weightedPath (he : e.isEdge = true) {weight : Property}
    (hweight : weight ∈ e.namedProperties) : Makeup model e (weightedPath e weight) where
  params := .fixed ["start", "end"] (by decide) rfl
  statements := .lone rfl
  draws := by
    have hcost (q : Query) : Everywhere (Draws model e q) (property weight.name) :=
      everywhere_draws_property hweight "_" (by decide)
    simpa [weightedPath, pathQuery] using everywhere_draws_fromStart he _ (by simp [hcost]) _

/-- A search takes one parameter more if a property narrows it. -/
theorem hasParams_search {q : Query} {prefilter : Option Property}
    (h : q.params = searchParams prefilter) : HasParams e q := by
  cases prefilter with
  | none => exact .fixed ["vec", "limit"] (by decide) (by rw [h]; rfl)
  | some p => exact .fixed ["vec", "limit", "val"] (by decide) (by rw [h]; rfl)

/-- The source of a search, with whatever steps come after it. -/
theorem everywhere_draws_search {q : Query} {prefilter : Option Property}
    (h : ∀ p ∈ prefilter, p ∈ e.namedProperties) {more : List Fragment}
    (hmore : ∀ f ∈ more, Everywhere (Draws model e q) f) :
    Everywhere (Draws model e q) ((searchSource e prefilter).andThen more) := by
  rw [searchSource, andThen, everywhere_source, List.forall_mem_append, List.forall_mem_map]
  refine ⟨.own, by simp, fun p hp => ?_, hmore⟩
  simpa using everywhere_draws_condition (h p (Option.mem_toList.1 hp)) "val"

theorem makeup_vectorSearch {prefilter : Option Property}
    (h : ∀ p ∈ prefilter, p ∈ e.namedProperties) : Makeup model e (vectorSearch e prefilter) where
  params := hasParams_search rfl
  statements := .lone rfl
  draws := by
    have hnone : ∀ f ∈ ([] : List Fragment),
        Everywhere (Draws model e (vectorSearch e prefilter)) f := by simp
    have hsearch := everywhere_draws_search h hnone
    simpa [vectorSearch, searchSource, andThen] using hsearch

theorem makeup_hybridSearch {prefilter : Option Property}
    (h : ∀ p ∈ prefilter, p ∈ e.namedProperties) : Makeup model e (hybridSearch e prefilter) where
  params := hasParams_search rfl
  statements := .lone rfl
  draws := by simpa [hybridSearch] using everywhere_draws_search h (by simp)

theorem makeup_addVector (he : e.isVector = true) : Makeup model e (addVector e) where
  params := by
    refine .storing ["data"] ?_ (congrArg ("data" :: ·) (map_fst_propertyParams _))
    rw [of_decide_eq_true he]
    decide
  statements := .lone rfl
  draws := by
    rw [addVector]
    cases hps : e.namedProperties with
    | nil => simp
    | cons p ps => simpa using everywhere_draws_assignAll hps

theorem makeup_upsertVector? (he : e.isVector = true) {q : Query} (h : upsertVector? e = some q) :
    Makeup model e q where
  params := by
    refine .storing ["id", "data"] ?_ ?_
    · rw [of_decide_eq_true he]
      decide
    · rw [(upsertVector?_eq_some h).2]
      exact congrArg ("id" :: "data" :: ·) (map_fst_propertyParams _)
  statements := .revising (.inr h)
  draws := by
    rw [(upsertVector?_eq_some h).2]
    simpa using everywhere_draws_assignAll rfl

theorem makeup_keywordSearch : Makeup model e (keywordSearch e) where
  params := .fixed ["text", "limit"] (by decide) rfl
  statements := .lone rfl
  draws := by simp [keywordSearch]

end Templates

/-- What each template gives is made of words of the templates and names of the model. -/
theorem Template.makeup {config : Config} {model : Model} {e : Entity} {q : Query}
    (h : Template config model e q) : Makeup model e q := by
  cases h with
  | createNode he => exact makeup_createNode he
  | upsertNode he h => exact makeup_upsertNode? he h
  | nodeById => exact makeup_nodeById
  | nodeByUnique _ hp => exact makeup_nodeByUnique hp
  | allNodes => exact makeup_allNodes _
  | deleteNode => exact makeup_deleteNode
  | connect => exact makeup_connect
  | upsertEdge _ _ h => exact makeup_upsertEdge? h
  | traversal he => exact makeup_traversal (isEdge_of_isConnected he)
  | twoHop he => exact makeup_twoHop (isEdge_of_isConnected he)
  | mutualConnections he => exact makeup_mutualConnections (isEdge_of_isConnected he)
  | vectorSearch _ h => exact makeup_vectorSearch h
  | hybridSearch _ h => exact makeup_hybridSearch h
  | addVector he => exact makeup_addVector he
  | upsertVector he h => exact makeup_upsertVector? he h
  | keywordSearch => exact makeup_keywordSearch
  | shortestPath he => exact makeup_shortestPath he
  | weightedPath he hp => exact makeup_weightedPath he hp
  | deepDetail => exact makeup_deepDetail
  | countNodes => exact makeup_countNodes
  | aggregate _ hp hfunction h => exact makeup_aggregate? hp hfunction h
  | groupBy => exact makeup_groupBy _

/-- The fragments of a query, in its statements and in what it returns. -/
theorem Makeup.everywhere {model : Model} {e : Entity} {q : Query} (h : Makeup model e q) :
    Everywhere (Draws model e q) q.toFragment := by
  rw [Query.toFragment, everywhere_query]
  exact ⟨trivial, h.draws⟩

end Hql.Library
