import Hql.Proofs.Library.Origin
import Hql.Proofs.Query.Parts

/-!
What a query speaks of. Whatever the model and the flags, a query of a library speaks only of its
parameters, of variables that it has assigned before, and of the properties of its entity.
-/

namespace Hql.Library

open Fragment

/-- Operators that take words: parameters and numerals. -/
@[simp] def wordOperators : List String :=
  ["N", "V", "SearchV", "SearchBM25", "AddV", "UpsertV", "From", "To", "RANGE", "EQ"]

/-- Operators that store properties. -/
@[simp] def storingOperators : List String := ["AddN", "UpsertN", "AddE", "UpsertE", "AddV", "UpsertV"]

/-- A text of digits. -/
def IsNumeral (s : String) : Prop := s ≠ "" ∧ s.toList.all Char.isDigit = true

instance (s : String) : Decidable (IsNumeral s) := inferInstanceAs (Decidable (_ ∧ _))

@[simp] theorem isNumeral_zero : IsNumeral "0" := by decide

/-- What a fragment of a query may speak of: the entity of the query, the parameters with their types,
and the variables assigned so far. -/
structure Scope where
  entity : Entity
  params : List (String × String)
  locals : List String

namespace Scope

/-- The heads of expressions: the item at hand, its id, and a property of it or of a variable. -/
inductive Operand (s : Scope) : Fragment → Prop
  | item : Operand s (ident "_")
  | identity : Operand s identity
  | property {p : Property} {target : String} (hp : p ∈ s.entity.namedProperties)
      (htarget : target = "_" ∨ target ∈ s.locals) : Operand s (property p.name target)

/-- An operator may take this argument. -/
def Takes (s : Scope) (operator : String) : Fragment → Prop
  | text w =>
    (operator ∈ wordOperators → w ∈ s.params.map Prod.fst ∨ IsNumeral w) ∧
      (operator = "GROUP_BY" → ∃ p ∈ s.entity.namedProperties, w = p.name)
  | expression head none _ => operator ≠ "GROUP_BY" ∧ Operand s (expression head none [])
  | projection fields => operator ≠ "GROUP_BY" ∧ (operator ∈ storingOperators →
      fields = s.entity.namedProperties.map (fun p => (p.name, ident p.name)) ∧
        ∀ p ∈ s.entity.namedProperties, (p.name, p.typeName) ∈ s.params)
  | _ => operator ≠ "GROUP_BY"

/-- A field of a projection is a property of the entity, or what an operand gives. -/
def Holds (s : Scope) (field : String × Fragment) : Prop :=
  (∃ p ∈ s.entity.namedProperties, field = (p.name, ident p.name)) ∨
    ∃ head chain, field.2 = expression head none chain ∧ Operand s (expression head none [])

/-- A fragment by itself, without the fragments inside it, speaks only of what is in scope. -/
@[simp] def Covers (s : Scope) : Fragment → Prop
  | step name _ args _ => ∀ f ∈ args.getD [], s.Takes name f
  | expression head none _ =>
    Operand s (expression head none []) ∨ ∃ p ∈ s.entity.namedProperties, head = p.name
  | expression function (some args) _ => ∀ f ∈ args, s.Takes function f
  | projection fields => ∀ field ∈ fields, s.Holds field
  | source origin typeParam args _ _ =>
    (typeParam = none → origin ∈ s.locals) ∧ ∀ f ∈ args.getD [], s.Takes origin f
  | _ => True

/-- Statements are in scope one after another: each may read the variables assigned before it. -/
@[simp] def CoversAll (s : Scope) : List Fragment → Prop
  | [] => True
  | f :: fs => Everywhere s.Covers f ∧ { s with locals := s.locals ++ f.assigned }.CoversAll fs

/-- What a query may return: a variable, a literal, or an aggregate of a variable. -/
inductive Returns (s : Scope) : Fragment → Prop
  | variable {v : String} (hv : v ∈ s.locals) : Returns s (text v)
  | literal (t : String) : Returns s (literal t)
  | aggregate {function v : String} {p : Property} (hfunction : function ∈ aggregates)
      (hp : p ∈ s.entity.namedProperties) (hv : v ∈ s.locals) :
      Returns s (call function [Fragment.property p.name v])

end Scope

/-- A query about an entity is closed. -/
structure IsClosed (e : Entity) (q : Query) : Prop where
  statements : Scope.CoversAll ⟨e, q.params, []⟩ q.statements
  returns : Scope.Returns ⟨e, q.params, q.statements.flatMap assigned⟩ q.returns

namespace Scope

variable {s : Scope}

@[simp] theorem takes_text (operator w : String) : s.Takes operator (text w) ↔
    (operator ∈ wordOperators → w ∈ s.params.map Prod.fst ∨ IsNumeral w) ∧
      (operator = "GROUP_BY" → ∃ p ∈ s.entity.namedProperties, w = p.name) :=
  Iff.rfl

@[simp] theorem takes_expression (operator head : String) (chain : List Fragment) :
    s.Takes operator (expression head none chain) ↔
      operator ≠ "GROUP_BY" ∧ s.Operand (expression head none []) :=
  Iff.rfl

@[simp] theorem takes_call (operator function : String) (args chain : List Fragment) :
    s.Takes operator (expression function (some args) chain) ↔ operator ≠ "GROUP_BY" :=
  Iff.rfl

@[simp] theorem operand_item : s.Operand (expression "_" none []) := .item

@[simp] theorem operand_identity : s.Operand (expression "_::ID" none []) := .identity

theorem everywhere_ident {p : Property} (hp : p ∈ s.entity.namedProperties) :
    Everywhere s.Covers (ident p.name) := by
  simpa [ident] using .inr ⟨p, hp, rfl⟩

theorem everywhere_property {p : Property} (hp : p ∈ s.entity.namedProperties) :
    Everywhere s.Covers (property p.name) := by
  rw [property, everywhere_expression]
  exact ⟨.inl (.property hp (.inl rfl)), by simp, by simp⟩

/-- A projection of all properties of the entity. -/
theorem everywhere_assignAll {ps : List Property} (hps : s.entity.namedProperties = ps) :
    Everywhere s.Covers (assignAll ps) := by
  rw [assignAll, everywhere_projection]
  subst hps
  exact ⟨List.forall_mem_map.2 fun p hp => .inl ⟨p, hp, rfl⟩,
    List.forall_mem_map.2 fun p hp => everywhere_ident hp⟩

/-- Operators may take a projection of all properties whose parameters are there. -/
theorem takes_assignAll {operator : String} (hgroup : operator ≠ "GROUP_BY") {ps : List Property}
    (hps : s.entity.namedProperties = ps) (h : propertyParams ps ⊆ s.params) :
    s.Takes operator (assignAll ps) :=
  ⟨hgroup, fun _ => by rw [hps]; exact ⟨rfl, fun _ hp => h (List.mem_map_of_mem hp)⟩⟩

/-- A condition on a property that compares it with a parameter. -/
theorem everywhere_condition {p : Property} (hp : p ∈ s.entity.namedProperties) {val : String}
    (hval : val ∈ s.params.map Prod.fst) :
    Everywhere s.Covers ((property p.name).op "EQ" (some [text val])) := by
  rw [property, op, everywhere_expression]
  exact ⟨.inl (.property hp (.inl rfl)), by simp, by simpa using .inl (by simpa using hval)⟩

theorem takes_condition {operator : String} (hgroup : operator ≠ "GROUP_BY") {p : Property}
    (hp : p ∈ s.entity.namedProperties) (args : Option (List Fragment)) :
    s.Takes operator ((property p.name).op "EQ" args) :=
  ⟨hgroup, .property hp (.inl rfl)⟩

end Scope

section Templates

variable {e : Entity} {title : String} {params : List (String × String)}

/-- A query that returns what its one statement assigns. -/
theorem isClosed_assignment (v : String) {value : Fragment}
    (hvalue : Everywhere (Scope.Covers ⟨e, params, []⟩) value) :
    IsClosed e ⟨title, params, [assignment v value], text v⟩ :=
  ⟨by simpa using hvalue, .variable (List.mem_singleton_self v)⟩

/-- A query whose second statement may read what the first one assigns. -/
theorem isClosed_assignment₂ (u v : String) {first second : Fragment}
    (hfirst : Everywhere (Scope.Covers ⟨e, params, []⟩) first)
    (hsecond : Everywhere (Scope.Covers ⟨e, params, [u]⟩) second) :
    IsClosed e ⟨title, params, [assignment u first, assignment v second], text v⟩ :=
  ⟨by simpa [assigned] using ⟨hfirst, hsecond⟩,
    .variable (List.mem_cons_of_mem u (List.mem_singleton_self v))⟩

theorem isClosed_createNode (node : Entity) : IsClosed node (createNode node) := by
  refine isClosed_assignment "new_node" ?_
  cases hps : node.namedProperties with
  | nil => simp
  | cons p ps =>
    simpa using ⟨Scope.takes_assignAll (by decide) hps (List.Subset.refl _),
      Scope.everywhere_assignAll hps⟩

theorem isClosed_upsertNode? {node : Entity} {q : Query} (h : upsertNode? node = some q) :
    IsClosed node q := by
  obtain ⟨-, rfl⟩ := upsertNode?_eq_some h
  refine isClosed_assignment₂ "existing" "upsert_node" (by simp [byIdParam]) ?_
  simpa using ⟨Scope.takes_assignAll (by decide) rfl (List.subset_cons_self _ _),
    Scope.everywhere_assignAll rfl⟩

theorem isClosed_nodeByUnique {node : Entity} {p : Property} (hp : p ∈ node.namedProperties) :
    IsClosed node (nodeByUnique node p) := by
  refine isClosed_assignment "result" ?_
  simpa using ⟨Scope.takes_condition (by decide) hp _, Scope.everywhere_condition hp (by simp)⟩

theorem isClosed_allNodes (node : Entity) (proControl : Bool) :
    IsClosed node (allNodes node proControl) := by
  rw [allNodes]
  split
  · exact isClosed_assignment "results" (by simp [identity])
  · exact isClosed_assignment "results" (by simp)

/-- The view of a node shows its properties, its id and counts of edges. -/
theorem isClosed_deepDetail (node : Entity) (model : Model) :
    IsClosed node (deepDetail node model) := by
  refine isClosed_assignment₂ "origin" "detail" (by simp [byIdParam]) ?_
  have hproperties : ∀ p ∈ node.namedProperties,
      Scope.Holds ⟨node, [("id", "ID")], ["origin"]⟩ (p.name, ident p.name) :=
    fun p hp => .inl ⟨p, hp, rfl⟩
  have hcount (edge : Entity) : Scope.Holds ⟨node, [("id", "ID")], ["origin"]⟩ (edgeCount node edge) :=
    .inr ⟨"_", _, rfl, .item⟩
  have hid : Scope.Holds ⟨node, [("id", "ID")], ["origin"]⟩ ("node_id", identity) :=
    .inr ⟨_, [], rfl, .identity⟩
  simp only [everywhere_source, everywhere_projection, Scope.Covers, List.forall_mem_cons,
    List.forall_mem_append, List.forall_mem_map, List.cons_append]
  refine ⟨⟨by simp, by simp⟩, by simp, ⟨⟨hid, hproperties, fun edge _ => hcount edge⟩, ?_⟩, by simp⟩
  exact ⟨by simp [identity], fun p hp => Scope.everywhere_ident hp, by simp [edgeCount, ident, op]⟩

theorem isClosed_aggregate? {node : Entity} {p : Property} {function : String} {q : Query}
    (hp : p ∈ node.namedProperties) (hfunction : function ∈ aggregates)
    (h : aggregate? node p function = some q) : IsClosed node q := by
  obtain ⟨-, rfl⟩ := aggregate?_eq_some hfunction h
  exact ⟨by simp, .aggregate hfunction hp (List.mem_singleton_self "result")⟩

theorem isClosed_groupBy {node : Entity} {p : Property} (hp : p ∈ node.namedProperties) :
    IsClosed node (groupBy node p) := by
  refine isClosed_assignment "groups" ?_
  simpa using ⟨p, hp, rfl⟩

theorem isClosed_connect (edge : Entity) : IsClosed edge (connect edge) := by
  refine isClosed_assignment "edge" ?_
  cases hps : edge.namedProperties with
  | nil => simp [connectionSteps, edgeParams]
  | cons p ps =>
    have hparams : propertyParams (p :: ps) ⊆ edgeParams edge := by simp [edgeParams, hps]
    simpa [connectionSteps, edgeParams] using
      ⟨Scope.takes_assignAll (by decide) hps hparams, Scope.everywhere_assignAll hps⟩

theorem isClosed_upsertEdge? {edge : Entity} {q : Query} (h : upsertEdge? edge = some q) :
    IsClosed edge q := by
  obtain ⟨-, rfl⟩ := upsertEdge?_eq_some h
  refine isClosed_assignment "edge" ?_
  have hparams : propertyParams edge.namedProperties ⊆ edgeParams edge := by simp [edgeParams]
  simpa [connectionSteps, edgeParams] using
    ⟨Scope.takes_assignAll (by decide) rfl hparams, Scope.everywhere_assignAll rfl⟩

theorem isClosed_traversal (edge : Entity) : IsClosed edge (traversal edge) :=
  isClosed_assignment "results" (by simp [fromStart])

theorem isClosed_twoHop (edge : Entity) : IsClosed edge (twoHop edge) := by
  refine isClosed_assignment "network" ?_
  cases edge.source == edge.target <;> simp [fromStart]

theorem isClosed_mutualConnections (edge : Entity) : IsClosed edge (mutualConnections edge) :=
  isClosed_assignment "mutual" (by simp [fromStart, call, op, identity, ident])

theorem isClosed_shortestPath (edge : Entity) : IsClosed edge (shortestPath edge) :=
  isClosed_assignment "path" (by simp [fromStart])

theorem isClosed_weightedPath {edge : Entity} {weight : Property}
    (h : weight ∈ edge.namedProperties) : IsClosed edge (weightedPath edge weight) := by
  refine isClosed_assignment "path" ?_
  have htakes : Scope.Takes ⟨edge, [("start", "ID"), ("end", "ID")], []⟩ "ShortestPathDijkstras"
      (property weight.name) :=
    ⟨by decide, .property h (.inl rfl)⟩
  simpa [fromStart] using ⟨htakes, Scope.everywhere_property h⟩

/-- The source of a search, with whatever steps come after it. -/
theorem everywhere_search {vector : Entity} {prefilter : Option Property}
    (h : ∀ p ∈ prefilter, p ∈ vector.namedProperties) {more : List Fragment}
    (hmore : ∀ f ∈ more, Everywhere (Scope.Covers ⟨vector, searchParams prefilter, []⟩) f) :
    Everywhere (Scope.Covers ⟨vector, searchParams prefilter, []⟩)
      ((searchSource vector prefilter).andThen more) := by
  have hvec : "vec" ∈ (searchParams prefilter).map Prod.fst := by simp [searchParams]
  have hlimit : "limit" ∈ (searchParams prefilter).map Prod.fst := by simp [searchParams]
  rw [searchSource, andThen, everywhere_source, List.forall_mem_append]
  refine ⟨by simp [hvec, hlimit], by simp, ?_, hmore⟩
  refine List.forall_mem_map.2 fun p hp => ?_
  have hnamed := h p (Option.mem_toList.1 hp)
  have hval : "val" ∈ (searchParams prefilter).map Prod.fst := by
    rw [Option.mem_toList] at hp
    simp [searchParams, hp]
  simpa using ⟨Scope.takes_condition (by decide) hnamed _,
    Scope.everywhere_condition hnamed hval⟩

theorem isClosed_vectorSearch {vector : Entity} {prefilter : Option Property}
    (h : ∀ p ∈ prefilter, p ∈ vector.namedProperties) :
    IsClosed vector (vectorSearch vector prefilter) := by
  have hnil : ∀ f ∈ ([] : List Fragment),
      Everywhere (Scope.Covers ⟨vector, searchParams prefilter, []⟩) f := by simp
  have hsearch := everywhere_search h hnil
  exact isClosed_assignment "results" (by simpa [searchSource, andThen] using hsearch)

theorem isClosed_hybridSearch {vector : Entity} {prefilter : Option Property}
    (h : ∀ p ∈ prefilter, p ∈ vector.namedProperties) :
    IsClosed vector (hybridSearch vector prefilter) :=
  isClosed_assignment "results" (everywhere_search h (by simp))

theorem isClosed_addVector (vector : Entity) : IsClosed vector (addVector vector) := by
  refine isClosed_assignment "new_v" ?_
  cases hps : vector.namedProperties with
  | nil => simp
  | cons p ps =>
    simpa using ⟨Scope.takes_assignAll (by decide) hps (List.subset_cons_self _ _),
      Scope.everywhere_assignAll hps⟩

theorem isClosed_upsertVector? {vector : Entity} {q : Query} (h : upsertVector? vector = some q) :
    IsClosed vector q := by
  obtain ⟨-, rfl⟩ := upsertVector?_eq_some h
  refine isClosed_assignment₂ "existing" "upsert_v" (by simp [byIdParam]) ?_
  have hparams : propertyParams vector.namedProperties ⊆
      ("id", "ID") :: ("data", "[F64]") :: propertyParams vector.namedProperties := by simp
  simpa using ⟨Scope.takes_assignAll (by decide) rfl hparams, Scope.everywhere_assignAll rfl⟩

/-- Each template gives closed queries. -/
theorem Template.isClosed {config : Config} {model : Model} {e : Entity} {q : Query}
    (h : Template config model e q) : IsClosed e q := by
  cases h with
  | createNode he => exact isClosed_createNode e
  | upsertNode he h => exact isClosed_upsertNode? h
  | nodeById he => exact isClosed_assignment "result" (by simp [byIdParam])
  | nodeByUnique he hp => exact isClosed_nodeByUnique hp
  | allNodes he => exact isClosed_allNodes e _
  | deleteNode he => exact ⟨by simp [Library.deleteNode, byIdParam], .literal "Deleted"⟩
  | connect he => exact isClosed_connect e
  | upsertEdge hflag he h => exact isClosed_upsertEdge? h
  | traversal he => exact isClosed_traversal e
  | twoHop he => exact isClosed_twoHop e
  | mutualConnections he => exact isClosed_mutualConnections e
  | vectorSearch he h => exact isClosed_vectorSearch h
  | hybridSearch he h => exact isClosed_hybridSearch h
  | addVector he => exact isClosed_addVector e
  | upsertVector he h => exact isClosed_upsertVector? h
  | keywordSearch he => exact isClosed_assignment "results" (by simp)
  | shortestPath he => exact isClosed_shortestPath e
  | weightedPath he hp => exact isClosed_weightedPath hp
  | deepDetail he => exact isClosed_deepDetail e model
  | countNodes he => exact isClosed_assignment "total" (by simp)
  | aggregate he hp hfunction h => exact isClosed_aggregate? hp hfunction h
  | groupBy he hp => exact isClosed_groupBy hp

end Templates

/-- Every query of a library is closed. -/
theorem isClosed_of_mem_build {config : Config} {model : Model} {g : Group}
    (hg : g ∈ build config model) {q : Query} (hq : q ∈ g.all) : IsClosed g.entity q :=
  (template_of_mem_build hg hq).2.isClosed

theorem isClosed_socialModel :
    ∃ g ∈ build (Config.uniform true) socialModel, ∃ q ∈ g.all, IsClosed g.entity q := by
  let g := (build (Config.uniform true) socialModel).get ⟨2, by decide⟩
  let q := g.all.get ⟨1, by decide +kernel⟩
  have hg : g ∈ build (Config.uniform true) socialModel := List.get_mem _ _
  have hq : q ∈ g.all := List.get_mem _ _
  exact ⟨g, hg, q, hq, isClosed_of_mem_build hg hq⟩

end Hql.Library
