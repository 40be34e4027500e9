import Hql.Proofs.Library.Origin
import Hql.Proofs.Library.Names

/-!
The templates of the library. Whatever the model and the flags, a query comes from one of them, and
each template gives a query that may be laid out if the names it is filled with can be read.
-/

namespace Hql

open Text Layout

namespace Library

open Fragment

/-! ### Parts of templates -/

section Parts

/-- Arguments that may be laid out. -/
def AreArguments (args : Option (List Fragment)) : Prop :=
  ∀ fs ∈ args, (∀ f ∈ fs, IsArgument f) ∧ Fielded (separated (fs.map lexed))

theorem areArguments_none : AreArguments none := by simp [AreArguments]

theorem areArguments_singleton {f : Fragment} (h : IsArgument f) (hfielded : Fielded (lexed f)) :
    AreArguments (some [f]) := by
  rintro fs ⟨⟩
  rw [List.map_singleton, separated_singleton]
  exact ⟨List.forall_mem_singleton.2 h, hfielded⟩

theorem brace_not_mem_text {s : String} (h : IsLabel s) : .mark '\x7b' ∉ lexed (text s) := by
  obtain ⟨w, hs, -⟩ := h
  rw [lexed, hs]
  simp

/-- Words as arguments. -/
theorem areArguments_texts (ss : List String) (h : ∀ s ∈ ss, IsLabel s) :
    AreArguments (some (ss.map text)) := by
  rintro fs ⟨⟩
  refine ⟨List.forall_mem_map.2 fun s hs => isArgument_text (h s hs), .inl ?_⟩
  refine mem_separated (by simp) ?_
  rw [List.map_map]
  exact List.forall_mem_map.2 fun s hs => brace_not_mem_text (h s hs)

theorem areArguments_texts_of_mem (ss : List String) (h : ∀ s ∈ ss, s ∈ libraryWords) :
    AreArguments (some (ss.map text)) :=
  areArguments_texts ss fun s hs => (isName_of_mem (h s hs)).isLabel

theorem calls_of_mem {name : String} (hname : name ∈ libraryWords) {typeParam : Option String}
    (htype : ∀ t ∈ typeParam, IsName t) {args : Option (List Fragment)} (hargs : AreArguments args) :
    Calls name typeParam args where
  isName := isName_of_mem hname
  shut := shut_of_mem hname
  isTypeName := htype
  areArguments fs hfs := (hargs fs hfs).1
  fielded fs hfs := (hargs fs hfs).2

theorem isStep_of_mem {name : String} (hname : name ∈ libraryWords) {args : Option (List Fragment)}
    (hargs : AreArguments args) (attached : Bool) : IsStep (step name none args attached) :=
  calls_of_mem hname (by simp) hargs

theorem isStep_typed {name type : String} (hname : name ∈ libraryWords) (htype : IsName type)
    {args : Option (List Fragment)} (hargs : AreArguments args) (attached : Bool) :
    IsStep (step name (some type) args attached) :=
  calls_of_mem hname (by simpa using htype) hargs

theorem isStatement_assignment {name : String} (hname : name ∈ libraryWords)
    (hword : isWord name.toList = true) {origin : String} {typeParam : Option String}
    {args : Option (List Fragment)} (hcalls : Calls origin typeParam args) {steps : List Fragment}
    (hsteps : ∀ f ∈ steps, IsStep f) (multiline : Bool) :
    IsStatement (assignment name (source origin typeParam args steps multiline)) :=
  ⟨⟨hword, (isWordChar_of_mem name hname).2, (isNeutral_of_mem name hname).toIsSafe⟩, hcalls, hsteps⟩

theorem mem_libraryWords_type (t : PropertyType) : t.name ∈ libraryWords :=
  List.mem_append_right _ (List.mem_map_of_mem t.mem_all)

/-- A parameter may have the type of a property. -/
theorem isParam_typed {name : String} (h : IsLabel name) (p : Property) :
    Query.IsParam (name, p.typeName) := by
  have htype : IsName p.type.name := isName_of_mem (mem_libraryWords_type p.type)
  rw [Property.typeName]
  split
  · exact isParam_list h htype
  · exact isParam_name h htype

theorem isParam_of_mem {name type : String} (hname : name ∈ libraryWords)
    (htype : type ∈ libraryWords) : Query.IsParam (name, type) :=
  isParam_name (isName_of_mem hname).isLabel (isName_of_mem htype)

/-- Queries take ids as parameters. -/
theorem isParam_id : Query.IsParam ("id", "ID") := isParam_name isLabel_id (isName_of_mem (by decide))

/-- Queries take vectors as parameters. -/
theorem isParam_vector {name : String} (hname : name ∈ libraryWords) :
    Query.IsParam (name, "[F64]") := by
  have hlist : "[F64]" = "[" ++ PropertyType.f64.name ++ "]" := by decide
  rw [hlist]
  exact isParam_list (isName_of_mem hname).isLabel (isName_of_mem (mem_libraryWords_type .f64))

end Parts

/-! ### Templates filled with names -/

/-- The names of an entity can be read in its queries. -/
structure IsReadable (e : Entity) : Prop where
  name : IsName e.name
  compound : IsCompound e.name.toList
  source : e.isEdge = true → IsName (endName e.source) ∧ IsCompound (e.source.getD "").toList
  count : ∃ ws, lexemes (lowercase e.name ++ "_count").toList = ws.map .word ∧
    (∀ w ∈ ws, IsPlainWord w) ∧ ws ≠ []
  properties : ∀ p ∈ e.namedProperties,
    IsLabel p.name ∧ IsCompound p.name.toList ∧ ∀ c ∈ p.name.toList.head?, isBlank c = false

/-- A text may be the name of a query. -/
structure IsNamed (s : String) : Prop where
  compound : IsCompound s.toList
  nonblank : ∃ c ∈ s.toList, isBlank c = false

theorem IsNamed.append {s t : String} (hs : IsNamed s) (ht : IsCompound t.toList) :
    IsNamed (s ++ t) := by
  obtain ⟨c, hc, hblank⟩ := hs.nonblank
  constructor
  · rw [String.toList_append]
    exact hs.compound.append ht
  · rw [String.toList_append]
    exact ⟨c, List.mem_append_left _ hc, hblank⟩

/-- The words of the library that occur in the names of queries. -/
def titleWords : List String := [
  "Create", "Upsert", "Get", "ById", "By", "GetAll", "Delete", "DeepDetail", "Count", "Sum", "Avg",
  "GroupBy", "Connect", "Of", "Explore", "Network", "GetMutual", "ShortestPath", "WeightedPath",
  "Search", "HybridSearch", "Add", "Vector", "ByKeyword"]

theorem isNamed_of_mem {s : String} (h : s ∈ titleWords) : IsNamed s := by
  have hall : ∀ s ∈ titleWords, (∀ c ∈ s.toList, isIdentChar c = true ∨ isBlank c = true) ∧
      ∃ c ∈ s.toList, isBlank c = false := by decide +kernel
  exact ⟨(hall s h).1, (hall s h).2⟩

/-- A query that may be laid out if its name may. -/
structure IsFilled (q : Query) : Prop where
  named : IsNamed q.name
  params : ∀ p ∈ q.params, Query.IsParam p
  some_statement : q.statements ≠ []
  statements : ∀ f ∈ q.statements, IsStatement f
  value : Query.IsValue q.returns

theorem IsFilled.isSound {q : Query} (h : IsFilled q) (hname : KeepsTitle q.name) : q.IsSound where
  title := ⟨_, hname.isTitle h.named.compound h.named.nonblank⟩
  params := h.params
  some_statement := h.some_statement
  statements := h.statements
  value := h.value

namespace IsReadable

variable {e : Entity}

theorem isFieldOf (h : IsReadable e) : ∀ field ∈ e.namedProperties.map fun p =>
    (p.name, ident p.name), IsFieldOf field :=
  List.forall_mem_map.2 fun p hp => isFieldOf_property (h.properties p hp).1

theorem areArguments_assignAll (h : IsReadable e) (hne : e.namedProperties ≠ []) :
    AreArguments (some [assignAll e.namedProperties]) :=
  areArguments_singleton (isArgument_projection (by simpa using hne) h.isFieldOf)
    (fielded_projection (by simpa using hne) h.isFieldOf)

/-- The properties of an entity as the only argument, if there are any. -/
theorem areArguments_assigned (h : IsReadable e) : AreArguments (match e.namedProperties with
    | [] => none
    | ps => some [assignAll ps]) := by
  cases hps : e.namedProperties with
  | nil => exact areArguments_none
  | cons p ps =>
    have hassign := h.areArguments_assignAll (by rw [hps]; exact List.cons_ne_nil _ _)
    rw [hps] at hassign
    exact hassign

theorem isParam (h : IsReadable e) : ∀ p ∈ propertyParams e.namedProperties, Query.IsParam p :=
  List.forall_mem_map.2 fun p hp => isParam_typed (h.properties p hp).1 p

theorem typeName (h : IsReadable e) : ∀ t ∈ some e.name, IsName t := by
  rintro t ⟨⟩
  exact h.name

theorem byIdParam (h : IsReadable e) {origin : String} (horigin : origin ∈ libraryWords) :
    Calls origin (some e.name) (some [text "id"]) :=
  calls_of_mem horigin h.typeName
    (areArguments_texts ["id"] (by simpa using isLabel_id))

theorem named (h : IsReadable e) {front : String} (hfront : front ∈ titleWords) :
    IsNamed (front ++ Naming.pascalCase e.name) :=
  (isNamed_of_mem hfront).append h.compound.pascalCase

theorem compound_property (h : IsReadable e) {p : Property} (hp : p ∈ e.namedProperties) :
    IsCompound (Naming.pascalCase p.name).toList :=
  (h.properties p hp).2.1.pascalCase

end IsReadable

section Nodes

variable {e : Entity}

theorem isFilled_createNode (h : IsReadable e) : IsFilled (createNode e) where
  named := h.named (by decide)
  params := h.isParam
  some_statement := List.cons_ne_nil _ _
  statements := List.forall_mem_singleton.2 (isStatement_assignment (by decide) (by decide)
    (calls_of_mem (by decide) h.typeName h.areArguments_assigned) (by simp) false)
  value := isValue_text (by decide)

theorem isFilled_upsertNode (h : IsReadable e) {q : Query} (hq : upsertNode? e = some q) :
    IsFilled q := by
  obtain ⟨hne, rfl⟩ := upsertNode?_eq_some hq
  exact {
    named := h.named (by decide)
    params := List.forall_mem_cons.2 ⟨isParam_id, h.isParam⟩
    some_statement := List.cons_ne_nil _ _
    statements := List.forall_mem_cons.2 ⟨
      isStatement_assignment (by decide) (by decide) (h.byIdParam (by decide)) (by simp) false,
      List.forall_mem_singleton.2 (isStatement_assignment (by decide) (by decide)
        (calls_of_mem (by decide) (by simp) areArguments_none)
        (List.forall_mem_singleton.2 (isStep_of_mem (by decide) (h.areArguments_assignAll hne) false)) false)⟩
    value := isValue_text (by decide) }

theorem isFilled_nodeById (h : IsReadable e) : IsFilled (nodeById e) where
  named := (h.named (by decide)).append (isNamed_of_mem (by decide)).compound
  params := List.forall_mem_singleton.2 isParam_id
  some_statement := List.cons_ne_nil _ _
  statements := List.forall_mem_singleton.2 (isStatement_assignment (by decide) (by decide)
    (h.byIdParam (by decide)) (by simp) false)
  value := isValue_text (by decide)

theorem isFilled_nodeByUnique (h : IsReadable e) {p : Property} (hp : p ∈ e.namedProperties) :
    IsFilled (nodeByUnique e p) where
  named := ((h.named (by decide)).append (isNamed_of_mem (by decide)).compound).append
    (h.compound_property hp)
  params := List.forall_mem_singleton.2 (isParam_typed (isName_of_mem (by decide)).isLabel p)
  some_statement := List.cons_ne_nil _ _
  statements := List.forall_mem_singleton.2 (isStatement_assignment (by decide) (by decide)
    (calls_of_mem (by decide) h.typeName areArguments_none)
    (List.forall_mem_singleton.2 (isStep_of_mem (by decide) (areArguments_singleton
      (isArgument_comparison (h.properties p hp).1) (fielded_comparison (h.properties p hp).1))
      false)) false)
  value := isValue_text (by decide)

theorem isFilled_allNodes (h : IsReadable e) (proControl : Bool) :
    IsFilled (allNodes e proControl) := by
  have horigin := calls_of_mem (by decide : "N" ∈ libraryWords) h.typeName areArguments_none
  have hrange (first : String) (hfirst : first ∈ libraryWords) :
      IsStep (step "RANGE" none (some [text first, text "limit"]) false) :=
    isStep_of_mem (by decide) (areArguments_texts_of_mem [first, "limit"]
      (List.forall_mem_cons.2 ⟨hfirst, List.forall_mem_singleton.2 (by decide)⟩)) false
  cases proControl with
  | true => exact {
      named := h.named (by decide)
      params := List.forall_mem_cons.2 ⟨isParam_of_mem (by decide) (by decide),
        List.forall_mem_cons.2 ⟨isParam_of_mem (by decide) (by decide),
          List.forall_mem_cons.2 ⟨isParam_of_mem (by decide) (by decide),
            List.forall_mem_singleton.2 (isParam_of_mem (by decide) (by decide))⟩⟩⟩
      some_statement := List.cons_ne_nil _ _
      statements := List.forall_mem_singleton.2 (isStatement_assignment (by decide) (by decide)
        horigin (List.forall_mem_cons.2 ⟨
          isStep_typed (by decide) (isName_of_mem (by decide)) (areArguments_singleton
            isArgument_identity (.inl (by simp [lexed_identity]))) false,
          List.forall_mem_singleton.2 (hrange "offset" (by decide))⟩) true)
      value := isValue_text (by decide) }
  | false => exact {
      named := h.named (by decide)
      params := List.forall_mem_singleton.2 (isParam_of_mem (by decide) (by decide))
      some_statement := List.cons_ne_nil _ _
      statements := List.forall_mem_singleton.2 (isStatement_assignment (by decide) (by decide)
        horigin (List.forall_mem_singleton.2 (hrange "0" (by decide))) false)
      value := isValue_text (by decide) }

theorem isFilled_deleteNode (h : IsReadable e) : IsFilled (deleteNode e) where
  named := h.named (by decide)
  params := List.forall_mem_singleton.2 isParam_id
  some_statement := List.cons_ne_nil _ _
  statements := List.forall_mem_singleton.2 (h.byIdParam (by decide))
  value := isValue_deleted

theorem isFilled_countNodes (h : IsReadable e) : IsFilled (countNodes e) where
  named := h.named (by decide)
  params := by simp [countNodes]
  some_statement := List.cons_ne_nil _ _
  statements := List.forall_mem_singleton.2 (isStatement_assignment (by decide) (by decide)
    (calls_of_mem (by decide) h.typeName areArguments_none)
    (List.forall_mem_singleton.2 (isStep_of_mem (by decide) areArguments_none false)) false)
  value := isValue_text (by decide)

theorem isFilled_aggregate (h : IsReadable e) {p : Property} (hp : p ∈ e.namedProperties)
    {function : String} (hfunction : function ∈ aggregates) {q : Query}
    (hq : aggregate? e p function = some q) : IsFilled q := by
  obtain ⟨hfunction, rfl⟩ := aggregate?_eq_some hfunction hq
  obtain ⟨hlabel, -, hhead⟩ := h.properties p hp
  have htitle : titleCase function ∈ titleWords := by
    rcases hfunction with rfl | rfl <;> decide
  exact {
    named := (h.named htitle).append (h.compound_property hp)
    params := by simp
    some_statement := List.cons_ne_nil _ _
    statements := List.forall_mem_singleton.2 (isStatement_assignment (by decide) (by decide)
      (calls_of_mem (by decide) h.typeName areArguments_none) (by simp) false)
    value := isValue_aggregate hfunction hlabel hhead }

theorem isFilled_groupBy (h : IsReadable e) {p : Property} (hp : p ∈ e.namedProperties) :
    IsFilled (groupBy e p) where
  named := ((h.named (by decide)).append (isNamed_of_mem (by decide)).compound).append
    (h.compound_property hp)
  params := by simp [groupBy]
  some_statement := List.cons_ne_nil _ _
  statements := List.forall_mem_singleton.2 (isStatement_assignment (by decide) (by decide)
    (calls_of_mem (by decide) h.typeName areArguments_none)
    (List.forall_mem_singleton.2 (isStep_of_mem (by decide)
      (areArguments_texts [p.name] (by simpa using (h.properties p hp).1)) false)) false)
  value := isValue_text (by decide)

/-- The field that counts the edges of a type at a node. -/
theorem isFieldOf_edgeCount {edge : Entity} (h : IsReadable edge) (node : Entity) :
    IsFieldOf (edgeCount node edge) := by
  obtain ⟨ws, hlabel, hws, hne⟩ := h.count
  rw [edgeCount]
  split
  · exact isFieldOf_count hlabel hws hne (by decide) h.name
  · exact isFieldOf_count hlabel hws hne (by decide) h.name

theorem isFilled_deepDetail (h : IsReadable e) {model : Model}
    (hmodel : ∀ edge ∈ model.entities, IsReadable edge) : IsFilled (deepDetail e model) where
  named := (h.named (by decide)).append (isNamed_of_mem (by decide)).compound
  params := List.forall_mem_singleton.2 isParam_id
  some_statement := List.cons_ne_nil _ _
  statements := by
    have hcounts : ∀ field ∈ ((relatedEdges e model).take maxEdgeCounts).map (edgeCount e),
        IsFieldOf field := by
      refine List.forall_mem_map.2 fun edge hedge => ?_
      have hrelated : edge ∈ relatedEdges e model := List.mem_of_mem_take hedge
      exact isFieldOf_edgeCount (hmodel edge (List.mem_filter.1 hrelated).1) e
    have hview : IsStep (projection (("node_id", identity) ::
        e.namedProperties.map (fun p => (p.name, ident p.name)) ++
          ((relatedEdges e model).take maxEdgeCounts).map (edgeCount e))) :=
      ⟨List.cons_ne_nil _ _, List.forall_mem_cons.2
        ⟨isFieldOf_identity, List.forall_mem_append.2 ⟨h.isFieldOf, hcounts⟩⟩⟩
    exact List.forall_mem_cons.2 ⟨
      isStatement_assignment (by decide) (by decide) (h.byIdParam (by decide)) (by simp) false,
      List.forall_mem_singleton.2 (isStatement_assignment (by decide) (by decide)
        (calls_of_mem (by decide) (by simp) areArguments_none)
        (List.forall_mem_singleton.2 hview) false)⟩
  value := isValue_text (by decide)

end Nodes

section Edges

variable {e : Entity}

theorem areArguments_param {param : String} (hparam : param ∈ libraryWords) :
    AreArguments (some [text param]) :=
  areArguments_texts_of_mem [param] (List.forall_mem_singleton.2 hparam)

theorem IsReadable.edgeParams (h : IsReadable e) : ∀ p ∈ edgeParams e, Query.IsParam p :=
  List.forall_mem_cons.2 ⟨isParam_of_mem (by decide) (by decide),
    List.forall_mem_cons.2 ⟨isParam_of_mem (by decide) (by decide), h.isParam⟩⟩

theorem isStep_connectionSteps : ∀ f ∈ connectionSteps, IsStep f :=
  List.forall_mem_cons.2 ⟨isStep_of_mem (by decide) (areArguments_param (by decide)) false,
    List.forall_mem_singleton.2 (isStep_of_mem (by decide) (areArguments_param (by decide)) false)⟩

/-- A chain from the start of an edge. -/
theorem isStatement_fromStart (h : IsReadable e) (he : e.isEdge = true) {name param : String}
    (hname : name ∈ libraryWords) (hword : isWord name.toList = true)
    (hparam : param ∈ libraryWords) {steps : List Fragment} (hsteps : ∀ f ∈ steps, IsStep f)
    (multiline : Bool) : IsStatement (assignment name (fromStart e param steps multiline)) :=
  isStatement_assignment hname hword
    (calls_of_mem (by decide) (by simpa using (h.source he).1) (areArguments_param hparam)) hsteps
    multiline

theorem isStep_range : IsStep (step "RANGE" none (some [text "0", text "limit"]) false) :=
  isStep_of_mem (by decide) (areArguments_texts_of_mem ["0", "limit"]
    (List.forall_mem_cons.2 ⟨by decide, List.forall_mem_singleton.2 (by decide)⟩)) false

theorem isFilled_connect (h : IsReadable e) : IsFilled (connect e) where
  named := h.named (by decide)
  params := h.edgeParams
  some_statement := List.cons_ne_nil _ _
  statements := List.forall_mem_singleton.2 (isStatement_assignment (by decide) (by decide)
    (calls_of_mem (by decide) h.typeName h.areArguments_assigned) isStep_connectionSteps false)
  value := isValue_text (by decide)

theorem isFilled_upsertEdge (h : IsReadable e) {q : Query} (hq : upsertEdge? e = some q) :
    IsFilled q := by
  obtain ⟨hne, rfl⟩ := upsertEdge?_eq_some hq
  exact {
    named := h.named (by decide)
    params := h.edgeParams
    some_statement := List.cons_ne_nil _ _
    statements := List.forall_mem_singleton.2 (isStatement_assignment (by decide) (by decide)
      (calls_of_mem (by decide) h.typeName areArguments_none) (List.forall_mem_cons.2
        ⟨isStep_of_mem (by decide) (h.areArguments_assignAll hne) false, isStep_connectionSteps⟩)
      false)
    value := isValue_text (by decide) }

theorem isFilled_traversal (h : IsReadable e) (he : e.isEdge = true) : IsFilled (traversal e) where
  named := ((h.named (by decide)).append (isNamed_of_mem (by decide)).compound).append
    (h.source he).2.pascalCase
  params := List.forall_mem_singleton.2 (isParam_of_mem (by decide) (by decide))
  some_statement := List.cons_ne_nil _ _
  statements := List.forall_mem_singleton.2 (isStatement_fromStart h he (by decide) (by decide)
    (by decide) (List.forall_mem_singleton.2 (isStep_typed (by decide) h.name areArguments_none
      false)) false)
  value := isValue_text (by decide)

theorem isFilled_twoHop (h : IsReadable e) (he : e.isEdge = true) : IsFilled (twoHop e) where
  named := (h.named (by decide)).append (isNamed_of_mem (by decide)).compound
  params := List.forall_mem_cons.2 ⟨isParam_of_mem (by decide) (by decide),
    List.forall_mem_singleton.2 (isParam_of_mem (by decide) (by decide))⟩
  some_statement := List.cons_ne_nil _ _
  statements := by
    have hop : IsStep (step "Out" (some e.name) none false) :=
      isStep_typed (by decide) h.name areArguments_none false
    refine List.forall_mem_singleton.2 (isStatement_fromStart h he (by decide) (by decide)
      (by decide) (List.forall_mem_append.2 ⟨?_, List.forall_mem_singleton.2 isStep_range⟩) true)
    split
    · exact List.forall_mem_cons.2 ⟨hop, List.forall_mem_singleton.2 hop⟩
    · exact List.forall_mem_singleton.2 hop
  value := isValue_text (by decide)

theorem isFilled_mutualConnections (h : IsReadable e) (he : e.isEdge = true) :
    IsFilled (mutualConnections e) where
  named := h.named (by decide)
  params := List.forall_mem_cons.2 ⟨isParam_of_mem (by decide) (by decide),
    List.forall_mem_singleton.2 (isParam_of_mem (by decide) (by decide))⟩
  some_statement := List.cons_ne_nil _ _
  statements := List.forall_mem_singleton.2 (isStatement_fromStart h he (by decide) (by decide)
    (by decide) (List.forall_mem_cons.2 ⟨
      isStep_typed (by decide) h.name areArguments_none true,
      List.forall_mem_singleton.2 (isStep_of_mem (by decide) (areArguments_singleton
        (isArgument_reciprocal h.name) (fielded_reciprocal h.name)) false)⟩) true)
  value := isValue_text (by decide)

theorem isFilled_pathQuery (h : IsReadable e) (he : e.isEdge = true) {title : String}
    (htitle : title ∈ titleWords) {search : Fragment} (hsearch : IsStep search) :
    IsFilled (pathQuery e title search) where
  named := h.named htitle
  params := List.forall_mem_cons.2 ⟨isParam_of_mem (by decide) (by decide),
    List.forall_mem_singleton.2 (isParam_of_mem (by decide) (by decide))⟩
  some_statement := List.cons_ne_nil _ _
  statements := List.forall_mem_singleton.2 (isStatement_fromStart h he (by decide) (by decide)
    (by decide) (List.forall_mem_cons.2 ⟨hsearch, List.forall_mem_singleton.2
      (isStep_of_mem (by decide) (areArguments_param (by decide)) true)⟩) true)
  value := isValue_text (by decide)

theorem isFilled_shortestPath (h : IsReadable e) (he : e.isEdge = true) :
    IsFilled (shortestPath e) :=
  isFilled_pathQuery h he (by decide) (isStep_typed (by decide) h.name areArguments_none false)

theorem isFilled_weightedPath (h : IsReadable e) (he : e.isEdge = true) {p : Property}
    (hp : p ∈ e.namedProperties) : IsFilled (weightedPath e p) :=
  isFilled_pathQuery h he (by decide) (isStep_typed (by decide) h.name
    (areArguments_singleton (isArgument_property (h.properties p hp).1)
      (fielded_property (h.properties p hp).1)) false)

end Edges

section Vectors

variable {e : Entity}

/-- A search may be narrowed by a property. -/
theorem isStep_prefilter {prefilter : Option Property} (h : ∀ p ∈ prefilter, IsLabel p.name) :
    ∀ f ∈ prefilter.toList.map fun p => step "PREFILTER" none
      (some [(property p.name).op "EQ" (some [text "val"])]) false, IsStep f := by
  refine List.forall_mem_map.2 fun p hp => ?_
  have hlabel := h p (Option.mem_toList.1 hp)
  exact isStep_of_mem (by decide)
    (areArguments_singleton (isArgument_comparison hlabel) (fielded_comparison hlabel)) false

theorem calls_search (h : IsReadable e) :
    Calls "SearchV" (some e.name) (some [text "vec", text "limit"]) :=
  calls_of_mem (by decide) h.typeName (areArguments_texts_of_mem ["vec", "limit"]
    (List.forall_mem_cons.2 ⟨by decide, List.forall_mem_singleton.2 (by decide)⟩))

theorem isParam_search (prefilter : Option Property) :
    ∀ p ∈ searchParams prefilter, Query.IsParam p :=
  List.forall_mem_append.2 ⟨List.forall_mem_cons.2 ⟨isParam_vector (by decide),
    List.forall_mem_singleton.2 (isParam_of_mem (by decide) (by decide))⟩,
    List.forall_mem_map.2 fun p _ => isParam_typed (isName_of_mem (by decide)).isLabel p⟩

theorem isCompound_prefilterSuffix (h : IsReadable e) {prefilter : Option Property}
    (hp : ∀ p ∈ prefilter, p ∈ e.namedProperties) : IsCompound (prefilterSuffix prefilter).toList := by
  cases prefilter with
  | none => simp [prefilterSuffix, IsCompound]
  | some p =>
    rw [prefilterSuffix, String.toList_append]
    exact (isNamed_of_mem (by decide)).compound.append (h.compound_property (hp p rfl))

theorem isFilled_vectorSearch (h : IsReadable e) {prefilter : Option Property}
    (hp : ∀ p ∈ prefilter, p ∈ e.namedProperties) : IsFilled (vectorSearch e prefilter) where
  named := (h.named (by decide)).append (isCompound_prefilterSuffix h hp)
  params := isParam_search prefilter
  some_statement := List.cons_ne_nil _ _
  statements := List.forall_mem_singleton.2 (isStatement_assignment (by decide) (by decide)
    (calls_search h) (isStep_prefilter fun p hmem => (h.properties p (hp p hmem)).1) false)
  value := isValue_text (by decide)

theorem isFilled_hybridSearch (h : IsReadable e) {prefilter : Option Property}
    (hp : ∀ p ∈ prefilter, p ∈ e.namedProperties) : IsFilled (hybridSearch e prefilter) where
  named := (h.named (by decide)).append (isCompound_prefilterSuffix h hp)
  params := isParam_search prefilter
  some_statement := List.cons_ne_nil _ _
  statements := List.forall_mem_singleton.2 (isStatement_assignment (by decide) (by decide)
    (calls_search h) (List.forall_mem_append.2
      ⟨isStep_prefilter fun p hmem => (h.properties p (hp p hmem)).1,
        List.forall_mem_singleton.2 (isStep_of_mem (by decide) (areArguments_singleton isArgument_rank
          (.inl (by rw [lexed]; decide))) false)⟩) false)
  value := isValue_text (by decide)

/-- A vector and the properties of an entity as arguments. -/
theorem IsReadable.areArguments_data (h : IsReadable e) (hne : e.namedProperties ≠ []) :
    AreArguments (some [text "data", assignAll e.namedProperties]) := by
  have hfields : ∀ field ∈ e.namedProperties.map fun p => (p.name, ident p.name),
      IsFieldOf field := h.isFieldOf
  have hdata : IsLabel "data" := (isName_of_mem (by decide)).isLabel
  have hprojection : Fielded (lexed (assignAll e.namedProperties)) :=
    fielded_projection (by simpa using hne) hfields
  have hlexed : separated [lexed (text "data"), lexed (assignAll e.namedProperties)] =
      [.word "data".toList, .mark ','] ++ lexed (assignAll e.namedProperties) ++ [] := by
    rw [separated_cons, List.append_nil, lexed, lexemes_of_mem (by decide), separated_singleton]
    rfl
  rintro fs ⟨⟩
  refine ⟨List.forall_mem_cons.2 ⟨isArgument_text hdata, List.forall_mem_singleton.2
    (isArgument_projection (by simpa using hne) hfields)⟩, ?_⟩
  rw [List.map_cons, List.map_singleton, hlexed]
  exact hprojection.append (by simp) (by simp)

theorem isFilled_addVector (h : IsReadable e) : IsFilled (addVector e) where
  named := (h.named (by decide)).append (isNamed_of_mem (by decide)).compound
  params := List.forall_mem_cons.2 ⟨isParam_vector (by decide), h.isParam⟩
  some_statement := List.cons_ne_nil _ _
  statements := by
    refine List.forall_mem_singleton.2 (isStatement_assignment (by decide) (by decide)
      (calls_of_mem (by decide) h.typeName ?_) (by simp) false)
    cases hps : e.namedProperties with
    | nil => exact areArguments_param (by decide)
    | cons p ps =>
      have hdata := h.areArguments_data (by rw [hps]; exact List.cons_ne_nil _ _)
      rw [hps] at hdata
      exact hdata
  value := isValue_text (by decide)

theorem isFilled_upsertVector (h : IsReadable e) {q : Query} (hq : upsertVector? e = some q) :
    IsFilled q := by
  obtain ⟨hne, rfl⟩ := upsertVector?_eq_some hq
  exact {
    named := (h.named (by decide)).append (isNamed_of_mem (by decide)).compound
    params := List.forall_mem_cons.2 ⟨isParam_id,
      List.forall_mem_cons.2 ⟨isParam_vector (by decide), h.isParam⟩⟩
    some_statement := List.cons_ne_nil _ _
    statements := List.forall_mem_cons.2 ⟨
      isStatement_assignment (by decide) (by decide) (h.byIdParam (by decide)) (by simp) false,
      List.forall_mem_singleton.2 (isStatement_assignment (by decide) (by decide)
        (calls_of_mem (by decide) (by simp) areArguments_none)
        (List.forall_mem_singleton.2 (isStep_of_mem (by decide) (h.areArguments_data hne) false))
        false)⟩
    value := isValue_text (by decide) }

theorem isFilled_keywordSearch (h : IsReadable e) : IsFilled (keywordSearch e) where
  named := (h.named (by decide)).append (isNamed_of_mem (by decide)).compound
  params := List.forall_mem_cons.2 ⟨isParam_of_mem (by decide) (by decide),
    List.forall_mem_singleton.2 (isParam_of_mem (by decide) (by decide))⟩
  some_statement := List.cons_ne_nil _ _
  statements := List.forall_mem_singleton.2 (isStatement_assignment (by decide) (by decide)
    (calls_of_mem (by decide) h.typeName (areArguments_texts_of_mem ["text", "limit"]
      (List.forall_mem_cons.2 ⟨by decide, List.forall_mem_singleton.2 (by decide)⟩))) (by simp) false)
  value := isValue_text (by decide)

end Vectors

/-- The queries of a model can be laid out if its names can be read, whatever the flags. -/
theorem Template.isFilled {config : Config} {model : Model} {e : Entity} {q : Query}
    (hmodel : ∀ e ∈ model.entities, IsReadable e) (he : e ∈ model.entities)
    (h : Template config model e q) : IsFilled q := by
  have hreadable := hmodel e he
  cases h with
  | createNode => exact isFilled_createNode hreadable
  | upsertNode _ hq => exact isFilled_upsertNode hreadable hq
  | nodeById => exact isFilled_nodeById hreadable
  | nodeByUnique _ hp => exact isFilled_nodeByUnique hreadable hp
  | allNodes => exact isFilled_allNodes hreadable _
  | deleteNode => exact isFilled_deleteNode hreadable
  | connect => exact isFilled_connect hreadable
  | upsertEdge _ _ hq => exact isFilled_upsertEdge hreadable hq
  | traversal hconnected => exact isFilled_traversal hreadable (isEdge_of_isConnected hconnected)
  | twoHop hconnected => exact isFilled_twoHop hreadable (isEdge_of_isConnected hconnected)
  | mutualConnections hconnected =>
    exact isFilled_mutualConnections hreadable (isEdge_of_isConnected hconnected)
  | vectorSearch _ hp => exact isFilled_vectorSearch hreadable hp
  | hybridSearch _ hp => exact isFilled_hybridSearch hreadable hp
  | addVector => exact isFilled_addVector hreadable
  | upsertVector _ hq => exact isFilled_upsertVector hreadable hq
  | keywordSearch => exact isFilled_keywordSearch hreadable
  | shortestPath hedge => exact isFilled_shortestPath hreadable hedge
  | weightedPath hedge hp => exact isFilled_weightedPath hreadable hedge hp
  | deepDetail => exact isFilled_deepDetail hreadable hmodel
  | countNodes => exact isFilled_countNodes hreadable
  | aggregate _ hp hfunction hq => exact isFilled_aggregate hreadable hp hfunction hq
  | groupBy _ hp => exact isFilled_groupBy hreadable hp

end Library

end Hql
