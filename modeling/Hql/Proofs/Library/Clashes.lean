import Hql.Proofs.Library.Makeup
import Hql.Proofs.Validation.Keys

/-!
Names that meet inside a query. The checks keep the names of properties apart from each other and from
the fields that the database manages. They know nothing of the names that the templates give to
parameters, fields and variables of their own. Main statement: where a query uses a name twice, a
property has one of those names.
-/

namespace Hql.Library

open Fragment Text Validation

/-! ### Names used twice -/

/-- The parameters of a query have different names. -/
def DistinctParams (q : Query) : Prop := (q.params.map Prod.fst).Nodup

/-- A fragment by itself, if it is a projection, has fields of different names. -/
@[simp] def HasDistinctFields : Fragment → Prop
  | projection fields => (fields.map Prod.fst).Nodup
  | _ => True

/-- The fields of every projection in a query have different names. -/
def DistinctFields (q : Query) : Prop := Everywhere HasDistinctFields q.toFragment

/-- A fragment by itself reads a variable or parameter of this name. -/
@[simp] def Reads (name : String) : Fragment → Prop
  | text s => s = name
  | expression head _ _ => head = name
  | source origin none _ _ _ => origin = name
  | _ => False

/-- No statement assigns a variable that has the name of a parameter which a later statement reads. -/
def Unshadowed (params : List String) : List Fragment → Prop
  | [] => True
  | f :: later => (∀ v ∈ f.assigned, v ∈ params → ∀ g ∈ later, Everywhere (fun x => ¬ Reads v x) g) ∧
      Unshadowed params later

/-- The variables of a query leave its parameters to the statements that read them. -/
def DistinctVariables (q : Query) : Prop := Unshadowed (q.params.map Prod.fst) q.statements

/-! ### Properties with names of the templates -/

/-- A connection with a property that has the name of the parameter for an end. -/
def ClashesWithEnds (e : Entity) (q : Query) : Prop :=
  IsConnection e q ∧ ∃ p ∈ e.namedProperties, p.name = "from_id" ∨ p.name = "to_id"

/-- A view of a node with a property that has the name of the id or of a count of edges. -/
def ClashesWithDetail (model : Model) (e : Entity) (q : Query) : Prop :=
  q = deepDetail e model ∧ ∃ p ∈ e.namedProperties, p.name = "node_id" ∨
    ∃ edge ∈ (relatedEdges e model).take 3, p.name = lowercase edge.name ++ "_count"

/-- A query that changes what it looks up, with a property that has the name of what was looked up. -/
def ClashesWithLookup (e : Entity) (q : Query) : Prop :=
  IsRevision e q ∧ ∃ p ∈ e.namedProperties, p.name = "existing"

section Queries

variable {model : Model} {e : Entity} {q : Query}

/-! ### Parameters -/

/-- The parameters before those of the properties have names that the database keeps for itself. -/
theorem unreserved_of_leading {leading : List String} (h : leading ∈ leadingParams e.kind) :
    leading.Nodup ∧ ∀ a ∈ leading, nameKey a ∈ e.kind.reservedFields := by
  have hall : ∀ kind ∈ EntityKind.all, ∀ leading ∈ leadingParams kind,
      leading.Nodup ∧ ∀ a ∈ leading, nameKey a ∈ kind.reservedFields := by decide +kernel
  exact hall e.kind (by cases e.kind <;> decide) leading h

theorem distinctParams_iff (hnames : HasDistinctNames e) (h : Makeup model e q) :
    DistinctParams q ↔ ¬ ClashesWithEnds e q := by
  by_cases hconnection : IsConnection e q
  · have hclash : ClashesWithEnds e q ↔ "from_id" ∈ e.namedProperties.map Property.name ∨
        "to_id" ∈ e.namedProperties.map Property.name := by
      simp [ClashesWithEnds, hconnection, List.mem_map, and_or_left, exists_or]
    rw [hclash, DistinctParams, params_of_isConnection hconnection, List.nodup_cons, List.nodup_cons,
      List.mem_cons]
    have hends : "from_id" ≠ "to_id" := by decide
    simp [hends, hnames.nodup, not_or]
  · refine ⟨fun _ hclash => hconnection hclash.1, fun _ => ?_⟩
    rw [DistinctParams]
    cases h.params with
    | fixed names hfixed hparams =>
      have hall : ∀ names ∈ fixedParams, names.Nodup := by decide
      rw [hparams]
      exact hall _ hfixed
    | storing leading hleading hparams =>
      obtain ⟨hnodup, hreserved⟩ := unreserved_of_leading hleading
      rw [hparams, List.nodup_append']
      refine ⟨hnodup, hnames.nodup, fun a ha hmem => ?_⟩
      obtain ⟨p, hp, rfl⟩ := List.mem_map.1 hmem
      exact hnames.unreserved p hp (hreserved _ ha)
    | connecting h => exact absurd h hconnection

/-! ### Fields -/

theorem map_fst_storedFields (e : Entity) :
    (storedFields e).map Prod.fst = e.namedProperties.map Property.name := by
  rw [storedFields, List.map_map]
  rfl

theorem map_fst_detailFields (e : Entity) (model : Model) : (detailFields e model).map Prod.fst =
    "node_id" :: e.namedProperties.map Property.name ++
      ((relatedEdges e model).take maxEdgeCounts).map fun edge => lowercase edge.name ++ "_count" := by
  rw [detailFields, List.map_append, List.map_cons, map_fst_storedFields, List.map_map]
  rfl

/-- The id of a node is no count of edges. -/
theorem node_id_ne_count (name : String) : "node_id" ≠ lowercase name ++ "_count" := by
  intro heq
  have hlast := congrArg (fun s : String => s.toList.getLast?) heq
  simp at hlast

/-- Counts of different types of edges have different names. -/
theorem nodup_counts (hlowercase : (model.entities.map fun x => lowercase x.name).Nodup) (n : Nat) :
    (((relatedEdges e model).take n).map fun edge => lowercase edge.name ++ "_count").Nodup := by
  have hnodup : (((relatedEdges e model).take n).map fun edge => lowercase edge.name).Nodup :=
    hlowercase.sublist (((List.take_sublist _ _).trans List.filter_sublist).map _)
  have hmap := hnodup.map (f := fun s => s ++ "_count") fun s t h => (String.append_left_inj _).1 h
  rwa [List.map_map] at hmap

theorem nodup_detailFields_iff (hnames : HasDistinctNames e)
    (hlowercase : (model.entities.map fun x => lowercase x.name).Nodup) :
    ((detailFields e model).map Prod.fst).Nodup ↔
      ¬ ∃ p ∈ e.namedProperties, p.name = "node_id" ∨
        ∃ edge ∈ (relatedEdges e model).take 3, p.name = lowercase edge.name ++ "_count" := by
  rw [map_fst_detailFields, List.cons_append, List.nodup_cons, List.nodup_append', List.mem_append]
  constructor
  · rintro ⟨hid, -, -, hcounts⟩ ⟨p, hp, hname | ⟨edge, hedge, hname⟩⟩
    · exact hid (.inl (List.mem_map.2 ⟨p, hp, hname⟩))
    · exact hcounts (List.mem_map_of_mem hp) (List.mem_map.2 ⟨edge, hedge, hname.symm⟩)
  · intro hclash
    refine ⟨?_, hnames.nodup, nodup_counts hlowercase _, fun a ha hcount => ?_⟩
    · rintro (hid | hid)
      · obtain ⟨p, hp, hname⟩ := List.mem_map.1 hid
        exact hclash ⟨p, hp, .inl hname⟩
      · obtain ⟨edge, -, hname⟩ := List.mem_map.1 hid
        exact node_id_ne_count edge.name hname.symm
    · obtain ⟨p, hp, rfl⟩ := List.mem_map.1 ha
      obtain ⟨edge, hedge, hname⟩ := List.mem_map.1 hcount
      exact hclash ⟨p, hp, .inr ⟨edge, hedge, hname.symm⟩⟩

/-- The view of a node holds the projection of its fields. -/
theorem detailFields_mem_parts (e : Entity) (model : Model) :
    projection (detailFields e model) ∈ (deepDetail e model).toFragment.parts := by
  simp [deepDetail, detailFields, storedFields, Query.toFragment, parts, allParts, argsParts]

theorem distinctFields_iff (hnames : HasDistinctNames e)
    (hlowercase : (model.entities.map fun x => lowercase x.name).Nodup) (h : Makeup model e q) :
    DistinctFields q ↔ ¬ ClashesWithDetail model e q := by
  have hdetail : ((detailFields e model).map Prod.fst).Nodup ↔ _ :=
    nodup_detailFields_iff hnames hlowercase
  constructor
  · rintro hfields ⟨rfl, hclash⟩
    exact hdetail.1 (hfields _ (detailFields_mem_parts e model)) hclash
  · intro hclash f hf
    have hdraws := h.everywhere f hf
    cases f with
    | projection fields =>
      rw [HasDistinctFields]
      rcases hdraws with rfl | ⟨hq, rfl⟩
      · rw [map_fst_storedFields]
        exact hnames.nodup
      · exact hdetail.2 fun hname => hclash ⟨hq, hname⟩
    | _ => trivial

/-! ### Variables -/

theorem unshadowed_lone (params : List String) (f : Fragment) : Unshadowed params [f] :=
  ⟨fun _ _ _ _ hg => (List.not_mem_nil hg).elim, trivial⟩

/-- A query that changes what it looks up stores the properties after the lookup. -/
theorem exists_of_isRevision (h : IsRevision e q) : ∃ leading ∈ [["id"], ["id", "data"]],
    q.params.map Prod.fst = leading ++ e.namedProperties.map Property.name ∧
    ∃ lookup change, q.statements = [lookup, change] ∧ lookup.assigned = ["existing"] ∧
      ∀ P, Everywhere P change → Everywhere P (assignAll e.namedProperties) := by
  rcases h with h | h
  · obtain ⟨-, rfl⟩ := upsertNode?_eq_some h
    refine ⟨["id"], by decide, congrArg ("id" :: ·) (map_fst_propertyParams _), _, _, rfl, rfl, ?_⟩
    intro P hP
    simp only [everywhere_assignment, everywhere_source, everywhere_step, List.forall_mem_singleton,
      Option.getD_some] at hP
    exact hP.2.2.2.2
  · obtain ⟨-, rfl⟩ := upsertVector?_eq_some h
    refine ⟨["id", "data"], by decide, congrArg ("id" :: "data" :: ·) (map_fst_propertyParams _), _,
      _, rfl, rfl, ?_⟩
    intro P hP
    simp only [everywhere_assignment, everywhere_source, everywhere_step, List.forall_mem_singleton,
      List.forall_mem_cons, Option.getD_some] at hP
    exact hP.2.2.2.2.2

theorem distinctVariables_of_isRevision (h : IsRevision e q) :
    DistinctVariables q ↔ ¬ ∃ p ∈ e.namedProperties, p.name = "existing" := by
  obtain ⟨leading, hleading, hparams, lookup, change, hstatements, hassigned, hstored⟩ :=
    exists_of_isRevision h
  rw [DistinctVariables, hparams, hstatements, Unshadowed, hassigned, List.forall_mem_singleton,
    List.forall_mem_singleton, List.mem_append]
  constructor
  · rintro ⟨hunread, -⟩ ⟨p, hp, hname⟩
    -- the later statement stores the property, and reads the parameter of its name
    have hall := hstored _ (hunread (.inr (List.mem_map.2 ⟨p, hp, hname⟩)))
    rw [assignAll, everywhere_projection] at hall
    have hident := hall.2 _ (List.mem_map_of_mem hp)
    exact ((everywhere_expression _ _ _).1 hident).1 hname
  · intro hclash
    refine ⟨fun hparam => ?_, unshadowed_lone _ _⟩
    rcases hparam with hfixed | hproperty
    · have hall : ∀ names ∈ [["id"], ["id", "data"]], "existing" ∉ names := by decide
      exact absurd hfixed (hall _ hleading)
    · exact absurd (List.mem_map.1 hproperty) hclash

theorem distinctVariables_iff (h : Makeup model e q) :
    DistinctVariables q ↔ ¬ ClashesWithLookup e q := by
  by_cases hrevision : IsRevision e q
  · rw [distinctVariables_of_isRevision hrevision, ClashesWithLookup, and_iff_right hrevision]
  · refine ⟨fun _ hclash => hrevision hclash.1, fun _ => ?_⟩
    rw [DistinctVariables]
    cases h.statements with
    | lone hlone =>
      rw [hlone]
      exact unshadowed_lone _ _
    | revising h => exact absurd h hrevision
    | detailing hdetail =>
      -- the view assigns two variables, and its only parameter is the id
      subst hdetail
      refine ⟨fun v hv hparam => ?_, unshadowed_lone _ _⟩
      obtain rfl := List.mem_singleton.1 hv
      exact absurd hparam (by decide : "origin" ∉ ["id"])

end Queries

/-! ### Queries of a library -/

/-- In a model without errors a query of the library uses no name twice, with three exceptions. A
property called `from_id` or `to_id` clashes with an end in the queries that connect the ends of its
edge; one called `node_id`, or as the count of one of the first three edges, clashes with that field in
the view of its node; and one called `existing` hides behind the variable of that name in the query
that looks up and changes its node or vector. -/
theorem distinct_names_iff {config : Config} {model : Model} (h : ErrorFree (validate model))
    {g : Group} (hg : g ∈ build config model) {q : Query} (hq : q ∈ g.all) :
    (DistinctParams q ↔ ¬ ClashesWithEnds g.entity q) ∧
    (DistinctFields q ↔ ¬ ClashesWithDetail model g.entity q) ∧
    (DistinctVariables q ↔ ¬ ClashesWithLookup g.entity q) := by
  obtain ⟨he, htemplate⟩ := template_of_mem_build hg hq
  have hnames := hasDistinctNames_of_validate h he
  have hmakeup := htemplate.makeup
  exact ⟨distinctParams_iff hnames hmakeup,
    distinctFields_iff hnames (nodup_lowercase_of_validate h) hmakeup, distinctVariables_iff hmakeup⟩

theorem distinct_names_socialModel : ErrorFree (validate socialModel) ∧
    ∃ g ∈ build (Config.uniform true) socialModel, g.entity.name = "Person" ∧
      ∀ q ∈ g.all, DistinctParams q ∧ DistinctFields q ∧ DistinctVariables q := by
  let g := (build (Config.uniform true) socialModel).get ⟨0, by decide⟩
  have hg : g ∈ build (Config.uniform true) socialModel := List.get_mem _ _
  have hends : ¬ ∃ p ∈ g.entity.namedProperties, p.name = "from_id" ∨ p.name = "to_id" := by decide
  have hdetail : ¬ ∃ p ∈ g.entity.namedProperties, p.name = "node_id" ∨
      ∃ edge ∈ (relatedEdges g.entity socialModel).take 3,
        p.name = lowercase edge.name ++ "_count" := by decide +kernel
  have hlookup : ¬ ∃ p ∈ g.entity.namedProperties, p.name = "existing" := by decide
  refine ⟨errorFree_socialModel, g, hg, rfl, fun q hq => ?_⟩
  obtain ⟨hparams, hfields, hvariables⟩ := distinct_names_iff errorFree_socialModel hg hq
  exact ⟨hparams.2 fun h => hends h.2, hfields.2 fun h => hdetail h.2,
    hvariables.2 fun h => hlookup h.2⟩

/-- A model with an edge whose property is called like the parameter for one of its ends. -/
def originModel : Model := [
  some { id := "p", name := "Person", kind := .node },
  some { id := "k", name := "Knows", kind := .edge, source := some "Person", target := some "Person"
         properties := [some { name := "from_id" }] }]

/-- The checks accept properties that are called like parameters of the templates. -/
theorem not_distinct_names : ¬ ∀ (config : Config) (model : Model), ErrorFree (validate model) →
    ∀ g ∈ build config model, ∀ q ∈ g.all,
      DistinctParams q ∧ DistinctFields q ∧ DistinctVariables q := by
  intro h
  let edge := originModel.entities.get ⟨1, by decide⟩
  have hg : ⟨edge, sectionQueries {} originModel edge⟩ ∈ build {} originModel :=
    List.mem_map_of_mem (List.get_mem _ _)
  have hq : connect edge ∈ Group.all ⟨edge, sectionQueries {} originModel edge⟩ :=
    List.mem_flatMap.2 ⟨.crud, by decide, List.mem_of_getElem? (i := 0) rfl⟩
  have hparams : ¬ ["from_id", "to_id", "from_id"].Nodup := by decide
  exact hparams (h {} originModel (by decide +kernel) _ hg _ hq).1

end Hql.Library
