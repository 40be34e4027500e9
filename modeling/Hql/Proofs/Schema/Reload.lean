import Hql.Proofs.Library.Sections
import Hql.Proofs.Schema.RoundTrip
import Hql.Proofs.Validation.Reports
import Mathlib.Data.List.Forall2

/-!
Models read back from their own schema. What a schema forgets of a model is looked at neither by the
schema itself nor by the query library, and the checks see of it the ids alone.
-/

namespace Hql

open Text Schema Validation

namespace Entity

/-- An entity that a reload changes in places only that nothing looks at. -/
structure IsReloadable (e : Entity) : Prop extends e.IsDeclarable where
  sourceDefined : e.isEdge = true → setEnd e.source ≠ some undefinedEnd
  targetDefined : e.isEdge = true → setEnd e.target ≠ some undefinedEnd
  allNamed : ∀ p ∈ e.properties, ∃ q, p = some q ∧ q.name ≠ ""

/-- Without gaps and unnamed properties, the named properties are all there are. -/
theorem properties_eq_map {e : Entity}
    (h : ∀ p ∈ e.properties, ∃ q, p = some q ∧ q.name ≠ "") :
    e.properties = e.namedProperties.map some := by
  rw [namedProperties]
  generalize e.properties = ps at h
  induction ps with
  | nil => rfl
  | cons p ps ih =>
    obtain ⟨q, rfl, hname⟩ := h p (List.mem_cons_self ..)
    have hrest := ih fun p hp => h p (List.mem_cons_of_mem _ hp)
    have hkept : (some q :: ps).filterMap (fun p => p) = q :: ps.filterMap fun p => p := rfl
    rw [hkept, List.filter_cons_of_pos (by simpa using hname), List.map_cons, ← hrest]

theorem sameChecks_declared {e : Entity} (h : e.IsReloadable) (position : Nat) :
    SameChecks e (e.declared position) where
  name := rfl
  kind := rfl
  source := by
    intro hedge
    have hsource : (e.declared position).source = declaredEnd e.source := if_pos hedge
    rw [hsource, setEnd_declaredEnd, declaredEnd_eq_setEnd (h.sourceDefined hedge)]
  target := by
    intro hedge
    have htarget : (e.declared position).target = declaredEnd e.target := if_pos hedge
    rw [htarget, setEnd_declaredEnd, declaredEnd_eq_setEnd (h.targetDefined hedge)]
  properties := by
    have hnames : (e.declared position).properties.map (Option.map Property.name) =
        e.namedProperties.map fun p => some p.name := by
      rw [declared, List.map_map]
      rfl
    rw [hnames, properties_eq_map h.allNamed, List.map_map]
    rfl

end Entity

namespace Model

variable {model : Model}

theorem length_declared (model : Model) : model.declared.length = model.entities.length :=
  List.length_mapIdx

/-- What a model declares has the cores of the model. -/
theorem core_declared (h : ∀ e ∈ model.entities, e.IsReloadable) :
    model.declared.map Entity.core = model.entities.map Entity.core := by
  apply List.ext_getElem?
  intro i
  rw [declared, List.getElem?_map, List.getElem?_map, List.getElem?_mapIdx, Option.map_map]
  cases he : model.entities[i]? with
  | none => rfl
  | some e =>
    have hentity := h e (List.mem_of_getElem? he)
    exact congrArg some (Entity.core_declared hentity.sourceDefined hentity.targetDefined i)

theorem sameChecks_declared (h : ∀ e ∈ model.entities, e.IsReloadable) :
    List.Forall₂ SameChecks model.entities model.declared := by
  apply List.forall₂_of_length_eq_of_get model.length_declared.symm
  intro i hi hi'
  have hget : model.declared.get ⟨i, hi'⟩ = model.entities[i].declared i := List.getElem_mapIdx
  rw [hget]
  exact Entity.sameChecks_declared (h _ (List.getElem_mem hi)) i

end Model

namespace Schema

/-- A model that is read back from its own schema has the same schema, the same library under all
flags, and the diagnostics of the model under its own ids. A model of nothing but gaps is read back
as the model without places. -/
theorem reload_invisible {model : Model} (h : ∀ e ∈ model.entities, e.IsReloadable) :
    ∃ es, read (print model) = .ok es ∧
      print (es.map some) = (if model.entities = [] then empty else print model) ∧
      (∀ config, Library.print config (es.map some) = Library.print config model) ∧
      es.length = model.entities.length ∧ (reportsOf model).flatten = validate model ∧
      validate (es.map some) =
        (List.zipWith (fun e ds => ds.map (Diagnostic.withId e.id)) es
          (reportsOf model)).flatten := by
  have hdeclarable : model.IsDeclarable := fun e he => (h e he).toIsDeclarable
  have hread : read (print model) = .ok model.declared :=
    read_eq_ok_iff.2 (entities?_print hdeclarable)
  have hentities := entities_map_some model.declared
  have hcore : (Model.entities (model.declared.map some)).map Entity.core =
      model.entities.map Entity.core := by
    rw [hentities]
    exact Model.core_declared h
  refine ⟨model.declared, hread, ?_, ?_, model.length_declared, flatten_reportsOf model, ?_⟩
  · split
    · next hnone =>
      rw [Model.declared, hnone]
      rfl
    · next hsome => exact print_congr hcore hsome
  · intro config
    apply Library.print_congr config hcore
    exact fun e he => ne_empty_of_isIdentifier (h e he).name
  · have hchecks : List.Forall₂ SameChecks model.entities
        (Model.entities (model.declared.map some)) := by
      rw [hentities]
      exact Model.sameChecks_declared h
    rw [← flatten_reportsOf, reportsOf_eq_zipWith hchecks, hentities]

/-- A model with most of what a schema forgets: ids, a gap, texts, a dimension, an index under a
unique index, and ends of a node. -/
def forgetfulModel : Model := [
  some {
    id := "u", name := "User", kind := .node, source := some "nowhere"
    description := .string "who writes"
    properties := [
      some { name := "email", isUnique := true, isIndex := true, description := .string "where" },
      some { name := "age", type := .u8, isIndex := true }] },
  none,
  some { id := "d", name := "Doc", kind := .vector, vectorDim := .int 8, isUniqueRelation := true
         properties := [some { name := "key", isUnique := true, isIndex := true }] },
  some { id := "f", name := "Follows", kind := .edge, source := some "User", target := some "" }]

theorem reload_invisible_forgetful :
    (∀ e ∈ forgetfulModel.entities, e.IsReloadable) ∧
      ∃ es, read (print forgetfulModel) = .ok es ∧
        print (es.map some) = print forgetfulModel ∧
        ∀ config, Library.print config (es.map some) = Library.print config forgetfulModel := by
  have hnames : ∀ e ∈ forgetfulModel.entities, isIdentifier e.name.toList = true ∧
      (e.isEdge = true → Entity.IsNamedEnd e.source ∧ Entity.IsNamedEnd e.target ∧
        setEnd e.source ≠ some undefinedEnd ∧ setEnd e.target ≠ some undefinedEnd) := by decide
  have hproperties : ∀ e ∈ forgetfulModel.entities, ∀ p ∈ e.namedProperties,
      isIdentifier p.name.toList = true ∧ ¬ p.IsBareModifier ∧ p.defaultValue = none := by decide
  have hall : ∀ e ∈ forgetfulModel.entities, ∀ p ∈ e.properties,
      ∃ q, p = some q ∧ q.name ≠ "" := by simp [forgetfulModel, Model.entities]
  have h : ∀ e ∈ forgetfulModel.entities, e.IsReloadable := by
    intro e he
    obtain ⟨hname, hends⟩ := hnames e he
    refine ⟨⟨hname, fun h => (hends h).1, fun h => (hends h).2.1, ?_⟩,
      fun h => (hends h).2.2.1, fun h => (hends h).2.2.2, hall e he⟩
    intro p hp
    obtain ⟨hpname, hbare, hnone⟩ := hproperties e he p hp
    refine ⟨hpname, hbare, ?_⟩
    intro s hs
    rw [hnone] at hs
    cases hs
  obtain ⟨es, hread, hschema, hlibrary, -⟩ := reload_invisible h
  rw [if_neg (by simp [forgetfulModel, Model.entities])] at hschema
  exact ⟨h, es, hread, hschema, hlibrary⟩

/-- A model of nothing but a gap has an empty text for a schema, and the model that is read from it
does not. -/
theorem not_reload_invisible :
    ¬ ∀ model : Model, (∀ e ∈ model.entities, e.IsReloadable) →
      ∃ es, read (print model) = .ok es ∧ print (es.map some) = print model := by
  intro h
  obtain ⟨es, hread, hschema⟩ := h [none] (fun e he => by cases he)
  have hnothing : (read (print [none])).toOption = some [] := by decide +kernel
  rw [hread] at hnothing
  obtain rfl : es = [] := Option.some.inj hnothing
  revert hschema
  decide +kernel

end Schema

end Hql
