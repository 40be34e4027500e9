import Hql.Proofs.Library.Names
import Hql.Proofs.Schema.Reimport
import Hql.Proofs.Validation.ErrorFree

/-!
What the checks of a model say about its schema. A model without errors has well-formed names up to
blanks around them; whether its schema is read back as the same definitions then depends on those
blanks, on bare modifiers, on the word for ends that are not set, and on its defaults.
-/

namespace Hql

open Text Schema Validation

namespace Entity

/-- Nothing of the definition is lost in a schema. -/
structure IsKept (e : Entity) : Prop where
  name : trimmed e.name = e.name
  source : e.isEdge = true → setEnd e.source ≠ some undefinedEnd
  target : e.isEdge = true → setEnd e.target ≠ some undefinedEnd
  properties : ∀ p ∈ e.namedProperties,
    p.name.toList.getLast? ≠ some '\n' ∧ ¬ p.IsBareModifier ∧ p.HasPrintableDefault

end Entity

namespace Schema

/-- What an entity declares has the same definition if nothing is lost. -/
theorem definition_declared {e : Entity} (h : e.IsKept) (position : Nat) :
    (e.declared position).definition = e.definition := by
  rw [Entity.definition_eq_iff, Entity.isEdge_declared, Entity.namedProperties_declared,
    List.map_map]
  refine ⟨rfl, rfl, List.map_congr_left fun p _ => p.declared_declared, ?_, ?_⟩
  · cases hedge : e.isEdge with
    | true =>
      have hsource : (e.declared position).source = Entity.declaredEnd e.source := by
        simp [Entity.declared, hedge]
      rw [if_pos rfl, if_pos rfl, hsource, Entity.setEnd_declaredEnd,
        Entity.declaredEnd_eq_setEnd (h.source hedge)]
    | false => rfl
  · cases hedge : e.isEdge with
    | true =>
      have htarget : (e.declared position).target = Entity.declaredEnd e.target := by
        simp [Entity.declared, hedge]
      rw [if_pos rfl, if_pos rfl, htarget, Entity.setEnd_declaredEnd,
        Entity.declaredEnd_eq_setEnd (h.target hedge)]
    | false => rfl

/-! ### From the checks to the schema -/

/-- A model without errors from which nothing is lost is declarable. -/
theorem isDeclarable_of_errorFree {model : Model} (h : ErrorFree (validate model))
    (hkept : ∀ e ∈ model.entities, e.IsKept) : model.IsDeclarable := by
  have haccepts := accepts_of_validate h
  have hnames : ∀ s ∈ model.entities.map Entity.name, isIdentifier s.toList = true := by
    intro s hs
    obtain ⟨e, he, rfl⟩ := List.mem_map.1 hs
    exact isIdentifier_of_accepts (haccepts e he) (hkept e he).name
  intro e he
  have hentity := haccepts e he
  refine ⟨isIdentifier_of_accepts hentity (hkept e he).name, ?_, ?_, ?_⟩
  · exact fun hedge s hs => hnames s (hentity.source hedge s hs)
  · exact fun hedge s hs => hnames s (hentity.target hedge s hs)
  · intro p hp
    obtain ⟨hnewline, hbare, hdefault⟩ := (hkept e he).properties p hp
    have hform := hentity.properties p (Entity.mem_properties_of_mem_namedProperties hp)
    exact ⟨isIdentifier_of_isStoredPropertyName hform hnewline, hbare, hdefault⟩

/-! ### From the schema to the model -/

/-- If the schema of a model is read as the definitions of the model, its names are well-formed and
nothing is lost of its entities but perhaps their defaults. -/
theorem isNamed_of_definition {position : Nat} {e x : Entity} (hx : x.IsReadAt position)
    (h : x.definition = e.definition) :
    e.IsNamed ∧ (e.isEdge = true → setEnd e.source ≠ some undefinedEnd) ∧
      (e.isEdge = true → setEnd e.target ≠ some undefinedEnd) := by
  obtain ⟨hname, hkind, hproperties, hsource, htarget⟩ := Entity.definition_eq_iff.1 h
  have hedge : x.isEdge = e.isEdge := by rw [Entity.isEdge, Entity.isEdge, hkind]
  have hends {a b : Option String} (ha : Entity.IsReadEnd a)
      (hab : (if x.isEdge then setEnd a else none) = if e.isEdge then setEnd b else none)
      (he : e.isEdge = true) : Entity.IsReadEnd (setEnd b) := by
    rw [hedge, he, if_pos rfl, if_pos rfl, ha.setEnd_eq] at hab
    rwa [← hab]
  have hnamed {b : Option String} (hb : Entity.IsReadEnd (setEnd b)) : Entity.IsNamedEnd b :=
    fun s hs => (hb s hs).1
  have hset {b : Option String} (hb : Entity.IsReadEnd (setEnd b)) :
      setEnd b ≠ some undefinedEnd :=
    fun hs => (hb undefinedEnd hs).2 rfl
  refine ⟨⟨hname ▸ hx.name, ?_, ?_, ?_⟩, ?_, ?_⟩
  · exact fun he => hnamed (hends hx.source hsource he)
  · exact fun he => hnamed (hends hx.target htarget he)
  · intro p hp
    have hmem : p.declared ∈ x.namedProperties.map Property.declared := by
      rw [hproperties]
      exact List.mem_map_of_mem hp
    obtain ⟨q, hq, hdeclared⟩ := List.mem_map.1 hmem
    have hqname : q.declared.name = p.declared.name := congrArg Property.name hdeclared
    have hqread := (hx.properties q hq).name
    rwa [show q.name = p.name from hqname] at hqread
  · exact fun he => hset (hends hx.source hsource he)
  · exact fun he => hset (hends hx.target htarget he)

/-- The definition of an entity tells what the entity should look like after reading. -/
theorem declaredOutline_eq_definition (e : Entity) :
    e.declaredOutline = (e.definition.kind, e.definition.properties.filterMap fun p => p) := by
  simp [Entity.declaredOutline, Entity.definition, List.filterMap_map]

theorem declaredOutline_of_definition {es fs : List Entity}
    (h : es.map Entity.definition = fs.map Entity.definition) :
    es.map Entity.declaredOutline = fs.map Entity.declaredOutline := by
  have hfactor (es : List Entity) : es.map Entity.declaredOutline =
      (es.map Entity.definition).map fun d => (d.kind, d.properties.filterMap fun p => p) := by
    rw [List.map_map]
    exact List.map_congr_left fun e _ => declaredOutline_eq_definition e
  rw [hfactor, hfactor, h]

/-- The schema of a model without errors is read as the definitions of the model exactly when
nothing of them is lost. -/
theorem definitions_kept_iff {model : Model} (h : ErrorFree (validate model)) :
    (∃ es, read (print model) = .ok es ∧
        es.map Entity.definition = model.entities.map Entity.definition) ↔
      ∀ e ∈ model.entities, e.IsKept := by
  constructor
  · rintro ⟨es, hread, hsame⟩
    rw [read_eq_ok_iff] at hread
    -- equal definitions have equal names and outlines, and only what is declarable is read with
    -- the outlines that it declares
    have hpair : ∀ e ∈ model.entities, ∃ x ∈ es, x.definition = e.definition := by
      intro e he
      have hmem : e.definition ∈ es.map Entity.definition := by
        rw [hsame]
        exact List.mem_map_of_mem he
      exact List.mem_map.1 hmem
    have hnamed : ∀ e ∈ model.entities, e.IsNamed ∧
        (e.isEdge = true → setEnd e.source ≠ some undefinedEnd) ∧
          (e.isEdge = true → setEnd e.target ≠ some undefinedEnd) := by
      intro e he
      obtain ⟨x, hx, hdefinition⟩ := hpair e he
      obtain ⟨position, hposition⟩ := isReadAt_of_mem hread hx
      exact isNamed_of_definition hposition hdefinition
    have houtline : es.map Entity.outline = model.entities.map Entity.declaredOutline := by
      rw [outline_of_entities? hread]
      exact declaredOutline_of_definition hsame
    have hdeclarable := Model.isDeclarable_of_entities? (fun e he => (hnamed e he).1) hread houtline
    intro e he
    obtain ⟨hname, hsource, htarget⟩ := hnamed e he
    refine ⟨Library.trimmed_of_isIdentifier hname.name, hsource, htarget, fun p hp => ?_⟩
    have hproperty := (hdeclarable e he).properties p hp
    refine ⟨?_, hproperty.notBare, hproperty.default⟩
    intro hlast
    exact newline_not_mem_identifier hproperty.name (List.mem_of_getLast? hlast)
  · intro hkept
    have hread := entities?_print (isDeclarable_of_errorFree h hkept)
    refine ⟨model.declared, read_eq_ok_iff.2 hread, ?_⟩
    apply List.ext_getElem?
    intro i
    rw [Model.declared, List.getElem?_map, List.getElem?_map, List.getElem?_mapIdx, Option.map_map]
    cases he : model.entities[i]? with
    | none => rfl
    | some e =>
      have hmem : e ∈ model.entities := List.mem_of_getElem? he
      exact congrArg some (definition_declared (hkept e hmem) i)

/-- A model with an edge, a modifier and a default, in which the checks find no error. -/
def linkedModel : Model := [
  some { id := "u", name := "User", kind := .node
         properties := [none, some { name := "age", type := .u8, isIndex := true,
                                     defaultValue := some "18" }] },
  none,
  some { id := "f", name := "Follows", kind := .edge
         source := some "User", target := some "User" }]

theorem definitions_kept_linkedModel :
    ErrorFree (validate linkedModel) ∧
      ∃ es, read (print linkedModel) = .ok es ∧
        es.map Entity.definition = linkedModel.entities.map Entity.definition := by
  have herrors : ErrorFree (validate linkedModel) := by
    have hnone : validate linkedModel = [] := by decide +kernel
    rw [hnone]
    intro d hd
    cases hd
  refine ⟨herrors, (definitions_kept_iff herrors).2 ?_⟩
  intro e he
  have he : e = (linkedModel.entities)[0] ∨ e = (linkedModel.entities)[1] := by
    simpa [linkedModel, Model.entities] using he
  rcases he with rfl | rfl
  · refine ⟨by decide +kernel, by decide, by decide, ?_⟩
    intro p hp
    obtain rfl : p = (linkedModel.entities)[0].namedProperties[0] := by
      simpa [linkedModel, Model.entities, Entity.namedProperties] using hp
    exact ⟨by decide, by decide, .of_bare rfl (by decide) (.inr (.inl (by decide +kernel)))⟩
  · refine ⟨by decide +kernel, by decide, by decide, ?_⟩
    intro p hp
    cases hp

/-- A model in which the checks find no error, with a default that its schema cannot hold. -/
def twoWordModel : Model := [
  some { id := "a", name := "A", kind := .node
         properties := [some { name := "x", type := .i32, defaultValue := some "a b" }] }]

theorem definitions_not_always_kept :
    ¬ ∀ model : Model, ErrorFree (validate model) →
      ∃ es, read (print model) = .ok es ∧
        es.map Entity.definition = model.entities.map Entity.definition := by
  intro h
  have herrors : ErrorFree (validate twoWordModel) := by
    have hnone : validate twoWordModel = [] := by decide +kernel
    rw [hnone]
    intro d hd
    cases hd
  have hfault : (read (print twoWordModel)).toOption = none := by decide +kernel
  obtain ⟨es, hread, -⟩ := h twoWordModel herrors
  rw [hread] at hfault
  cases hfault

end Schema

end Hql
