import Hql.Proofs.Library.Names
import Mathlib.Data.List.Nodup

/-!
Names that the checks tell apart. In a model without errors no two entities have the same name when
case and blanks are ignored, nor have two properties of an entity, and no property has the name of a
field that the database manages.
-/

namespace Hql.Validation

open Text

section Properties

variable {e : Entity} {seen : List String} {index : Nat}

theorem key_of_errorFree {p : Property} (h : ErrorFree (checkProperty e seen index p)) :
    nameKey p.name ∉ e.kind.reservedFields ∧ nameKey p.name ∉ seen := by
  rw [checkProperty] at h
  obtain ⟨-, -, hreserved, htaken⟩ := errorFree_nameChecks rfl h
  have hreserved := condition_of_report rfl hreserved
  have htaken := condition_of_report rfl htaken
  exact ⟨by simpa using hreserved, by simpa using htaken⟩

/-- The keys of properties differ from each other, from those seen before, and from the fields of the
database. -/
theorem keys_of_errorFree {ps : List (Option Property)}
    (h : ErrorFree (checkProperties e seen index ps)) :
    ((ps.filterMap fun p => p).map fun p => nameKey p.name).Nodup ∧
      ∀ p ∈ ps.filterMap fun p => p,
        nameKey p.name ∉ e.kind.reservedFields ∧ nameKey p.name ∉ seen := by
  induction ps generalizing seen index with
  | nil => simp
  | cons entry ps ih =>
    cases entry with
    | none => exact ih h
    | some p =>
      rw [checkProperties, errorFree_append] at h
      obtain ⟨hnodup, hkeys⟩ := ih h.2
      have hcons : (some p :: ps).filterMap (fun p => p) = p :: ps.filterMap fun p => p := rfl
      rw [hcons, List.map_cons, List.nodup_cons, List.forall_mem_cons]
      refine ⟨⟨fun hmem => ?_, hnodup⟩, key_of_errorFree h.1, fun q hq => ?_⟩
      · obtain ⟨q, hq, heq⟩ := List.mem_map.1 hmem
        refine (hkeys q hq).2 ?_
        rw [heq]
        exact List.mem_cons_self
      · exact ⟨(hkeys q hq).1, fun hmem => (hkeys q hq).2 (List.mem_cons_of_mem _ hmem)⟩

end Properties

section Entities

variable {model : Model}

/-- The names of the properties of an entity differ from each other and from the fields that the
database manages. -/
structure HasDistinctNames (e : Entity) : Prop where
  nodup : (e.namedProperties.map Property.name).Nodup
  unreserved : ∀ p ∈ e.namedProperties, nameKey p.name ∉ e.kind.reservedFields

theorem hasDistinctNames_of_validate (h : ErrorFree (validate model)) {e : Entity}
    (he : e ∈ model.entities) : HasDistinctNames e := by
  obtain ⟨used, hchecked⟩ := errorFree_of_checkEntities h e he
  rw [checkEntity, errorFree_append] at hchecked
  obtain ⟨hnodup, hkeys⟩ := keys_of_errorFree hchecked.2
  have hnames : ((e.properties.filterMap fun p => p).map Property.name).Nodup := by
    refine List.Nodup.of_map nameKey ?_
    rwa [List.map_map]
  exact {
    nodup := hnames.sublist (List.filter_sublist.map _)
    unreserved := fun p hp => (hkeys p (List.mem_filter.1 hp).1).1 }

theorem key_of_checkName {used : List String} {e : Entity} (h : ErrorFree (checkName used e)) :
    nameKey e.name ∉ used := by
  rw [checkName] at h
  obtain ⟨-, -, -, htaken⟩ := errorFree_nameChecks rfl h
  simpa using condition_of_report rfl htaken

/-- The keys of entities differ from each other and from those used before. -/
theorem keys_of_checkEntities {names used : List String} {es : List Entity}
    (h : ErrorFree (checkEntities names used es)) :
    (es.map fun e => nameKey e.name).Nodup ∧ ∀ e ∈ es, nameKey e.name ∉ used := by
  induction es generalizing used with
  | nil => simp
  | cons e es ih =>
    rw [checkEntities, errorFree_append, checkEntity, errorFree_append, errorFree_append] at h
    obtain ⟨hnodup, hkeys⟩ := ih h.2
    rw [List.map_cons, List.nodup_cons, List.forall_mem_cons]
    refine ⟨⟨fun hmem => ?_, hnodup⟩, key_of_checkName h.1.1.1, fun x hx hmem => ?_⟩
    · obtain ⟨x, hx, heq⟩ := List.mem_map.1 hmem
      refine hkeys x hx ?_
      rw [heq]
      exact List.mem_cons_self
    · exact hkeys x hx (List.mem_cons_of_mem _ hmem)

/-- Blanks at the ends of an accepted name stay where they are in lower case. -/
theorem trimmed_lowercase {name : String} (h : isIdentifier (trim name.toList) = true) :
    trimmed (lowercase name) = nameKey name := by
  obtain ⟨a, b, hname, ha, hb⟩ := Layout.exists_blanks_trim name.toList
  have hw : ∀ c ∈ trim name.toList, isIdentChar c = true :=
    fun c hc => Schema.isIdentChar_of_mem h c hc
  have hlower := Library.lower_name ha hw hb
  have hword := Library.lower_name (a := []) (b := []) (by simp) hw (by simp)
  rw [← hname] at hlower
  simp only [List.nil_append, List.append_nil] at hword
  have hplain : ∀ c ∈ (trim name.toList).map Char.toLower, isBlank c = false :=
    List.forall_mem_map.2 fun c hc =>
      not_isBlank_of_isIdentChar (isIdentChar_toUpper (hw c hc)).2
  rw [nameKey, trimmed, trimmed, lowercase, lowercase, String.toList_ofList, String.toList_ofList,
    hlower, hword, Layout.trim_between ha hb (fun c hc => hplain c (List.mem_of_head? hc))
      fun c hc => hplain c (List.mem_of_getLast? hc)]

/-- The names of the entities are all different in lower case. -/
theorem nodup_lowercase_of_validate (h : ErrorFree (validate model)) :
    (model.entities.map fun e => lowercase e.name).Nodup := by
  have hkeys := (keys_of_checkEntities h).1
  have htrimmed : (model.entities.map fun e => lowercase e.name).map trimmed =
      model.entities.map fun e => nameKey e.name := by
    rw [List.map_map]
    exact List.map_congr_left fun e he => trimmed_lowercase
      (isIdentifier_of_isEntityName (accepts_of_validate h e he).name)
  rw [← htrimmed] at hkeys
  exact List.Nodup.of_map trimmed hkeys

end Entities

end Hql.Validation
