import Hql.Proofs.Validation.Due

/-!
Diagnostics by the places of a model. A place is the position of an entity, or the index of a property
of it. What the checks find at a place they find in the name that stands there.
-/

namespace Hql.Validation

open Text

/-- The diagnostics of the entity at a position of a model. -/
def reportsAt (model : Model) (position : Nat) : List Diagnostic :=
  match model[position]? with
  | some (some e) =>
    checkEntity (model.entities.map Entity.name)
      ((Model.entities (model.take position)).map fun x => nameKey x.name) e
  | _ => []

/-- The checks find this in the name at a place: in that of the entity at the position, or in that of
its property at the index. -/
def FoundAt (model : Model) (position : Nat) (index : Option Nat) (finding : Finding) : Prop :=
  ∃ d ∈ reportsAt model position, d.propertyIndex = index ∧ d.finding = finding

theorem mem_report {condition : Bool} {d x : Diagnostic} :
    d ∈ report condition x ↔ condition = true ∧ d = x := by
  cases condition <;> simp [report]

/-- The checks of a name say that it is not there, or what is wrong with it. -/
theorem eq_of_mem_nameChecks {blank : Prop} [Decidable blank] {form reserved taken : Bool}
    {d unnamed d₁ d₂ d₃ : Diagnostic}
    (h : d ∈ if blank then [unnamed] else report form d₁ ++ report reserved d₂ ++ report taken d₃) :
    (blank ∧ d = unnamed) ∨
      ¬ blank ∧ ((form = true ∧ d = d₁) ∨ (reserved = true ∧ d = d₂) ∨ (taken = true ∧ d = d₃)) := by
  split at h
  · next hblank => exact .inl ⟨hblank, List.mem_singleton.1 h⟩
  · next hblank =>
    rw [List.mem_append, List.mem_append, mem_report, mem_report, mem_report, or_assoc] at h
    exact .inr ⟨hblank, h⟩

section Places

variable {model : Model} {position : Nat} {e : Entity}

theorem reportsAt_eq_check (h : model[position]? = some (some e)) :
    reportsAt model position = checkEntity (model.entities.map Entity.name)
      ((Model.entities (model.take position)).map fun x => nameKey x.name) e := by
  rw [reportsAt, h]

theorem reportsAt_eq_due (h : model[position]? = some (some e)) :
    reportsAt model position = dueForEntity model (model.take position) e := by
  rw [reportsAt_eq_check h]
  refine checkEntity_eq_due model e fun key => ?_
  rw [List.map_map]
  rfl

/-- The diagnostics of a model are those of its positions, in order. -/
theorem flatMap_reportsAt (model : Model) :
    (List.range model.length).flatMap (reportsAt model) = validate model := by
  have hdue : validate model = (model.mapIdx fun i entry =>
      entry.toList.flatMap (dueForEntity model (model.take i))).flatten :=
    checkEntities_eq_due model [] model fun _ => Iff.rfl
  -- both lists have one entry for each position, and gaps have nothing on either side
  rw [hdue, List.flatMap_def]
  refine congrArg List.flatten (List.ext_getElem (by simp) fun i hi hi' => ?_)
  rw [List.getElem_map, List.getElem_range, List.getElem_mapIdx]
  rw [List.length_mapIdx] at hi'
  cases hentry : model[i] with
  | none => simp [reportsAt, hi', hentry]
  | some e =>
    rw [reportsAt_eq_due (List.getElem?_eq_some_iff.2 ⟨hi', hentry⟩), Option.toList_some,
      List.flatMap_singleton]

theorem mem_validate_iff {d : Diagnostic} : d ∈ validate model ↔
    ∃ position e, model[position]? = some (some e) ∧ d ∈ reportsAt model position := by
  rw [← flatMap_reportsAt, List.mem_flatMap]
  constructor
  · rintro ⟨position, -, hd⟩
    cases hentry : model[position]? with
    | none => simp [reportsAt, hentry] at hd
    | some entry =>
      cases entry with
      | none => simp [reportsAt, hentry] at hd
      | some e => exact ⟨position, e, hentry, hd⟩
  · rintro ⟨position, e, hentry, hd⟩
    obtain ⟨hlt, -⟩ := List.getElem?_eq_some_iff.1 hentry
    exact ⟨position, List.mem_range.2 hlt, hd⟩

theorem mem_dueForProperties {d : Diagnostic} : d ∈ dueForProperties e ↔
    ∃ i p, e.properties[i]? = some (some p) ∧ d ∈ dueForProperty e (e.properties.take i) i p := by
  simp only [dueForProperties, List.mem_flatten, List.mem_mapIdx]
  constructor
  · rintro ⟨ds, ⟨i, hi, rfl⟩, hd⟩
    obtain ⟨p, hp, hd⟩ := List.mem_flatMap.1 hd
    exact ⟨i, p, List.getElem?_eq_some_iff.2 ⟨hi, Option.mem_toList.1 hp⟩, hd⟩
  · rintro ⟨i, p, hp, hd⟩
    obtain ⟨hi, hentry⟩ := List.getElem?_eq_some_iff.1 hp
    refine ⟨_, ⟨i, hi, rfl⟩, ?_⟩
    rw [hentry, Option.toList_some, List.flatMap_singleton]
    exact hd

theorem mem_reportsAt (h : model[position]? = some (some e)) {d : Diagnostic} :
    d ∈ reportsAt model position ↔ d ∈ dueForName (model.take position) e ∨
      (e.kind = .edge ∧ d ∈ dueForEnds model e) ∨
      ∃ i p, e.properties[i]? = some (some p) ∧ d ∈ dueForProperty e (e.properties.take i) i p := by
  rw [reportsAt_eq_due h, dueForEntity, List.mem_append, List.mem_append, mem_dueForProperties,
    or_assoc]
  by_cases hedge : e.kind = .edge <;> simp [hedge]

/-! ### Findings at a place -/

theorem index_of_mem_dueForName {earlier : Model} {d : Diagnostic} (hd : d ∈ dueForName earlier e) :
    d.propertyIndex = none := by
  obtain ⟨-, rfl⟩ | ⟨-, ⟨-, rfl⟩ | ⟨-, rfl⟩ | ⟨-, rfl⟩⟩ := eq_of_mem_nameChecks hd <;> rfl

theorem index_of_mem_dueForProperty {earlier : List (Option Property)} {i : Nat} {p : Property}
    {d : Diagnostic} (hd : d ∈ dueForProperty e earlier i p) : d.propertyIndex = some i := by
  obtain ⟨-, rfl⟩ | ⟨-, ⟨-, rfl⟩ | ⟨-, rfl⟩ | ⟨-, rfl⟩⟩ := eq_of_mem_nameChecks hd <;> rfl

/-- What can be wrong with the ends of an edge. -/
def IsAboutEnds : Finding → Prop
  | .unknownSource _ => True
  | .unknownTarget _ => True
  | .unconnected => True
  | _ => False

/-- What is found at the ends of an edge is found in no name of the edge, and has no fix. -/
theorem mem_dueForEnds {d : Diagnostic} (hd : d ∈ dueForEnds model e) :
    IsAboutEnds d.finding ∧ d.propertyIndex = none ∧ d.fix = none := by
  have hend {side : Option String} (finding : String → Finding)
      (hfinding : ∀ s, IsAboutEnds (finding s)) (hd : d ∈ dueForEnd model e side finding) :
      IsAboutEnds d.finding ∧ d.propertyIndex = none ∧ d.fix = none := by
    cases side with
    | none => cases hd
    | some name =>
      obtain ⟨-, rfl⟩ := mem_report.1 hd
      exact ⟨hfinding name, rfl, rfl⟩
  rw [dueForEnds, List.mem_append, List.mem_append] at hd
  rcases hd with (hd | hd) | hd
  · exact hend .unknownSource (fun _ => trivial) hd
  · exact hend .unknownTarget (fun _ => trivial) hd
  · obtain ⟨-, rfl⟩ := mem_report.1 hd
    exact ⟨trivial, rfl, rfl⟩

/-- Where all names are there, none is found missing. -/
theorem named_of_mem_validate (hnamed : ∀ e ∈ model.entities, trimmed e.name ≠ "" ∧
      ∀ p, some p ∈ e.properties → trimmed p.name ≠ "") {d : Diagnostic} (hd : d ∈ validate model) :
    d.finding ≠ .entityUnnamed ∧ d.finding ≠ .propertyUnnamed := by
  obtain ⟨position, e, hentry, hd⟩ := mem_validate_iff.1 hd
  have he : e ∈ model.entities := List.mem_filterMap.2 ⟨some e, List.mem_of_getElem? hentry, rfl⟩
  obtain ⟨hname, hproperties⟩ := hnamed e he
  rcases (mem_reportsAt hentry).1 hd with hd | ⟨-, hd⟩ | ⟨i, p, hp, hd⟩
  · obtain ⟨hblank, -⟩ | ⟨-, ⟨-, rfl⟩ | ⟨-, rfl⟩ | ⟨-, rfl⟩⟩ := eq_of_mem_nameChecks hd
    · exact absurd hblank hname
    all_goals simp
  · have hends := (mem_dueForEnds hd).1
    constructor
    · intro heq
      rwa [heq] at hends
    · intro heq
      rwa [heq] at hends
  · obtain ⟨hblank, -⟩ | ⟨-, ⟨-, rfl⟩ | ⟨-, rfl⟩ | ⟨-, rfl⟩⟩ := eq_of_mem_nameChecks hd
    · exact absurd hblank (hproperties p (List.mem_of_getElem? hp))
    all_goals simp

theorem foundAt_none_iff (h : model[position]? = some (some e)) {finding : Finding}
    (hfinding : ¬ IsAboutEnds finding) : FoundAt model position none finding ↔
      ∃ d ∈ dueForName (model.take position) e, d.finding = finding := by
  constructor
  · rintro ⟨d, hd, hindex, rfl⟩
    rcases (mem_reportsAt h).1 hd with hname | ⟨-, hends⟩ | ⟨i, p, -, hproperty⟩
    · exact ⟨d, hname, rfl⟩
    · exact absurd (mem_dueForEnds hends).1 hfinding
    · rw [index_of_mem_dueForProperty hproperty] at hindex
      cases hindex
  · rintro ⟨d, hd, rfl⟩
    exact ⟨d, (mem_reportsAt h).2 (.inl hd), index_of_mem_dueForName hd, rfl⟩

theorem foundAt_some_iff (h : model[position]? = some (some e)) {i : Nat} {finding : Finding} :
    FoundAt model position (some i) finding ↔ ∃ p, e.properties[i]? = some (some p) ∧
      ∃ d ∈ dueForProperty e (e.properties.take i) i p, d.finding = finding := by
  constructor
  · rintro ⟨d, hd, hindex, rfl⟩
    rcases (mem_reportsAt h).1 hd with hname | ⟨-, hends⟩ | ⟨j, p, hp, hproperty⟩
    · rw [index_of_mem_dueForName hname] at hindex
      cases hindex
    · rw [(mem_dueForEnds hends).2.1] at hindex
      cases hindex
    · rw [index_of_mem_dueForProperty hproperty] at hindex
      obtain rfl := Option.some.inj hindex
      exact ⟨p, hp, d, hproperty, rfl⟩
  · rintro ⟨p, hp, d, hd, rfl⟩
    exact ⟨d, (mem_reportsAt h).2 (.inr (.inr ⟨i, p, hp, hd⟩)), index_of_mem_dueForProperty hd, rfl⟩

theorem foundAt_entityNameForm_iff (h : model[position]? = some (some e)) :
    FoundAt model position none .entityNameForm ↔
      trimmed e.name ≠ "" ∧ ¬ HasEntityForm (trimmed e.name) := by
  rw [foundAt_none_iff h (by simp [IsAboutEnds]), dueForName]
  by_cases hblank : trimmed e.name = ""
  · simp [hblank]
  · simp [hblank, mem_report, or_and_right, exists_or]

theorem foundAt_entityNameReserved_iff (h : model[position]? = some (some e)) {name : String} :
    FoundAt model position none (.entityNameReserved name) ↔ trimmed e.name ≠ "" ∧
      Keyword.isReserved (trimmed e.name) = true ∧ trimmed e.name = name := by
  rw [foundAt_none_iff h (by simp [IsAboutEnds]), dueForName, Keyword.isReserved, List.contains_iff_mem]
  by_cases hblank : trimmed e.name = ""
  · simp [hblank]
  · simp [hblank, mem_report, or_and_right, exists_or]

theorem foundAt_propertyNameForm_iff (h : model[position]? = some (some e)) {i : Nat} :
    FoundAt model position (some i) .propertyNameForm ↔ ∃ p, e.properties[i]? = some (some p) ∧
      trimmed p.name ≠ "" ∧ ¬ HasPropertyForm p.name := by
  rw [foundAt_some_iff h]
  refine exists_congr fun p => and_congr_right fun _ => ?_
  rw [dueForProperty]
  by_cases hblank : trimmed p.name = ""
  · simp [hblank]
  · simp [hblank, mem_report, or_and_right, exists_or]

theorem foundAt_propertyNameReserved_iff (h : model[position]? = some (some e)) {i : Nat}
    {name : String} : FoundAt model position (some i) (.propertyNameReserved name) ↔
      ∃ p, e.properties[i]? = some (some p) ∧ trimmed p.name ≠ "" ∧
        lowercase (trimmed p.name) ∈ e.kind.reservedFields ∧ p.name = name := by
  rw [foundAt_some_iff h]
  refine exists_congr fun p => and_congr_right fun _ => ?_
  rw [dueForProperty]
  by_cases hblank : trimmed p.name = ""
  · simp [hblank]
  · simp [hblank, mem_report, or_and_right, exists_or]

end Places

end Hql.Validation
