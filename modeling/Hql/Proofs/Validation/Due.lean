import Hql.Validation
import Mathlib.Data.List.Basic

/-!
The diagnostics that are due, told by the places of a model. What is due for an entity or a property
is said of its own name and of what stands before it, and not by way of a list of names that grows
while the model is checked. Main statement: the checks report what is due, in order.
-/

namespace Hql

open Text

namespace Validation

/-- `[A-Z][A-Za-z0-9_]*` -/
def HasEntityForm (name : String) : Prop :=
  ∃ c cs, name.toList = c :: cs ∧ c.isUpper = true ∧ ∀ d ∈ cs, isIdentChar d = true

/-- `[A-Za-z][A-Za-z0-9_]*`, after which one line feed may stand. -/
def HasPropertyForm (name : String) : Prop :=
  ∃ c cs, (name.toList = c :: cs ∨ name.toList = c :: cs ++ ['\n']) ∧ c.isAlpha = true ∧
    ∀ d ∈ cs, isIdentChar d = true

/-- Names that are not blank and that case and blanks at their ends do not tell apart. -/
def SameName (a b : String) : Prop :=
  trimmed a ≠ "" ∧ lowercase (trimmed a) = lowercase (trimmed b)

/-! ### Forms of names -/

theorem isEntityName_iff (name : String) :
    isEntityName name.toList = true ↔ HasEntityForm name := by
  rw [HasEntityForm]
  generalize name.toList = cs
  cases cs with
  | nil => simp [isEntityName]
  | cons c cs =>
    constructor
    · intro h
      obtain ⟨hc, hcs⟩ := Bool.and_eq_true_iff.1 h
      exact ⟨c, cs, rfl, hc, List.all_eq_true.1 hcs⟩
    · rintro ⟨c, cs, heq, hc, hcs⟩
      rw [heq]
      exact Bool.and_eq_true_iff.2 ⟨hc, List.all_eq_true.2 hcs⟩

theorem isPropertyName_iff (cs : List Char) :
    isPropertyName cs = true ↔
      ∃ c ds, cs = c :: ds ∧ c.isAlpha = true ∧ ∀ d ∈ ds, isIdentChar d = true := by
  cases cs with
  | nil => simp [isPropertyName]
  | cons c cs =>
    constructor
    · intro h
      obtain ⟨hc, hcs⟩ := Bool.and_eq_true_iff.1 h
      exact ⟨c, cs, rfl, hc, List.all_eq_true.1 hcs⟩
    · rintro ⟨c, ds, heq, hc, hds⟩
      rw [heq]
      exact Bool.and_eq_true_iff.2 ⟨hc, List.all_eq_true.2 hds⟩

theorem isStoredPropertyName_iff (name : String) :
    isStoredPropertyName name.toList = true ↔ HasPropertyForm name := by
  rw [HasPropertyForm, isStoredPropertyName, Bool.or_eq_true, Bool.and_eq_true, beq_iff_eq,
    isPropertyName_iff, isPropertyName_iff]
  constructor
  · rintro (⟨c, cs, heq, hform⟩ | ⟨hlast, c, cs, heq, hform⟩)
    · exact ⟨c, cs, .inl heq, hform⟩
    · have hname := List.dropLast_append_getLast? '\n' (Option.mem_def.2 hlast)
      rw [heq] at hname
      exact ⟨c, cs, .inr hname.symm, hform⟩
  · rintro ⟨c, cs, heq | heq, hform⟩
    · exact .inl ⟨c, cs, heq, hform⟩
    · refine .inr ⟨?_, c, cs, ?_, hform⟩
      · rw [heq, List.getLast?_concat]
      · rw [heq, List.dropLast_concat]

instance (name : String) : Decidable (HasEntityForm name) :=
  decidable_of_iff _ (isEntityName_iff name)

instance (name : String) : Decidable (HasPropertyForm name) :=
  decidable_of_iff _ (isStoredPropertyName_iff name)

instance (a b : String) : Decidable (SameName a b) :=
  inferInstanceAs (Decidable (_ ∧ _))

/-! ### What is due -/

/-- What is due for the name of an entity after `earlier`: one report if the name is blank, and else
one for each rule that it breaks. -/
def dueForName (earlier : Model) (e : Entity) : List Diagnostic :=
  let name := trimmed e.name
  if name = "" then [{ entityId := e.id, finding := .entityUnnamed }]
  else
    report (¬ HasEntityForm name)
      { entityId := e.id, finding := .entityNameForm, fix := suggestEntityName? name } ++
    report (uppercase name ∈ Keyword.reserved)
      { entityId := e.id, finding := .entityNameReserved name } ++
    report (∃ x ∈ earlier.entities, SameName x.name e.name)
      { entityId := e.id, finding := .entityNameTaken name }

/-- What is due for an end of an edge: a report if it is set and no entity of the model has that
name. -/
def dueForEnd (model : Model) (e : Entity) (side : Option String) (finding : String → Finding) :
    List Diagnostic :=
  match side with
  | none => []
  | some name => report (name ≠ "" ∧ ∀ x ∈ model.entities, x.name ≠ name)
      { entityId := e.id, finding := finding name }

/-- An end of an edge that is not there, or empty. -/
def IsAbsent (side : Option String) : Prop := side = none ∨ side = some ""

instance (side : Option String) : Decidable (IsAbsent side) := inferInstanceAs (Decidable (_ ∨ _))

/-- What is due for the ends of an edge. -/
def dueForEnds (model : Model) (e : Entity) : List Diagnostic :=
  dueForEnd model e e.source .unknownSource ++
  dueForEnd model e e.target .unknownTarget ++
  report (IsAbsent e.source ∨ IsAbsent e.target) { entityId := e.id, finding := .unconnected }

/-- What is due for the property at a position, after the properties and gaps `earlier`: one report
if its name is blank, and else one for each rule that the name breaks. -/
def dueForProperty (e : Entity) (earlier : List (Option Property)) (index : Nat) (p : Property) :
    List Diagnostic :=
  if trimmed p.name = "" then
    [{ entityId := e.id, finding := .propertyUnnamed, propertyIndex := some index }]
  else
    report (¬ HasPropertyForm p.name)
      { entityId := e.id, finding := .propertyNameForm, propertyIndex := some index,
        fix := suggestPropertyName? p.name } ++
    report (lowercase (trimmed p.name) ∈ e.kind.reservedFields)
      { entityId := e.id, finding := .propertyNameReserved p.name, propertyIndex := some index,
        fix := reservedFix? e (lowercase (trimmed p.name)) } ++
    report (∃ q ∈ earlier.filterMap fun q => q, SameName q.name p.name)
      { entityId := e.id, finding := .propertyNameTaken p.name, propertyIndex := some index }

/-- What is due for the properties of an entity. Gaps have a position and nothing is due for
them. -/
def dueForProperties (e : Entity) : List Diagnostic :=
  (e.properties.mapIdx fun i entry =>
    entry.toList.flatMap (dueForProperty e (e.properties.take i) i)).flatten

/-- What is due for an entity of a model after `earlier`. -/
def dueForEntity (model earlier : Model) (e : Entity) : List Diagnostic :=
  dueForName earlier e ++ (if e.kind = .edge then dueForEnds model e else []) ++
    dueForProperties e

/-- What is due for a model. Gaps have a position and nothing is due for them. -/
def due (model : Model) : List Diagnostic :=
  (model.mapIdx fun i entry =>
    entry.toList.flatMap (dueForEntity model (model.take i))).flatten

/-! ### Names that were seen -/

theorem lowerChar_ne_nil (c : Char) : lowerChar c ≠ [] := by
  have hspecials : ∀ n form, lowerSpecials.lookup n = some form → form ≠ [] := by
    intro n form h
    obtain ⟨before, after, heq, -⟩ := List.lookup_eq_some_iff.1 h
    have hall : ∀ s ∈ lowerSpecials, s.2 ≠ [] := by decide
    exact hall (n, form) (heq ▸ List.mem_append_right _ (List.mem_cons_self ..))
  rw [lowerChar]
  split
  · exact List.cons_ne_nil _ _
  · rw [mapCase]
    split
    · next form hform =>
      rw [ne_eq, List.map_eq_nil_iff]
      exact hspecials _ _ hform
    · split
      · exact List.cons_ne_nil _ _
      · exact List.cons_ne_nil _ _

theorem lowercase_eq_empty_iff (s : String) : lowercase s = "" ↔ s = "" := by
  constructor
  · intro h
    have hlower : lower s.toList = [] := by
      have htext := congrArg String.toList h
      rwa [lowercase, String.toList_ofList] at htext
    cases hs : s.toList with
    | nil => exact String.toList_eq_nil_iff.1 hs
    | cons c cs =>
      rw [hs, lower, lowerAfter, List.append_eq_nil_iff] at hlower
      have hhead := hlower.1
      split at hhead
      · cases hhead
      · exact absurd hhead (lowerChar_ne_nil c)
  · rintro rfl
    rfl

/-- The key of a name is empty when the name is blank. -/
theorem nameKey_eq_empty_iff (name : String) : nameKey name = "" ↔ trimmed name = "" :=
  lowercase_eq_empty_iff _

theorem sameName_iff {a b : String} (hb : trimmed b ≠ "") :
    SameName a b ↔ nameKey a = nameKey b := by
  constructor
  · rintro ⟨-, heq⟩
    exact heq
  · intro heq
    refine ⟨fun ha => hb ?_, heq⟩
    rw [← nameKey_eq_empty_iff, ← heq, nameKey_eq_empty_iff]
    exact ha

theorem report_congr {a b : Bool} (d : Diagnostic) (h : a = true ↔ b = true) :
    report a d = report b d := by
  rw [Bool.eq_iff_iff.2 h]

/-- The keys `used` are those of the names `earlier`. -/
def AreKeysOf (used : List String) (earlier : List String) : Prop :=
  ∀ key, key ∈ used ↔ key ∈ earlier.map nameKey

theorem AreKeysOf.snoc {used earlier : List String} (h : AreKeysOf used earlier) (name : String) :
    AreKeysOf (nameKey name :: used) (earlier ++ [name]) := by
  intro key
  rw [List.map_append, List.mem_append, List.mem_cons, h key, List.map_singleton,
    List.mem_singleton]
  exact or_comm

/-- A name has a key that was used when it is the same as an earlier one. -/
theorem AreKeysOf.contains_iff {used earlier : List String} (h : AreKeysOf used earlier)
    {name : String} (hname : trimmed name ≠ "") :
    used.contains (nameKey name) = true ↔ ∃ a ∈ earlier, SameName a name := by
  rw [List.contains_iff_mem, h, List.mem_map]
  constructor
  · rintro ⟨a, ha, heq⟩
    exact ⟨a, ha, (sameName_iff hname).2 heq⟩
  · rintro ⟨a, ha, hsame⟩
    exact ⟨a, ha, (sameName_iff hname).1 hsame⟩

/-! ### Reported is what is due -/

theorem checkName_eq_due {used : List String} {earlier : Model} (e : Entity)
    (h : AreKeysOf used (earlier.entities.map Entity.name)) :
    checkName used e = dueForName earlier e := by
  rw [checkName, dueForName]
  split
  · rfl
  · next hname =>
    refine congrArg₂ (· ++ ·) (congrArg₂ (· ++ ·) (report_congr _ ?form) (report_congr _ ?reserved))
      (report_congr _ ?taken)
    case form => rw [Bool.not_eq_true', decide_eq_true_iff, ← isEntityName_iff, Bool.not_eq_true]
    case reserved => rw [decide_eq_true_iff, Keyword.isReserved, List.contains_iff_mem]
    case taken =>
      rw [h.contains_iff hname, decide_eq_true_iff]
      simp only [List.mem_map, exists_exists_and_eq_and]

theorem checkEnd_eq_due (model : Model) (e : Entity) (side : Option String)
    (finding : String → Finding) :
    checkEnd (model.entities.map Entity.name) e side finding = dueForEnd model e side finding := by
  cases side with
  | none => rfl
  | some name =>
    rw [checkEnd, dueForEnd]
    by_cases hname : name = ""
    · subst hname
      rfl
    · have hset : setEnd (some name) = some name := Option.filter_some_pos (by simpa using hname)
      rw [hset]
      apply report_congr
      rw [Bool.not_eq_true', decide_eq_true_iff, ← Bool.not_eq_true, List.contains_iff_mem,
        List.mem_map, not_exists]
      exact ⟨fun h => ⟨hname, fun x hx heq => h x ⟨hx, heq⟩⟩, fun h x hx => h.2 x hx.1 hx.2⟩

theorem isNone_setEnd_iff (side : Option String) :
    (setEnd side).isNone = true ↔ IsAbsent side := by
  rw [IsAbsent]
  cases side with
  | none => simp [setEnd]
  | some name => simp [setEnd, Option.filter]

theorem checkEnds_eq_due (model : Model) (e : Entity) :
    checkEnds (model.entities.map Entity.name) e = dueForEnds model e := by
  rw [checkEnds, dueForEnds, checkEnd_eq_due, checkEnd_eq_due]
  refine congrArg₂ (· ++ ·) rfl (report_congr _ ?_)
  rw [Bool.or_eq_true, isNone_setEnd_iff, isNone_setEnd_iff, decide_eq_true_iff]

theorem checkProperty_eq_due {seen : List String} {earlier : List (Option Property)} (e : Entity)
    (h : AreKeysOf seen ((earlier.filterMap fun q => q).map Property.name)) (index : Nat)
    (p : Property) : checkProperty e seen index p = dueForProperty e earlier index p := by
  rw [checkProperty, dueForProperty]
  simp only [nameKey_eq_empty_iff]
  split
  · rfl
  · next hname =>
    refine congrArg₂ (· ++ ·) (congrArg₂ (· ++ ·) (report_congr _ ?form) (report_congr _ ?reserved))
      (report_congr _ ?taken)
    case form =>
      rw [Bool.not_eq_true', decide_eq_true_iff, ← isStoredPropertyName_iff, Bool.not_eq_true]
    case reserved => rw [decide_eq_true_iff, List.contains_iff_mem, nameKey]
    case taken =>
      rw [h.contains_iff hname, decide_eq_true_iff]
      simp only [List.mem_map, exists_exists_and_eq_and]

/-- The checks of the properties after `earlier`. The keys seen so far are those of the earlier
names. -/
theorem checkProperties_eq_due {seen : List String} (e : Entity)
    (earlier later : List (Option Property))
    (h : AreKeysOf seen ((earlier.filterMap fun q => q).map Property.name)) :
    checkProperties e seen earlier.length later =
      (later.mapIdx fun i entry => entry.toList.flatMap
        (dueForProperty e (earlier ++ later.take i) (earlier.length + i))).flatten := by
  induction later generalizing earlier seen with
  | nil => rfl
  | cons entry later ih =>
    -- the rest of the properties stand after `earlier` and this one
    have hrest {seen : List String}
        (h : AreKeysOf seen (((earlier ++ [entry]).filterMap fun q => q).map Property.name)) :
        checkProperties e seen (earlier.length + 1) later =
          (later.mapIdx fun i entry' => entry'.toList.flatMap (dueForProperty e
            (earlier ++ (entry :: later).take (i + 1)) (earlier.length + (i + 1)))).flatten := by
      have hlater := ih (earlier ++ [entry]) h
      rw [List.length_append, List.length_singleton] at hlater
      rw [hlater]
      simp only [List.take_succ_cons, List.append_assoc, List.singleton_append, Nat.add_assoc,
        Nat.add_comm 1]
    rw [List.mapIdx_cons, List.flatten_cons, List.take_zero, List.append_nil, Nat.add_zero]
    cases entry with
    | none =>
      rw [checkProperties, hrest]
      · rfl
      · simpa using h
    | some p =>
      rw [checkProperties, checkProperty_eq_due e h, hrest]
      · rw [Option.toList_some, List.flatMap_singleton]
      · simpa using h.snoc p.name

theorem checkEntity_eq_due {used : List String} {earlier : Model} (model : Model) (e : Entity)
    (h : AreKeysOf used (earlier.entities.map Entity.name)) :
    checkEntity (model.entities.map Entity.name) used e = dueForEntity model earlier e := by
  have hnone : AreKeysOf [] (([] : List Property).map Property.name) := fun key => Iff.rfl
  have hproperties := checkProperties_eq_due e [] e.properties hnone
  simp only [List.length_nil, List.nil_append, Nat.zero_add] at hproperties
  rw [checkEntity, dueForEntity, checkName_eq_due e h, checkEnds_eq_due, hproperties,
    dueForProperties]
  simp only [Entity.isEdge, decide_eq_true_iff]

/-- The checks of the entities after `earlier`. The keys used so far are those of the earlier
names. -/
theorem checkEntities_eq_due {used : List String} (model earlier later : Model)
    (h : AreKeysOf used (earlier.entities.map Entity.name)) :
    checkEntities (model.entities.map Entity.name) used later.entities =
      (later.mapIdx fun i entry => entry.toList.flatMap
        (dueForEntity model (earlier ++ later.take i))).flatten := by
  induction later generalizing earlier used with
  | nil => rfl
  | cons entry later ih =>
    have hrest {used : List String}
        (h : AreKeysOf used ((Model.entities (earlier ++ [entry])).map Entity.name)) :
        checkEntities (model.entities.map Entity.name) used (Model.entities later) =
          (later.mapIdx fun i entry' => entry'.toList.flatMap
            (dueForEntity model (earlier ++ (entry :: later).take (i + 1)))).flatten := by
      rw [ih (earlier ++ [entry]) h]
      simp only [List.take_succ_cons, List.append_assoc, List.singleton_append]
    rw [List.mapIdx_cons, List.flatten_cons, List.take_zero, List.append_nil]
    cases entry with
    | none =>
      have hgap : Model.entities (none :: later) = Model.entities later := rfl
      rw [hgap, hrest]
      · rfl
      · simpa [Model.entities] using h
    | some e =>
      have hentity : Model.entities (some e :: later) = e :: Model.entities later := rfl
      rw [hentity, checkEntities, checkEntity_eq_due model e h, hrest]
      · rw [Option.toList_some, List.flatMap_singleton]
      · simpa [Model.entities] using h.snoc e.name

/-- The checks report what is due, entity by entity in the order of the model, and say nothing
else. -/
theorem validate_eq_due (model : Model) : validate model = due model :=
  checkEntities_eq_due model [] model fun _ => Iff.rfl

end Validation

end Hql
