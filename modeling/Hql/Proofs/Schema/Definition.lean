import Hql.Proofs.Schema.Declaration

/-!
What a schema keeps of a model. The core of an entity is what its block tells; entities of one core
have one block, and what a model declares has the cores of the model.
-/

namespace Hql

open Text Schema

theorem setEnd_setEnd (name : Option String) : setEnd (setEnd name) = setEnd name := by
  cases name with
  | none => rfl
  | some s => by_cases h : s = "" <;> simp [setEnd, Option.filter_some, h]

theorem endName_setEnd (name : Option String) : endName (setEnd name) = endName name := by
  rw [endName, setEnd_setEnd, endName]

theorem getD_setEnd (name : Option String) : (setEnd name).getD "" = name.getD "" := by
  cases name with
  | none => rfl
  | some s => by_cases h : s = "" <;> simp [setEnd, Option.filter_some, h]

namespace Property

/-- A declaration is written as its property is. -/
theorem fieldText_declared (p : Property) : p.declared.fieldText = p.fieldText := by
  have hmodifier : p.declared.modifier = p.modifier := by
    cases hunique : p.isUnique <;> simp [modifier, declared, hunique]
  have hdefault : p.declared.defaultClause = p.defaultClause := rfl
  rw [fieldText, hmodifier, hdefault]
  rfl

end Property

namespace Entity

/-- What a definition in a schema tells of an entity. -/
def definition (e : Entity) : Entity where
  id := ""
  name := e.name
  kind := e.kind
  properties := e.namedProperties.map fun p => some p.declared
  source := if e.isEdge then setEnd e.source else none
  target := if e.isEdge then setEnd e.target else none

/-- The parts of a definition. -/
theorem definition_eq_iff {e x : Entity} : x.definition = e.definition ↔
    x.name = e.name ∧ x.kind = e.kind ∧
      x.namedProperties.map Property.declared = e.namedProperties.map Property.declared ∧
      (if x.isEdge then setEnd x.source else none) = (if e.isEdge then setEnd e.source else none) ∧
      (if x.isEdge then setEnd x.target else none) =
        (if e.isEdge then setEnd e.target else none) := by
  have hproperties (e : Entity) : (e.namedProperties.map fun p => some p.declared) =
      (e.namedProperties.map Property.declared).map some := by
    rw [List.map_map]
    rfl
  have hinjective (ps qs : List Property) : ps.map some = qs.map some ↔ ps = qs :=
    List.map_inj_right fun _ _ => Option.some.inj
  simp only [definition, Entity.mk.injEq, hproperties, hinjective, true_and, and_true]

/-- What the block of an entity tells: its definition, and whether its relation is unique. -/
def core (e : Entity) : Entity :=
  { e.definition with isUniqueRelation := e.isEdge && e.isUniqueRelation }

section Core

variable (e : Entity)

@[simp] theorem name_core : e.core.name = e.name := rfl

@[simp] theorem kind_core : e.core.kind = e.kind := rfl

@[simp] theorem isNode_core : e.core.isNode = e.isNode := rfl

@[simp] theorem isEdge_core : e.core.isEdge = e.isEdge := rfl

@[simp] theorem isVector_core : e.core.isVector = e.isVector := rfl

@[simp] theorem namedProperties_core :
    e.core.namedProperties = e.namedProperties.map Property.declared :=
  e.namedProperties_declared 0

end Core

theorem source_core {e : Entity} (h : e.isEdge = true) : e.core.source = setEnd e.source :=
  if_pos h

theorem target_core {e : Entity} (h : e.isEdge = true) : e.core.target = setEnd e.target :=
  if_pos h

theorem isUniqueRelation_core {e : Entity} (h : e.isEdge = true) :
    e.core.isUniqueRelation = e.isUniqueRelation := by
  rw [core, h, Bool.true_and]

@[simp] theorem isConnected_core (e : Entity) : e.core.isConnected = e.isConnected := by
  rw [isConnected, isConnected, isEdge_core]
  cases hedge : e.isEdge with
  | false => rfl
  | true => rw [source_core hedge, target_core hedge, setEnd_setEnd, setEnd_setEnd]

/-- A declaration has the core of its entity, unless an end of the entity is the word for ends that
are not set. -/
theorem core_declared {e : Entity} (hsource : e.isEdge = true → setEnd e.source ≠ some undefinedEnd)
    (htarget : e.isEdge = true → setEnd e.target ≠ some undefinedEnd) (position : Nat) :
    (e.declared position).core = e.core := by
  have hproperties : (e.declared position).namedProperties.map (fun p => some p.declared) =
      e.namedProperties.map fun p => some p.declared := by
    rw [namedProperties_declared, List.map_map]
    apply List.map_congr_left
    intro p hp
    exact congrArg some p.declared_declared
  rw [core, core, definition, definition, isEdge_declared, hproperties]
  cases hedge : e.isEdge with
  | false => simp [declared]
  | true =>
    have hends : setEnd (declaredEnd e.source) = setEnd e.source ∧
        setEnd (declaredEnd e.target) = setEnd e.target := by
      rw [setEnd_declaredEnd, setEnd_declaredEnd]
      exact ⟨declaredEnd_eq_setEnd (hsource hedge), declaredEnd_eq_setEnd (htarget hedge)⟩
    simp [declared, hedge, hends]

theorem fieldLines_core (e : Entity) (indent : String) :
    e.core.fieldLines indent = e.fieldLines indent := by
  rw [fieldLines, fieldLines, namedProperties_core]
  cases e.namedProperties with
  | nil => rfl
  | cons p ps =>
    simp only [List.map_cons, List.map_map, Function.comp_def, Property.fieldText_declared]

/-- The block of an entity is that of its core. -/
theorem block_core (e : Entity) : e.core.block = e.block := by
  have hplain (letter : String) : e.core.plainBlock letter = e.plainBlock letter := by
    rw [plainBlock, plainBlock, fieldLines_core, name_core]
  have hedge (h : e.isEdge = true) : e.core.edgeBlock = e.edgeBlock := by
    unfold edgeBlock
    rw [fieldLines_core, name_core, source_core h, target_core h, isUniqueRelation_core h,
      endName_setEnd, endName_setEnd]
  rw [block, block, kind_core]
  cases hkind : e.kind with
  | node => exact hplain "N"
  | vector => exact hplain "V"
  | edge =>
    apply hedge
    rw [isEdge, hkind]
    rfl

end Entity

namespace Schema

theorem entities_map_some (es : List Entity) : Model.entities (es.map some) = es := by
  rw [Model.entities, List.filterMap_map]
  exact List.filterMap_some

/-- Models with an entity whose cores are the same have one schema. -/
theorem print_congr {model other : Model}
    (h : model.entities.map Entity.core = other.entities.map Entity.core)
    (hne : other.entities ≠ []) : print model = print other := by
  have hblocks (es : List Entity) :
      es.map Entity.block = (es.map Entity.core).map Entity.block := by
    rw [List.map_map]
    exact List.map_congr_left fun e _ => e.block_core.symm
  have hprint {model : Model} (h : model.entities ≠ []) :
      print model = String.intercalate "\n\n" (model.entities.map Entity.block) := by
    cases model with
    | nil => exact absurd rfl h
    | cons e es => rfl
  have hne' : model.entities ≠ [] := by
    intro hnil
    rw [hnil, List.map_nil, eq_comm, List.map_eq_nil_iff] at h
    exact hne h
  rw [hprint hne, hprint hne', hblocks, h, ← hblocks]

end Schema

end Hql
