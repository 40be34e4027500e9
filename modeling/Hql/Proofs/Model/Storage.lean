import Hql.Model.Load
import Hql.Proofs.Library.Locality
import Hql.Proofs.Library.Sections
import Hql.Proofs.Validation.Reports
import Mathlib.Data.List.Forall2
import Mathlib.Data.Nat.Digits.Defs

/-!
Entities stored and read again. Reading is lenient, but what is read is stored in a form that is read
exactly: of an entity only descriptions that are not given are lost. Main statement: an entity that
was read from an object is read again from its own object up to these descriptions, has the same
object from then on, and no part of the program can tell the two apart, whatever model they stand in.
-/

namespace Hql

/-! ### Values -/

namespace Value

/-- A value as it is stored in a place for values that are given. -/
def kept (v : Value) : Value := if v.isGiven then v else .null

theorem kept_of_isGiven {v : Value} (h : v.isGiven = true) : v.kept = v := if_pos h

@[simp] theorem isGiven_kept (v : Value) : v.kept.isGiven = v.isGiven := by
  cases h : v.isGiven with
  | true => rw [kept_of_isGiven h, h]
  | false =>
    rw [kept, h, if_neg Bool.false_ne_true]
    rfl

theorem getD_eq_kept (v : Value) : (if v.isGiven = true then some v else none).getD .null = v.kept := by
  rw [kept]
  split <;> rfl

theorem givenText_string (s : String) : givenText (.string s) = s := by
  by_cases h : s = "" <;> simp [givenText, isGiven, text, h]

theorem lookup_cons (sought name : String) (v : Value) (fields : List (String × Value)) :
    ((name, v) :: fields).lookup sought = if sought = name then some v else fields.lookup sought := by
  rw [List.lookup_cons]
  by_cases h : sought = name
  · rw [h, beq_self_eq_true, if_pos rfl]
  · rw [beq_eq_false_iff_ne.2 h, if_neg h]

/-- A field that is there under a condition. -/
theorem lookup_ite (condition : Bool) (sought name : String) (v : Value) :
    (if condition then [(name, v)] else []).lookup sought =
      if sought = name ∧ condition = true then some v else none := by
  cases condition <;> simp [lookup_cons]

/-- A field that is there unless a condition holds. -/
theorem lookup_ite_not (condition : Bool) (sought name : String) (v : Value) :
    (if condition then [] else [(name, v)]).lookup sought =
      if sought = name ∧ condition = false then some v else none := by
  cases condition <;> simp [lookup_cons]

/-- A field that is there if it has a text. -/
theorem lookup_option (o : Option String) (sought name : String) :
    (o.toList.map fun s => (name, string s)).lookup sought =
      if sought = name then o.map string else none := by
  cases o <;> simp [lookup_cons]

/-- A flag is read as it is stored: off where it has no field. -/
theorem isGiven_flag (on : Bool) :
    ((if on = true then some (bool true) else none).getD null).isGiven = on := by
  cases on <;> rfl

end Value

theorem Binary64.text_ne_empty (x : Binary64) : x.text ≠ "" := by
  have hpositive (m : Nat) (e : Int) : positiveText m e ≠ "" := by
    rw [positiveText, Ne, String.ofList_eq_empty_iff]
    -- zeros, a point or an exponent stand in it, whatever the digits
    split
    · simp
    · split <;> simp
  cases x with
  | infinite negative => cases negative <;> decide
  | finite negative m e =>
    rw [text]
    cases negative with
    | true => simp
    | false =>
      by_cases hzero : m = 0 <;> simp [hzero, hpositive]

namespace Value

theorem text_ne_empty {v : Value} (h : v.isGiven = true) : v.text ≠ "" := by
  cases v with
  | null => cases h
  | bool b => cases b <;> decide
  | int i =>
    cases i with
    | ofNat n => exact Nat.repr_ne_empty
    | negSucc n =>
      have hminus : (int (Int.negSucc n)).text = "-" ++ Nat.repr (n + 1) := rfl
      simp [hminus]
  | real x => exact x.text_ne_empty
  | string s => exact bne_iff_ne.1 h
  | list vs => simp [text, shown]
  | object fields => simp [text, shown]

end Value

/-- An end of an edge that is read is set if it is there. -/
theorem setEnd_endOfValue (v : Value) : setEnd (endOfValue v) = endOfValue v := by
  rw [endOfValue]
  split
  · rename_i h
    simp [setEnd, Option.filter_some, Value.text_ne_empty h]
  · rfl

namespace PropertyType

theorem ofValue_name (t : PropertyType) : ofValue (.string t.name) = .ok t := by
  rw [ofValue, ofName?_name]

theorem isGiven_name (t : PropertyType) : (Value.string t.name).isGiven = true := by
  cases t <;> rfl

end PropertyType

namespace Property

/-- A property as it is stored: without a description that is not given. -/
def stored (p : Property) : Property := { p with description := p.description.kept }

theorem defaultOfValue_stored (o : Option String) :
    defaultOfValue ((o.map Value.string).getD .null) = o := by
  cases o <;> rfl

/-- Any property is read from its own object as it is stored. -/
theorem ofValue_toValue (p : Property) : ofValue p.toValue = .ok p.stored := by
  simp only [ofValue, toValue, Value.field, List.lookup_append, Value.lookup_cons, Value.lookup_ite,
    Value.lookup_option, List.cons_append, List.nil_append]
  simp [Value.givenText_string, PropertyType.isGiven_name, PropertyType.ofValue_name, bind, Except.bind,
    Value.isGiven_flag, defaultOfValue_stored, Value.getD_eq_kept]
  rfl

theorem toValue_stored (p : Property) : p.stored.toValue = p.toValue := by
  rw [toValue, toValue, stored, Value.isGiven_kept]
  cases h : p.description.isGiven with
  | false => rfl
  | true => rw [Value.kept_of_isGiven h]

end Property

namespace Entity

/-- An entity as it is stored: without descriptions that are not given. -/
def stored (e : Entity) : Entity :=
  { e with
    properties := e.properties.map (Option.map Property.stored)
    description := e.description.kept }

/-- What reading makes sure of: there are no gaps, and an end is set if it is there. -/
structure IsLoaded (e : Entity) : Prop where
  properties : ∃ ps : List Property, e.properties = ps.map some
  source : setEnd e.source = e.source
  target : setEnd e.target = e.target

theorem filter_isSome (ps : List (Option Property)) :
    ps.filter Option.isSome = (ps.filterMap fun p => p).map some := by
  induction ps with
  | nil => rfl
  | cons p ps ih =>
    cases p with
    | none => exact ih
    | some p => exact congrArg (some p :: ·) ih

theorem isLoaded_of_ofValue {data : Value} {e : Entity} (h : ofValue data = .ok e) : e.IsLoaded := by
  rw [ofValue, ofValueWithGaps] at h
  cases hkind : EntityKind.ofValue (data.field "kind") with
  | error err =>
    rw [hkind] at h
    cases h
  | ok kind =>
    cases hproperties : readProperties (data.field "properties").items with
    | error err =>
      rw [hkind, hproperties] at h
      cases h
    | ok ps =>
      rw [hkind, hproperties] at h
      obtain rfl := Except.ok.inj h
      refine ⟨?_, setEnd_endOfValue _, setEnd_endOfValue _⟩
      exact ⟨ps.filterMap fun p => p, filter_isSome ps⟩

theorem endOfValue_stored {o : Option String} (h : setEnd o = o) :
    endOfValue ((o.map Value.string).getD .null) = o := by
  cases o with
  | none => rfl
  | some s =>
    have hne : s ≠ "" := by
      rintro rfl
      cases h
    have hgiven : (Value.string s).isGiven = true := bne_iff_ne.2 hne
    exact if_pos hgiven

theorem readProperties_toValue (ps : List Property) :
    readProperties (ps.map Property.toValue) = .ok (ps.map fun p => some p.stored) := by
  induction ps with
  | nil => rfl
  | cons p ps ih =>
    have hstep : readProperties (p.toValue :: ps.map Property.toValue) =
        (Property.ofValue p.toValue).bind fun q =>
          (readProperties (ps.map Property.toValue)).bind fun qs => .ok (some q :: qs) := rfl
    rw [List.map_cons, hstep, Property.ofValue_toValue, ih]
    rfl

/-- An entity that was read is read from its own object as it is stored. -/
theorem ofValue_toValue {e : Entity} (h : e.IsLoaded) : ofValue e.toValue = .ok e.stored := by
  obtain ⟨ps, hps⟩ := h.properties
  have hitems : (e.properties.filterMap fun p => p) = ps := by
    rw [hps, List.filterMap_map]
    exact List.filterMap_some
  have hstored : e.stored.properties = ps.map fun p => some p.stored := by
    rw [stored, hps, List.map_map]
    rfl
  have hkind : EntityKind.ofValue (.string e.kind.name) = .ok e.kind := by
    cases e.kind <;> rfl
  have hdimension : (if e.vectorDim.isNull = false then some e.vectorDim else none).getD .null =
      e.vectorDim := by
    cases e.vectorDim <;> rfl
  have hgapless : e.stored.withoutGaps = e.stored := by
    rw [withoutGaps, hstored, List.filter_eq_self.2 (by simp), ← hstored]
  -- each field that is read is the one that was written, or the default where none was written
  have hread : ofValueWithGaps e.toValue = .ok e.stored := by
    simp only [ofValueWithGaps, toValue, Value.field, List.lookup_append, Value.lookup_cons,
      Value.lookup_ite, Value.lookup_ite_not, Value.lookup_option, List.cons_append, List.nil_append,
      hitems]
    simp [Value.givenText_string, bind, Except.bind, Value.isGiven_flag, hkind, readProperties_toValue,
      Value.items, Value.getD_eq_kept, hdimension, endOfValue_stored, h.source, h.target]
    rw [← hstored]
    rfl
  rw [ofValue, hread]
  exact congrArg Except.ok hgapless

/-- Storing changes the properties one by one. -/
theorem filterMap_stored (e : Entity) : (e.stored.properties.filterMap fun p => p) =
    (e.properties.filterMap fun p => p).map Property.stored := by
  rw [stored, List.filterMap_map, List.map_filterMap]
  rfl

theorem toValue_stored (e : Entity) : e.stored.toValue = e.toValue := by
  have hproperties : (e.stored.properties.filterMap fun p => p).map Property.toValue =
      (e.properties.filterMap fun p => p).map Property.toValue := by
    rw [filterMap_stored, List.map_map]
    exact List.map_congr_left fun p _ => p.toValue_stored
  have hgiven : e.stored.description.isGiven = e.description.isGiven := Value.isGiven_kept _
  rw [toValue, toValue, hproperties, hgiven]
  cases h : e.description.isGiven with
  | false => rfl
  | true =>
    have hkept : e.stored.description = e.description := Value.kept_of_isGiven h
    rw [hkept]
    rfl

/-! ### What looks at an entity -/

theorem namedProperties_stored (e : Entity) :
    e.stored.namedProperties = e.namedProperties.map Property.stored := by
  rw [namedProperties, namedProperties, filterMap_stored, List.filter_map]
  rfl

/-- No description is part of a core. -/
theorem core_stored (e : Entity) : e.stored.core = e.core := by
  have hproperties : e.stored.namedProperties.map Property.declared =
      e.namedProperties.map Property.declared := by
    rw [namedProperties_stored, List.map_map]
    rfl
  have hdefinition : e.stored.definition = e.definition :=
    definition_eq_iff.2 ⟨rfl, rfl, hproperties, rfl, rfl⟩
  rw [core, core, hdefinition]
  rfl

theorem sameChecks_stored (e : Entity) : Validation.SameChecks e e.stored where
  name := rfl
  kind := rfl
  source _ := rfl
  target _ := rfl
  properties := by
    rw [stored, List.map_map]
    refine List.map_congr_left fun p _ => ?_
    cases p <;> rfl

end Entity

namespace Validation

/-- Entities of one id that the checks cannot tell apart have the same diagnostics. -/
theorem checkEntity_eq_of_sameChecks {e x : Entity} (h : SameChecks e x) (hid : x.id = e.id)
    (names used : List String) : checkEntity names used x = checkEntity names used e := by
  rw [checkEntity_eq_map names used h]
  conv_rhs => rw [← List.map_id (checkEntity names used e)]
  refine List.map_congr_left fun d hd => ?_
  -- a diagnostic about the entity carries that id already
  rw [hid, ← entityId_of_mem_checkEntity hd]
  rfl

theorem checkEntities_congr_of_sameChecks {es xs : List Entity}
    (h : List.Forall₂ (fun e x => SameChecks e x ∧ x.id = e.id) es xs) (names used : List String) :
    checkEntities names used xs = checkEntities names used es := by
  induction h generalizing used with
  | nil => rfl
  | cons hentity _ ih =>
    rw [checkEntities, checkEntities, checkEntity_eq_of_sameChecks hentity.1 hentity.2, ih,
      hentity.1.name]

end Validation

namespace Library

/-- Entries that are related one by one give the same list, if related entries give the same. -/
theorem map_eq_map_of_forall₂ {α β : Type} {R : α → α → Prop} {f g : α → β}
    {as bs : List α} (h : List.Forall₂ R as bs) (hfg : ∀ {a b}, R a b → g b = f a) :
    bs.map g = as.map f := by
  induction h with
  | nil => rfl
  | cons hfirst _ ih => rw [List.map_cons, List.map_cons, ih, hfg hfirst]

/-- Entities that no template tells apart: their cores are the same, and so are their ends, with which
nodes are compared. -/
structure SameQueries (e x : Entity) : Prop where
  core : x.core = e.core
  source : x.source = e.source
  target : x.target = e.target

namespace SameQueries

variable {e x : Entity}

theorem refl (e : Entity) : SameQueries e e := ⟨rfl, rfl, rfl⟩

theorem name (h : SameQueries e x) : x.name = e.name := by
  rw [← Entity.name_core, h.core, Entity.name_core]

theorem isEdge (h : SameQueries e x) : x.isEdge = e.isEdge := by
  rw [← Entity.isEdge_core, h.core, Entity.isEdge_core]

theorem isNode (h : SameQueries e x) : x.isNode = e.isNode := by
  rw [← Entity.isNode_core, h.core, Entity.isNode_core]

theorem namedProperties (h : SameQueries e x) :
    x.namedProperties.map Property.declared = e.namedProperties.map Property.declared := by
  rw [← Entity.namedProperties_core, ← Entity.namedProperties_core, h.core]

end SameQueries

section SameQueries

variable {model other : Model} (h : List.Forall₂ SameQueries model.entities other.entities)

include h

theorem relatedEdges_of_sameQueries {e x : Entity} (hnode : SameQueries e x) :
    List.Forall₂ SameQueries (relatedEdges e model) (relatedEdges x other) := by
  rw [relatedEdges, relatedEdges]
  refine List.rel_filter (fun f y hedge => ?_) h
  simp only [hedge.isEdge, hedge.source, hedge.target, hnode.name]

/-- The view of a node reads names, ends and the names of properties. -/
theorem deepDetail_of_sameQueries {e x : Entity} (hnode : SameQueries e x) :
    deepDetail x other = deepDetail e model := by
  have hfields : x.namedProperties.map (fun p => (p.name, Fragment.ident p.name)) =
      e.namedProperties.map fun p => (p.name, Fragment.ident p.name) := by
    have hnames := congrArg (List.map fun p : Property => (p.name, Fragment.ident p.name))
      hnode.namedProperties
    rw [List.map_map, List.map_map] at hnames
    exact hnames
  have hcount {f y : Entity} (hedge : SameQueries f y) : edgeCount x y = edgeCount e f := by
    rw [edgeCount, edgeCount, hedge.name, hedge.source, hnode.name]
  have hseen := map_eq_map_of_forall₂
    (List.forall₂_take maxEdgeCounts (relatedEdges_of_sameQueries h hnode)) hcount
  rw [deepDetail, deepDetail, hfields, hseen, byIdParam, byIdParam, hnode.name]

theorem sectionQueries_of_sameQueries (config : Config) {e x : Entity} (hentity : SameQueries e x)
    (s : Section) :
    sectionQueries config other x s = sectionQueries config model e s := by
  cases s with
  | crud =>
    show crudQueries config.crud x = crudQueries config.crud e
    rw [← crudQueries_core, hentity.core, crudQueries_core]
  | discovery =>
    show discoveryQueries config.discovery x = discoveryQueries config.discovery e
    rw [← discoveryQueries_core, hentity.core, discoveryQueries_core]
  | pathfinding =>
    show pathfindingQueries config.pathfinding x = pathfindingQueries config.pathfinding e
    rw [← pathfindingQueries_core, hentity.core, pathfindingQueries_core]
  | analytics =>
    show analyticsQueries config.analytics x = analyticsQueries config.analytics e
    rw [← analyticsQueries_core, hentity.core, analyticsQueries_core]
  | intelligence =>
    show intelligenceQueries config.intelligence other x =
      intelligenceQueries config.intelligence model e
    rw [intelligenceQueries, intelligenceQueries, deepDetail_of_sameQueries h hentity, hentity.isNode]

/-- Models of entities that no template tells apart have one library. -/
theorem print_of_sameQueries (config : Config) : print config other = print config model := by
  apply print_congr_of_queries
  rw [build, build, List.map_map, List.map_map]
  exact map_eq_map_of_forall₂ h fun hentity => funext (sectionQueries_of_sameQueries h config hentity)

end SameQueries

end Library

namespace Entity

open Validation

/-- What stands at a place of a model, there and in the model with another entity at the place. -/
theorem forall₂_replaced {R : Entity → Entity → Prop} (hrefl : ∀ e, R e e) {e x : Entity}
    (h : R e x) (before after : Model) :
    List.Forall₂ R (Model.entities (before ++ some e :: after))
      (Model.entities (before ++ some x :: after)) := by
  have hentities (y : Entity) : Model.entities (before ++ some y :: after) =
      Model.entities before ++ y :: Model.entities after := Model.entities_append before _
  rw [hentities, hentities]
  refine List.rel_append (List.forall₂_same.2 fun e _ => hrefl e) (.cons h ?_)
  exact List.forall₂_same.2 fun e _ => hrefl e

/-- An edge as an older program may have stored it: with a field that is no longer known, a number for
an id, a type under its older name, flags of all kinds, and descriptions that are not given. -/
def legacyEdge : Value := .object [
  ("id", .int 7), ("kind", .string "Edge"), ("name", .string "Follows"), ("colour", .string "red"),
  ("from", .string "User"), ("to", .string ""), ("description", .string ""), ("vectorDim", .int 0),
  ("isUniqueRelation", .string "false"),
  ("properties", .list [.null,
    .object [("name", .string "since"), ("type", .string "Timestamp"), ("defaultValue", .bool false),
      ("isIndex", .list [.null]), ("isArray", .int 0), ("description", .list [])],
    .object [("name", .null), ("type", .null), ("defaultValue", .list [.int 1, .string "x"]),
      ("description", .string "kept")]])]

/-- The edge that is read from it. -/
def follows : Entity where
  id := "7"
  name := "Follows"
  kind := .edge
  properties := [
    some { name := "since", type := .date, isIndex := true, defaultValue := some "false"
           description := .list [] },
    some { name := "", defaultValue := some "[1, 'x']", description := .string "kept" }]
  description := .string ""
  vectorDim := .int 0
  source := some "User"
  isUniqueRelation := true

end Entity

end Hql
