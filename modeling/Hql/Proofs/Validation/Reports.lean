import Hql.Validation
import Mathlib.Tactic.Common

/-!
Diagnostics entity by entity. What is reported of an entity depends on its kind, on its names and on
the names of the model; the id of the entity only says where the reports belong.
-/

namespace Hql

/-- The diagnostic about an entity with another id. -/
def Diagnostic.withId (id : String) (d : Diagnostic) : Diagnostic := { d with entityId := id }

namespace Validation

/-- The diagnostics of each entity, given the names of the model and the keys of the names before
the first one. -/
def reports (names used : List String) : List Entity → List (List Diagnostic)
  | [] => []
  | e :: es => checkEntity names used e :: reports names (nameKey e.name :: used) es

/-- The diagnostics of each entity of a model. -/
def reportsOf (model : Model) : List (List Diagnostic) :=
  reports (model.entities.map Entity.name) [] model.entities

theorem flatten_reports (names used : List String) (es : List Entity) :
    (reports names used es).flatten = checkEntities names used es := by
  induction es generalizing used with
  | nil => rfl
  | cons e es ih => rw [reports, List.flatten_cons, ih, checkEntities]

/-- The diagnostics of a model are those of its entities, in order. -/
theorem flatten_reportsOf (model : Model) : (reportsOf model).flatten = validate model :=
  flatten_reports _ _ _

/-- Two entities that the checks can tell apart by their ids only. -/
structure SameChecks (e x : Entity) : Prop where
  name : x.name = e.name
  kind : x.kind = e.kind
  source : e.isEdge = true → setEnd x.source = setEnd e.source
  target : e.isEdge = true → setEnd x.target = setEnd e.target
  properties : x.properties.map (Option.map Property.name) =
    e.properties.map (Option.map Property.name)

section SameChecks

variable {e x : Entity}

theorem map_withId_report (condition : Bool) (d : Diagnostic) (id : String) :
    (report condition d).map (Diagnostic.withId id) = report condition (d.withId id) := by
  cases condition with
  | false => rfl
  | true => rfl

theorem checkName_eq_map (used : List String) (h : x.name = e.name) :
    checkName used x = (checkName used e).map (Diagnostic.withId x.id) := by
  rw [checkName, checkName, h]
  split
  · rfl
  · simp only [List.map_append, map_withId_report, Diagnostic.withId]

theorem checkEnd_eq_map (names : List String) {side other : Option String}
    (finding : String → Finding) (h : setEnd other = setEnd side) :
    checkEnd names x other finding =
      (checkEnd names e side finding).map (Diagnostic.withId x.id) := by
  rw [checkEnd, checkEnd, h]
  cases setEnd side with
  | none => rfl
  | some name => simp only [map_withId_report, Diagnostic.withId]

theorem checkEnds_eq_map (names : List String) (hsource : setEnd x.source = setEnd e.source)
    (htarget : setEnd x.target = setEnd e.target) :
    checkEnds names x = (checkEnds names e).map (Diagnostic.withId x.id) := by
  rw [checkEnds, checkEnds, List.map_append, List.map_append, map_withId_report,
    ← checkEnd_eq_map names _ hsource, ← checkEnd_eq_map names _ htarget, hsource, htarget]
  rfl

theorem checkProperty_eq_map (seen : List String) (index : Nat) {p q : Property}
    (hname : x.name = e.name) (hkind : x.kind = e.kind) (h : q.name = p.name) :
    checkProperty x seen index q =
      (checkProperty e seen index p).map (Diagnostic.withId x.id) := by
  have hfix : reservedFix? x = reservedFix? e := by
    funext key
    rw [reservedFix?, reservedFix?, hname]
  rw [checkProperty, checkProperty, h, hkind, hfix]
  split
  · rfl
  · simp only [List.map_append, map_withId_report, Diagnostic.withId]

/-- The checks of properties see their names and positions. -/
theorem checkProperties_eq_map (seen : List String) (index : Nat) {ps qs : List (Option Property)}
    (hname : x.name = e.name) (hkind : x.kind = e.kind)
    (h : qs.map (Option.map Property.name) = ps.map (Option.map Property.name)) :
    checkProperties x seen index qs =
      (checkProperties e seen index ps).map (Diagnostic.withId x.id) := by
  induction ps generalizing qs seen index with
  | nil =>
    rw [List.map_nil, List.map_eq_nil_iff] at h
    rw [h]
    rfl
  | cons p ps ih =>
    cases qs with
    | nil => cases h
    | cons q qs =>
      rw [List.map_cons, List.map_cons, List.cons.injEq] at h
      obtain ⟨hhead, htail⟩ := h
      -- a gap counts for the positions on both sides
      cases p with
      | none =>
        have hgap : q = none := Option.map_eq_none_iff.1 hhead
        rw [hgap]
        exact ih seen (index + 1) htail
      | some p =>
        obtain ⟨q, rfl, hpname⟩ := Option.map_eq_some_iff.1 hhead
        rw [checkProperties, checkProperties, List.map_append,
          ← checkProperty_eq_map seen index hname hkind hpname, hpname, ih _ _ htail]

/-- The checks of an entity do not depend on more than they can see of it. -/
theorem checkEntity_eq_map (names used : List String) (h : SameChecks e x) :
    checkEntity names used x = (checkEntity names used e).map (Diagnostic.withId x.id) := by
  have hedge : x.isEdge = e.isEdge := by rw [Entity.isEdge, Entity.isEdge, h.kind]
  have hends : (if x.isEdge then checkEnds names x else []) =
      (if e.isEdge then checkEnds names e else []).map (Diagnostic.withId x.id) := by
    rw [hedge]
    cases hvalue : e.isEdge with
    | false => rfl
    | true => exact checkEnds_eq_map names (h.source hvalue) (h.target hvalue)
  rw [checkEntity, checkEntity, List.map_append, List.map_append,
    ← checkName_eq_map used h.name, ← hends,
    ← checkProperties_eq_map [] 0 h.name h.kind h.properties]

/-- Whatever is reported of an entity carries its id. -/
theorem entityId_of_mem_checkEntity {names used : List String} {d : Diagnostic}
    (hd : d ∈ checkEntity names used e) : d.entityId = e.id := by
  have hself : SameChecks e e := ⟨rfl, rfl, fun _ => rfl, fun _ => rfl, rfl⟩
  rw [checkEntity_eq_map names used hself] at hd
  obtain ⟨d', _, rfl⟩ := List.mem_map.1 hd
  rfl

end SameChecks

/-- The reports of entities that the checks cannot tell apart are the same up to their ids. -/
theorem reports_eq_zipWith {es xs : List Entity} (h : List.Forall₂ SameChecks es xs)
    (names used : List String) :
    reports names used xs =
      List.zipWith (fun x ds => ds.map (Diagnostic.withId x.id)) xs (reports names used es) := by
  induction h generalizing used with
  | nil => rfl
  | cons hentity _ ih =>
    rw [reports, reports, List.zipWith_cons_cons, ← checkEntity_eq_map names used hentity, ih,
      hentity.name]

/-- A model whose entities the checks cannot tell from those of another one has the diagnostics of
the other one, with its own ids. -/
theorem reportsOf_eq_zipWith {model other : Model}
    (h : List.Forall₂ SameChecks other.entities model.entities) :
    reportsOf model = List.zipWith (fun x ds => ds.map (Diagnostic.withId x.id)) model.entities
      (reportsOf other) := by
  have hnames {es xs : List Entity} (h : List.Forall₂ SameChecks es xs) :
      xs.map Entity.name = es.map Entity.name := by
    induction h with
    | nil => rfl
    | cons hentity _ ih => rw [List.map_cons, List.map_cons, hentity.name, ih]
  rw [reportsOf, reportsOf, hnames h]
  exact reports_eq_zipWith h _ _

end Validation

end Hql
