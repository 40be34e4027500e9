import Hql.Library.Sections
import Mathlib.Data.List.Forall2

/-!
Libraries of models that differ in one entity. A group of queries reads its own entity, and of the
rest of the model only the first edges at it, which the view of a node counts. Main statement: an
entity that comes into a model brings its own group and leaves the other groups as they are, up to
the views of the nodes at which it is one of the first edges; gaps make no difference at all.
-/

namespace Hql

/-- The model with one more entity at a position. -/
def Model.insertAt (model : Model) (k : Nat) (x : Entity) : Model :=
  model.take k ++ some x :: model.drop k

theorem Model.entities_append (before after : Model) :
    Model.entities (before ++ after) = before.entities ++ Model.entities after :=
  List.filterMap_append

theorem Model.entities_insertAt (model : Model) (k : Nat) (x : Entity) :
    (model.insertAt k x).entities =
      Model.entities (model.take k) ++ x :: Model.entities (model.drop k) :=
  Model.entities_append _ _

/-- A position divides the entities of a model. -/
theorem Model.entities_take_append_drop (model : Model) (k : Nat) :
    Model.entities (model.take k) ++ Model.entities (model.drop k) = model.entities := by
  rw [← Model.entities_append, List.take_append_drop]

theorem Model.entities_filter_isSome (model : Model) :
    Model.entities (model.filter Option.isSome) = model.entities := by
  induction model with
  | nil => rfl
  | cons entry model ih =>
    cases entry with
    | none => exact ih
    | some e => exact congrArg (e :: ·) ih

namespace Library

/-! ### Views of nodes -/

/-- An edge stands at a node when it starts or ends there. -/
def StandsAt (x node : Entity) : Prop :=
  x.isEdge = true ∧ (x.source = some node.name ∨ x.target = some node.name)

theorem standsAt_iff (x node : Entity) : StandsAt x node ↔
    (x.isEdge && (x.source == some node.name || x.target == some node.name)) = true := by
  simp [StandsAt]

theorem relatedEdges_insertAt_of_standsAt {node x : Entity} (h : StandsAt x node) (model : Model)
    (k : Nat) : relatedEdges node (model.insertAt k x) =
      relatedEdges node (model.take k) ++ x :: relatedEdges node (model.drop k) := by
  rw [relatedEdges, Model.entities_insertAt, List.filter_append, List.filter_cons,
    if_pos ((standsAt_iff x node).1 h)]
  rfl

theorem relatedEdges_insertAt_of_not_standsAt {node x : Entity} (h : ¬ StandsAt x node)
    (model : Model) (k : Nat) :
    relatedEdges node (model.insertAt k x) = relatedEdges node model := by
  rw [relatedEdges, relatedEdges, Model.entities_insertAt, List.filter_append, List.filter_cons,
    if_neg (mt (standsAt_iff x node).2 h), ← List.filter_append, Model.entities_take_append_drop]

/-- The view of a node counts the first three edges at it and reads nothing else of the model. -/
theorem deepDetail_congr (node : Entity) {model other : Model}
    (h : (relatedEdges node model).take 3 = (relatedEdges node other).take 3) :
    deepDetail node model = deepDetail node other := by
  rw [deepDetail, deepDetail, maxEdgeCounts, h]

/-- The view of a node does not see an entity that is no edge at the node, nor one that comes after
three edges at it. -/
theorem deepDetail_insertAt {node x : Entity} {model : Model} {k : Nat}
    (h : StandsAt x node → 3 ≤ (relatedEdges node (model.take k)).length) :
    deepDetail node (model.insertAt k x) = deepDetail node model := by
  apply deepDetail_congr
  by_cases hstands : StandsAt x node
  · have hbefore := h hstands
    have hmodel : relatedEdges node model =
        relatedEdges node (model.take k) ++ relatedEdges node (model.drop k) := by
      rw [relatedEdges, ← Model.entities_take_append_drop model k, List.filter_append]
      rfl
    rw [relatedEdges_insertAt_of_standsAt hstands, hmodel, List.take_append_of_le_length hbefore,
      List.take_append_of_le_length hbefore]
  · rw [relatedEdges_insertAt_of_not_standsAt hstands]

/-! ### Groups -/

/-- What may become of a query of `e` when `x` comes into the model at position `k`: nothing, or the
view of a node counts other edges. -/
inductive Survives (config : Config) (model : Model) (k : Nat) (x e : Entity) : Query → Query → Prop
  | same (q : Query) : Survives config model k x e q q
  | recounted (hrich : config.intelligence.richDetail = true) (hnode : e.isNode = true)
      (hstands : StandsAt x e) (hroom : (relatedEdges e (model.take k)).length < 3) :
      Survives config model k x e (deepDetail e model) (deepDetail e (model.insertAt k x))

/-- What may become of the group of another entity: it keeps its queries, section by section, and
they survive. -/
structure KeptGroup (config : Config) (model : Model) (k : Nat) (x : Entity) (g g' : Group) :
    Prop where
  entity : g'.entity = g.entity
  queries (s : Section) :
    List.Forall₂ (Survives config model k x g.entity) (g.queries s) (g'.queries s)

section Groups

variable (config : Config) (model : Model) (k : Nat) (x e : Entity)

theorem survives_refl (qs : List Query) : List.Forall₂ (Survives config model k x e) qs qs :=
  List.forall₂_same.2 fun q _ => .same q

/-- The view of a node either stays or counts an edge that was not there. -/
theorem survives_deepDetail (hrich : config.intelligence.richDetail = true)
    (hnode : e.isNode = true) :
    Survives config model k x e (deepDetail e model) (deepDetail e (model.insertAt k x)) := by
  by_cases hseen : StandsAt x e ∧ (relatedEdges e (model.take k)).length < 3
  · exact .recounted hrich hnode hseen.1 hseen.2
  · have hunseen : deepDetail e (model.insertAt k x) = deepDetail e model :=
      deepDetail_insertAt fun hstands => Nat.le_of_not_lt fun hroom => hseen ⟨hstands, hroom⟩
    rw [hunseen]
    exact .same _

theorem survives_sectionQueries (s : Section) : List.Forall₂ (Survives config model k x e)
    (sectionQueries config model e s) (sectionQueries config (model.insertAt k x) e s) := by
  cases s with
  | intelligence =>
    rw [sectionQueries, sectionQueries, intelligenceQueries, intelligenceQueries]
    cases hon : e.isNode && config.intelligence.richDetail with
    | false => exact .nil
    | true =>
      obtain ⟨hnode, hrich⟩ := Bool.and_eq_true_iff.1 hon
      exact .cons (survives_deepDetail config model k x e hrich hnode) .nil
  -- no other section is given the model
  | crud | discovery | pathfinding | analytics => exact survives_refl config model k x e _

end Groups

/-- The group of an entity in a model. -/
def groupOf (config : Config) (model : Model) (e : Entity) : Group :=
  ⟨e, sectionQueries config model e⟩

/-- The groups read the entities of a model and not its gaps. -/
theorem build_congr (config : Config) {model other : Model} (h : model.entities = other.entities) :
    build config model = build config other := by
  have hrelated (node : Entity) : relatedEdges node model = relatedEdges node other := by
    rw [relatedEdges, relatedEdges, h]
  have hsections (e : Entity) : sectionQueries config model e = sectionQueries config other e := by
    funext s
    cases s with
    | intelligence =>
      rw [sectionQueries, sectionQueries, intelligenceQueries, intelligenceQueries,
        deepDetail_congr e (congrArg _ (hrelated e))]
    | crud | discovery | pathfinding | analytics => rfl
  rw [build, build, h]
  exact List.map_congr_left fun e _ => congrArg (Group.mk e) (hsections e)

/-- A model with one entity more has the groups of the model, in order, and among them, at the place
of the entity, its own group. Every other group survives. Gaps anywhere in a model change nothing. -/
theorem build_insertAt (config : Config) (model : Model) (k : Nat) (x : Entity) :
    (∃ before after, before.length = (Model.entities (model.take k)).length ∧
      build config (model.insertAt k x) =
        before ++ groupOf config (model.insertAt k x) x :: after ∧
      List.Forall₂ (KeptGroup config model k x) (build config model) (before ++ after)) ∧
    build config (model.filter Option.isSome) = build config model := by
  refine ⟨?_, build_congr config model.entities_filter_isSome⟩
  let regroup := groupOf config (model.insertAt k x)
  refine ⟨(Model.entities (model.take k)).map regroup, (Model.entities (model.drop k)).map regroup,
    List.length_map _, ?_, ?_⟩
  · rw [build, Model.entities_insertAt, List.map_append, List.map_cons]
    rfl
  · rw [← List.map_append, Model.entities_take_append_drop, build, List.forall₂_map_left_iff,
      List.forall₂_map_right_iff, List.forall₂_same]
    exact fun e _ => ⟨rfl, survives_sectionQueries config model k x e⟩

end Library

end Hql
