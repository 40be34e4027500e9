import Hql.Proofs.Validation.Places
import Hql.Proofs.Validation.Reports
import Mathlib.Data.Finset.Dedup

/-!
An entity that is added to a model. It makes its name known to the edges before it, which settles what
was reported of ends of that name, and it stands after all other names. Main statement: nothing else
of the diagnostics changes, and its own diagnostics follow.
-/

namespace Hql.Validation

/-- The names of a model as they are. -/
def rawNames (model : Model) : Finset String := (model.entities.map Entity.name).toFinset

/-- The keys of the names of a model. -/
def nameKeys (model : Model) : Finset String :=
  (model.entities.map fun x => nameKey x.name).toFinset

/-- The diagnostics of an entity of a model with these names that stands after names with these
keys. -/
noncomputable def checkAmong (names keys : Finset String) (e : Entity) : List Diagnostic :=
  checkEntity names.toList keys.toList e

/-- What is found of an end that nothing in the model is named like, and no longer once something
is. -/
def settles (name : String) : Finding → Bool
  | .unknownSource s => s == name
  | .unknownTarget s => s == name
  | _ => false

/-! ### What the checks of one entity depend on -/

section Congr

variable {names names' used used' : List String} {e : Entity}

theorem contains_congr (h : ∀ s, s ∈ names ↔ s ∈ names') (s : String) :
    names.contains s = names'.contains s := by
  rw [Bool.eq_iff_iff, List.contains_iff_mem, List.contains_iff_mem]
  exact h s

/-- Names and keys only matter as sets. -/
theorem checkEntity_congr (hnames : ∀ s, s ∈ names ↔ s ∈ names')
    (hused : ∀ key, key ∈ used ↔ key ∈ used') :
    checkEntity names used e = checkEntity names' used' e := by
  have hend (side : Option String) (finding : String → Finding) :
      checkEnd names e side finding = checkEnd names' e side finding := by
    rw [checkEnd, checkEnd]
    cases setEnd side with
    | none => rfl
    | some name => simp only [contains_congr hnames]
  have hname : checkName used e = checkName used' e := by
    simp only [checkName, contains_congr hused]
  have hends : checkEnds names e = checkEnds names' e := by
    rw [checkEnds, checkEnds, hend, hend]
  rw [checkEntity, checkEntity, hname, hends]

theorem checkEntity_eq_checkAmong (names : List String) (model : Model) (e : Entity) :
    checkEntity names (model.entities.map fun x => nameKey x.name).reverse e =
      checkAmong names.toFinset (nameKeys model) e := by
  apply checkEntity_congr
  · intro s
    rw [Finset.mem_toList, List.mem_toFinset]
  · intro key
    rw [Finset.mem_toList, nameKeys, List.mem_toFinset, List.mem_reverse]

end Congr

/-! ### A name that becomes known -/

section Known

variable {names names' : List String} {known : String}

theorem not_settles_of_mem_checkName {used : List String} {e : Entity} {d : Diagnostic}
    (hd : d ∈ checkName used e) (name : String) : settles name d.finding = false := by
  obtain ⟨-, rfl⟩ | ⟨-, ⟨-, rfl⟩ | ⟨-, rfl⟩ | ⟨-, rfl⟩⟩ := eq_of_mem_nameChecks hd <;> rfl

theorem not_settles_of_mem_checkProperties {e : Entity} {seen : List String} {index : Nat}
    {ps : List (Option Property)} {d : Diagnostic} (hd : d ∈ checkProperties e seen index ps)
    (name : String) : settles name d.finding = false := by
  induction ps generalizing seen index with
  | nil => cases hd
  | cons p ps ih =>
    cases p with
    | none => exact ih hd
    | some p =>
      rw [checkProperties, List.mem_append] at hd
      rcases hd with hd | hd
      · rw [checkProperty] at hd
        obtain ⟨-, rfl⟩ | ⟨-, ⟨-, rfl⟩ | ⟨-, rfl⟩ | ⟨-, rfl⟩⟩ := eq_of_mem_nameChecks hd <;> rfl
      · exact ih hd

theorem filter_of_not_settles {ds : List Diagnostic} {name : String}
    (h : ∀ d ∈ ds, settles name d.finding = false) :
    ds.filter (fun d => !settles name d.finding) = ds := by
  apply List.filter_eq_self.2
  intro d hd
  rw [h d hd]
  rfl

theorem filter_report (condition : Bool) (d : Diagnostic) (name : String) :
    (report condition d).filter (fun d => !settles name d.finding) =
      report (condition && !settles name d.finding) d := by
  cases condition with
  | false => rfl
  | true => cases h : settles name d.finding <;> simp [report, h]

/-- One more name in the model settles what was found of the ends of that name. -/
theorem checkEnds_known (hknown : ∀ s, s ∈ names' ↔ s ∈ names ∨ s = known) (e : Entity) :
    checkEnds names' e = (checkEnds names e).filter fun d => !settles known d.finding := by
  have hend {finding : String → Finding} (hfinding : ∀ s, settles known (finding s) = (s == known))
      (side : Option String) : checkEnd names' e side finding =
        (checkEnd names e side finding).filter fun d => !settles known d.finding := by
    rw [checkEnd, checkEnd]
    cases setEnd side with
    | none => rfl
    | some s =>
      have hcontains : (!names'.contains s) = (!names.contains s && !(s == known)) := by
        rw [Bool.eq_iff_iff, Bool.and_eq_true_iff, Bool.not_eq_true', Bool.not_eq_true',
          Bool.not_eq_true', ← Bool.not_eq_true, ← Bool.not_eq_true, ← Bool.not_eq_true,
          List.contains_iff_mem, List.contains_iff_mem, beq_iff_eq, hknown, not_or]
      simp only [filter_report, hfinding, hcontains]
  rw [checkEnds, checkEnds, List.filter_append, List.filter_append, filter_report,
    hend (fun _ => rfl), hend (fun _ => rfl)]
  refine congrArg (_ ++ ·) (congrArg (report · _) ?_)
  exact (Bool.and_true _).symm

theorem checkEntity_known (hknown : ∀ s, s ∈ names' ↔ s ∈ names ∨ s = known) (used : List String)
    (e : Entity) : checkEntity names' used e =
      (checkEntity names used e).filter fun d => !settles known d.finding := by
  have hname := filter_of_not_settles fun d (hd : d ∈ checkName used e) =>
    not_settles_of_mem_checkName hd known
  have hproperties := filter_of_not_settles fun d (hd : d ∈ checkProperties e [] 0 e.properties) =>
    not_settles_of_mem_checkProperties hd known
  rw [checkEntity, checkEntity, List.filter_append, List.filter_append, hname, hproperties,
    checkEnds_known hknown]
  split <;> rfl

/-- The checks of the entities before a name was added, given the keys of the names before them. -/
theorem checkEntities_known (hknown : ∀ s, s ∈ names' ↔ s ∈ names ∨ s = known) (used : List String)
    (es : List Entity) : checkEntities names' used es =
      (checkEntities names used es).filter fun d => !settles known d.finding := by
  induction es generalizing used with
  | nil => rfl
  | cons e es ih =>
    rw [checkEntities, checkEntities, List.filter_append, checkEntity_known hknown, ih]

end Known

/-! ### The last entity -/

/-- The checks of one more entity come last. The keys used before it are those of all names. -/
theorem checkEntities_append (names used : List String) (es : List Entity) (e : Entity) :
    checkEntities names used (es ++ [e]) = checkEntities names used es ++
      checkEntity names ((es.map fun x => nameKey x.name).reverse ++ used) e := by
  induction es generalizing used with
  | nil =>
    rw [List.nil_append, checkEntities, checkEntities, checkEntities, List.append_nil]
    rfl
  | cons x es ih =>
    rw [List.cons_append, checkEntities, ih, checkEntities, List.map_cons, List.reverse_cons,
      List.append_assoc, List.append_assoc, List.singleton_append]

/-- What is reported of an end as unknown is the end of an edge. -/
theorem edge_of_mem_validate {model : Model} {d : Diagnostic} (hd : d ∈ validate model) {s : String}
    (hs : settles s d.finding = true) : ∃ x ∈ model.entities, x.kind = .edge ∧ x.id = d.entityId ∧
      (d.finding = .unknownSource s ∧ x.source = some s ∨
        d.finding = .unknownTarget s ∧ x.target = some s) := by
  obtain ⟨position, x, hentry, hfound⟩ := mem_validate_iff.1 hd
  have hx : x ∈ model.entities := List.mem_filterMap.2 ⟨some x, List.mem_of_getElem? hentry, rfl⟩
  rw [reportsAt_eq_check hentry] at hfound
  have hid := entityId_of_mem_checkEntity hfound
  have hend {side : Option String} {finding : String → Finding}
      (hfinding : ∀ s', settles s (finding s') = (s' == s))
      (hmem : d ∈ checkEnd (model.entities.map Entity.name) x side finding) :
      d.finding = finding s ∧ side = some s := by
    rw [checkEnd] at hmem
    cases hset : setEnd side with
    | none =>
      rw [hset] at hmem
      cases hmem
    | some name =>
      rw [hset] at hmem
      obtain ⟨-, rfl⟩ := mem_report.1 hmem
      rw [hfinding, beq_iff_eq] at hs
      exact ⟨by rw [hs], by rw [(Option.filter_eq_some_iff.1 hset).1, hs]⟩
  rw [checkEntity, List.mem_append, List.mem_append] at hfound
  -- no finding in a name settles when a name becomes known
  rcases hfound with (hname | hends) | hproperties
  · rw [not_settles_of_mem_checkName hname] at hs
    cases hs
  · split at hends
    · next hedge =>
      have hkind : x.kind = .edge := of_decide_eq_true hedge
      refine ⟨x, hx, hkind, hid.symm, ?_⟩
      rw [checkEnds, List.mem_append, List.mem_append] at hends
      rcases hends with (hsource | htarget) | hunconnected
      · exact .inl (hend (fun _ => rfl) hsource)
      · exact .inr (hend (fun _ => rfl) htarget)
      · obtain ⟨-, rfl⟩ := mem_report.1 hunconnected
        cases hs
    · cases hends
  · rw [not_settles_of_mem_checkProperties hproperties] at hs
    cases hs

theorem entities_append (model : Model) (entry : Option Entity) :
    Model.entities (model ++ [entry]) = model.entities ++ entry.toList := by
  cases entry <;> simp [Model.entities]

/-- An added entity takes away what was reported of the ends of its name as unknown, and nothing
else; its own diagnostics come last. They depend on the entity, on the names of the model with it and
on the keys of the names before it. Gaps change nothing. -/
theorem validate_append (model : Model) (e : Entity) :
    validate (model ++ [some e]) =
        (validate model).filter (fun d => !settles e.name d.finding) ++
          checkAmong (rawNames (model ++ [some e])) (nameKeys model) e ∧
      (∀ d ∈ validate model, ∀ s, settles s d.finding = true →
        ∃ x ∈ model.entities, x.kind = .edge ∧ x.id = d.entityId ∧
          (d.finding = .unknownSource s ∧ x.source = some s ∨
            d.finding = .unknownTarget s ∧ x.target = some s)) ∧
      (∀ d ∈ checkAmong (rawNames (model ++ [some e])) (nameKeys model) e, d.entityId = e.id) ∧
      validate (model ++ [none]) = validate model := by
  have hentities : Model.entities (model ++ [some e]) = model.entities ++ [e] :=
    entities_append model (some e)
  refine ⟨?_, fun d hd s hs => edge_of_mem_validate hd hs,
    fun d hd => entityId_of_mem_checkEntity hd, ?_⟩
  · have hknown : ∀ s, s ∈ (model.entities ++ [e]).map Entity.name ↔
        s ∈ model.entities.map Entity.name ∨ s = e.name := by
      intro s
      rw [List.map_append, List.mem_append, List.map_singleton, List.mem_singleton]
    rw [validate, hentities, checkEntities_append, List.append_nil, checkEntities_known hknown,
      checkEntity_eq_checkAmong, rawNames, hentities, validate]
  · have hgap : Model.entities (model ++ [none]) = model.entities := by
      rw [entities_append]
      exact List.append_nil _
    rw [validate, hgap, validate]

end Hql.Validation
