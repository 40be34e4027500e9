import Hql.Validation
import Mathlib.Tactic.Common

/-!
Models without errors. What the checks leave of a model in which they find no error: names of the
right form, and edges between entities of the model.
-/

namespace Hql

open Text

theorem Entity.mem_properties_of_mem_namedProperties {e : Entity} {p : Property}
    (hp : p ∈ e.namedProperties) : some p ∈ e.properties := by
  have hgap := (List.mem_filter.1 hp).1
  obtain ⟨q, hq, rfl⟩ := List.mem_filterMap.1 hgap
  exact hq

namespace Validation

/-- No diagnostic is an error. -/
def ErrorFree (ds : List Diagnostic) : Prop := ∀ d ∈ ds, d.isError = false

instance (ds : List Diagnostic) : Decidable (ErrorFree ds) :=
  inferInstanceAs (Decidable (∀ d ∈ ds, d.isError = false))

theorem errorFree_append {ds es : List Diagnostic} :
    ErrorFree (ds ++ es) ↔ ErrorFree ds ∧ ErrorFree es := by
  simp only [ErrorFree, List.mem_append, or_imp, forall_and]

theorem not_errorFree_of_mem {ds : List Diagnostic} {d : Diagnostic} (hd : d ∈ ds)
    (herror : d.isError = true) : ¬ ErrorFree ds := by
  intro h
  rw [h d hd] at herror
  cases herror

/-- An error that is not reported has no cause. -/
theorem condition_of_report {condition : Bool} {d : Diagnostic} (herror : d.isError = true)
    (h : ErrorFree (report condition d)) : condition = false := by
  cases condition with
  | false => rfl
  | true => exact absurd h (not_errorFree_of_mem (by simp [report]) herror)

/-- Where the checks of a name find no error, the name is there, and no rule that is checked as an
error is broken. -/
theorem errorFree_nameChecks {blank : Prop} [Decidable blank] {form reserved taken : Bool}
    {unnamed d₁ d₂ d₃ : Diagnostic} (herror : unnamed.isError = true)
    (h : ErrorFree (if blank then [unnamed]
      else report form d₁ ++ report reserved d₂ ++ report taken d₃)) :
    ¬ blank ∧ ErrorFree (report form d₁) ∧ ErrorFree (report reserved d₂) ∧
      ErrorFree (report taken d₃) := by
  split at h
  · exact absurd h (not_errorFree_of_mem (List.mem_singleton_self _) herror)
  · next hblank =>
    rw [errorFree_append, errorFree_append, and_assoc] at h
    exact ⟨hblank, h⟩

/-- What an entity is like if its checks find no error. The names of the model are given. -/
structure Accepts (names : List String) (e : Entity) : Prop where
  name : isEntityName (trim e.name.toList) = true
  source : e.isEdge = true → ∀ s, setEnd e.source = some s → s ∈ names
  target : e.isEdge = true → ∀ s, setEnd e.target = some s → s ∈ names
  properties : ∀ p, some p ∈ e.properties → isStoredPropertyName p.name.toList = true

theorem name_of_errorFree {used : List String} {e : Entity} (h : ErrorFree (checkName used e)) :
    isEntityName (trim e.name.toList) = true := by
  rw [checkName] at h
  obtain ⟨-, hform, -⟩ := errorFree_nameChecks rfl h
  have hform := condition_of_report rfl hform
  rw [trimmed, String.toList_ofList] at hform
  simpa using hform

theorem end_of_errorFree {names : List String} {e : Entity} {side : Option String}
    {finding : String → Finding} (herror : ∀ s, (finding s).severity = .error)
    (h : ErrorFree (checkEnd names e side finding)) : ∀ s, setEnd side = some s → s ∈ names := by
  intro s hs
  have hisError : Diagnostic.isError { entityId := e.id, finding := finding s } = true := by
    simp [Diagnostic.isError, Diagnostic.severity, herror]
  rw [checkEnd, hs] at h
  have hunknown := condition_of_report hisError h
  simpa using hunknown

theorem property_of_errorFree {e : Entity} {seen : List String} {index : Nat} {p : Property}
    (h : ErrorFree (checkProperty e seen index p)) : isStoredPropertyName p.name.toList = true := by
  rw [checkProperty] at h
  obtain ⟨-, hform, -⟩ := errorFree_nameChecks rfl h
  simpa using condition_of_report rfl hform

theorem properties_of_errorFree {e : Entity} {seen : List String} {index : Nat}
    {ps : List (Option Property)} (h : ErrorFree (checkProperties e seen index ps)) :
    ∀ p, some p ∈ ps → isStoredPropertyName p.name.toList = true := by
  induction ps generalizing seen index with
  | nil =>
    intro p hp
    cases hp
  | cons p ps ih =>
    intro q hq
    cases p with
    | none =>
      rcases List.mem_cons.1 hq with hnone | hq
      · cases hnone
      · exact ih h q hq
    | some p =>
      rw [checkProperties, errorFree_append] at h
      rcases List.mem_cons.1 hq with heq | hq
      · obtain rfl := Option.some.inj heq
        exact property_of_errorFree h.1
      · exact ih h.2 q hq

theorem accepts_of_checkEntity {names used : List String} {e : Entity}
    (h : ErrorFree (checkEntity names used e)) : Accepts names e := by
  rw [checkEntity, errorFree_append, errorFree_append] at h
  obtain ⟨⟨hname, hends⟩, hproperties⟩ := h
  have hsides (hedge : e.isEdge = true) : ErrorFree (checkEnd names e e.source .unknownSource) ∧
      ErrorFree (checkEnd names e e.target .unknownTarget) := by
    rw [if_pos hedge, checkEnds, errorFree_append, errorFree_append] at hends
    exact hends.1
  exact {
    name := name_of_errorFree hname
    source := fun hedge => end_of_errorFree (fun _ => rfl) (hsides hedge).1
    target := fun hedge => end_of_errorFree (fun _ => rfl) (hsides hedge).2
    properties := properties_of_errorFree hproperties }

theorem errorFree_of_checkEntities {names used : List String} {es : List Entity}
    (h : ErrorFree (checkEntities names used es)) :
    ∀ e ∈ es, ∃ before, ErrorFree (checkEntity names before e) := by
  induction es generalizing used with
  | nil => simp
  | cons e es ih =>
    rw [checkEntities, errorFree_append] at h
    intro x hx
    rcases List.mem_cons.1 hx with rfl | hx
    · exact ⟨used, h.1⟩
    · exact ih h.2 x hx

/-- Every entity of a model without errors is accepted. -/
theorem accepts_of_validate {model : Model} (h : ErrorFree (validate model)) :
    ∀ e ∈ model.entities, Accepts (model.entities.map Entity.name) e := by
  intro e he
  obtain ⟨before, hchecked⟩ := errorFree_of_checkEntities h e he
  exact accepts_of_checkEntity hchecked

/-- No entity of a model without errors has a word of the language as its name. -/
theorem not_isReserved_of_validate {model : Model} (h : ErrorFree (validate model)) :
    ∀ e ∈ model.entities, Keyword.isReserved (trimmed e.name) = false := by
  intro e he
  obtain ⟨before, hchecked⟩ := errorFree_of_checkEntities h e he
  rw [checkEntity, errorFree_append, errorFree_append] at hchecked
  have hname := hchecked.1.1
  rw [checkName] at hname
  obtain ⟨-, -, hreserved, -⟩ := errorFree_nameChecks rfl hname
  exact condition_of_report rfl hreserved

/-! ### Accepted names -/

theorem isIdentifier_of_isEntityName {cs : List Char} (h : isEntityName cs = true) :
    isIdentifier cs = true := by
  cases cs with
  | nil => cases h
  | cons c cs =>
    obtain ⟨hc, hcs⟩ := Bool.and_eq_true_iff.1 h
    have hletter : c.isAlpha = true := Bool.or_eq_true_iff.2 (.inl hc)
    simp [isIdentifier, isIdentStart, hletter, hcs]

theorem isIdentifier_of_isPropertyName {cs : List Char} (h : isPropertyName cs = true) :
    isIdentifier cs = true := by
  cases cs with
  | nil => cases h
  | cons c cs =>
    obtain ⟨hc, hcs⟩ := Bool.and_eq_true_iff.1 h
    simp [isIdentifier, isIdentStart, hc, hcs]

theorem isIdentifier_of_accepts {names : List String} {e : Entity} (h : Accepts names e)
    (hname : trimmed e.name = e.name) : isIdentifier e.name.toList = true := by
  have htrim : trim e.name.toList = e.name.toList := by
    have hlist := congrArg String.toList hname
    rwa [trimmed, String.toList_ofList] at hlist
  have hform := h.name
  rw [htrim] at hform
  exact isIdentifier_of_isEntityName hform

/-- An accepted property name without a line end after it is one by itself. -/
theorem isPropertyName_of_isStoredPropertyName {cs : List Char} (h : isStoredPropertyName cs = true)
    (hnewline : cs.getLast? ≠ some '\n') : isPropertyName cs = true := by
  rcases Bool.or_eq_true_iff.1 h with h | h
  · exact h
  · obtain ⟨hlast, -⟩ := Bool.and_eq_true_iff.1 h
    exact absurd (beq_iff_eq.1 hlast) hnewline

theorem isIdentifier_of_isStoredPropertyName {cs : List Char} (h : isStoredPropertyName cs = true)
    (hnewline : cs.getLast? ≠ some '\n') : isIdentifier cs = true :=
  isIdentifier_of_isPropertyName (isPropertyName_of_isStoredPropertyName h hnewline)

end Validation

end Hql
