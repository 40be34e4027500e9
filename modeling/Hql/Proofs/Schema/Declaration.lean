import Hql.Proofs.Schema.Spelling
import Hql.Schema.Printer

/-!
What a schema declares of a model. A schema has no place for ids, descriptions, dimensions, gaps and
properties without a name; the declarations of a model are what is left of it, numbered anew. Names
and defaults that can be read back are declarable.
-/

namespace Hql

open Text Schema

namespace Schema

theorem ne_empty_of_isIdentifier {s : String} (h : isIdentifier s.toList = true) : s ≠ "" := by
  intro hempty
  rw [hempty] at h
  cases h

/-- An item of a list: a name, a number or a quoted text. -/
def IsItem (cs : List Char) : Prop := isIdentifier cs = true ∨ IsNumber cs ∨ IsQuoted cs

instance (cs : List Char) : Decidable (IsItem cs) :=
  inferInstanceAs (Decidable (_ ∨ _ ∨ _))

/-- A list in brackets, with a comma and a blank between two items. -/
def IsListText (s : String) : Prop :=
  ∃ items : List String, s = Draft.listText items ∧ ∀ i ∈ items, IsItem i.toList

/-- A default that is written as it is: a name, a number or a list. -/
def IsBareDefault (s : String) : Prop :=
  isIdentifier s.toList = true ∨ IsNumber s.toList ∨ IsListText s

end Schema

namespace Property

/-- Defaults of scalar texts and dates are written between quotes. -/
def quotesDefault (p : Property) : Bool := !p.isArray && (p.type = .string || p.type = .date)

/-- A default that can be read back: on one line between quotes, or as it is. -/
def HasPrintableDefault (p : Property) : Prop :=
  ∀ s, p.defaultValue = some s →
    if p.quotesDefault then '\n' ∉ s.toList else IsBareDefault s

theorem HasPrintableDefault.of_quoted {p : Property} {s : String} (hs : p.defaultValue = some s)
    (hq : p.quotesDefault = true) (h : '\n' ∉ s.toList) : p.HasPrintableDefault := by
  intro s' hs'
  obtain rfl : s = s' := Option.some.inj (hs.symm.trans hs')
  rwa [if_pos hq]

theorem HasPrintableDefault.of_bare {p : Property} {s : String} (hs : p.defaultValue = some s)
    (hq : p.quotesDefault = false) (h : IsBareDefault s) : p.HasPrintableDefault := by
  intro s' hs'
  obtain rfl : s = s' := Option.some.inj (hs.symm.trans hs')
  rwa [hq, if_neg Bool.false_ne_true]

/-- The modifiers would be taken for a property without one. -/
def IsBareModifier (p : Property) : Prop :=
  (p.name = "UNIQUE" ∨ p.name = "INDEX") ∧ p.isUnique = false ∧ p.isIndex = false

instance (p : Property) : Decidable p.IsBareModifier := inferInstanceAs (Decidable (_ ∧ _ ∧ _))

/-- What a schema declares of a property. -/
def declared (p : Property) : Property :=
  { p with isIndex := p.isIndex && !p.isUnique, description := .null }

theorem declared_declared (p : Property) : p.declared.declared = p.declared := by
  cases hu : p.isUnique <;> simp [declared, hu]

structure IsDeclarable (p : Property) : Prop where
  name : isIdentifier p.name.toList = true
  notBare : ¬ p.IsBareModifier
  default : p.HasPrintableDefault

end Property

namespace Entity

/-- The end of an edge that a schema declares: the word for ends that are not set stands for
none. -/
def declaredEnd (name : Option String) : Option String :=
  (setEnd name).filter fun s => s ≠ undefinedEnd

/-- What a schema declares of an entity that stands at a position. -/
def declared (position : Nat) (e : Entity) : Entity where
  id := e.kind.lowerName ++ "-" ++ toString position
  name := e.name
  kind := e.kind
  properties := e.namedProperties.map fun p => some p.declared
  source := if e.isEdge then declaredEnd e.source else none
  target := if e.isEdge then declaredEnd e.target else none
  isUniqueRelation := e.isEdge && e.isUniqueRelation

theorem isEdge_declared (position : Nat) (e : Entity) :
    (e.declared position).isEdge = e.isEdge := rfl

theorem namedProperties_declared (position : Nat) (e : Entity) :
    (e.declared position).namedProperties = e.namedProperties.map Property.declared := by
  have hgaps : (e.declared position).properties.filterMap (fun p => p) =
      e.namedProperties.map Property.declared := by
    rw [declared, List.filterMap_map]
    exact congrFun List.filterMap_eq_map e.namedProperties
  have hnamed : ∀ p ∈ e.namedProperties.map Property.declared, p.name ≠ "" := by
    intro p hp
    obtain ⟨q, hq, rfl⟩ := List.mem_map.1 hp
    have hname := (List.mem_filter.1 hq).2
    simpa [Property.declared] using hname
  rw [namedProperties, hgaps]
  exact List.filter_eq_self.2 fun p hp => by simpa using hnamed p hp

theorem setEnd_declaredEnd (name : Option String) :
    setEnd (declaredEnd name) = declaredEnd name := by
  have hdefined : undefinedEnd ≠ "" := by decide
  cases name with
  | none => rfl
  | some s =>
    by_cases hempty : s = "" <;> by_cases hundefined : s = undefinedEnd <;>
      simp [setEnd, declaredEnd, Option.filter_some, hempty, hundefined, hdefined]

theorem declaredEnd_eq_setEnd {name : Option String} (h : setEnd name ≠ some undefinedEnd) :
    declaredEnd name = setEnd name := by
  rw [declaredEnd]
  cases hs : setEnd name with
  | none => rfl
  | some s =>
    have hne : s ≠ undefinedEnd := by
      rintro rfl
      exact h hs
    simp [Option.filter_some, hne]

/-- The end of an edge is a name wherever it is set. -/
def IsNamedEnd (name : Option String) : Prop :=
  ∀ s, setEnd name = some s → isIdentifier s.toList = true

instance (name : Option String) : Decidable (IsNamedEnd name) :=
  inferInstanceAs (Decidable (∀ s ∈ setEnd name, isIdentifier s.toList = true))

structure IsDeclarable (e : Entity) : Prop where
  name : isIdentifier e.name.toList = true
  source : e.isEdge = true → IsNamedEnd e.source
  target : e.isEdge = true → IsNamedEnd e.target
  properties : ∀ p ∈ e.namedProperties, p.IsDeclarable

end Entity

namespace Model

/-- What a schema declares of a model. -/
def declared (model : Model) : List Entity := model.entities.mapIdx Entity.declared

/-- Every name and every default of the model can be read back. -/
def IsDeclarable (model : Model) : Prop := ∀ e ∈ model.entities, e.IsDeclarable

end Model

end Hql
