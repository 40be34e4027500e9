import Hql.Proofs.Schema.Definition
import Hql.Proofs.Schema.Exactness

/-!
Schemas of what has been read. The entities of a text are their own declarations; their schema is
read as the same entities exactly when their defaults can be read back, which holds of every literal
but a quoted one that stands for a type without quotes.
-/

namespace Hql.Schema

open Text

/-- The entities of a text are what their schema declares. -/
theorem declared_of_entities? {cs : List Char} {es : List Entity} (h : entities? cs = .ok es) :
    Model.declared (es.map some) = es := by
  rw [Model.declared, entities_map_some]
  apply List.ext_getElem?
  intro i
  rw [List.getElem?_mapIdx]
  cases he : es[i]? with
  | none => rfl
  | some e => rw [Option.map_some, (isReadAt_of_entities? h he).declared]

theorem isReadAt_of_mem {cs : List Char} {es : List Entity} (h : entities? cs = .ok es) {e : Entity}
    (he : e ∈ es) : ∃ i, e.IsReadAt i := by
  obtain ⟨i, hi⟩ := List.mem_iff_getElem?.1 he
  exact ⟨i, isReadAt_of_entities? h hi⟩

theorem IsReadEnd.isNamedEnd {name : Option String} (h : Entity.IsReadEnd name) :
    Entity.IsNamedEnd name := by
  intro s hs
  rw [h.setEnd_eq] at hs
  exact (h s hs).1

theorem isNamed_of_entities? {cs : List Char} {es : List Entity} (h : entities? cs = .ok es)
    {e : Entity} (he : e ∈ es) : e.IsNamed := by
  obtain ⟨i, hread⟩ := isReadAt_of_mem h he
  exact ⟨hread.name, fun _ => IsReadEnd.isNamedEnd hread.source,
    fun _ => IsReadEnd.isNamedEnd hread.target, fun p hp => (hread.properties p hp).name⟩

/-- The entities of a text look like what they declare. -/
theorem outline_of_entities? {cs : List Char} {es : List Entity} (h : entities? cs = .ok es) :
    es.map Entity.outline = es.map Entity.declaredOutline := by
  apply List.map_congr_left
  intro e he
  obtain ⟨i, hread⟩ := isReadAt_of_mem h he
  have hproperties : e.namedProperties.map Property.declared = e.namedProperties := by
    rw [List.map_congr_left fun p hp => (hread.properties p hp).declared_eq, List.map_id']
  rw [Entity.outline, Entity.declaredOutline, hproperties]

/-- What has been read is declarable as far as its defaults are. -/
theorem isDeclarable_of_read {cs : List Char} {es : List Entity} (h : entities? cs = .ok es)
    (hdefaults : ∀ e ∈ es, ∀ p ∈ e.namedProperties, p.HasPrintableDefault) :
    Model.IsDeclarable (es.map some) := by
  intro e he
  rw [entities_map_some] at he
  obtain ⟨i, hread⟩ := isReadAt_of_mem h he
  apply (isNamed_of_entities? h he).isDeclarable
  intro p hp
  have hproperty := hread.properties p hp
  exact ⟨hproperty.name, hproperty.notBare, hdefaults e he p hp⟩

/-- The entities of a text are read again from their schema exactly when each default can be read
back. -/
theorem read_print_read_iff {text : String} {es : List Entity} (h : read text = .ok es) :
    read (print (es.map some)) = .ok es ↔
      ∀ e ∈ es, ∀ p ∈ e.namedProperties, p.HasPrintableDefault := by
  rw [read_eq_ok_iff] at h ⊢
  constructor
  · intro hagain
    have hdeclarable : Model.IsDeclarable (es.map some) := by
      apply Model.isDeclarable_of_entities? _ hagain
      · rw [entities_map_some]
        exact outline_of_entities? h
      · intro e he
        rw [entities_map_some] at he
        exact isNamed_of_entities? h he
    intro e he p hp
    exact ((hdeclarable e (by rwa [entities_map_some])).properties p hp).default
  · intro hdefaults
    have hread := entities?_print (isDeclarable_of_read h hdefaults)
    rwa [declared_of_entities? h] at hread

theorem read_eq_ok_of_toOption {text : String} {es : List Entity}
    (h : (read text).toOption = some es) : read text = .ok es := by
  cases hread : read text with
  | error fault =>
    rw [hread] at h
    cases h
  | ok es' =>
    rw [hread] at h
    rw [Option.some.inj h]

/-- A text with a quoted default for a text, a bare default for a number and a list of texts. -/
def mixedText : String :=
  "N::A \x7b\n  INDEX x: String DEFAULT \"a b\", // note\n  y: I32 DEFAULT \"7\",\n" ++
    "  z: [String] DEFAULT [ \"a, b\" , c ]\n\x7d E::B \x7b To: A, Properties: \x7b\x7d \x7d"

/-- The entities of `mixedText`. -/
def mixedEntities : List Entity := [
  {
    id := "node-0", name := "A", kind := .node
    properties := [
      some { name := "x", isIndex := true, defaultValue := some "a b" },
      some { name := "y", type := .i32, defaultValue := some "7" },
      some { name := "z", isArray := true, defaultValue := some "[\"a, b\", c]" }] },
  { id := "edge-1", name := "B", kind := .edge, target := some "A" }]

theorem read_print_read_mixed :
    read mixedText = .ok mixedEntities ∧
      read (print (mixedEntities.map some)) = .ok mixedEntities := by
  have h : read mixedText = .ok mixedEntities := read_eq_ok_of_toOption (by decide +kernel)
  refine ⟨h, (read_print_read_iff h).2 ?_⟩
  have hlist : IsListText "[\"a, b\", c]" :=
    ⟨["\"a, b\"", "c"], by decide +kernel, by decide +kernel⟩
  intro e he p hp
  have he : e = mixedEntities[0] ∨ e = mixedEntities[1] := by simpa [mixedEntities] using he
  rcases he with rfl | rfl
  · have hp : p = mixedEntities[0].namedProperties[0] ∨ p = mixedEntities[0].namedProperties[1] ∨
        p = mixedEntities[0].namedProperties[2] := by
      simpa [mixedEntities, Entity.namedProperties] using hp
    rcases hp with rfl | rfl | rfl
    · exact .of_quoted rfl (by decide) (by decide)
    · exact .of_bare rfl (by decide) (.inr (.inl (by decide +kernel)))
    · exact .of_bare rfl (by decide) (.inr (.inr hlist))
  · cases hp

/-- A quoted default of a number loses its quotes, and the schema with it cannot be read. -/
theorem not_read_print_read :
    ¬ ∀ (text : String) (es : List Entity), read text = .ok es →
      read (print (es.map some)) = .ok es := by
  intro h
  have hread : read "N::A \x7b\n    x: I32 DEFAULT \"a b\"\n\x7d" = .ok [{
      id := "node-0", name := "A", kind := .node
      properties := [some { name := "x", type := .i32, defaultValue := some "a b" }] }] :=
    read_eq_ok_of_toOption (by decide +kernel)
  have hagain := congrArg Except.toOption (h _ _ hread)
  revert hagain
  decide +kernel

end Hql.Schema
