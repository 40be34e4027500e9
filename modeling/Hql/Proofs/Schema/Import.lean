import Hql.Proofs.Library.Names
import Hql.Proofs.Schema.FieldOrigin
import Hql.Proofs.Schema.Reimport
import Hql.Proofs.Validation.Places
import Hql.Proofs.Validation.Reports
import Mathlib.Data.List.Nodup

/-!
What every schema text gives. Its entities are numbered in their order, all names in them are
identifiers, and each property stands in the text with the literal that its default stands for. So
the checks miss no name, and object to the characters of a property name only at its first one.
-/

namespace Hql

open Text Schema
open Validation (FoundAt HasPropertyForm validate mem_validate_iff reportsAt_eq_check
  foundAt_propertyNameForm_iff entityId_of_mem_checkEntity named_of_mem_validate)

/-- A property as a schema text can give it. -/
structure Property.IsImportedFrom (cs : List Char) (p : Property) : Prop where
  name : isIdentifier p.name.toList = true
  modifiers : ¬ (p.isUnique = true ∧ p.isIndex = true)
  description : p.description = .null
  default : ∀ s ∈ p.defaultValue, '\n' ∉ s.toList
  field : IsDeclaredIn (pieces cs) p

/-- An entity as a schema text can give it at a position. -/
structure Entity.IsImportedAt (cs : List Char) (position : Nat) (e : Entity) : Prop where
  id : e.id = e.kind.lowerName ++ "-" ++ toString position
  name : isIdentifier e.name.toList = true
  source : Entity.IsReadEnd e.source
  target : Entity.IsReadEnd e.target
  plain : e.kind ≠ .edge → e.source = none ∧ e.target = none ∧ e.isUniqueRelation = false
  description : e.description = .null
  vectorDim : e.vectorDim = .null
  properties : ∀ entry ∈ e.properties, ∃ p, entry = some p ∧ p.IsImportedFrom cs

namespace Schema

/-! ### The entities of a text -/

/-- No default has a line feed. -/
theorem StandsFor.newline_not_mem {ts : List Piece} {s : String} (h : StandsFor ts s) :
    '\n' ∉ s.toList := by
  cases h with
  | plain h => exact newline_not_mem_literalText h.1 h.2
  | list h =>
    apply newline_not_mem_list
    intro i hi
    obtain ⟨x, hx, rfl⟩ := List.mem_map.1 hi
    rw [String.toList_ofList]
    exact State.isItem_of_literal (h x hx).1 (h x hx).2

theorem IsDeclaredIn.newline_not_mem {done : List Piece} {p : Property} (h : IsDeclaredIn done p) :
    ∀ s ∈ p.defaultValue, '\n' ∉ s.toList := by
  intro s hs
  obtain ⟨-, -, typeName, clause, -, hdefault, -⟩ := h
  rw [Option.mem_def.1 hs] at hdefault
  cases hdefault with
  | present hliteral => exact hliteral.newline_not_mem

variable {cs : List Char} {es : List Entity}

theorem isImportedAt_of_entities? (h : entities? cs = .ok es) {i : Nat} {e : Entity}
    (he : es[i]? = some e) : e.IsImportedAt cs i := by
  have hread := isReadAt_of_entities? h he
  have hdeclared := hread.declared
  refine ⟨congrArg Entity.id hdeclared.symm, hread.name, hread.source, hread.target, ?_,
    congrArg Entity.description hdeclared.symm, congrArg Entity.vectorDim hdeclared.symm, ?_⟩
  · intro hkind
    have hedge : e.isEdge = false := decide_eq_false hkind
    refine ⟨?_, ?_, ?_⟩ <;> rw [← hdeclared, Entity.declared, hedge]
    · rfl
    · rfl
    · rfl
  · -- without gaps the properties are the ones with a name
    intro entry hentry
    obtain ⟨p, hp, rfl⟩ : ∃ p ∈ e.namedProperties, some p.declared = entry := by
      rw [← hdeclared] at hentry
      exact List.mem_map.1 hentry
    have hproperty := hread.properties p hp
    rw [hproperty.declared_eq] at hentry ⊢
    have horigin := IsDeclaredIn.of_entities? h (List.mem_of_getElem? he) hentry
    exact ⟨p, rfl, hproperty.name, hproperty.notBoth, hproperty.description,
      horigin.newline_not_mem, horigin⟩

/-- An id tells the position that it was made from. -/
theorem position_of_id {k k' : EntityKind} {i j : Nat}
    (h : k.lowerName ++ "-" ++ toString i = k'.lowerName ++ "-" ++ toString j) : i = j := by
  have hcut (k : EntityKind) (n : Nat) :
      (k.lowerName ++ "-" ++ toString n).toList.dropWhile (· != '-') =
        '-' :: (toString n).toList := by
    rw [String.toList_append, String.toList_append]
    cases k <;> rfl
  have hdigits : '-' :: (toString i).toList = '-' :: (toString j).toList := by
    rw [← hcut k i, h, hcut k' j]
  have hvalue (n : Nat) : Nat.ofDigitChars 10 (toString n).toList 0 = n := by
    rw [Nat.toString_eq_repr, Nat.toList_repr]
    exact Nat.ofDigitChars_toDigits (by decide) (by decide)
  rw [← hvalue i, (List.cons.inj hdigits).2, hvalue j]

/-- The ids of a text are as different as the positions. -/
theorem position_unique (h : entities? cs = .ok es) {i j : Nat} {e x : Entity}
    (he : es[i]? = some e) (hx : es[j]? = some x) (hid : e.id = x.id) : i = j := by
  rw [(isImportedAt_of_entities? h he).id, (isImportedAt_of_entities? h hx).id] at hid
  exact position_of_id hid

theorem nodup_ids (h : entities? cs = .ok es) : (es.map Entity.id).Nodup := by
  rw [List.nodup_iff_getElem?_ne_getElem?]
  intro i j hij hj heq
  rw [List.length_map] at hj
  rw [List.getElem?_map, List.getElem?_map, List.getElem?_eq_getElem hj,
    List.getElem?_eq_getElem (Nat.lt_trans hij hj)] at heq
  have hi := List.getElem?_eq_getElem (Nat.lt_trans hij hj)
  have hsame := position_unique h hi (List.getElem?_eq_getElem hj) (Option.some.inj heq)
  omega

/-! ### What the checks find -/

theorem hasPropertyForm_iff_of_isIdentifier {s : String} (h : isIdentifier s.toList = true) :
    HasPropertyForm s ↔ s.toList.head? ≠ some '_' := by
  obtain ⟨c, cs, hcs⟩ := List.exists_cons_of_ne_nil (isIdentifier_ne_nil h)
  rw [HasPropertyForm, hcs]
  rw [hcs] at h
  obtain ⟨hc, hmore⟩ := isIdentifier_cons.1 h
  constructor
  · rintro ⟨d, ds, hform, hd, -⟩ hhead
    obtain rfl : c = '_' := Option.some.inj hhead
    obtain rfl : '_' = d := by
      rcases hform with hform | hform
      · exact (List.cons.inj hform).1
      · exact (List.cons.inj hform).1
    exact absurd hd (by decide)
  · intro hhead
    refine ⟨c, cs, .inl rfl, ?_, hmore⟩
    rcases Bool.or_eq_true_iff.1 hc with halpha | hunderscore
    · exact halpha
    · exact absurd (congrArg some (beq_iff_eq.1 hunderscore)) hhead

theorem trimmed_ne_empty {s : String} (h : isIdentifier s.toList = true) : trimmed s ≠ "" := by
  rw [Library.trimmed_of_isIdentifier h]
  exact ne_empty_of_isIdentifier h

/-- The characters of a property name are found wrong only for an underscore at its start. -/
theorem exists_propertyNameForm_iff (h : entities? cs = .ok es) {k j : Nat} {e : Entity}
    {p : Property} (he : es[k]? = some e) (hp : e.properties[j]? = some (some p)) :
    (∃ d ∈ validate (es.map some), d.entityId = e.id ∧ d.propertyIndex = some j ∧
        d.finding = .propertyNameForm) ↔ p.name.toList.head? = some '_' := by
  have himported := isImportedAt_of_entities? h he
  obtain ⟨q, hq, hproperty⟩ := himported.properties _ (List.mem_of_getElem? hp)
  obtain rfl := Option.some.inj hq
  have hmodel {i : Nat} {x : Entity} : (es.map some)[i]? = some (some x) ↔ es[i]? = some x := by
    rw [List.getElem?_map, Option.map_eq_some_iff]
    simp
  have hfound : FoundAt (es.map some) k (some j) .propertyNameForm ↔
      p.name.toList.head? = some '_' := by
    rw [foundAt_propertyNameForm_iff (hmodel.2 he)]
    constructor
    · rintro ⟨q, hq, -, hform⟩
      obtain rfl := Option.some.inj (Option.some.inj (hp.symm.trans hq))
      rwa [hasPropertyForm_iff_of_isIdentifier hproperty.name, not_not] at hform
    · intro hhead
      refine ⟨p, hp, trimmed_ne_empty hproperty.name, ?_⟩
      rwa [hasPropertyForm_iff_of_isIdentifier hproperty.name, not_not]
  rw [← hfound]
  constructor
  · -- the id tells at which position the diagnostic was made
    rintro ⟨d, hd, hid, hindex, hfinding⟩
    obtain ⟨i, x, hx, hd⟩ := mem_validate_iff.1 hd
    have hdx := hd
    rw [reportsAt_eq_check hx] at hdx
    have hidx : x.id = e.id := (entityId_of_mem_checkEntity hdx).symm.trans hid
    obtain rfl := position_unique h (hmodel.1 hx) he hidx
    exact ⟨d, hd, hindex, hfinding⟩
  · rintro ⟨d, hd, hindex, hfinding⟩
    refine ⟨d, mem_validate_iff.2 ⟨k, e, hmodel.2 he, hd⟩, ?_, hindex, hfinding⟩
    rw [reportsAt_eq_check (hmodel.2 he)] at hd
    exact entityId_of_mem_checkEntity hd

/-- The shape of what a schema text gives, and what the checks find in it. -/
theorem shape_of_read {text : String} {es : List Entity} (h : read text = .ok es) :
    (∀ (k : Nat) (e : Entity), es[k]? = some e → e.IsImportedAt text.toList k) ∧
      (es.map Entity.id).Nodup ∧
      (∀ d ∈ validate (es.map some),
        d.finding ≠ .entityUnnamed ∧ d.finding ≠ .propertyUnnamed) ∧
      ∀ (k j : Nat) (e : Entity) (p : Property), es[k]? = some e →
        e.properties[j]? = some (some p) →
        ((∃ d ∈ validate (es.map some), d.entityId = e.id ∧
            d.propertyIndex = some j ∧ d.finding = .propertyNameForm) ↔
          p.name.toList.head? = some '_') := by
  have hentities : entities? text.toList = .ok es := read_eq_ok_iff.1 h
  refine ⟨fun k e he => isImportedAt_of_entities? hentities he, nodup_ids hentities, ?_,
    fun k j e p he hp => exists_propertyNameForm_iff hentities he hp⟩
  intro d hd
  refine named_of_mem_validate ?_ hd
  intro e he
  rw [entities_map_some] at he
  obtain ⟨k, hk⟩ := List.mem_iff_getElem?.1 he
  have himported := isImportedAt_of_entities? hentities hk
  refine ⟨trimmed_ne_empty himported.name, fun p hp => ?_⟩
  obtain ⟨q, hq, hproperty⟩ := himported.properties _ hp
  obtain rfl := Option.some.inj hq
  exact trimmed_ne_empty hproperty.name

/-- A text with a name that starts with an underscore, a list, and an end that is not set. -/
def noteText : String :=
  "V::Note \x7b INDEX _t: ID DEFAULT \"a b\", tags: [String] DEFAULT [red ,-1] \x7d // ids\n" ++
    "E::Cites UNIQUE \x7b From: Undefined, To: Note, \x7d"

/-- The entities of `noteText`. -/
def noteEntities : List Entity := [
  {
    id := "vector-0", name := "Note", kind := .vector
    properties := [
      some { name := "_t", type := .id, isIndex := true, defaultValue := some "a b" },
      some { name := "tags", isArray := true, defaultValue := some "[red, -1]" }] },
  {
    id := "edge-1", name := "Cites", kind := .edge, target := some "Note"
    isUniqueRelation := true }]

theorem shape_of_read_noteText : read noteText = .ok noteEntities ∧
    (∀ (k : Nat) (e : Entity), noteEntities[k]? = some e → e.IsImportedAt noteText.toList k) ∧
    ∃ d ∈ validate (noteEntities.map some), d.entityId = "vector-0" ∧
      d.propertyIndex = some 0 ∧ d.finding = .propertyNameForm := by
  have hread : read noteText = .ok noteEntities := read_eq_ok_of_toOption (by decide +kernel)
  obtain ⟨himported, -, -, hform⟩ := shape_of_read hread
  exact ⟨hread, himported, (hform 0 0 _ _ rfl rfl).2 (by decide)⟩

end Schema

end Hql
