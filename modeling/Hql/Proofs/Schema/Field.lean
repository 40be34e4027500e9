import Hql.Proofs.Schema.Default
import Hql.Proofs.Schema.Step

/-!
Fields of schema text. The part up to the colon, the type and the default are read one after
another, and the mark after them completes the property that the field was printed from.
-/

namespace Hql.Schema

open Text

namespace State

/-! ### Up to the colon -/

/-- The field with the name and the modifiers of a property. -/
def headOf (p : Property) (f : FieldDraft) : FieldDraft :=
  { f with name := p.name, isUnique := p.isUnique, isIndex := p.isIndex && !p.isUnique }

theorem isMarkWord_fields {o : Owner} {cs : List Char} (h : (Place.fields o).IsMarkWord cs)
    (hcs : isIdentifier cs = true) : cs = "UNIQUE".toList ∨ cs = "INDEX".toList := by
  obtain ⟨m, haccepts, rfl⟩ := h
  cases m with
  | unique => exact .inl rfl
  | index => exact .inr rfl
  | closeBrace => exact absurd hcs (by decide)
  | _ => cases haccepts

theorem advance_fieldColon (o : Owner) (d : Draft) (cs : List Char) :
    advance ⟨.fieldColon o, d⟩ (':' :: cs) = advance ⟨.fieldType o, d⟩ cs :=
  advance_mark .colon rfl (fun h => by cases h) rfl

/-- After a modifier any name may stand. -/
theorem advance_modifiedName {name : String} (h : isIdentifier name.toList = true) (o : Owner)
    (d : Draft) (cs : List Char) :
    advance ⟨.fieldName o, d⟩ (name.toList ++ ':' :: cs) =
      advance ⟨.fieldType o, d.withField fun f => { f with name }⟩ cs := by
  have hpush : d.push ⟨.fieldName o, .name, name.toList, 0⟩ =
      .ok (d.withField fun f => { f with name }) := by
    simp only [Draft.push, String.ofList_toList]
  rw [advance_name rfl (fun _ h => by cases h) h (apart_of_head _ (by decide)) hpush,
    advance_fieldColon]

/-- Without a modifier a name may stand that is not one. -/
theorem advance_plainName {name : String} (h : isIdentifier name.toList = true)
    (hunique : name ≠ "UNIQUE") (hindex : name ≠ "INDEX") (o : Owner) (d : Draft)
    (cs : List Char) :
    advance ⟨.fields o, d⟩ (name.toList ++ ':' :: cs) =
      advance ⟨.fieldType o, d.withField fun f => { f with name }⟩ cs := by
  have hword : ¬ (Place.fields o).IsMarkWord name.toList := by
    intro hmark
    rcases isMarkWord_fields hmark h with heq | heq
    · exact hunique (String.toList_injective heq)
    · exact hindex (String.toList_injective heq)
  have hpush : d.push ⟨.fields o, .name, name.toList, 0⟩ =
      .ok (d.withField fun f => { f with name }) := by
    cases o <;> simp only [Draft.push, String.ofList_toList]
  rw [advance_token rfl (t := .name) h (fun _ => hword) (fun _ => apart_of_head _ (by decide))
    hpush, advance_fieldColon]

theorem advance_fieldHead {p : Property} (hname : isIdentifier p.name.toList = true)
    (hbare : ¬ p.IsBareModifier) (o : Owner) {d : Draft} (hd : d.field = {}) (cs : List Char) :
    advance ⟨.fields o, d⟩ (p.modifier.toList ++ (p.name.toList ++ ':' :: cs)) =
      advance ⟨.fieldType o, d.withField (headOf p)⟩ cs := by
  have hunique (cs : List Char) : advance ⟨.fields o, d⟩ ("UNIQUE INDEX ".toList ++ cs) =
      advance ⟨.fieldName o, d.withField fun f => { f with isUnique := true }⟩ cs := by
    have htext : "UNIQUE INDEX ".toList ++ cs =
        Mark.unique.text.toList ++ (' ' :: (Mark.index.text.toList ++ ' ' :: cs)) := rfl
    have hfirst : d.push ⟨.fields o, .mark .unique, Mark.unique.text.toList, 0⟩ = .ok d := by
      cases o <;> rfl
    rw [htext, advance_mark .unique rfl (fun _ => apart_of_head _ (by decide)) hfirst,
      advance_blank, advance_mark .index rfl (fun _ => apart_of_head _ (by decide)) rfl,
      advance_blank]
  have hindex (cs : List Char) : advance ⟨.fields o, d⟩ ("INDEX ".toList ++ cs) =
      advance ⟨.fieldName o, d.withField fun f => { f with isIndex := true }⟩ cs := by
    have htext : "INDEX ".toList ++ cs = Mark.index.text.toList ++ ' ' :: cs := rfl
    have hfirst : d.push ⟨.fields o, .mark .index, Mark.index.text.toList, 0⟩ =
        .ok (d.withField fun f => { f with isIndex := true }) := by
      cases o <;> rfl
    rw [htext, advance_mark .index rfl (fun _ => apart_of_head _ (by decide)) hfirst,
      advance_blank]
  -- a name without modifiers is no modifier itself, or the reader would take it for one
  cases hu : p.isUnique with
  | true =>
    have hm : p.modifier = "UNIQUE INDEX " := by simp [Property.modifier, hu]
    rw [hm, hunique, advance_modifiedName hname]
    simp [Draft.withField, headOf, hd, hu]
  | false =>
    cases hi : p.isIndex with
    | true =>
      have hm : p.modifier = "INDEX " := by simp [Property.modifier, hu, hi]
      rw [hm, hindex, advance_modifiedName hname]
      simp [Draft.withField, headOf, hd, hu, hi]
    | false =>
      have hm : p.modifier = "" := by simp [Property.modifier, hu, hi]
      have hnot : p.name ≠ "UNIQUE" ∧ p.name ≠ "INDEX" := by
        constructor
        · exact fun heq => hbare ⟨.inl heq, hu, hi⟩
        · exact fun heq => hbare ⟨.inr heq, hu, hi⟩
      rw [hm, String.toList_empty, List.nil_append, advance_plainName hname hnot.1 hnot.2]
      simp [Draft.withField, headOf, hd, hu, hi]

/-! ### The type -/

/-- The field with the type of a property, not yet looked up. -/
def typeOf (p : Property) (f : FieldDraft) : FieldDraft :=
  { f with isArray := p.isArray || f.isArray, typeName := p.type.name, typeOffset := 0 }

theorem isIdentifier_typeName (t : PropertyType) : isIdentifier t.name.toList = true := by
  cases t <;> decide

theorem advance_typeName (p : Property) (o : Owner) (d : Draft) {cs : List Char} (hcs : Apart cs) :
    advance ⟨.fieldType o, d⟩ (' ' :: (p.typeName.toList ++ cs)) =
      advance ⟨.afterType o, d.withField (typeOf p)⟩ cs := by
  have hname := isIdentifier_typeName p.type
  rw [advance_blank]
  cases ha : p.isArray with
  | true =>
    have htext : p.typeName.toList ++ cs = '[' :: (p.type.name.toList ++ ']' :: cs) := by
      simp [Property.typeName, ha]
    have hopen (cs : List Char) : advance ⟨.fieldType o, d⟩ ('[' :: cs) =
        advance ⟨.itemType o, d.withField fun f => { f with isArray := true }⟩ cs :=
      advance_mark .openBracket rfl (fun h => by cases h) rfl
    have hclose (d : Draft) : advance ⟨.itemTypeEnd o, d⟩ (']' :: cs) =
        advance ⟨.afterType o, d⟩ cs :=
      advance_mark .closeBracket rfl (fun h => by cases h) rfl
    rw [htext, hopen, advance_name rfl (fun _ h => by cases h) hname
      (apart_of_head _ (by decide)) rfl, hclose]
    simp [Draft.withField, typeOf, ha]
  | false =>
    have htext : p.typeName = p.type.name := by simp [Property.typeName, ha]
    rw [htext, advance_name rfl (fun _ h => by cases h) hname hcs rfl]
    simp [Draft.withField, typeOf, ha]

/-! ### The default -/

/-- A default that is written as it is. -/
theorem advance_bareDefault {s : String} (hs : IsBareDefault s) (o : Owner) (d : Draft) :
    ∃ items, ∀ cs, Apart cs → advance ⟨.fieldDefault o, d⟩ (s.toList ++ cs) =
      advance ⟨.fieldEnd o, d.withField fun f => { f with items, default := some s }⟩ cs := by
  rcases hs with hname | hnumber | hlist
  · refine ⟨d.field.items, fun cs hcs => ?_⟩
    have hpush : d.push ⟨.fieldDefault o, .name, s.toList, 0⟩ =
        .ok (d.withField fun f => { f with default := some s }) := by
      simp only [Draft.push, String.ofList_toList]
    exact advance_name rfl (fun _ h => by cases h) hname hcs hpush
  · refine ⟨d.field.items, fun cs hcs => ?_⟩
    have hpush : d.push ⟨.fieldDefault o, .number, s.toList, 0⟩ =
        .ok (d.withField fun f => { f with default := some s }) := by
      simp only [Draft.push, String.ofList_toList]
    exact advance_token rfl (t := .number) hnumber (fun h => by cases h) (fun _ => hcs) hpush
  · obtain ⟨items, h⟩ := advance_list hlist o d
    exact ⟨items, fun cs _ => h cs⟩

/-- A default that is written between quotes. -/
theorem advance_quotedDefault {s : String} (hs : '\n' ∉ s.toList) (o : Owner) (d : Draft)
    (cs : List Char) :
    advance ⟨.fieldDefault o, d⟩ ((Literal.quote s).toList ++ cs) =
      advance ⟨.fieldEnd o, d.withField fun f => { f with default := some s }⟩ cs := by
  have hpush : d.push ⟨.fieldDefault o, .quoted, (Literal.quote s).toList, 0⟩ =
      .ok (d.withField fun f => { f with default := some s }) := by
    simp only [Draft.push, quotedText_quote]
  exact advance_token rfl (t := .quoted) (isQuoted_quote hs) (fun h => by cases h)
    (fun h => by cases h) hpush

/-- A literal is the default as it is or the default between quotes. -/
theorem defaultLiteral?_of_quotesDefault {p : Property} {s : String}
    (hs : p.defaultValue = some s) (hq : p.quotesDefault = true) :
    p.defaultLiteral? = some (Literal.quote s) ∨ (s = "NOW" ∧ p.defaultLiteral? = some s) := by
  obtain ⟨ha, ht⟩ : p.isArray = false ∧ (p.type = .string ∨ p.type = .date) := by
    simpa [Property.quotesDefault] using hq
  simp only [Property.defaultLiteral?, hs, ha, Option.map_some]
  rcases ht with ht | ht
  · exact .inl (by rw [ht]; rfl)
  · by_cases hnow : s = "NOW"
    · exact .inr ⟨hnow, by rw [ht, hnow]; rfl⟩
    · refine .inl ?_
      rw [ht]
      simp [Literal.ofText, hnow]

theorem defaultLiteral?_of_not_quotesDefault {p : Property} {s : String}
    (hs : p.defaultValue = some s) (hq : p.quotesDefault = false) :
    p.defaultLiteral? = some s := by
  simp only [Property.defaultLiteral?, hs, Option.map_some]
  cases ha : p.isArray with
  | true => rfl
  | false =>
    have ht : p.type ≠ .string ∧ p.type ≠ .date := by simpa [Property.quotesDefault, ha] using hq
    obtain ⟨hstring, hdate⟩ := ht
    cases htype : p.type <;> first | rfl | exact absurd htype ‹_›

/-- The literal of a printable default is read back. -/
theorem advance_literal {p : Property} (hp : p.HasPrintableDefault) {s : String}
    (hs : p.defaultValue = some s) (o : Owner) (d : Draft) :
    ∃ literal items, p.defaultLiteral? = some literal ∧ ∀ cs, Apart cs →
      advance ⟨.fieldDefault o, d⟩ (literal.toList ++ cs) =
        advance ⟨.fieldEnd o, d.withField fun f => { f with items, default := some s }⟩ cs := by
  have hprintable := hp s hs
  cases hq : p.quotesDefault with
  | true =>
    rw [hq, if_pos rfl] at hprintable
    -- the word for the present is the one date that is printed without quotes
    rcases defaultLiteral?_of_quotesDefault hs hq with hl | ⟨hnow, hl⟩
    · exact ⟨_, d.field.items, hl, fun cs _ => advance_quotedDefault hprintable o d cs⟩
    · have hbare : IsBareDefault s := by
        rw [hnow]
        exact .inl (by decide)
      obtain ⟨items, h⟩ := advance_bareDefault hbare o d
      exact ⟨s, items, hl, h⟩
  | false =>
    rw [hq, if_neg Bool.false_ne_true] at hprintable
    obtain ⟨items, h⟩ := advance_bareDefault hprintable o d
    exact ⟨s, items, defaultLiteral?_of_not_quotesDefault hs hq, h⟩

/-! ### Whole fields -/

/-- The property of a field whose type and default are those of a property. -/
def propertyOf (p : Property) (f : FieldDraft) : Property where
  name := f.name
  type := p.type
  isUnique := f.isUnique
  isIndex := f.isIndex
  isArray := p.isArray || f.isArray
  defaultValue := p.defaultValue

/-- The state after the type and the default of a property, before the mark that ends the field. -/
def fieldState (p : Property) (o : Owner) (d : Draft) (items : List String) : State :=
  match p.defaultValue with
  | none => ⟨.afterType o, d.withField (typeOf p)⟩
  | some s => ⟨.fieldEnd o, d.withField fun f =>
      { typeOf p f with type := p.type, items, default := some s }⟩

/-- The text of a default starts with a blank. -/
theorem apart_defaultClause (p : Property) {cs : List Char} (hcs : Apart cs) :
    Apart (p.defaultClause.toList ++ cs) := by
  rw [Property.defaultClause]
  cases p.defaultLiteral? with
  | none => exact hcs
  | some literal =>
    have htext : (" DEFAULT " ++ literal).toList ++ cs =
        ' ' :: ("DEFAULT ".toList ++ (literal.toList ++ cs)) := by
      simp
    dsimp only
    rw [htext]
    exact apart_of_head _ (by decide)

/-- The word before a default. -/
theorem advance_default (p : Property) (o : Owner) (d : Draft) (cs : List Char) :
    advance ⟨.afterType o, d.withField (typeOf p)⟩ (" DEFAULT ".toList ++ cs) =
      advance ⟨.fieldDefault o, d.withField fun f => { typeOf p f with type := p.type }⟩ cs := by
  have hresolve : (d.withField (typeOf p)).push
      ⟨.afterType o, .mark .default, Mark.default.text.toList, 0⟩ =
        .ok (d.withField fun f => { typeOf p f with type := p.type }) := by
    simp only [Draft.push, Draft.resolveType, Draft.withField, typeOf, PropertyType.ofName?_name]
  have htext : " DEFAULT ".toList ++ cs = ' ' :: (Mark.default.text.toList ++ ' ' :: cs) := rfl
  rw [htext, advance_blank,
    advance_mark .default rfl (fun _ => apart_of_head _ (by decide)) hresolve, advance_blank]

/-- A printable default is read, with the word before it, as this default. -/
theorem advance_defaultClause {p : Property} (hp : p.HasPrintableDefault) (o : Owner) (d : Draft) :
    ∃ items, ∀ cs, Apart cs →
      advance ⟨.afterType o, d.withField (typeOf p)⟩ (p.defaultClause.toList ++ cs) =
        advance (fieldState p o d items) cs := by
  cases hs : p.defaultValue with
  | none =>
    have hclause : p.defaultClause = "" := by
      simp [Property.defaultClause, Property.defaultLiteral?, hs]
    refine ⟨[], fun cs _ => ?_⟩
    rw [hclause, fieldState, hs]
    rfl
  | some s =>
    obtain ⟨literal, items, hl, hread⟩ := advance_literal hp hs o
      (d.withField fun f => { typeOf p f with type := p.type })
    refine ⟨items, fun cs hcs => ?_⟩
    have htext : p.defaultClause.toList ++ cs = " DEFAULT ".toList ++ (literal.toList ++ cs) := by
      simp [Property.defaultClause, hl]
    rw [htext, advance_default, hread cs hcs, fieldState, hs]
    rfl

/-- The mark that ends a field completes its property. -/
theorem advance_endField {p : Property} {o : Owner} {d : Draft} (hd : d.field.default = none)
    (items : List String) {m : Mark} {q : Place} (hm : Place.afterField o m = some q) :
    ∃ d' : Draft, d'.field.property = propertyOf p d.field ∧
      (∀ x, d'.addProperty x = d.addProperty x) ∧
      ∀ rest, advance (fieldState p o d items) (m.text.toList ++ rest) =
        advance ⟨q, d'.endField o m⟩ rest := by
  have hmark : m = .comma ∨ m = .closeBrace :=
    (Place.afterField_eq_some hm).imp And.left And.left
  have hword : m.isWord = false := by rcases hmark with rfl | rfl <;> rfl
  have hapart (rest : List Char) : m.isWord = true → Apart rest := by
    intro h
    rw [hword] at h
    cases h
  -- without a default this mark is the first token after the type, so it looks the type up
  cases hs : p.defaultValue with
  | none =>
    refine ⟨d.withField fun f => { typeOf p f with type := p.type }, ?_, fun _ => rfl, ?_⟩
    · simp [FieldDraft.property, Draft.withField, typeOf, propertyOf, hs, hd]
    · intro rest
      have hpush : (d.withField (typeOf p)).push ⟨.afterType o, .mark m, m.text.toList, 0⟩ =
          .ok ((d.withField fun f => { typeOf p f with type := p.type }).endField o m) := by
        rcases hmark with rfl | rfl <;>
          simp only [Draft.push, Draft.resolveType, Draft.withField, typeOf,
            PropertyType.ofName?_name] <;> rfl
      have hnext : (Place.afterType o).next (.mark m) = some q := by
        rcases hmark with rfl | rfl <;> exact hm
      rw [fieldState, hs]
      exact advance_mark m hnext (hapart rest) hpush
  | some s =>
    refine ⟨d.withField fun f => { typeOf p f with type := p.type, items, default := some s },
      ?_, fun _ => rfl, ?_⟩
    · simp [FieldDraft.property, Draft.withField, typeOf, propertyOf, hs]
    · intro rest
      rw [fieldState, hs]
      exact advance_mark m hm (hapart rest) rfl

theorem advance_fieldComma (p : Property) (o : Owner) {d : Draft} (hd : d.field.default = none)
    (items : List String) (rest : List Char) :
    advance (fieldState p o d items) (',' :: rest) =
      advance ⟨.fields o, d.addProperty (propertyOf p d.field)⟩ rest := by
  obtain ⟨d', hfield, hadd, h⟩ := advance_endField hd items (m := .comma) rfl
  have hread := h rest
  rw [Draft.endField_comma, hfield, hadd] at hread
  exact hread

theorem advance_fieldBrace (p : Property) (o : Owner) {d : Draft} (hd : d.field.default = none)
    (items : List String) (rest : List Char) :
    advance (fieldState p o d items) ('}' :: rest) =
      advance ⟨.closed o, (d.addProperty (propertyOf p d.field)).close o⟩ rest := by
  obtain ⟨d', hfield, hadd, h⟩ := advance_endField hd items (m := .closeBrace) rfl
  have hread := h rest
  rw [Draft.endField_closeBrace, hfield, hadd] at hread
  exact hread

/-- The parts of a field. -/
theorem fieldText_toList (p : Property) (cs : List Char) :
    p.fieldText.toList ++ cs = p.modifier.toList ++ (p.name.toList ++
      ':' :: ' ' :: (p.typeName.toList ++ (p.defaultClause.toList ++ cs))) := by
  simp [Property.fieldText]

/-- A declarable field is read up to the mark that ends it, with what it declares. -/
theorem advance_field {p : Property} (hp : p.IsDeclarable) (o : Owner) {d : Draft}
    (hd : d.field = {}) :
    ∃ d' items, d'.field.default = none ∧ propertyOf p d'.field = p.declared ∧
      (∀ x, d'.addProperty x = d.addProperty x) ∧
      ∀ cs, Apart cs → advance ⟨.fields o, d⟩ (p.fieldText.toList ++ cs) =
        advance (fieldState p o d' items) cs := by
  obtain ⟨items, hdefault⟩ := advance_defaultClause hp.default o (d.withField (headOf p))
  refine ⟨d.withField (headOf p), items, ?_, ?_, fun _ => rfl, ?_⟩
  · simp [Draft.withField, headOf, hd]
  · simp [Draft.withField, headOf, hd, propertyOf, Property.declared]
  · intro cs hcs
    rw [fieldText_toList, advance_fieldHead hp.name hp.notBare o hd,
      advance_typeName p o _ (apart_defaultClause p hcs), hdefault cs hcs]

end State

end Hql.Schema
