import Hql.Proofs.Schema.Inversion

/-!
Printed fields read from any state. The colon of a field only stands where the name of a field or a
clause came before; so a field with a printable default is read as a field or, if the state was
among the clauses of an edge, as a clause.
-/

namespace Hql.Schema

open Text

/-- Whose field begins or has begun here, up to its colon. -/
def Place.headOwner? : Place → Option Owner
  | fields o | afterUnique o | fieldName o | fieldColon o => some o
  | _ => none

theorem Mark.head_not_word {m : Mark} (h : m.isWord = false) :
    ∀ c ∈ m.text.toList.head?, isIdentChar c = false ∧ isLayoutChar c = false := by
  apply forall_mem_head?_of_all
  revert h
  cases m <;> decide

namespace State

/-- If a field has begun in the second state, it has in the first one, and nothing was completed. -/
def SameHead (s u : State) : Prop := ∀ o, u.place.headOwner? = some o →
  s.place.headOwner? = some o ∧ u.draft.properties = s.draft.properties

/-- Among names and blanks no list of fields begins and no property is completed. -/
theorem head_of_words {s u : State} {cs : List Char}
    (hcs : ∀ c ∈ cs, isIdentChar c = true ∨ isLayoutChar c = true) (h : s.advance cs = some u)
    {o : Owner} (hu : u.place.headOwner? = some o) :
    s.place.headOwner? = some o ∧ u.draft.properties = s.draft.properties := by
  suffices hall : SameHead s u from hall o hu
  apply advance_induction h (fun o ho => ⟨ho, rfl⟩)
  intro u v kind lexeme hwithin hu hreads
  -- marks that are no words hold other characters
  have hword (m : Mark) (hm : m.isWord = false) (hkind : kind = .mark m) : False := by
    subst hkind
    obtain rfl : lexeme = m.text.toList := hreads.spells
    obtain ⟨c, more, hcons⟩ := List.exists_cons_of_ne_nil m.text_ne_nil
    have hc := Mark.head_not_word hm c (by rw [hcons]; rfl)
    have hmem : c ∈ cs := hwithin.subset (by rw [hcons]; simp)
    rcases hcs c hmem with hident | hlayout
    · rw [hc.1] at hident
      cases hident
    · rw [hc.2] at hlayout
      cases hlayout
  cases hreads.step with
  | unique o' d => exact hu
  | uniqueIndex o' d => exact hu
  | index o' d => exact hu
  | fieldName hp d => rcases hp with rfl | rfl <;> exact hu
  | openPlain hk d => exact (hword .openBrace rfl rfl).elim
  | propertiesBody d => exact (hword .openBrace rfl rfl).elim
  | closeFields o' d => exact (hword .closeBrace rfl rfl).elim
  | @endType o' m q hm d type =>
    rcases Place.afterField_eq_some hm with ⟨rfl, -⟩ | ⟨rfl, -⟩
    · exact (hword .comma rfl rfl).elim
    · exact (hword .closeBrace rfl rfl).elim
  | @endDefault o' m q hm d =>
    rcases Place.afterField_eq_some hm with ⟨rfl, -⟩ | ⟨rfl, -⟩
    · exact (hword .comma rfl rfl).elim
    · exact (hword .closeBrace rfl rfl).elim
  | _ => exact fun o ho => by cases ho

/-- A colon comes after the name of a field, or after the word of a clause. -/
theorem place_of_colon {s t : State} {word rest : List Char}
    (hword : ∀ c ∈ word, isIdentChar c = true ∨ isLayoutChar c = true)
    (h : s.advance (word ++ ':' :: ' ' :: rest) = some t) :
    ∃ u, s.advance word = some u ∧
      ((∃ o, u.place = .fieldColon o ∧ advance ⟨.fieldType o, u.draft⟩ (' ' :: rest) = some t) ∨
        (∃ side, advance ⟨.sideName side, u.draft⟩ (' ' :: rest) = some t) ∨
        advance ⟨.propertiesBody, u.draft⟩ (' ' :: rest) = some t) := by
  rw [advance_seam s (.inr ⟨rfl, hword⟩)] at h
  obtain ⟨u, hu, hrest⟩ := Option.bind_eq_some_iff.1 h
  obtain ⟨v, hreads, hmore⟩ := step_of_colon (by simp) hrest
  refine ⟨u, hu, ?_⟩
  obtain ⟨p, d⟩ := u
  obtain ⟨q, d'⟩ := v
  rcases Place.next_colon hreads.next with ⟨o, hp, hq⟩ | ⟨side, hp, hq⟩ | ⟨hp, hq⟩
  · obtain rfl : p = .fieldColon o := hp
    obtain rfl : q = .fieldType o := hq
    obtain rfl : d = d' := Except.ok.inj hreads.push
    exact .inl ⟨o, rfl, hmore⟩
  · obtain rfl : p = .sideColon side := hp
    obtain rfl : q = .sideName side := hq
    obtain rfl : d = d' := by cases side <;> exact Except.ok.inj hreads.push
    exact .inr (.inl ⟨side, hmore⟩)
  · obtain rfl : p = .propertiesColon := hp
    obtain rfl : q = .propertiesBody := hq
    obtain rfl : d = d' := Except.ok.inj hreads.push
    exact .inr (.inr hmore)

/-- No name stands at the end of a clause or where a brace has to follow. -/
theorem not_advance_name {p : Place} (hp : p = .clauseEnd ∨ p = .propertiesBody)
    {cs rest : List Char} (hcs : isIdentifier cs = true) (hrest : Apart rest) (d : Draft) :
    advance ⟨p, d⟩ (cs ++ rest) = none := by
  have hwords (m : Mark) (hm : m.isWord = true) : p.next (.mark m) = none := by
    revert hm
    rcases hp with rfl | rfl <;> cases m <;> decide
  have hname : p.next .name = none := by rcases hp with rfl | rfl <;> rfl
  rw [Option.eq_none_iff_forall_ne_some]
  intro t h
  obtain ⟨v, ⟨hreads, -⟩ | ⟨m, more, hm, -, hreads, -⟩⟩ := step_of_name hcs hrest h
  · cases hreads.next.symm.trans hname
  · cases hreads.next.symm.trans (hwords m hm)

theorem not_advance_listType {s : State} (hs : s.place.next (.mark .openBracket) = none)
    {p : Property} (ha : p.isArray = true) (cs : List Char) :
    s.advance (p.typeName.toList ++ cs) = none := by
  have htext : p.typeName.toList ++ cs =
      Mark.openBracket.text.toList ++ (p.type.name.toList ++ ']' :: cs) := by
    simp [Property.typeName, ha, Mark.text]
  rw [htext, Option.eq_none_iff_forall_ne_some]
  intro t h
  obtain ⟨v, hreads, -⟩ := step_of_mark .openBracket rfl (by decide) (by decide) h
  cases hreads.next.symm.trans hs

/-- The type of a field can be read as such or as the end of an edge. -/
theorem type_of_advance {s t : State} {p : Property} {word cs : List Char}
    (hword : ∀ c ∈ word, isIdentChar c = true ∨ isLayoutChar c = true) (hcs : Apart cs)
    (h : s.advance (word ++ ':' :: ' ' :: (p.typeName.toList ++ cs)) = some t) :
    (∃ o d, s.advance word = some ⟨.fieldColon o, d⟩ ∧
        advance ⟨.afterType o, d.withField (typeOf p)⟩ cs = some t) ∨
      ∃ d, advance ⟨.clauseEnd, d⟩ cs = some t := by
  have hname := isIdentifier_typeName p.type
  have hplain : p.isArray = false → p.typeName = p.type.name := by
    intro ha
    simp [Property.typeName, ha]
  obtain ⟨⟨place, d⟩, hu, ⟨o, hplace, hrest⟩ | ⟨side, hrest⟩ | hrest⟩ := place_of_colon hword h
  · obtain rfl : place = .fieldColon o := hplace
    rw [advance_typeName p o d hcs] at hrest
    exact .inl ⟨o, d, hu, hrest⟩
  · -- the end of a clause; the type is its name unless it is a list type
    rw [advance_blank] at hrest
    cases ha : p.isArray with
    | true =>
      rw [not_advance_listType rfl ha] at hrest
      cases hrest
    | false =>
      have hpush : d.push ⟨.sideName side, .name, p.type.name.toList, 0⟩ =
          .ok (d.withEnd side (Draft.endOf p.type.name)) := by
        cases side <;> simp only [Draft.push, Draft.withEnd, String.ofList_toList]
      rw [hplain ha, advance_name rfl (fun _ h => by cases h) hname hcs hpush] at hrest
      exact .inr ⟨_, hrest⟩
  · -- the list of properties, where a brace has to follow
    rw [advance_blank] at hrest
    cases ha : p.isArray with
    | true =>
      rw [not_advance_listType rfl ha] at hrest
      cases hrest
    | false =>
      rw [hplain ha, not_advance_name (.inr rfl) hname hcs] at hrest
      cases hrest

/-- No default stands at the end of a clause. -/
theorem not_advance_default (d : Draft) (cs : List Char) :
    advance ⟨.clauseEnd, d⟩ (" DEFAULT ".toList ++ cs) = none := by
  have htext : " DEFAULT ".toList ++ cs = ' ' :: (Mark.default.text.toList ++ ' ' :: cs) := rfl
  rw [htext, advance_blank]
  exact not_advance_name (.inl rfl) (by decide) (apart_of_head _ (by decide)) d

/-- The text of a field before its colon. -/
def headWords (indent : String) (p : Property) : List Char :=
  indent.toList ++ (p.modifier.toList ++ p.name.toList)

theorem headWords_chars {indent : String} (hindent : ∀ c ∈ indent.toList, isLayoutChar c = true)
    {p : Property} (hname : isIdentifier p.name.toList = true) :
    ∀ c ∈ headWords indent p, isIdentChar c = true ∨ isLayoutChar c = true := by
  have hmodifier : ∀ c ∈ p.modifier.toList, isIdentChar c = true ∨ isLayoutChar c = true := by
    apply forall_mem_of_all
    rw [Property.modifier]
    split
    · decide
    · split <;> decide
  intro c hc
  rcases List.mem_append.1 hc with hc | hc
  · exact .inr (hindent c hc)
  · rcases List.mem_append.1 hc with hc | hc
    · exact hmodifier c hc
    · exact .inl (isIdentChar_of_mem hname c hc)

theorem fieldsText_singleton_append (indent : String) (p : Property) (cs : List Char) :
    fieldsText indent [p] ++ cs = headWords indent p ++
      ':' :: ' ' :: (p.typeName.toList ++ (p.defaultClause.toList ++ cs)) := by
  rw [fieldsText_singleton, List.append_assoc, fieldText_toList, headWords]
  simp only [List.append_assoc]

/-- A field with a printable default that could be read from somewhere. -/
theorem field_of_advance {s t : State} {indent : String} {p : Property}
    (hindent : ∀ c ∈ indent.toList, isLayoutChar c = true)
    (hname : isIdentifier p.name.toList = true) (hp : p.HasPrintableDefault) {cs : List Char}
    (hcs : Apart cs) (h : s.advance (fieldsText indent [p] ++ cs) = some t) :
    (∃ o d items, s.advance (headWords indent p) = some ⟨.fieldColon o, d⟩ ∧
        advance (fieldState p o d items) cs = some t) ∨
      ∃ d, advance ⟨.clauseEnd, d⟩ cs = some t := by
  rw [fieldsText_singleton_append] at h
  rcases type_of_advance (headWords_chars hindent hname) (apart_defaultClause p hcs) h with
    ⟨o, d, hhead, hrest⟩ | ⟨d, hrest⟩
  · obtain ⟨items, hdefault⟩ := advance_defaultClause hp o d
    rw [hdefault cs hcs] at hrest
    exact .inl ⟨o, d, items, hhead, hrest⟩
  · cases hs : p.defaultLiteral? with
    | none =>
      have hclause : p.defaultClause = "" := by simp [Property.defaultClause, hs]
      rw [hclause] at hrest
      exact .inr ⟨d, hrest⟩
    | some literal =>
      have hclause : p.defaultClause.toList ++ cs =
          " DEFAULT ".toList ++ (literal.toList ++ cs) := by
        simp [Property.defaultClause, hs]
      rw [hclause, not_advance_default] at hrest
      cases hrest

end State

end Hql.Schema
