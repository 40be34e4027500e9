import Hql.Proofs.Schema.Spelling

/-!
What one token does. A step leads from a state to the next one; its constructors are the tokens that
may stand at a place, with the change that each makes to the draft.
-/

namespace Hql.Schema

namespace Draft

/-- The draft with one more property, and no field begun. -/
def addProperty (d : Draft) (p : Property) : Draft :=
  { d with properties := d.properties ++ [p], field := {} }

/-- The draft after the closing brace of the fields of an owner. -/
def close (o : Owner) (d : Draft) : Draft := if o = .plain then d.finish else d

theorem endField_comma (d : Draft) (o : Owner) :
    d.endField o .comma = d.addProperty d.field.property := rfl

theorem endField_closeBrace (d : Draft) (o : Owner) :
    d.endField o .closeBrace = (d.addProperty d.field.property).close o := by cases o <;> rfl

/-- The draft with an end of its edge. -/
def withEnd (d : Draft) (side : Side) (name : Option String) : Draft :=
  match side with
  | .source => { d with source := name }
  | .target => { d with target := name }

end Draft

/-- The word for an end of an edge. -/
def Side.mark : Side → Mark
  | source => .source
  | target => .target

/-- The default that a literal stands for: numbers and names for themselves. -/
def literalText (t : Terminal) (cs : List Char) : String :=
  if t = .quoted then Draft.quotedText cs else String.ofList cs

/-- The kinds of tokens that literals and the items of lists are. -/
def Terminal.isLiteral : Terminal → Bool
  | mark _ => false
  | _ => true

/-- The state before a token, the kind and the text of the token, and the state after it. -/
inductive Step : State → Terminal → List Char → State → Prop
  | letter (k : EntityKind) (d : Draft) (cs : List Char) :
    Step ⟨.outside, d⟩ (.mark (Mark.ofKind k)) cs ⟨.letter k, d.start k⟩
  | colons (k : EntityKind) (d : Draft) (cs : List Char) :
    Step ⟨.letter k, d⟩ (.mark .colons) cs ⟨.entityName k, d⟩
  | entityName (k : EntityKind) (d : Draft) (cs : List Char) :
    Step ⟨.entityName k, d⟩ .name cs ⟨.head k, { d with name := String.ofList cs }⟩
  | uniqueRelation (d : Draft) (cs : List Char) :
    Step ⟨.head .edge, d⟩ (.mark .unique) cs ⟨.uniqueHead, { d with isUniqueRelation := true }⟩
  | openPlain {k : EntityKind} (hk : k ≠ .edge) (d : Draft) (cs : List Char) :
    Step ⟨.head k, d⟩ (.mark .openBrace) cs ⟨.fields .plain, d⟩
  | openEdge (d : Draft) (cs : List Char) :
    Step ⟨.head .edge, d⟩ (.mark .openBrace) cs ⟨.clauses, d⟩
  | openUniqueEdge (d : Draft) (cs : List Char) :
    Step ⟨.uniqueHead, d⟩ (.mark .openBrace) cs ⟨.clauses, d⟩
  -- the clauses of an edge
  | side (side : Side) (d : Draft) (cs : List Char) :
    Step ⟨.clauses, d⟩ (.mark side.mark) cs ⟨.sideColon side, d⟩
  | sideColon (side : Side) (d : Draft) (cs : List Char) :
    Step ⟨.sideColon side, d⟩ (.mark .colon) cs ⟨.sideName side, d⟩
  | sideName (side : Side) (d : Draft) (cs : List Char) :
    Step ⟨.sideName side, d⟩ .name cs
      ⟨.clauseEnd, d.withEnd side (Draft.endOf (String.ofList cs))⟩
  | properties (d : Draft) (cs : List Char) :
    Step ⟨.clauses, d⟩ (.mark .properties) cs ⟨.propertiesColon, d⟩
  | propertiesColon (d : Draft) (cs : List Char) :
    Step ⟨.propertiesColon, d⟩ (.mark .colon) cs ⟨.propertiesBody, d⟩
  | propertiesBody (d : Draft) (cs : List Char) :
    Step ⟨.propertiesBody, d⟩ (.mark .openBrace) cs ⟨.fields .edge, { d with properties := [] }⟩
  | clauseComma (d : Draft) (cs : List Char) :
    Step ⟨.clauseEnd, d⟩ (.mark .comma) cs ⟨.clauses, d⟩
  | closeEdge {p : Place} (hp : p = .clauses ∨ p = .clauseEnd) (d : Draft) (cs : List Char) :
    Step ⟨p, d⟩ (.mark .closeBrace) cs ⟨.outside, d.finish⟩
  -- the modifiers and the name of a field
  | unique (o : Owner) (d : Draft) (cs : List Char) :
    Step ⟨.fields o, d⟩ (.mark .unique) cs ⟨.afterUnique o, d⟩
  | uniqueIndex (o : Owner) (d : Draft) (cs : List Char) :
    Step ⟨.afterUnique o, d⟩ (.mark .index) cs
      ⟨.fieldName o, d.withField fun f => { f with isUnique := true }⟩
  | index (o : Owner) (d : Draft) (cs : List Char) :
    Step ⟨.fields o, d⟩ (.mark .index) cs
      ⟨.fieldName o, d.withField fun f => { f with isIndex := true }⟩
  | fieldName {p : Place} {o : Owner} (hp : p = .fields o ∨ p = .fieldName o) (d : Draft)
    (cs : List Char) :
    Step ⟨p, d⟩ .name cs ⟨.fieldColon o, d.withField fun f => { f with name := String.ofList cs }⟩
  | closeFields (o : Owner) (d : Draft) (cs : List Char) :
    Step ⟨.fields o, d⟩ (.mark .closeBrace) cs ⟨.closed o, d.close o⟩
  -- the type of a field
  | fieldColon (o : Owner) (d : Draft) (cs : List Char) :
    Step ⟨.fieldColon o, d⟩ (.mark .colon) cs ⟨.fieldType o, d⟩
  | fieldType (o : Owner) (d : Draft) (cs : List Char) :
    Step ⟨.fieldType o, d⟩ .name cs ⟨.afterType o,
      d.withField fun f => { f with typeName := String.ofList cs, typeOffset := 0 }⟩
  | listType (o : Owner) (d : Draft) (cs : List Char) :
    Step ⟨.fieldType o, d⟩ (.mark .openBracket) cs
      ⟨.itemType o, d.withField fun f => { f with isArray := true }⟩
  | itemType (o : Owner) (d : Draft) (cs : List Char) :
    Step ⟨.itemType o, d⟩ .name cs ⟨.itemTypeEnd o,
      d.withField fun f => { f with typeName := String.ofList cs, typeOffset := 0 }⟩
  | itemTypeEnd (o : Owner) (d : Draft) (cs : List Char) :
    Step ⟨.itemTypeEnd o, d⟩ (.mark .closeBracket) cs ⟨.afterType o, d⟩
  -- the end of a field
  | default (o : Owner) (d : Draft) (type : PropertyType) (cs : List Char) :
    Step ⟨.afterType o, d⟩ (.mark .default) cs
      ⟨.fieldDefault o, d.withField fun f => { f with type }⟩
  | endType {o : Owner} {m : Mark} {q : Place} (hm : Place.afterField o m = some q) (d : Draft)
    (type : PropertyType) (cs : List Char) :
    Step ⟨.afterType o, d⟩ (.mark m) cs
      ⟨q, (d.withField fun f => { f with type }).endField o m⟩
  | endDefault {o : Owner} {m : Mark} {q : Place} (hm : Place.afterField o m = some q) (d : Draft)
    (cs : List Char) :
    Step ⟨.fieldEnd o, d⟩ (.mark m) cs ⟨q, d.endField o m⟩
  -- the default of a field
  | literal (o : Owner) {t : Terminal} (ht : t.isLiteral = true) (d : Draft) (cs : List Char) :
    Step ⟨.fieldDefault o, d⟩ t cs
      ⟨.fieldEnd o, d.withField fun f => { f with default := some (literalText t cs) }⟩
  | openList (o : Owner) (d : Draft) (cs : List Char) :
    Step ⟨.fieldDefault o, d⟩ (.mark .openBracket) cs
      ⟨.firstItem o, d.withField fun f => { f with items := [] }⟩
  | item {p : Place} {o : Owner} (hp : p = .firstItem o ∨ p = .nextItem o) {t : Terminal}
    (ht : t.isLiteral = true) (d : Draft) (cs : List Char) :
    Step ⟨p, d⟩ t cs
      ⟨.afterItem o, d.withField fun f => { f with items := f.items ++ [String.ofList cs] }⟩
  | itemComma (o : Owner) (d : Draft) (cs : List Char) :
    Step ⟨.afterItem o, d⟩ (.mark .comma) cs ⟨.nextItem o, d⟩
  | closeList {p : Place} {o : Owner} (hp : p = .firstItem o ∨ p = .afterItem o) (d : Draft)
    (cs : List Char) :
    Step ⟨p, d⟩ (.mark .closeBracket) cs ⟨.fieldEnd o,
      d.withField fun f => { f with default := some (Draft.listText f.items) }⟩

theorem Draft.resolveType_eq_ok {d d' : Draft} (h : d.resolveType = .ok d') :
    ∃ type, PropertyType.ofName? d.field.typeName = some type ∧
      d' = d.withField fun f => { f with type } := by
  rw [resolveType] at h
  split at h
  · next type htype =>
    obtain rfl := Except.ok.inj h
    exact ⟨type, htype, rfl⟩
  · cases h

theorem Draft.push_endType {d d' : Draft} {o : Owner} {m : Mark}
    (h : (do return (← d.resolveType).endField o m : Except Fault Draft) = .ok d') :
    ∃ d₁, d.resolveType = .ok d₁ ∧ d' = d₁.endField o m := by
  cases hresolve : d.resolveType with
  | error fault =>
    rw [hresolve] at h
    cases h
  | ok d₁ =>
    rw [hresolve] at h
    exact ⟨d₁, rfl, (Except.ok.inj h).symm⟩

theorem Place.afterField_eq_some {o : Owner} {m : Mark} {q : Place}
    (h : Place.afterField o m = some q) :
    (m = .comma ∧ q = .fields o) ∨ (m = .closeBrace ∧ q = .closed o) := by
  cases m with
  | comma => exact .inl ⟨rfl, (Option.some.inj h).symm⟩
  | closeBrace => exact .inr ⟨rfl, (Option.some.inj h).symm⟩
  | _ => cases h

/-- A token that may stand at a place and that the draft takes makes a step. -/
theorem Step.of_next {p q : Place} {d d' : Draft} {t : Terminal} {cs : List Char}
    (hnext : p.next t = some q) (hpush : d.push ⟨p, t, cs, 0⟩ = .ok d') :
    Step ⟨p, d⟩ t cs ⟨q, d'⟩ := by
  unfold Place.next at hnext
  split at hnext
  all_goals try obtain rfl := Option.some.inj hnext
  all_goals try obtain rfl := Except.ok.inj hpush
  · exact letter .node d cs
  · exact letter .edge d cs
  · exact letter .vector d cs
  · exact colons _ d cs
  · exact entityName _ d cs
  · exact uniqueRelation d cs
  · exact openEdge d cs
  · next k hk => exact openPlain hk d cs
  · exact openUniqueEdge d cs
  -- the clauses of an edge
  · exact side .source d cs
  · exact side .target d cs
  · exact properties d cs
  · exact closeEdge (.inl rfl) d cs
  · exact sideColon _ d cs
  · next side =>
    cases side <;> (obtain rfl := Except.ok.inj hpush; exact sideName _ d cs)
  · exact propertiesColon d cs
  · exact propertiesBody d cs
  · exact clauseComma d cs
  · exact closeEdge (.inr rfl) d cs
  -- the modifiers and the name of a field
  · exact unique _ d cs
  · exact index _ d cs
  · exact fieldName (.inl rfl) d cs
  · next o =>
    cases o <;> (obtain rfl := Except.ok.inj hpush; exact closeFields _ d cs)
  · exact uniqueIndex _ d cs
  · exact fieldName (.inr rfl) d cs
  -- the type of a field
  · exact fieldColon _ d cs
  · exact fieldType _ d cs
  · exact listType _ d cs
  · exact itemType _ d cs
  · exact itemTypeEnd _ d cs
  -- the end of a field
  · next o =>
    obtain ⟨type, -, rfl⟩ := Draft.resolveType_eq_ok hpush
    exact default o d type cs
  · next o m _ =>
    obtain ⟨d₁, hresolve, rfl⟩ : ∃ d₁, d.resolveType = .ok d₁ ∧ d' = d₁.endField o m := by
      rcases Place.afterField_eq_some hnext with ⟨rfl, -⟩ | ⟨rfl, -⟩ <;>
        exact Draft.push_endType hpush
    obtain ⟨type, -, rfl⟩ := Draft.resolveType_eq_ok hresolve
    exact endType hnext d type cs
  · exact literal _ rfl d cs
  · exact literal _ rfl d cs
  · exact literal _ rfl d cs
  · exact openList _ d cs
  · exact endDefault hnext d cs
  -- the items of a list
  · exact item (.inl rfl) rfl d cs
  · exact item (.inl rfl) rfl d cs
  · exact item (.inl rfl) rfl d cs
  · exact closeList (.inl rfl) d cs
  · exact itemComma _ d cs
  · exact closeList (.inr rfl) d cs
  · exact item (.inr rfl) rfl d cs
  · exact item (.inr rfl) rfl d cs
  · exact item (.inr rfl) rfl d cs
  · cases hnext

/-- A token that is spelled as its kind says leads from one state to another. A name is no word that
is a mark here. -/
structure Reads (u : State) (t : Terminal) (cs : List Char) (v : State) : Prop where
  next : u.place.next t = some v.place
  push : u.draft.push ⟨u.place, t, cs, 0⟩ = .ok v.draft
  spells : t.Spells cs
  plain : t = .name → u.place.markOf? cs = none

theorem Reads.step {u v : State} {t : Terminal} {cs : List Char} (h : Reads u t cs v) :
    Step u t cs v :=
  Step.of_next h.next h.push

theorem reads_of_accept {u v : State} {cs : List Char} {f : Found} (hf : u.place.find cs = some f)
    (h : u.accept f = some v) : Reads u f.terminal f.lexeme v := by
  obtain ⟨hspells, hplain⟩ := Place.spells_of_find hf
  obtain ⟨d', hpush, rfl⟩ := Option.map_eq_some_iff.1 h
  refine ⟨(Place.find_eq_some hf).2, ?_, hspells, hplain⟩
  cases hd : u.draft.push ⟨u.place, f.terminal, f.lexeme, 0⟩ with
  | error fault =>
    rw [hd] at hpush
    cases hpush
  | ok d₁ =>
    rw [hd] at hpush
    exact congrArg Except.ok (Option.some.inj hpush)

/-- What every step over a token of a text preserves, reading the text preserves. -/
theorem State.advance_induction {P : State → Prop} {s t : State} {cs : List Char}
    (h : s.advance cs = some t) (hs : P s)
    (step : ∀ u v kind lexeme, lexeme <:+: cs → P u → Reads u kind lexeme v → P v) : P t := by
  apply advance_preserves h hs
  intro u v f ahead hsuffix hu hf hv
  have hbegins : f.lexeme <+: ahead := ⟨f.rest, (Place.find_eq_some hf).1.1⟩
  exact step u v f.terminal f.lexeme (hbegins.isInfix.trans hsuffix.isInfix) hu
    (reads_of_accept hf hv)

end Hql.Schema
