import Hql.Proofs.Schema.Declaration
import Hql.Proofs.Schema.Step

/-!
The shape of what is read. While a schema is read, the draft fits the place: each step preserves
this, so every entity that a text defines is its own declaration, with names that are identifiers.
-/

namespace Hql

open Text Schema

/-- A property as a schema can define it. -/
structure Property.IsRead (p : Property) : Prop where
  name : isIdentifier p.name.toList = true
  notBare : ¬ p.IsBareModifier
  notBoth : ¬ (p.isUnique = true ∧ p.isIndex = true)
  description : p.description = .null

/-- The end of an edge as a schema can define it. -/
def Entity.IsReadEnd (name : Option String) : Prop :=
  ∀ s, name = some s → isIdentifier s.toList = true ∧ s ≠ undefinedEnd

/-- An entity as a schema can define it at a position. -/
structure Entity.IsReadAt (position : Nat) (e : Entity) : Prop where
  name : isIdentifier e.name.toList = true
  source : Entity.IsReadEnd e.source
  target : Entity.IsReadEnd e.target
  properties : ∀ p ∈ e.namedProperties, p.IsRead
  declared : e.declared position = e

namespace Schema

namespace Place

/-- The kind of the entity whose head is read here. -/
def kind? : Place → Option EntityKind
  | letter k | entityName k | head k => some k
  | _ => none

/-- What the fields that are read here belong to; clauses belong to edges. -/
def owner? : Place → Option Owner
  | fields o | afterUnique o | fieldName o | fieldColon o | fieldType o | itemType o | itemTypeEnd o
  | afterType o | fieldDefault o | fieldEnd o | firstItem o | afterItem o | nextItem o => some o
  | uniqueHead | clauses | sideColon _ | sideName _ | propertiesColon | propertiesBody
  | clauseEnd => some .edge
  | _ => none

/-- The name of the entity has been read. -/
def isNamed : Place → Bool
  | outside | letter _ | entityName _ => false
  | _ => true

end Place

/-- What is known of a field at a place. -/
def FieldDraft.FitsAt (f : FieldDraft) : Place → Prop
  | .fieldName _ => f = { isUnique := true } ∨ f = { isIndex := true }
  | .fieldColon _ | .fieldType _ | .itemType _ | .itemTypeEnd _ | .afterType _ | .fieldDefault _ =>
    f.property.IsRead ∧ f.default = none
  | .firstItem _ | .afterItem _ | .nextItem _ =>
    f.property.IsRead ∧ f.default = none ∧ ∀ i ∈ f.items, IsItem i.toList
  | .fieldEnd _ => f.property.IsRead
  | _ => f = {}

/-- What is known of the draft at the place of a state. -/
structure State.Sound (s : State) : Prop where
  entities : ∀ (i : Nat) (e : Entity), s.draft.entities[i]? = some e → e.IsReadAt i
  kind : ∀ k, s.place.kind? = some k → s.draft.kind = k
  owner : ∀ o, s.place.owner? = some o → (o = .edge ↔ s.draft.kind = .edge)
  name : s.place.isNamed = true → isIdentifier s.draft.name.toList = true
  source : Entity.IsReadEnd s.draft.source
  target : Entity.IsReadEnd s.draft.target
  plain : s.draft.kind ≠ .edge →
    s.draft.source = none ∧ s.draft.target = none ∧ s.draft.isUniqueRelation = false
  properties : ∀ p ∈ s.draft.properties, p.IsRead
  field : s.draft.field.FitsAt s.place

end Schema

/-! ### Declarations of what is read -/

/-- Only names, modifiers and descriptions matter. -/
theorem Property.IsRead.congr {p q : Property} (h : p.IsRead) (hname : q.name = p.name)
    (hunique : q.isUnique = p.isUnique) (hindex : q.isIndex = p.isIndex)
    (hdescription : q.description = p.description) : q.IsRead where
  name := by rw [hname]; exact h.name
  notBare := by
    rw [IsBareModifier, hname, hunique, hindex]
    exact h.notBare
  notBoth := by
    rw [hunique, hindex]
    exact h.notBoth
  description := hdescription.trans h.description

theorem Property.IsRead.declared_eq {p : Property} (h : p.IsRead) : p.declared = p := by
  obtain ⟨-, -, hboth, hdescription⟩ := h
  have hindex : (p.isIndex && !p.isUnique) = p.isIndex := by
    cases hu : p.isUnique <;> cases hi : p.isIndex <;> simp_all
  rw [Property.declared, hindex, ← hdescription]

theorem Entity.IsReadEnd.setEnd_eq {name : Option String} (h : Entity.IsReadEnd name) :
    setEnd name = name := by
  cases name with
  | none => rfl
  | some s =>
    have hs : s ≠ "" := ne_empty_of_isIdentifier (h s rfl).1
    simp [setEnd, hs]

theorem Entity.IsReadEnd.declaredEnd_eq {name : Option String} (h : Entity.IsReadEnd name) :
    Entity.declaredEnd name = name := by
  rw [Entity.declaredEnd, h.setEnd_eq]
  cases name with
  | none => rfl
  | some s => simp [(h s rfl).2]

theorem Entity.namedProperties_of_read {e : Entity} {ps : List Property}
    (he : e.properties = ps.map some) (hps : ∀ p ∈ ps, p.IsRead) : e.namedProperties = ps := by
  have hfilter : (ps.filter fun p => p.name ≠ "") = ps :=
    List.filter_eq_self.2 fun p hp => by simpa using ne_empty_of_isIdentifier (hps p hp).name
  have hgaps : (ps.map some).filterMap (fun p => p) = ps := by
    rw [List.filterMap_map]
    exact List.filterMap_some
  rw [Entity.namedProperties, he, hgaps, hfilter]

namespace Schema.State

theorem sound_start : Sound {} where
  entities := by
    intro i e he
    cases he
  kind := by
    intro k hk
    cases hk
  owner := by
    intro o ho
    cases ho
  name := by
    intro h
    cases h
  source := by
    intro s hs
    cases hs
  target := by
    intro s hs
    cases hs
  plain := fun _ => ⟨rfl, rfl, rfl⟩
  properties := by
    intro p hp
    cases hp
  field := rfl

theorem Sound.namedProperties_entity {s : State} (h : Sound s) :
    s.draft.entity.namedProperties = s.draft.properties :=
  Entity.namedProperties_of_read rfl h.properties

/-- The entity that a sound draft has read. -/
theorem Sound.isReadAt_entity {p : Place} {d : Draft} (h : Sound ⟨p, d⟩)
    (hp : p.isNamed = true) : d.entity.IsReadAt d.entities.length := by
  have hnamed : d.entity.namedProperties = d.properties := h.namedProperties_entity
  have hproperties : d.properties.map (fun p => some p.declared) = d.properties.map some := by
    apply List.map_congr_left
    intro p hp
    rw [(h.properties p hp).declared_eq]
  refine ⟨h.name hp, h.source, h.target, ?_, ?_⟩
  · rw [hnamed]
    exact h.properties
  · rw [Entity.declared, hnamed, hproperties]
    cases hk : d.kind with
    | edge =>
      have hedge : d.entity.isEdge = true := by simp [Entity.isEdge, Draft.entity, hk]
      have hsource : Entity.declaredEnd d.entity.source = d.source := h.source.declaredEnd_eq
      have htarget : Entity.declaredEnd d.entity.target = d.target := h.target.declaredEnd_eq
      simp only [hedge, hsource, htarget, if_true, Bool.true_and]
      rfl
    | _ =>
      obtain ⟨hsource, htarget, hunique⟩ :
          d.source = none ∧ d.target = none ∧ d.isUniqueRelation = false := h.plain (by simp [hk])
      have hedge : d.entity.isEdge = false := by simp [Entity.isEdge, Draft.entity, hk]
      simp only [hedge, if_false, Bool.false_and, Bool.false_eq_true]
      simp only [Draft.entity, hsource, htarget, hunique]

theorem Sound.finish {p : Place} {d : Draft} (h : Sound ⟨p, d⟩) (hp : p.isNamed = true)
    (hd : d.field = {}) : Sound ⟨.outside, d.finish⟩ where
  entities := by
    intro i e he
    have he : (d.entities ++ [d.entity])[i]? = some e := he
    rw [List.getElem?_append] at he
    split at he
    · exact h.entities i e he
    · next hi =>
      obtain ⟨hlt, hget⟩ := List.getElem?_eq_some_iff.1 he
      have hlen : i = d.entities.length := by
        simp only [List.length_singleton] at hlt
        omega
      subst hlen
      have heq : e = d.entity := by simpa using hget.symm
      rw [heq]
      exact h.isReadAt_entity hp
  kind := by
    intro k hk
    cases hk
  owner := by
    intro o ho
    cases ho
  name := by
    intro hname
    cases hname
  source := h.source
  target := h.target
  plain := h.plain
  properties := h.properties
  field := hd

theorem Sound.close {o : Owner} {d : Draft} (h : Sound ⟨.fields o, d⟩) :
    Sound ⟨.closed o, d.close o⟩ := by
  cases o with
  | plain => exact h.finish rfl h.field
  | edge => exact { h with }

theorem Sound.endField {o : Owner} {d : Draft} (h : Sound ⟨.fieldEnd o, d⟩) {m : Mark} {q : Place}
    (hm : Place.afterField o m = some q) : Sound ⟨q, d.endField o m⟩ := by
  have hfield : d.field.property.IsRead := h.field
  -- the property joins the others, and the next field may begin
  have hadd : Sound ⟨.fields o, d.addProperty d.field.property⟩ := { h with
    properties := by
      intro p hp
      rcases List.mem_append.1 hp with hp | hp
      · exact h.properties p hp
      · rw [List.mem_singleton.1 hp]
        exact hfield
    field := rfl }
  rcases Place.afterField_eq_some hm with ⟨rfl, rfl⟩ | ⟨rfl, rfl⟩
  · exact hadd
  · rw [Draft.endField_closeBrace]
    exact hadd.close

theorem isReadEnd_endOf {cs : List Char} (h : isIdentifier cs = true) :
    Entity.IsReadEnd (Draft.endOf (String.ofList cs)) := by
  intro s hs
  rw [Draft.endOf] at hs
  split at hs
  · cases hs
  · next hne =>
    obtain rfl := Option.some.inj hs
    rw [String.toList_ofList]
    exact ⟨h, hne⟩

/-- A name that stands where a field begins is none of its modifiers. -/
theorem not_modifier {o : Owner} {cs : List Char} (h : (Place.fields o).markOf? cs = none) :
    String.ofList cs ≠ "UNIQUE" ∧ String.ofList cs ≠ "INDEX" := by
  have hmark (m : Mark) (hm : (Place.fields o).accepts (.mark m) = true) :
      String.ofList cs ≠ m.text := by
    intro heq
    have hcs : cs = m.text.toList := by rw [← heq, String.toList_ofList]
    rw [hcs, Place.markOf?_text hm] at h
    cases h
  exact ⟨hmark .unique rfl, hmark .index rfl⟩

theorem isRead_fieldName {p : Place} {o : Owner} (hp : p = .fields o ∨ p = .fieldName o)
    {f : FieldDraft} (hf : f.FitsAt p) {cs : List Char} (hcs : isIdentifier cs = true)
    (hplain : p.markOf? cs = none) :
    ({ f with name := String.ofList cs } : FieldDraft).property.IsRead ∧ f.default = none := by
  have hname : isIdentifier (String.ofList cs).toList = true := by rwa [String.toList_ofList]
  rcases hp with rfl | rfl
  · obtain rfl : f = {} := hf
    obtain ⟨hunique, hindex⟩ := not_modifier hplain
    refine ⟨⟨hname, ?_, by simp [FieldDraft.property], rfl⟩, rfl⟩
    rintro ⟨heq | heq, -, -⟩
    · exact hunique heq
    · exact hindex heq
  · rcases hf with rfl | rfl
    · refine ⟨⟨hname, ?_, by simp [FieldDraft.property], rfl⟩, rfl⟩
      rintro ⟨-, hfalse, -⟩
      cases hfalse
    · refine ⟨⟨hname, ?_, by simp [FieldDraft.property], rfl⟩, rfl⟩
      rintro ⟨-, -, hfalse⟩
      cases hfalse

theorem isItem_of_literal {t : Terminal} (ht : t.isLiteral = true) {cs : List Char}
    (h : t.Spells cs) : IsItem cs := by
  cases t with
  | mark m => cases ht
  | name => exact .inl h
  | quoted => exact .inr (.inr h)
  | number => exact .inr (.inl h)

/-- Every token keeps the draft fitting the place. -/
theorem Sound.step {u v : State} {t : Terminal} {cs : List Char} (h : Sound u)
    (r : Reads u t cs v) : Sound v := by
  have hspells := r.spells
  have hplain := r.plain
  cases r.step with
  | letter k d =>
    exact {
      entities := h.entities
      kind := by
        intro k' hk
        exact Option.some.inj hk
      owner := by
        intro o ho
        cases ho
      name := by
        intro hname
        cases hname
      source := by
        intro s hs
        cases hs
      target := by
        intro s hs
        cases hs
      plain := fun _ => ⟨rfl, rfl, rfl⟩
      properties := by
        intro p hp
        cases hp
      field := rfl }
  | colons k d => exact { h with }
  | entityName k d =>
    exact { h with
      name := by
        intro _
        show isIdentifier (String.ofList cs).toList = true
        rw [String.toList_ofList]
        exact hspells }
  | uniqueRelation d =>
    have hedge := h.kind .edge rfl
    exact { h with
      kind := by
        intro k hk
        cases hk
      owner := by
        intro o ho
        obtain rfl := Option.some.inj ho
        exact ⟨fun _ => hedge, fun _ => rfl⟩
      plain := fun hne => absurd hedge hne }
  | @openPlain k hk d =>
    have hkind := h.kind k rfl
    exact { h with
      kind := by
        intro k hk
        cases hk
      owner := by
        intro o ho
        obtain rfl := Option.some.inj ho
        have hplain : d.kind ≠ .edge := fun hedge => hk (hkind.symm.trans hedge)
        constructor
        · intro howner
          cases howner
        · intro hedge
          exact absurd hedge hplain }
  | openEdge d =>
    have hedge := h.kind .edge rfl
    exact { h with
      kind := by
        intro k hk
        cases hk
      owner := by
        intro o ho
        obtain rfl := Option.some.inj ho
        exact ⟨fun _ => hedge, fun _ => rfl⟩ }
  | openUniqueEdge d => exact { h with }
  -- the clauses of an edge
  | side side d => exact { h with }
  | sideColon side d => exact { h with }
  | sideName side d =>
    have hedge : d.kind = .edge := (h.owner .edge rfl).1 rfl
    have hend := isReadEnd_endOf hspells
    cases side with
    | source => exact { h with source := hend, plain := fun hne => absurd hedge hne }
    | target => exact { h with target := hend, plain := fun hne => absurd hedge hne }
  | properties d => exact { h with }
  | propertiesColon d => exact { h with }
  | propertiesBody d =>
    exact { h with
      properties := by
        intro p hp
        cases hp }
  | clauseComma d => exact { h with }
  | closeEdge hp d =>
    rcases hp with rfl | rfl
    · exact h.finish rfl h.field
    · exact h.finish rfl h.field
  -- the modifiers and the name of a field
  | unique o d => exact { h with }
  | uniqueIndex o d =>
    have hfield : d.field = {} := h.field
    exact { h with field := .inl (by rw [Draft.withField, hfield]) }
  | index o d =>
    have hfield : d.field = {} := h.field
    exact { h with field := .inr (by rw [Draft.withField, hfield]) }
  | @fieldName p o hp d =>
    have hfield := isRead_fieldName hp h.field hspells (hplain rfl)
    rcases hp with rfl | rfl
    · exact { h with field := hfield }
    · exact { h with field := hfield }
  | closeFields o d => exact h.close
  -- the type of a field
  | fieldColon o d => exact { h with }
  | fieldType o d => exact { h with field := ⟨h.field.1.congr rfl rfl rfl rfl, h.field.2⟩ }
  | listType o d => exact { h with field := ⟨h.field.1.congr rfl rfl rfl rfl, h.field.2⟩ }
  | itemType o d => exact { h with field := ⟨h.field.1.congr rfl rfl rfl rfl, h.field.2⟩ }
  | itemTypeEnd o d => exact { h with }
  -- the end of a field
  | default o d type => exact { h with field := ⟨h.field.1.congr rfl rfl rfl rfl, h.field.2⟩ }
  | @endType o m q hm d type =>
    have hend : Sound ⟨.fieldEnd o, d.withField fun f => { f with type }⟩ :=
      { h with field := h.field.1.congr rfl rfl rfl rfl }
    exact hend.endField hm
  | endDefault hm d => exact h.endField hm
  -- the default of a field
  | literal o ht d => exact { h with field := h.field.1.congr rfl rfl rfl rfl }
  | openList o d =>
    exact { h with
      field := by
        refine ⟨h.field.1.congr rfl rfl rfl rfl, h.field.2, ?_⟩
        intro i hi
        cases hi }
  | @item p o hp t ht d =>
    have hfield : d.field.property.IsRead ∧ d.field.default = none ∧
        ∀ i ∈ d.field.items, IsItem i.toList := by
      rcases hp with rfl | rfl
      · exact h.field
      · exact h.field
    have hitems : ∀ i ∈ d.field.items ++ [String.ofList cs], IsItem i.toList := by
      intro i hi
      rcases List.mem_append.1 hi with hi | hi
      · exact hfield.2.2 i hi
      · rw [List.mem_singleton.1 hi, String.toList_ofList]
        exact isItem_of_literal ht hspells
    have hnew := And.intro (hfield.1.congr rfl rfl rfl rfl) (And.intro hfield.2.1 hitems)
    rcases hp with rfl | rfl
    · exact { h with field := hnew }
    · exact { h with field := hnew }
  | itemComma o d => exact { h with }
  | closeList hp d =>
    rcases hp with rfl | rfl
    · exact { h with field := h.field.1.congr rfl rfl rfl rfl }
    · exact { h with field := h.field.1.congr rfl rfl rfl rfl }

/-- Every state that a text leads to is sound. -/
theorem Sound.advance {s t : State} {cs : List Char} (hs : Sound s)
    (h : s.advance cs = some t) : Sound t :=
  advance_induction h hs fun _ _ _ _ _ hu hr => hu.step hr

end Schema.State

/-- The entities of a text are what a schema can define, in their order. -/
theorem Schema.isReadAt_of_entities? {cs : List Char} {es : List Entity}
    (h : entities? cs = .ok es) {i : Nat} {e : Entity} (he : es[i]? = some e) : e.IsReadAt i := by
  rcases entities?_eq_ok_iff.1 h with ⟨-, rfl⟩ | ⟨-, t, ht, -, rfl⟩
  · cases he
  · exact (State.sound_start.advance ht).entities i e he

end Hql
