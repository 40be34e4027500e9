import Hql.Proofs.Schema.Leading
import Hql.Proofs.Schema.Shape

/-!
Where properties come from. While a schema is read, each property that has been read so far stands in
the tokens before: as a field with its modifiers, its name, a name of its type and a literal that its
default stands for. Main statement: `IsDeclaredIn.of_entities?`, for the entities of a whole text.
-/

namespace Hql.Schema

open Text

/-- A token wherever it stands: its kind and its text. -/
abbrev Piece := Terminal × List Char

/-- A token without its place and offset. -/
def Token.piece (t : Token) : Piece := (t.terminal, t.lexeme)

/-- The mark as a token. -/
def Mark.piece (m : Mark) : Piece := (.mark m, m.text.toList)

/-- The tokens of a schema text. -/
def pieces (cs : List Char) : List Piece := (scan .outside 0 cs).1.map Token.piece

/-! ### The tokens of a field -/

/-- A token that may be a literal or an item of a list: a name, a number or a quoted text. -/
def Piece.IsLiteral (x : Piece) : Prop := x.1.isLiteral = true ∧ x.1.Spells x.2

/-- The tokens of a literal, and the default that it stands for. The items of a list keep their
text. -/
inductive StandsFor : List Piece → String → Prop
  | plain {x : Piece} (h : x.IsLiteral) : StandsFor [x] (literalText x.1 x.2)
  | list {items : List Piece} (h : ∀ x ∈ items, x.IsLiteral) :
    StandsFor (Mark.openBracket.piece :: (items.intersperse Mark.comma.piece ++
      [Mark.closeBracket.piece])) (Draft.listText (items.map fun x => String.ofList x.2))

/-- The tokens at the end of a field, and the default of its property. -/
inductive DeclaresDefault : List Piece → Option String → Prop
  | absent : DeclaresDefault [] none
  | present {ts : List Piece} {s : String} (h : StandsFor ts s) :
    DeclaresDefault (Mark.default.piece :: ts) (some s)

/-- The modifiers of a field. -/
def modifierPieces (isUnique isIndex : Bool) : List Piece :=
  if isUnique then [Mark.unique.piece, Mark.index.piece]
  else if isIndex then [Mark.index.piece]
  else []

/-- The type of a field, by its name. -/
def typePieces (isArray : Bool) (name : String) : List Piece :=
  if isArray then [Mark.openBracket.piece, (.name, name.toList), Mark.closeBracket.piece]
  else [(.name, name.toList)]

/-- A field up to its type. -/
def headPieces (isUnique isIndex : Bool) (name : String) : List Piece :=
  modifierPieces isUnique isIndex ++ [(.name, name.toList), Mark.colon.piece]

/-- The tokens are a field that declares the property. -/
def DeclaresField (ts : List Piece) (p : Property) : Prop :=
  ∃ typeName clause, PropertyType.ofName? typeName = some p.type ∧
    DeclaresDefault clause p.defaultValue ∧
    ts = headPieces p.isUnique p.isIndex p.name ++ typePieces p.isArray typeName ++ clause

/-- The property stands among the tokens. -/
def IsDeclaredIn (done : List Piece) (p : Property) : Prop :=
  ∃ ts, ts <:+: done ∧ DeclaresField ts p

theorem IsDeclaredIn.append {done : List Piece} {p : Property} (h : IsDeclaredIn done p)
    (more : List Piece) : IsDeclaredIn (done ++ more) p := by
  obtain ⟨ts, hts, hfield⟩ := h
  exact ⟨ts, hts.trans (List.prefix_append done more).isInfix, hfield⟩

/-! ### Reading with the tokens before -/

/-- What every token preserves together with the tokens before it, reading a text preserves. -/
theorem State.advance_history {P : List Piece → State → Prop} {s t : State} {cs : List Char}
    {done : List Piece} (h : s.advance cs = some t) (hs : P done s) (offset : Nat)
    (step : ∀ before u v kind lexeme, P before u → Reads u kind lexeme v →
      P (before ++ [(kind, lexeme)]) v) :
    P (done ++ (scan s.place offset cs).1.map Token.piece) t := by
  induction hn : cs.length using Nat.strong_induction_on generalizing s cs done offset with
  | _ n ih =>
    rcases advance_eq_some h with ⟨hnil, rfl⟩ | ⟨f, next, hf, hnext, hrest⟩
    · rw [scan_of_layout hnil, List.map_nil, List.append_nil]
      exact hs
    · -- behind the layout the scan finds the token that the walk takes
      obtain ⟨gap, hgap, hcs⟩ := exists_gap fun hnil => by
        rw [hnil] at hf
        exact Nat.not_lt_zero _ (Place.find_rest_length hf)
      have hlen : f.rest.length < n := hn ▸ Place.find_skipLayout_rest_length hf
      have hplace : next.place = f.place := by
        obtain ⟨d, -, rfl⟩ := Option.map_eq_some_iff.1 hnext
        rfl
      have hstep := step done s next f.terminal f.lexeme hs (reads_of_accept hf hnext)
      have hmore := ih f.rest.length hlen hrest hstep (offset + gap.length + f.lexeme.length) rfl
      rw [hplace, List.append_assoc] at hmore
      rw [hcs, scan_gap hgap, scan_of_find hf]
      exact hmore

/-! ### The field that is being read -/

/-- The tokens of a field up to its type, as far as they are in the draft. -/
def FieldDraft.head (f : FieldDraft) : List Piece := headPieces f.isUnique f.isIndex f.name

/-- The tokens of a field up to its default. -/
def FieldDraft.typed (f : FieldDraft) : List Piece := f.head ++ typePieces f.isArray f.typeName

/-- The tokens of a field up to the items of its default. -/
def FieldDraft.listed (f : FieldDraft) (items : List Piece) : List Piece :=
  f.typed ++ Mark.default.piece :: Mark.openBracket.piece :: items.intersperse Mark.comma.piece

/-- The items of the list that is being read. -/
def FieldDraft.HasItems (f : FieldDraft) (items : List Piece) : Prop :=
  PropertyType.ofName? f.typeName = some f.type ∧
    f.items = items.map (fun x => String.ofList x.2) ∧ ∀ x ∈ items, x.IsLiteral

/-- The tokens since the beginning of the field that is being read at a place; none where no field
has been begun. -/
def FieldDraft.ReadFrom (f : FieldDraft) (ts : List Piece) : Place → Prop
  | .afterUnique _ => ts = [Mark.unique.piece]
  | .fieldName _ => ts = modifierPieces f.isUnique f.isIndex ∧ f.isArray = false
  | .fieldColon _ =>
    ts = modifierPieces f.isUnique f.isIndex ++ [(.name, f.name.toList)] ∧ f.isArray = false
  | .fieldType _ => ts = f.head ∧ f.isArray = false
  | .itemType _ => ts = f.head ++ [Mark.openBracket.piece] ∧ f.isArray = true
  | .itemTypeEnd _ =>
    ts = f.head ++ [Mark.openBracket.piece, (.name, f.typeName.toList)] ∧ f.isArray = true
  | .afterType _ => ts = f.typed
  | .fieldDefault _ =>
    ts = f.typed ++ [Mark.default.piece] ∧ PropertyType.ofName? f.typeName = some f.type
  | .firstItem _ => ts = f.listed [] ∧ f.HasItems []
  | .afterItem _ => ∃ items, items ≠ [] ∧ ts = f.listed items ∧ f.HasItems items
  | .nextItem _ =>
    ∃ items, items ≠ [] ∧ ts = f.listed items ++ [Mark.comma.piece] ∧ f.HasItems items
  | .fieldEnd _ => DeclaresField ts f.property
  | _ => ts = []

theorem intersperse_concat {α : Type} {items : List α} (h : items ≠ []) (x sep : α) :
    (items ++ [x]).intersperse sep = items.intersperse sep ++ [sep, x] := by
  induction items with
  | nil => exact absurd rfl h
  | cons y items ih =>
    cases items with
    | nil => rfl
    | cons z items =>
      show y :: sep :: ((z :: items) ++ [x]).intersperse sep = _
      rw [ih (List.cons_ne_nil z items)]
      rfl

theorem FieldDraft.listed_concat (f : FieldDraft) {items : List Piece} (h : items ≠ []) (x : Piece) :
    f.listed items ++ [Mark.comma.piece] ++ [x] = f.listed (items ++ [x]) := by
  rw [listed, listed, intersperse_concat h, List.append_assoc, List.append_assoc]
  rfl

theorem FieldDraft.HasItems.concat {f : FieldDraft} {items : List Piece} (h : f.HasItems items)
    {x : Piece} (hx : x.IsLiteral) :
    ({ f with items := f.items ++ [String.ofList x.2] } : FieldDraft).HasItems (items ++ [x]) := by
  obtain ⟨htype, htexts, hitems⟩ := h
  refine ⟨htype, ?_, ?_⟩
  · rw [List.map_append, ← htexts]
    rfl
  · intro y hy
    rcases List.mem_append.1 hy with hy | hy
    · exact hitems y hy
    · rw [List.mem_singleton.1 hy]
      exact hx

theorem FieldDraft.HasItems.declares {f : FieldDraft} {items : List Piece} (h : f.HasItems items) :
    DeclaresField (f.listed items ++ [Mark.closeBracket.piece])
      ({ f with default := some (Draft.listText f.items) } : FieldDraft).property := by
  obtain ⟨htype, htexts, hitems⟩ := h
  refine ⟨f.typeName, _, htype, ?_, List.append_assoc _ _ _⟩
  show DeclaresDefault _ (some (Draft.listText f.items))
  rw [htexts]
  exact .present (.list hitems)

namespace State

/-- The properties of a state stand in the tokens before it, and the field that is being read ends
them. -/
structure Sourced (done : List Piece) (s : State) : Prop where
  entities : ∀ e ∈ s.draft.entities, ∀ p, some p ∈ e.properties → IsDeclaredIn done p
  properties : ∀ p ∈ s.draft.properties, IsDeclaredIn done p
  field : ∃ ts, ts <:+ done ∧ s.draft.field.ReadFrom ts s.place

section Sourced

variable {done : List Piece} {u v : State} {x : Piece} {d : Draft} {o : Owner}

/-- A token that adds no property. -/
theorem Sourced.concat (h : Sourced done u) (hentities : v.draft.entities = u.draft.entities)
    (hproperties : v.draft.properties ⊆ u.draft.properties)
    (hfield : ∃ ts, ts <:+ done ++ [x] ∧ v.draft.field.ReadFrom ts v.place) :
    Sourced (done ++ [x]) v where
  entities := by
    rw [hentities]
    exact fun e he p hp => (h.entities e he p hp).append [x]
  properties := fun p hp => (h.properties p (hproperties hp)).append [x]
  field := hfield

/-- A token that leaves no field begun. -/
theorem Sourced.outside (h : Sourced done u) (hentities : v.draft.entities = u.draft.entities)
    (hproperties : v.draft.properties ⊆ u.draft.properties)
    (hfield : v.draft.field.ReadFrom [] v.place) : Sourced (done ++ [x]) v :=
  h.concat hentities hproperties ⟨[], List.nil_suffix, hfield⟩

/-- A token of a field. -/
theorem Sourced.within (h : Sourced done u) (hentities : v.draft.entities = u.draft.entities)
    (hproperties : v.draft.properties ⊆ u.draft.properties)
    (hfield : ∀ ts, u.draft.field.ReadFrom ts u.place →
      v.draft.field.ReadFrom (ts ++ [x]) v.place) : Sourced (done ++ [x]) v := by
  obtain ⟨ts, ⟨before, rfl⟩, hread⟩ := h.field
  have hends : ts ++ [x] <:+ before ++ ts ++ [x] := ⟨before, (List.append_assoc _ _ _).symm⟩
  exact h.concat hentities hproperties ⟨ts ++ [x], hends, hfield ts hread⟩

/-- The entity at the end of a definition has the properties that have been read. -/
theorem Sourced.finish (h : Sourced done ⟨.outside, d⟩) : Sourced done ⟨.outside, d.finish⟩ where
  entities := by
    intro e he p hp
    rcases List.mem_append.1 he with he | he
    · exact h.entities e he p hp
    · rw [List.mem_singleton.1 he] at hp
      obtain ⟨p', hp', heq⟩ := List.mem_map.1 hp
      rw [← Option.some.inj heq]
      exact h.properties p' hp'
  properties := h.properties
  field := h.field

theorem Sourced.close (h : Sourced done ⟨.fields o, d⟩) : Sourced done ⟨.closed o, d.close o⟩ := by
  cases o with
  | plain => exact Sourced.finish { h with }
  | edge => exact { h with }

/-- The property at the end of a field stands in the tokens of the field. -/
theorem Sourced.endField (h : Sourced done ⟨.fieldEnd o, d⟩) {m : Mark} {q : Place}
    (hm : Place.afterField o m = some q) : Sourced (done ++ [x]) ⟨q, d.endField o m⟩ := by
  obtain ⟨ts, hts, hdeclares⟩ := h.field
  have hadd : Sourced (done ++ [x]) ⟨.fields o, d.addProperty d.field.property⟩ := {
    entities := fun e he p hp => (h.entities e he p hp).append [x]
    properties := by
      intro p hp
      rcases List.mem_append.1 hp with hp | hp
      · exact (h.properties p hp).append [x]
      · rw [List.mem_singleton.1 hp]
        exact IsDeclaredIn.append ⟨ts, hts.isInfix, hdeclares⟩ [x]
    field := ⟨[], List.nil_suffix, rfl⟩ }
  rcases Place.afterField_eq_some hm with ⟨rfl, rfl⟩ | ⟨rfl, rfl⟩
  · exact hadd
  · rw [Draft.endField_closeBrace]
    exact hadd.close

/-- Every token keeps the properties among the tokens. -/
theorem Sourced.step {kind : Terminal} {cs : List Char} (h : Sourced done u) (hu : Sound u)
    (r : Reads u kind cs v) : Sourced (done ++ [(kind, cs)]) v := by
  have hspells := r.spells
  have hpush := r.push
  cases r.step with
  | letter | propertiesBody => exact h.outside rfl (List.nil_subset _) rfl
  | colons | entityName | uniqueRelation | openPlain | openEdge | openUniqueEdge | side | sideColon
  | properties | propertiesColon | clauseComma => exact h.outside rfl (List.Subset.refl _) rfl
  | sideName side d => cases side <;> exact h.outside rfl (List.Subset.refl _) rfl
  | closeEdge hp d =>
    have hclosed : Sourced (done ++ [(.mark .closeBrace, cs)]) ⟨.outside, d⟩ :=
      h.outside rfl (List.Subset.refl _) rfl
    exact hclosed.finish
  -- the modifiers and the name of a field
  | unique o d =>
    obtain rfl : cs = Mark.unique.text.toList := hspells
    refine h.within rfl (List.Subset.refl _) ?_
    rintro ts rfl
    rfl
  | uniqueIndex o d =>
    obtain rfl : cs = Mark.index.text.toList := hspells
    have hfield : d.field = {} := hu.field
    refine h.within rfl (List.Subset.refl _) ?_
    rintro ts rfl
    simp only [Draft.withField, hfield]
    exact ⟨rfl, rfl⟩
  | index o d =>
    obtain rfl : cs = Mark.index.text.toList := hspells
    have hfield : d.field = {} := hu.field
    refine h.within rfl (List.Subset.refl _) ?_
    rintro ts rfl
    simp only [Draft.withField, hfield]
    exact ⟨rfl, rfl⟩
  | @fieldName p o hp d =>
    refine h.within rfl (List.Subset.refl _) ?_
    rcases hp with rfl | rfl
    · have hfield : d.field = {} := hu.field
      rintro ts rfl
      simp only [Draft.withField, hfield]
      exact ⟨by rw [String.toList_ofList]; rfl, rfl⟩
    · rintro ts ⟨rfl, harray⟩
      refine ⟨?_, harray⟩
      show _ = modifierPieces d.field.isUnique d.field.isIndex ++ [(.name, (String.ofList cs).toList)]
      rw [String.toList_ofList]
  | closeFields o d =>
    have hclosed : Sourced (done ++ [(.mark .closeBrace, cs)]) ⟨.fields o, d⟩ :=
      h.outside rfl (List.Subset.refl _) rfl
    exact hclosed.close
  -- the type of a field
  | fieldColon o d =>
    obtain rfl : cs = Mark.colon.text.toList := hspells
    refine h.within rfl (List.Subset.refl _) ?_
    rintro ts ⟨rfl, harray⟩
    exact ⟨List.append_assoc _ _ _, harray⟩
  | fieldType o d =>
    refine h.within rfl (List.Subset.refl _) ?_
    rintro ts ⟨rfl, harray⟩
    show d.field.head ++ [(.name, cs)] =
      d.field.head ++ typePieces d.field.isArray (String.ofList cs)
    rw [harray, typePieces, if_neg Bool.false_ne_true, String.toList_ofList]
  | listType o d =>
    obtain rfl : cs = Mark.openBracket.text.toList := hspells
    refine h.within rfl (List.Subset.refl _) ?_
    rintro ts ⟨rfl, -⟩
    exact ⟨rfl, rfl⟩
  | itemType o d =>
    refine h.within rfl (List.Subset.refl _) ?_
    rintro ts ⟨rfl, harray⟩
    refine ⟨?_, harray⟩
    show d.field.head ++ [Mark.openBracket.piece] ++ [(.name, cs)] =
      d.field.head ++ [Mark.openBracket.piece, (.name, (String.ofList cs).toList)]
    rw [String.toList_ofList, List.append_assoc, List.singleton_append]
  | itemTypeEnd o d =>
    obtain rfl : cs = Mark.closeBracket.text.toList := hspells
    refine h.within rfl (List.Subset.refl _) ?_
    rintro ts ⟨rfl, harray⟩
    show d.field.head ++ [Mark.openBracket.piece, (.name, d.field.typeName.toList)] ++
      [Mark.closeBracket.piece] = d.field.head ++ typePieces d.field.isArray d.field.typeName
    rw [harray, typePieces, if_pos rfl, List.append_assoc]
    rfl
  -- the end of a field
  | default o d type =>
    obtain rfl : cs = Mark.default.text.toList := hspells
    obtain ⟨type', htype, heq⟩ := Draft.resolveType_eq_ok hpush
    obtain rfl : type = type' := congrArg (fun d => d.field.type) heq
    refine h.within rfl (List.Subset.refl _) ?_
    rintro ts rfl
    exact ⟨rfl, htype⟩
  | @endType o m q hm d type =>
    -- the type is looked up only here, and no default has been read
    obtain ⟨d₁, hresolve, heq⟩ : ∃ d₁, d.resolveType = .ok d₁ ∧
        (d.withField fun f => { f with type }).endField o m = d₁.endField o m := by
      rcases Place.afterField_eq_some hm with ⟨rfl, -⟩ | ⟨rfl, -⟩ <;>
        exact Draft.push_endType hpush
    obtain ⟨type', htype, rfl⟩ := Draft.resolveType_eq_ok hresolve
    obtain ⟨ts, hts, rfl⟩ := h.field
    have hnone : d.field.default = none := hu.field.2
    have hdeclares : DeclaresField d.field.typed ({ d.field with type := type' }).property := by
      refine ⟨d.field.typeName, [], htype, ?_, (List.append_nil _).symm⟩
      show DeclaresDefault [] d.field.default
      rw [hnone]
      exact .absent
    have hend : Sourced done ⟨.fieldEnd o, d.withField fun f => { f with type := type' }⟩ :=
      { h with field := ⟨d.field.typed, hts, hdeclares⟩ }
    rw [heq]
    exact hend.endField hm
  | endDefault hm d => exact h.endField hm
  -- the default of a field
  | literal o ht d =>
    refine h.within rfl (List.Subset.refl _) ?_
    rintro ts ⟨rfl, htype⟩
    exact ⟨d.field.typeName, _, htype, .present (.plain ⟨ht, hspells⟩), List.append_assoc _ _ _⟩
  | openList o d =>
    obtain rfl : cs = Mark.openBracket.text.toList := hspells
    refine h.within rfl (List.Subset.refl _) ?_
    rintro ts ⟨rfl, htype⟩
    exact ⟨List.append_assoc _ _ _, htype, rfl, List.forall_mem_nil _⟩
  | @item p o hp t ht d =>
    have hx : Piece.IsLiteral (kind, cs) := ⟨ht, hspells⟩
    refine h.within rfl (List.Subset.refl _) ?_
    rcases hp with rfl | rfl
    · rintro ts ⟨rfl, hitems⟩
      exact ⟨[(kind, cs)], List.cons_ne_nil _ _, List.append_assoc _ _ _, hitems.concat hx⟩
    · rintro ts ⟨items, hne, rfl, hitems⟩
      exact ⟨items ++ [(kind, cs)], List.append_ne_nil_of_left_ne_nil hne _,
        d.field.listed_concat hne _, hitems.concat hx⟩
  | itemComma o d =>
    obtain rfl : cs = Mark.comma.text.toList := hspells
    refine h.within rfl (List.Subset.refl _) ?_
    rintro ts ⟨items, hne, rfl, hitems⟩
    exact ⟨items, hne, rfl, hitems⟩
  | @closeList p o hp d =>
    obtain rfl : cs = Mark.closeBracket.text.toList := hspells
    refine h.within rfl (List.Subset.refl _) ?_
    rcases hp with rfl | rfl
    · rintro ts ⟨rfl, hitems⟩
      exact hitems.declares
    · rintro ts ⟨items, -, rfl, hitems⟩
      exact hitems.declares

end Sourced

theorem sourced_start : Sourced [] {} where
  entities := by
    intro e he
    cases he
  properties := by
    intro p hp
    cases hp
  field := ⟨[], List.nil_suffix, rfl⟩

/-- Every state that a text leads to has its properties in the tokens of the text. -/
theorem Sourced.advance {s t : State} {cs : List Char} {done : List Piece} (hs : Sound s)
    (h : Sourced done s) (ht : s.advance cs = some t) (offset : Nat) :
    Sourced (done ++ (scan s.place offset cs).1.map Token.piece) t := by
  have hboth := advance_history (P := fun before u => Sound u ∧ Sourced before u) ht ⟨hs, h⟩ offset
    fun before u v kind lexeme hu hr => ⟨hu.1.step hr, hu.2.step hu.1 hr⟩
  exact hboth.2

end State

/-- The properties of what a text defines stand in its tokens. -/
theorem IsDeclaredIn.of_entities? {cs : List Char} {es : List Entity} (h : entities? cs = .ok es)
    {e : Entity} (he : e ∈ es) {p : Property} (hp : some p ∈ e.properties) :
    IsDeclaredIn (pieces cs) p := by
  rcases entities?_eq_ok_iff.1 h with ⟨-, rfl⟩ | ⟨-, t, ht, -, rfl⟩
  · cases he
  · exact (State.sourced_start.advance State.sound_start ht 0).entities e he p hp

end Hql.Schema
