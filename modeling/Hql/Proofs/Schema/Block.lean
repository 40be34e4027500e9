import Hql.Proofs.Schema.Field

/-!
Definitions in schema text. The block of an entity is read as one entity, whatever was read before
it and whatever follows.
-/

namespace Hql.Schema

open Text

namespace Draft

/-- The draft with more properties, and no field begun. -/
def addProperties (d : Draft) (ps : List Property) : Draft :=
  { d with properties := d.properties ++ ps, field := {} }

theorem addProperties_nil {d : Draft} (hd : d.field = {}) : d.addProperties [] = d := by
  rw [addProperties, List.append_nil, ← hd]

theorem addProperties_cons (d : Draft) (p : Property) (ps : List Property) :
    (d.addProperty p).addProperties ps = d.addProperties (p :: ps) := by
  simp [addProperties, addProperty]

end Draft

/-- The lines of fields, without the end of the last line. -/
def fieldsText (indent : String) (ps : List Property) : List Char :=
  (String.intercalate ",\n" (ps.map fun p => indent ++ p.fieldText)).toList

theorem fieldsText_singleton (indent : String) (p : Property) :
    fieldsText indent [p] = indent.toList ++ p.fieldText.toList := by
  simp [fieldsText]

theorem fieldsText_cons (indent : String) (p q : Property) (ps : List Property) :
    fieldsText indent (p :: q :: ps) =
      indent.toList ++ p.fieldText.toList ++ ',' :: '\n' :: fieldsText indent (q :: ps) := by
  simp [fieldsText]

theorem fieldLines_toList (e : Entity) (indent : String) :
    (e.fieldLines indent).toList =
      if e.namedProperties = [] then [] else fieldsText indent e.namedProperties ++ ['\n'] := by
  rw [Entity.fieldLines]
  cases e.namedProperties with
  | nil => rfl
  | cons p ps => simp [fieldsText]

theorem isLayoutChar_tab : ∀ c ∈ tab.toList, isLayoutChar c = true :=
  forall_mem_of_all (by decide)

/-! ### The parts of a block -/

/-- A line with an end of an edge. -/
def clauseLine (m : Mark) (name : String) : List Char :=
  tab.toList ++ (m.text.toList ++ ':' :: ' ' :: (name.toList ++ [',']))

/-- The line with the name of an edge. -/
def edgeLine (e : Entity) : List Char :=
  Mark.edge.text.toList ++ (':' :: ':' :: (e.name.toList ++ ' ' ::
    (if e.isUniqueRelation then "UNIQUE \x7b".toList else ['{'])))

/-- The lines of a block before its fields. -/
def headText (e : Entity) : List Char :=
  if e.isEdge then
    edgeLine e ++ '\n' :: (clauseLine .source (endName e.source) ++ '\n' ::
      (clauseLine .target (endName e.target) ++ '\n' :: (tab ++ "Properties: \x7b").toList))
  else (Mark.ofKind e.kind).text.toList ++ (':' :: ':' :: (e.name.toList ++ [' ', '{']))

/-- What the fields of a block belong to. -/
def ownerOf (e : Entity) : Owner := if e.isEdge then .edge else .plain

/-- What stands before each field of a block. -/
def indentOf (e : Entity) : String := if e.isEdge then tab ++ tab else tab

/-- What stands before the closing brace of the fields of a block. -/
def closeIndentOf (e : Entity) : String := if e.isEdge then tab else ""

/-- The rest of a block after the closing brace of its fields. -/
def endText (e : Entity) : List Char := if e.isEdge then ['\n', '}'] else []

theorem block_toList (e : Entity) :
    e.block.toList = headText e ++ '\n' ::
      ((e.fieldLines (indentOf e)).toList ++ ((closeIndentOf e).toList ++ '}' :: endText e)) := by
  cases hk : e.kind with
  | edge =>
    have he : e.isEdge = true := by simp [Entity.isEdge, hk]
    have hletter : "E::".toList = Mark.edge.text.toList ++ [':', ':'] := rfl
    have hunique (cs : List Char) : (if e.isUniqueRelation then " UNIQUE" else "").toList ++
        (" \x7b\n".toList ++ cs) =
          ' ' :: ((if e.isUniqueRelation then "UNIQUE \x7b".toList else ['{']) ++ '\n' :: cs) := by
      cases e.isUniqueRelation <;> rfl
    have hsource : "From: ".toList = Mark.source.text.toList ++ [':', ' '] := rfl
    have htarget : "To: ".toList = Mark.target.text.toList ++ [':', ' '] := rfl
    have hcomma : ",\n".toList = [',', '\n'] := rfl
    have hbody : "Properties: \x7b\n".toList = "Properties: \x7b".toList ++ ['\n'] := rfl
    have hend : "\x7d\n\x7d".toList = ['}', '\n', '}'] := rfl
    have hblock : e.block = e.edgeBlock := by simp only [Entity.block, hk]
    rw [hblock]
    unfold Entity.edgeBlock
    simp only [he, if_true, headText, edgeLine, clauseLine, indentOf, closeIndentOf, endText,
      String.toList_append, List.append_assoc, hletter, hunique, hsource, htarget, hcomma, hbody,
      hend, List.cons_append, List.nil_append]
  | node =>
    have he : e.isEdge = false := by simp [Entity.isEdge, hk]
    simp [Entity.block, Entity.plainBlock, hk, he, headText, indentOf, closeIndentOf, endText,
      Mark.text, Mark.ofKind]
  | vector =>
    have he : e.isEdge = false := by simp [Entity.isEdge, hk]
    simp [Entity.block, Entity.plainBlock, hk, he, headText, indentOf, closeIndentOf, endText,
      Mark.text, Mark.ofKind]

theorem isLayoutChar_indentOf (e : Entity) :
    ∀ c ∈ (indentOf e).toList, isLayoutChar c = true := by
  apply forall_mem_of_all
  rw [indentOf]
  split <;> decide

theorem isLayoutChar_closeIndentOf (e : Entity) :
    ∀ c ∈ (closeIndentOf e).toList, isLayoutChar c = true := by
  apply forall_mem_of_all
  rw [closeIndentOf]
  split <;> decide

theorem isIdentifier_undefinedEnd : isIdentifier undefinedEnd.toList = true := by decide

namespace State

/-- Fields up to the closing brace after them. -/
theorem advance_fields {indent blank : String}
    (hindent : ∀ c ∈ indent.toList, isLayoutChar c = true)
    (hblank : ∀ c ∈ blank.toList, isLayoutChar c = true) (o : Owner) (p : Property)
    (ps : List Property) (h : ∀ q ∈ p :: ps, q.IsDeclarable) {d : Draft} (hd : d.field = {})
    (rest : List Char) :
    advance ⟨.fields o, d⟩ (fieldsText indent (p :: ps) ++ '\n' :: (blank.toList ++ '}' :: rest)) =
      advance ⟨.closed o, (d.addProperties ((p :: ps).map Property.declared)).close o⟩ rest := by
  obtain ⟨d', items, hdefault, hproperty, hadd, hfield⟩ := advance_field (h p (by simp)) o hd
  -- the last field is ended by the brace, each of the others by a comma
  induction ps generalizing p d d' items with
  | nil =>
    have hclose : advance (fieldState p o d' items) ('\n' :: (blank.toList ++ '}' :: rest)) =
        advance (fieldState p o d' items) ('}' :: rest) := by
      rw [← advance_layout hblank ('}' :: rest)]
      exact advance_congr rfl
    rw [fieldsText_singleton, List.append_assoc, advance_layout hindent,
      hfield _ (apart_of_head _ (by decide)), hclose, advance_fieldBrace p o hdefault, hproperty,
      hadd]
    rfl
  | cons q ps ih =>
    have hq := h q (by simp)
    have hmore : ∀ x ∈ q :: ps, x.IsDeclarable := fun x hx => h x (List.mem_cons_of_mem p hx)
    have hnewline (s : State) (cs : List Char) : advance s ('\n' :: cs) = advance s cs :=
      advance_congr rfl
    obtain ⟨d₁, items₁, hdefault₁, hproperty₁, hadd₁, hfield₁⟩ :=
      advance_field hq o (d := d.addProperty p.declared) rfl
    have hrest := ih q hmore rfl d₁ items₁ hdefault₁ hproperty₁ hadd₁ hfield₁
    rw [fieldsText_cons, List.append_assoc, List.append_assoc, advance_layout hindent,
      List.cons_append, List.cons_append, hfield _ (apart_of_head _ (by decide)),
      advance_fieldComma p o hdefault, hproperty, hadd, hnewline, hrest, Draft.addProperties_cons]
    rfl

theorem push_closeFields (o : Owner) (d : Draft) :
    d.push ⟨.fields o, .mark .closeBrace, Mark.closeBrace.text.toList, 0⟩ = .ok (d.close o) := by
  cases o <;> rfl

/-- The fields of an entity, of which there may be none. -/
theorem advance_fieldLines {indent blank : String}
    (hindent : ∀ c ∈ indent.toList, isLayoutChar c = true)
    (hblank : ∀ c ∈ blank.toList, isLayoutChar c = true) (o : Owner) (e : Entity)
    (h : ∀ p ∈ e.namedProperties, p.IsDeclarable) {d : Draft} (hd : d.field = {})
    (rest : List Char) :
    advance ⟨.fields o, d⟩ ((e.fieldLines indent).toList ++ (blank.toList ++ '}' :: rest)) =
      advance ⟨.closed o,
        (d.addProperties (e.namedProperties.map Property.declared)).close o⟩ rest := by
  rw [fieldLines_toList]
  cases hps : e.namedProperties with
  | nil =>
    have hbrace : advance ⟨.fields o, d⟩ ('}' :: rest) = advance ⟨.closed o, d.close o⟩ rest :=
      advance_mark .closeBrace (by cases o <;> rfl) (fun h => by cases h) (push_closeFields o d)
    rw [if_pos rfl, List.nil_append, advance_layout hblank, hbrace, List.map_nil,
      Draft.addProperties_nil hd]
  | cons p ps =>
    rw [if_neg (List.cons_ne_nil p ps), List.append_assoc]
    exact advance_fields hindent hblank o p ps (by rwa [hps] at h) hd rest

/-! ### Heads of definitions -/

theorem isIdentifier_endName {name : Option String} (h : Entity.IsNamedEnd name) :
    isIdentifier (endName name).toList = true := by
  rw [endName]
  cases hs : setEnd name with
  | none => exact isIdentifier_undefinedEnd
  | some s => exact h s hs

theorem endOf_endName (name : Option String) :
    Draft.endOf (endName name) = Entity.declaredEnd name := by
  rw [endName, Entity.declaredEnd]
  cases setEnd name with
  | none => rfl
  | some s =>
    rw [Option.getD_some, Draft.endOf]
    by_cases hs : s = undefinedEnd
    · rw [if_pos hs, Option.filter_some, if_neg (by simpa using hs)]
    · rw [if_neg hs, Option.filter_some, if_pos (by simpa using hs)]

/-- The letter, the colons and the name of a definition. -/
theorem advance_definition (k : EntityKind) {name : String} (h : isIdentifier name.toList = true)
    (d : Draft) (rest : List Char) :
    advance ⟨.outside, d⟩
        ((Mark.ofKind k).text.toList ++ (':' :: ':' :: (name.toList ++ ' ' :: rest))) =
      advance ⟨.head k, { d.start k with name }⟩ rest := by
  have hletter (cs : List Char) : advance ⟨.outside, d⟩
      ((Mark.ofKind k).text.toList ++ (':' :: cs)) =
        advance ⟨.letter k, d.start k⟩ (':' :: cs) := by
    cases k with
    | node => exact advance_mark .node rfl (fun _ => apart_of_head _ (by decide)) rfl
    | edge => exact advance_mark .edge rfl (fun _ => apart_of_head _ (by decide)) rfl
    | vector => exact advance_mark .vector rfl (fun _ => apart_of_head _ (by decide)) rfl
  have hcolons (cs : List Char) : advance ⟨.letter k, d.start k⟩ (':' :: ':' :: cs) =
      advance ⟨.entityName k, d.start k⟩ cs :=
    advance_mark .colons rfl (fun h => by cases h) rfl
  have hpush : (d.start k).push ⟨.entityName k, .name, name.toList, 0⟩ =
      .ok { d.start k with name } := by
    simp only [Draft.push, String.ofList_toList]
  rw [hletter, hcolons, advance_name rfl (fun _ h => by cases h) h (apart_of_head _ (by decide))
    hpush, advance_blank]

theorem advance_clauseComma (d : Draft) (rest : List Char) :
    advance ⟨.clauseEnd, d⟩ (',' :: rest) = advance ⟨.clauses, d⟩ rest :=
  advance_mark .comma rfl (fun h => by cases h) rfl

/-- A clause with an end of an edge, and the comma after it. -/
theorem advance_endClause (side : Side) {name : String} (h : isIdentifier name.toList = true)
    (d : Draft) (rest : List Char) :
    advance ⟨.sideColon side, d⟩ (':' :: ' ' :: (name.toList ++ ',' :: rest)) =
      advance ⟨.clauses, d.withEnd side (Draft.endOf name)⟩ rest := by
  have hcolon (cs : List Char) : advance ⟨.sideColon side, d⟩ (':' :: cs) =
      advance ⟨.sideName side, d⟩ cs :=
    advance_mark .colon rfl (fun h => by cases h) rfl
  have hpush : d.push ⟨.sideName side, .name, name.toList, 0⟩ =
      .ok (d.withEnd side (Draft.endOf name)) := by
    cases side <;> simp only [Draft.push, Draft.withEnd, String.ofList_toList]
  rw [hcolon, advance_blank, advance_name rfl (fun _ h => by cases h) h
    (apart_of_head _ (by decide)) hpush, advance_clauseComma]

/-- The draft after the lines before the fields of an entity. -/
def headDraft (d : Draft) (e : Entity) : Draft :=
  { d.start e.kind with
    name := e.name
    isUniqueRelation := e.isEdge && e.isUniqueRelation
    source := if e.isEdge then Entity.declaredEnd e.source else none
    target := if e.isEdge then Entity.declaredEnd e.target else none }

theorem advance_edgeLine {e : Entity} (hname : isIdentifier e.name.toList = true) (d : Draft) :
    advance ⟨.outside, d⟩ (edgeLine e) = some ⟨.clauses, { d.start .edge with
      name := e.name, isUniqueRelation := e.isUniqueRelation }⟩ := by
  have hdefinition (cs : List Char) : advance ⟨.outside, d⟩
      (Mark.edge.text.toList ++ (':' :: ':' :: (e.name.toList ++ ' ' :: cs))) =
        advance ⟨.head .edge, { d.start .edge with name := e.name }⟩ cs :=
    advance_definition .edge hname d cs
  rw [edgeLine, hdefinition]
  cases e.isUniqueRelation with
  | true =>
    have htext : "UNIQUE \x7b".toList = Mark.unique.text.toList ++ [' ', '{'] := rfl
    have hopen (d : Draft) : advance ⟨.uniqueHead, d⟩ ['{'] = advance ⟨.clauses, d⟩ [] :=
      advance_mark .openBrace rfl (fun h => by cases h) rfl
    rw [if_pos rfl, htext, advance_mark .unique rfl (fun _ => apart_of_head _ (by decide)) rfl,
      advance_blank, hopen, advance_nil]
  | false =>
    have hopen (d : Draft) : advance ⟨.head .edge, d⟩ ['{'] = advance ⟨.clauses, d⟩ [] :=
      advance_mark .openBrace rfl (fun h => by cases h) rfl
    rw [if_neg Bool.false_ne_true, hopen, advance_nil]
    rfl

theorem advance_clauseLine (side : Side) {name : String} (h : isIdentifier name.toList = true)
    (d : Draft) :
    advance ⟨.clauses, d⟩ (clauseLine side.mark name) =
      some ⟨.clauses, d.withEnd side (Draft.endOf name)⟩ := by
  have hword (cs : List Char) : advance ⟨.clauses, d⟩ (side.mark.text.toList ++ ':' :: cs) =
      advance ⟨.sideColon side, d⟩ (':' :: cs) := by
    cases side with
    | source => exact advance_mark .source rfl (fun _ => apart_of_head _ (by decide)) rfl
    | target => exact advance_mark .target rfl (fun _ => apart_of_head _ (by decide)) rfl
  rw [clauseLine, advance_layout isLayoutChar_tab, hword, advance_endClause side h, advance_nil]

/-- The lines before the fields of an entity. -/
theorem advance_headText {e : Entity} (he : e.IsDeclarable) (d : Draft) :
    advance ⟨.outside, d⟩ (headText e) = some ⟨.fields (ownerOf e), headDraft d e⟩ := by
  rw [headText, ownerOf, headDraft]
  cases hedge : e.isEdge with
  | true =>
    have hkind : e.kind = .edge := by simpa [Entity.isEdge] using hedge
    have hproperties (d : Draft) : advance ⟨.clauses, d⟩ (tab ++ "Properties: \x7b").toList =
        some ⟨.fields .edge, { d with properties := [] }⟩ := by
      have htext : (tab ++ "Properties: \x7b").toList =
          tab.toList ++ (Mark.properties.text.toList ++ [':', ' ', '{']) := rfl
      have hcolon : advance ⟨.propertiesColon, d⟩ [':', ' ', '{'] =
          advance ⟨.propertiesBody, d⟩ [' ', '{'] :=
        advance_mark .colon rfl (fun h => by cases h) rfl
      have hopen : advance ⟨.propertiesBody, d⟩ ['{'] =
          advance ⟨.fields .edge, { d with properties := [] }⟩ [] :=
        advance_mark .openBrace rfl (fun h => by cases h) rfl
      rw [htext, advance_layout isLayoutChar_tab,
        advance_mark .properties rfl (fun _ => apart_of_head _ (by decide)) rfl, hcolon,
        advance_blank, hopen, advance_nil]
    have hsource (d : Draft) : advance ⟨.clauses, d⟩ (clauseLine .source (endName e.source)) =
        some ⟨.clauses, d.withEnd .source (Draft.endOf (endName e.source))⟩ :=
      advance_clauseLine .source (isIdentifier_endName (he.source hedge)) d
    have htarget (d : Draft) : advance ⟨.clauses, d⟩ (clauseLine .target (endName e.target)) =
        some ⟨.clauses, d.withEnd .target (Draft.endOf (endName e.target))⟩ :=
      advance_clauseLine .target (isIdentifier_endName (he.target hedge)) d
    -- the four lines of an edge, one after another
    rw [if_pos rfl, advance_newline, advance_edgeLine he.name, Option.bind_some, advance_newline,
      hsource, Option.bind_some, advance_newline, htarget, Option.bind_some, hproperties]
    simp [Draft.withEnd, Draft.start, hkind, endOf_endName]
  | false =>
    have hopen (d : Draft) : advance ⟨.head e.kind, d⟩ ['{'] = advance ⟨.fields .plain, d⟩ [] := by
      cases hkind : e.kind with
      | edge => simp [Entity.isEdge, hkind] at hedge
      | node => exact advance_mark .openBrace rfl (fun h => by cases h) rfl
      | vector => exact advance_mark .openBrace rfl (fun h => by cases h) rfl
    rw [if_neg Bool.false_ne_true, advance_definition e.kind he.name, hopen, advance_nil]
    rfl

/-! ### Whole definitions -/

/-- The draft after the block of an entity. -/
def blockDraft (d : Draft) (e : Entity) : Draft :=
  ((headDraft d e).addProperties (e.namedProperties.map Property.declared)).finish

theorem entities_blockDraft (d : Draft) (e : Entity) :
    (blockDraft d e).entities = d.entities ++ [e.declared d.entities.length] := by
  simp [blockDraft, Draft.finish, Draft.entity, Draft.addProperties, headDraft, Draft.start,
    Entity.declared]

/-- The block of an entity is read as what it declares. -/
theorem advance_block {e : Entity} (he : e.IsDeclarable) (d : Draft) (rest : List Char) :
    advance ⟨.outside, d⟩ (e.block.toList ++ rest) = advance ⟨.outside, blockDraft d e⟩ rest := by
  have hfields := advance_fieldLines (isLayoutChar_indentOf e) (isLayoutChar_closeIndentOf e)
    (ownerOf e) e he.properties (d := headDraft d e) rfl (endText e ++ rest)
  have hshape : e.block.toList ++ rest = headText e ++ '\n' ::
      ((e.fieldLines (indentOf e)).toList ++ ((closeIndentOf e).toList ++
        '}' :: (endText e ++ rest))) := by
    rw [block_toList]
    simp only [List.append_assoc, List.cons_append]
  rw [hshape, advance_newline, advance_headText he, Option.bind_some, hfields, ownerOf, endText]
  cases hedge : e.isEdge with
  | true =>
    have hclose (d : Draft) : advance ⟨.clauseEnd, d⟩ ('\n' :: '}' :: rest) =
        advance ⟨.outside, d.finish⟩ rest := by
      have hnewline : advance ⟨.clauseEnd, d⟩ ('\n' :: '}' :: rest) =
          advance ⟨.clauseEnd, d⟩ ('}' :: rest) := advance_congr rfl
      rw [hnewline]
      exact advance_mark .closeBrace rfl (fun h => by cases h) rfl
    exact hclose _
  | false => rfl

end State

end Hql.Schema
