import Hql.Proofs.Schema.Misread

/-!
Exactness of the round trip. If the schema of a model with well-formed names is read as what the
model declares, every field of the model is declarable. The argument looks at the last field that is
not: it is misread, and each field after it adds one property.
-/

namespace Hql

open Text Schema

/-- A list with an element that lacks a property has a last such element. -/
theorem exists_last_not {α : Type} {P : α → Prop} {l : List α} (h : ¬ ∀ x ∈ l, P x) :
    ∃ a x b, l = a ++ x :: b ∧ ¬ P x ∧ ∀ y ∈ b, P y := by
  induction l with
  | nil => exact absurd (by simp) h
  | cons y l ih =>
    by_cases hl : ∀ x ∈ l, P x
    · refine ⟨[], y, l, rfl, ?_, hl⟩
      intro hy
      apply h
      intro x hx
      rcases List.mem_cons.1 hx with rfl | hx
      · exact hy
      · exact hl x hx
    · obtain ⟨a, x, b, rfl, hx, hb⟩ := ih hl
      exact ⟨y :: a, x, b, rfl, hx, hb⟩

namespace Schema

/-- The text before the last lines of a block. -/
theorem exists_before (indent : String) (head : List Char) (ps : List Property) (p : Property)
    (qs : List Property) :
    ∃ before, head ++ '\n' :: fieldsText indent (ps ++ p :: qs) =
      before ++ '\n' :: fieldsText indent (p :: qs) := by
  induction ps generalizing head with
  | nil => exact ⟨head, rfl⟩
  | cons q ps ih =>
    obtain ⟨before, h⟩ := ih (head ++ '\n' :: (indent.toList ++ q.fieldText.toList ++ [',']))
    refine ⟨before, ?_⟩
    rw [← h]
    cases ps with
    | nil =>
      rw [List.singleton_append, List.nil_append, fieldsText_cons]
      simp only [List.append_assoc, List.cons_append, List.nil_append]
    | cons r ps =>
      rw [List.cons_append, List.cons_append, fieldsText_cons]
      simp only [List.append_assoc, List.cons_append, List.nil_append]

namespace State

/-! ### The fields after a misread one -/

/-- Declarable fields up to the end of the last one: each but the last adds one property. -/
theorem tail_of_advance {indent : String} (hindent : ∀ c ∈ indent.toList, isLayoutChar c = true)
    {q : Property} {qs : List Property} (hqs : ∀ p ∈ q :: qs, p.IsDeclarable) {s t : State}
    (hs : Sound s) (h : s.advance (fieldsText indent (q :: qs)) = some t)
    (ht : t.place ≠ .clauseEnd) :
    ∃ o, s.place.headOwner? = some o ∧ (t.place = .afterType o ∨ t.place = .fieldEnd o) ∧
      ∃ added, added.length = qs.length ∧ t.draft.properties = s.draft.properties ++ added := by
  have hq := hqs q (by simp)
  -- backwards: the last field has an owner, so every field before it was read as a field too
  induction qs generalizing q s with
  | nil =>
    rw [← List.append_nil (fieldsText indent [q])] at h
    rcases field_of_advance hindent hq.name hq.default apart_nil h with
      ⟨o, d, items, hhead, hrest⟩ | ⟨d, hrest⟩
    · obtain ⟨howner, hproperties⟩ :=
        head_of_words (headWords_chars hindent hq.name) hhead (o := o) rfl
      rw [advance_nil] at hrest
      obtain rfl := Option.some.inj hrest
      refine ⟨o, howner, ?_, [], rfl, ?_⟩
      · rw [fieldState]
        split
        · exact .inl rfl
        · exact .inr rfl
      · rw [List.append_nil, ← hproperties, fieldState]
        split <;> rfl
    · rw [advance_nil] at hrest
      obtain rfl := Option.some.inj hrest
      exact absurd rfl ht
  | cons r qs ih =>
    have htext : fieldsText indent (q :: r :: qs) =
        (fieldsText indent [q] ++ [',']) ++ '\n' :: fieldsText indent (r :: qs) := by
      rw [fieldsText_cons, fieldsText_singleton]
      simp
    rw [htext, advance_newline] at h
    obtain ⟨u, hu, hrest⟩ := Option.bind_eq_some_iff.1 h
    obtain ⟨o, howner, hplace, added, hlen, hproperties⟩ := ih
      (fun p hp => hqs p (List.mem_cons_of_mem q hp)) (hs.advance hu) hrest (hqs r (by simp))
    rcases field_of_advance hindent hq.name hq.default (apart_of_head _ (by decide)) hu with
      ⟨o', d, items, hhead, hcomma⟩ | ⟨d, hcomma⟩
    · have hd : Sound ⟨.fieldColon o', d⟩ := hs.advance hhead
      obtain ⟨howner', hproperties'⟩ :=
        head_of_words (headWords_chars hindent hq.name) hhead (o := o') rfl
      rw [advance_fieldComma q o' hd.field.2, advance_nil] at hcomma
      obtain rfl := Option.some.inj hcomma
      obtain rfl : o' = o := Option.some.inj howner
      refine ⟨o', howner', hplace, propertyOf q d.field :: added, by simp [hlen], ?_⟩
      have hsame : d.properties = s.draft.properties := hproperties'
      rw [hproperties, ← hsame]
      simp [Draft.addProperty]
    · -- after a clause comes a clause, where no field begins
      rw [advance_clauseComma, advance_nil] at hcomma
      obtain rfl := Option.some.inj hcomma
      cases howner

/-! ### The end of a block -/

/-- The properties of the entity if a closing brace comes next. -/
inductive Completes : State → List Property → Prop
  | fields (o : Owner) (d : Draft) : Completes ⟨.fields o, d⟩ d.properties
  | field {p : Place} {o : Owner} (hp : p = .afterType o ∨ p = .fieldEnd o) (d : Draft)
    (type : PropertyType) :
    Completes ⟨p, d⟩ (d.properties ++ [{ d.field.property with type }])

theorem Mismatch.completes {s : State} {p x : Property} (h : s.Mismatch p) {ps : List Property}
    (hs : Completes s (ps ++ [x])) : x.Differs p := by
  generalize hall : ps ++ [x] = all at hs
  cases hs with
  | fields o d =>
    apply (h o).1 rfl
    have hlast := congrArg List.getLast? hall
    rw [List.getLast?_concat] at hlast
    exact hlast.symm
  | @field p' o hp d type =>
    obtain ⟨-, hx⟩ := List.append_inj' hall rfl
    obtain rfl := List.singleton_inj.1 hx
    exact (h o).2 hp

theorem Completes.not_clauseEnd {s : State} {ps : List Property} (h : Completes s ps) :
    s.place ≠ .clauseEnd := by
  cases h with
  | fields o d => exact fun hplace => by cases hplace
  | field hp d type => rcases hp with rfl | rfl <;> exact fun hplace => by cases hplace

theorem Completes.of_fieldEnd {s : State} {ps : List Property} (h : Completes s ps) {o : Owner}
    (hs : s.place = .afterType o ∨ s.place = .fieldEnd o) :
    ∃ y, ps = s.draft.properties ++ [y] := by
  cases h with
  | fields o' d => rcases hs with hs | hs <;> cases hs
  | field hp d type => exact ⟨_, rfl⟩

/-- A closing brace ends a list of fields, or the definition of an edge. -/
theorem closeBrace_of_reads {s v : State} {cs : List Char} (hs : Sound s)
    (r : Reads s (.mark .closeBrace) cs v) :
    (∃ (o : Owner) (d : Draft), Completes s d.properties ∧ v = ⟨.closed o, d.close o⟩) ∨
      (v = ⟨.outside, s.draft.finish⟩ ∧ s.draft.kind = .edge) := by
  generalize hkind : Terminal.mark .closeBrace = kind at r
  cases r.step with
  | closeEdge hp d =>
    refine .inr ⟨rfl, ?_⟩
    rcases hp with rfl | rfl
    · exact (hs.owner .edge rfl).1 rfl
    · exact (hs.owner .edge rfl).1 rfl
  | closeFields o d => exact .inl ⟨o, d, .fields o d, rfl⟩
  | @endType o m q hm d type =>
    obtain rfl : Mark.closeBrace = m := Terminal.mark.inj hkind
    obtain rfl : Place.closed o = q := Option.some.inj hm
    rw [Draft.endField_closeBrace]
    exact .inl ⟨o, _, .field (.inl rfl) d type, rfl⟩
  | @endDefault o m q hm d =>
    obtain rfl : Mark.closeBrace = m := Terminal.mark.inj hkind
    obtain rfl : Place.closed o = q := Option.some.inj hm
    rw [Draft.endField_closeBrace]
    exact .inl ⟨o, _, .field (.inr rfl) d d.field.type, rfl⟩
  -- every other step reads another token
  | literal o ht d =>
    rw [← hkind] at ht
    cases ht
  | item hp ht d =>
    rw [← hkind] at ht
    cases ht
  | letter k d => cases k <;> cases hkind
  | side side d => cases side <;> cases hkind
  | _ => cases hkind

/-- The end of a block completes the entity of the kind that the block is of. -/
theorem end_of_advance {e : Entity} {s t : State} (hs : Sound s)
    (h : s.advance ((closeIndentOf e).toList ++ '}' :: endText e) = some t)
    (ht : t.place = .outside) :
    ∃ x, t.draft.entities.getLast? = some x ∧
      (x.kind = e.kind → Completes s x.namedProperties) := by
  have hfinish (d : Draft) : d.finish.entities.getLast? = some d.entity := List.getLast?_concat
  rw [advance_layout (isLayoutChar_closeIndentOf e)] at h
  have h : s.advance (Mark.closeBrace.text.toList ++ endText e) = some t := h
  obtain ⟨v, hreads, hrest⟩ := step_of_mark .closeBrace rfl (by decide) (by decide) h
  have hv : Sound v := hs.step hreads
  rw [endText] at hrest
  -- the block of an edge has a second brace, so the first one must have closed its properties
  cases hedge : e.isEdge with
  | true =>
    have hnewline : v.advance ['\n', '}'] = v.advance ['}'] := advance_congr rfl
    rw [hedge, if_pos rfl, hnewline] at hrest
    obtain ⟨w, hreads', hnil⟩ := step_of_mark .closeBrace rfl (by decide) (by decide) hrest
    rw [advance_nil] at hnil
    obtain rfl := Option.some.inj hnil
    rcases closeBrace_of_reads hs hreads with ⟨o, d, hcompletes, rfl⟩ | ⟨rfl, -⟩
    · cases o with
      | plain => cases hreads'.next
      | edge =>
        have hpush : w.draft = d.finish := (Except.ok.inj hreads'.push).symm
        refine ⟨d.entity, by rw [hpush]; exact hfinish d, fun _ => ?_⟩
        have hnamed : d.entity.namedProperties = d.properties := hv.namedProperties_entity
        rw [hnamed]
        exact hcompletes
    · cases hreads'.next
  | false =>
    rw [hedge, if_neg Bool.false_ne_true, advance_nil] at hrest
    obtain rfl := Option.some.inj hrest
    rcases closeBrace_of_reads hs hreads with ⟨o, d, hcompletes, rfl⟩ | ⟨rfl, hkind⟩
    · cases o with
      | plain =>
        refine ⟨d.entity, hfinish d, fun _ => ?_⟩
        have hnamed : d.entity.namedProperties = d.properties := hv.namedProperties_entity
        rw [hnamed]
        exact hcompletes
      | edge => cases ht
    · refine ⟨s.draft.entity, hfinish s.draft, fun heq => ?_⟩
      have he : e.isEdge = true := by
        have hkind : s.draft.entity.kind = .edge := hkind
        rw [heq] at hkind
        simp [Entity.isEdge, hkind]
      rw [hedge] at he
      cases he

/-- The block of an entity that is not declarable is not read as what the entity declares. -/
theorem not_advance_block {e : Entity}
    (hnames : ∀ p ∈ e.namedProperties, isIdentifier p.name.toList = true)
    (hbad : ¬ ∀ p ∈ e.namedProperties, p.IsDeclarable) {s t : State} (hs : Sound s)
    (h : s.advance e.block.toList = some t) (ht : t.place = .outside) :
    ∃ x, t.draft.entities.getLast? = some x ∧
      (x.kind = e.kind → x.namedProperties ≠ e.namedProperties.map Property.declared) := by
  obtain ⟨ps, p, qs, hps, hp, hqs⟩ := exists_last_not hbad
  have hname : isIdentifier p.name.toList = true := hnames p (by simp [hps])
  have hindent := isLayoutChar_indentOf e
  obtain ⟨before, hbefore⟩ := exists_before (indentOf e) (headText e) ps p qs
  have hne : e.namedProperties ≠ [] := by simp [hps]
  -- the text is cut before the field, after it and before the end of the block
  have hcut : e.block.toList = (headText e ++ '\n' :: fieldsText (indentOf e) (ps ++ p :: qs)) ++
      '\n' :: ((closeIndentOf e).toList ++ '}' :: endText e) := by
    rw [block_toList, fieldLines_toList, if_neg hne, hps]
    simp only [List.append_assoc, List.cons_append, List.nil_append]
  rw [hcut, hbefore, List.append_assoc, List.cons_append, advance_newline] at h
  obtain ⟨s₀, hs₀, hrest⟩ := Option.bind_eq_some_iff.1 h
  rw [advance_newline] at hrest
  obtain ⟨s₂, hs₂, hend⟩ := Option.bind_eq_some_iff.1 hrest
  have hsound₀ : Sound s₀ := hs.advance hs₀
  have hsound₂ : Sound s₂ := hsound₀.advance hs₂
  obtain ⟨x, hx, hcompletes⟩ := end_of_advance hsound₂ hend ht
  refine ⟨x, hx, fun hkind heq => ?_⟩
  have hcompletes := hcompletes hkind
  rw [heq, hps, List.map_append, List.map_cons] at hcompletes
  cases qs with
  | nil =>
    -- the brace completes the misread field itself
    rw [← List.append_nil (fieldsText _ [p])] at hs₂
    have hmismatch := mismatch_of_not_declarable hsound₀ hindent hname hp (.inl rfl) hs₂
    exact p.not_differs_declared (hmismatch.completes hcompletes)
  | cons q qs =>
    have htext : fieldsText (indentOf e) (p :: q :: qs) =
        (fieldsText (indentOf e) [p] ++ [',']) ++ '\n' :: fieldsText (indentOf e) (q :: qs) := by
      rw [fieldsText_cons, fieldsText_singleton]
      simp
    rw [htext, advance_newline] at hs₂
    obtain ⟨s₁, hs₁, htail⟩ := Option.bind_eq_some_iff.1 hs₂
    have hmismatch := mismatch_of_not_declarable hsound₀ hindent hname hp (.inr rfl) hs₁
    obtain ⟨o, howner, hfield, added, hlen, hproperties⟩ :=
      tail_of_advance hindent hqs (hsound₀.advance hs₁) htail hcompletes.not_clauseEnd
    obtain ⟨y, hy⟩ := hcompletes.of_fieldEnd hfield
    -- counted from the end, the misread property stands where the declared one should
    have hsplit : (ps.map Property.declared ++ [p.declared]) ++ (q :: qs).map Property.declared =
        s₁.draft.properties ++ (added ++ [y]) := by
      rw [hproperties] at hy
      rw [List.append_assoc, List.singleton_append, hy, List.append_assoc]
    obtain ⟨hlast, -⟩ := List.append_inj' hsplit (by simp [hlen])
    have hmem : p.declared ∈ s₁.draft.properties.getLast? := by
      rw [← hlast, List.getLast?_concat]
      rfl
    exact p.not_differs_declared ((hmismatch o).1 howner p.declared hmem)

end State

/-! ### Models -/

/-- The start of a block. -/
theorem block_definition (e : Entity) :
    ∃ more, e.block.toList = (Mark.ofKind e.kind).text.toList ++ ':' :: ':' :: more := by
  have hhead : ∃ more, headText e = (Mark.ofKind e.kind).text.toList ++ ':' :: ':' :: more := by
    rw [headText]
    cases hedge : e.isEdge with
    | true =>
      have hkind : e.kind = .edge := by simpa [Entity.isEdge] using hedge
      rw [if_pos rfl, edgeLine, hkind]
      exact ⟨_, by rw [Mark.ofKind, List.append_assoc]; rfl⟩
    | false => exact ⟨_, if_neg Bool.false_ne_true⟩
  obtain ⟨more, h⟩ := hhead
  rw [block_toList, h, List.append_assoc]
  exact ⟨_, rfl⟩

theorem blocksText_definition (e : Entity) (es : List Entity) :
    ∃ more, blocksText (e :: es) = (Mark.ofKind e.kind).text.toList ++ ':' :: ':' :: more := by
  obtain ⟨more, h⟩ := block_definition e
  cases es with
  | nil => exact ⟨more, by rw [blocksText_singleton, h]⟩
  | cons f es =>
    rw [blocksText_cons, h, List.append_assoc]
    exact ⟨_, rfl⟩

/-- The blocks of a model from an entity on are read after whatever stands before them. -/
theorem exists_state_before {es : List Entity} (ms : List Entity) (e : Entity)
    {s t : State} (hs : s.Sound) (h : s.advance (blocksText (ms ++ e :: es)) = some t) :
    ∃ u : State, u.Sound ∧ u.advance (blocksText (e :: es)) = some t := by
  induction ms generalizing s with
  | nil => exact ⟨s, hs, h⟩
  | cons m ms ih =>
    have htext : blocksText (m :: ms ++ e :: es) =
        m.block.toList ++ '\n' :: '\n' :: blocksText (ms ++ e :: es) := by
      cases ms with
      | nil => exact blocksText_cons m e es
      | cons m' ms => exact blocksText_cons m m' (ms ++ e :: es)
    rw [htext, State.advance_newline] at h
    obtain ⟨v, hv, hrest⟩ := Option.bind_eq_some_iff.1 h
    have hlines : v.advance ('\n' :: blocksText (ms ++ e :: es)) =
        v.advance (blocksText (ms ++ e :: es)) := State.advance_congr rfl
    rw [hlines] at hrest
    exact ih (hs.advance hv) hrest

/-- Between two blocks the state is outside of any definition. -/
theorem outside_of_blocks {e : Entity} {es : List Entity} {s t : State}
    (h : s.advance ('\n' :: blocksText (e :: es)) = some t) :
    s.place = .outside ∧ s.advance (blocksText (e :: es)) = some t := by
  have hline : s.advance ('\n' :: blocksText (e :: es)) = s.advance (blocksText (e :: es)) :=
    State.advance_congr rfl
  rw [hline] at h
  refine ⟨?_, h⟩
  obtain ⟨more, hdefinition⟩ := blocksText_definition e es
  rw [hdefinition] at h
  exact State.outside_of_definition e.kind h

end Schema

/-- All names that a schema has to write are well-formed. -/
structure Entity.IsNamed (e : Entity) : Prop where
  name : isIdentifier e.name.toList = true
  source : e.isEdge = true → IsNamedEnd e.source
  target : e.isEdge = true → IsNamedEnd e.target
  properties : ∀ p ∈ e.namedProperties, isIdentifier p.name.toList = true

theorem Entity.IsNamed.isDeclarable {e : Entity} (h : e.IsNamed)
    (hp : ∀ p ∈ e.namedProperties, p.IsDeclarable) : e.IsDeclarable :=
  ⟨h.name, h.source, h.target, hp⟩

/-- What is compared: the kind of an entity and its properties. -/
def Entity.outline (e : Entity) : EntityKind × List Property := (e.kind, e.namedProperties)

/-- What an entity should look like after its schema has been read. -/
def Entity.declaredOutline (e : Entity) : EntityKind × List Property :=
  (e.kind, e.namedProperties.map Property.declared)

/-- A model with well-formed names whose schema is read as what it declares is declarable. -/
theorem Model.isDeclarable_of_entities? {model : Model} (hnames : ∀ e ∈ model.entities, e.IsNamed)
    {es : List Entity} (h : entities? (print model).toList = .ok es)
    (hes : es.map Entity.outline = model.entities.map Entity.declaredOutline) :
    model.IsDeclarable := by
  by_contra hnot
  have hbad : ¬ ∀ e ∈ model.entities, ∀ p ∈ e.namedProperties, p.IsDeclarable := by
    intro hall
    exact hnot fun e he => (hnames e he).isDeclarable (hall e he)
  obtain ⟨ms, e, gs, hsplit, he, hgs⟩ := exists_last_not hbad
  have hne : model.entities ≠ [] := by simp [hsplit]
  have hproperties := (hnames e (by simp [hsplit])).properties
  obtain ⟨t, ht, hout, rfl⟩ : ∃ t, State.advance {} (blocksText model.entities) = some t ∧
      t.place = .outside ∧ t.draft.entities = es := by
    rw [print_toList hne, entities?_eq_ok_iff] at h
    rcases h with ⟨hempty, -⟩ | ⟨-, hread⟩
    · obtain ⟨x, xs, hxs⟩ := List.exists_cons_of_ne_nil hne
      rw [hxs, isEmptyText_blocksText] at hempty
      cases hempty
    · exact hread
  rw [hsplit] at ht hes
  obtain ⟨s, hs, hrest⟩ := exists_state_before ms e State.sound_start ht
  -- the entity read last up to the end of the block is compared with the misread one
  have hcompare {u : State} (hu : s.advance e.block.toList = some u) (hplace : u.place = .outside)
      (hlast : u.draft.entities.map Entity.outline =
        ms.map Entity.declaredOutline ++ [e.declaredOutline]) : False := by
    obtain ⟨x, hx, hdiffers⟩ := State.not_advance_block hproperties he hs hu hplace
    have hmap := congrArg List.getLast? hlast
    rw [List.getLast?_concat, List.getLast?_map, hx] at hmap
    have houtline : x.outline = e.declaredOutline := Option.some.inj hmap
    exact hdiffers (Prod.mk.inj houtline).1 (Prod.mk.inj houtline).2
  cases gs with
  | nil =>
    -- the misread block is the last one
    rw [blocksText_singleton] at hrest
    apply hcompare hrest hout
    rw [hes, List.map_append]
    rfl
  | cons g gs =>
    rw [blocksText_cons, State.advance_newline] at hrest
    obtain ⟨u, hu, hmore⟩ := Option.bind_eq_some_iff.1 hrest
    obtain ⟨hplace, hmore⟩ := outside_of_blocks hmore
    have hdeclarable : ∀ x ∈ g :: gs, x.IsDeclarable := by
      intro x hx
      exact (hnames x (by rw [hsplit]; simp [hx])).isDeclarable (hgs x hx)
    -- each of the blocks after it adds one entity, so the misread one can be counted off
    obtain ⟨place, d⟩ := u
    obtain rfl : place = .outside := hplace
    rw [State.advance_blocks _ hdeclarable] at hmore
    obtain rfl := Option.some.inj hmore
    apply hcompare hu rfl
    have happend := hes
    rw [State.entities_foldl_blockDraft, List.map_append, List.map_append, List.map_cons] at happend
    rw [List.append_cons (ms.map Entity.declaredOutline) e.declaredOutline] at happend
    exact (List.append_inj' happend (by simp)).1

end Hql
