import Hql.Proofs.Schema.Line

/-!
Defaults that cannot be read back. Whatever is read while the text of such a default is passed, no
property gets this very default; and a modifier that stands alone is never read as a name.
-/

namespace Hql

open Text Schema

/-- The property cannot be what is read from the field of another one. -/
def Property.Differs (x p : Property) : Prop :=
  x.defaultValue ≠ p.defaultValue ∨ p.IsBareModifier ∧ (x.isUnique = true ∨ x.isIndex = true)

theorem Property.not_differs_declared (p : Property) : ¬ p.declared.Differs p := by
  rintro (hdefault | ⟨⟨-, hunique, hindex⟩, hflag | hflag⟩)
  · exact hdefault rfl
  · have hflag : p.isUnique = true := hflag
    rw [hunique] at hflag
    cases hflag
  · have hflag : (p.isIndex && !p.isUnique) = true := hflag
    rw [hindex] at hflag
    cases hflag

namespace Schema

/-! ### Line feeds -/

theorem newline_not_mem_identifier {cs : List Char} (h : isIdentifier cs = true) : '\n' ∉ cs :=
  fun hmem => absurd (isIdentChar_of_mem h '\n' hmem) (by decide)

/-- The characters of a number. -/
theorem IsNumber.mem {cs : List Char} (h : IsNumber cs) :
    ∀ c ∈ cs, c.isDigit = true ∨ c ∈ ['+', '-', '.', 'e', 'E'] := by
  have hsigns {ds : List Char} (hds : IsSign ds) : ∀ c ∈ ds, c ∈ ['+', '-', '.', 'e', 'E'] := by
    rcases hds with rfl | rfl | rfl <;> decide
  obtain ⟨sign, whole, fraction, exponent, rfl, hsign, hwhole, hfraction, hexponent, -⟩ := h
  simp only [List.forall_mem_append]
  refine ⟨fun c hc => .inr (hsigns hsign c hc), ⟨fun c hc => .inl (hwhole c hc), ?_⟩, ?_⟩
  · rcases hfraction with rfl | ⟨ds, rfl, hds⟩
    · simp
    · exact List.forall_mem_cons.2 ⟨.inr (by decide), fun c hc => .inl (hds c hc)⟩
  · rcases hexponent with rfl | ⟨e, s, ds, rfl, he, hs, hds, -⟩
    · simp
    · rw [List.forall_mem_cons, List.forall_mem_append]
      refine ⟨.inr ?_, fun c hc => .inr (hsigns hs c hc), fun c hc => .inl (hds c hc)⟩
      rcases he with rfl | rfl <;> decide

theorem newline_not_mem_number {cs : List Char} (h : IsNumber cs) : '\n' ∉ cs := by
  intro hmem
  rcases h.mem '\n' hmem with hdigit | hmark
  · exact absurd hdigit (by decide)
  · exact absurd hmark (by decide)

theorem newline_not_mem_quoted {cs : List Char} (h : IsQuoted cs) : '\n' ∉ cs := by
  obtain ⟨body, rfl, hbody⟩ := h
  have hnot : '\n' ∉ body := by
    induction hbody with
    | nil => simp
    | plain _ _ hc _ ih => simp [ih, hc.symm]
    | marked hc _ ih => simp [ih, hc.symm]
  simp [hnot]

theorem newline_not_mem_item {cs : List Char} (h : IsItem cs) : '\n' ∉ cs := by
  rcases h with h | h | h
  · exact newline_not_mem_identifier h
  · exact newline_not_mem_number h
  · exact newline_not_mem_quoted h

theorem newline_not_mem_list {items : List String} (h : ∀ i ∈ items, IsItem i.toList) :
    '\n' ∉ (Draft.listText items).toList := by
  have hitems : '\n' ∉ (String.intercalate ", " items).toList := by
    induction items with
    | nil => simp
    | cons i items ih =>
      have hi := newline_not_mem_item (h i (by simp))
      have hrest := ih fun j hj => h j (List.mem_cons_of_mem i hj)
      cases items with
      | nil => simpa using hi
      | cons j items =>
        have htext : (String.intercalate ", " (i :: j :: items)).toList =
            i.toList ++ ',' :: ' ' :: (String.intercalate ", " (j :: items)).toList := by
          simp
        rw [htext]
        simp only [List.mem_append, List.mem_cons, not_or]
        exact ⟨hi, by decide, by decide, hrest⟩
  have htext : (Draft.listText items).toList =
      '[' :: ((String.intercalate ", " items).toList ++ [']']) := by
    simp [Draft.listText]
  rw [htext]
  simp only [List.mem_append, List.mem_cons, List.not_mem_nil, or_false, not_or]
  exact ⟨by decide, hitems, by decide⟩

theorem newline_not_mem_literalText {t : Terminal} (ht : t.isLiteral = true) {cs : List Char}
    (h : t.Spells cs) : '\n' ∉ (literalText t cs).toList := by
  cases t with
  | mark m => cases ht
  | name =>
    rw [literalText, if_neg (by decide), String.toList_ofList]
    exact newline_not_mem_identifier h
  | quoted =>
    rw [literalText, if_pos rfl]
    exact (quotedText_of_isQuoted h).1
  | number =>
    rw [literalText, if_neg (by decide), String.toList_ofList]
    exact newline_not_mem_number h

/-- A default that is not bare is only read from a quoted text, which is too long. -/
theorem literalText_ne {s : String} (hs : ¬ IsBareDefault s) {t : Terminal}
    (ht : t.isLiteral = true) {cs : List Char} (h : t.Spells cs)
    (hlen : cs.length ≤ s.toList.length + 1) : literalText t cs ≠ s := by
  rintro rfl
  cases t with
  | mark m => cases ht
  | name =>
    rw [literalText, if_neg (by decide)] at hs
    exact hs (.inl (by rwa [String.toList_ofList]))
  | quoted =>
    have hquoted := (quotedText_of_isQuoted h).2
    rw [literalText, if_pos rfl] at hlen
    omega
  | number =>
    rw [literalText, if_neg (by decide)] at hs
    exact hs (.inr (.inl (by rwa [String.toList_ofList])))

/-- What is missing from a default that cannot be read back. -/
def Unprintable (p : Property) (v : String) : Prop :=
  p.defaultValue = some v ∧ if p.quotesDefault then '\n' ∈ v.toList else ¬ IsBareDefault v

theorem exists_unprintable {p : Property} (h : ¬ p.HasPrintableDefault) : ∃ v, Unprintable p v := by
  obtain ⟨v, hv, hbad⟩ : ∃ v, p.defaultValue = some v ∧
      ¬ (if p.quotesDefault then '\n' ∉ v.toList else IsBareDefault v) := by
    simpa only [Property.HasPrintableDefault, not_forall, exists_prop] using h
  refine ⟨v, hv, ?_⟩
  split at hbad
  · next hq => rwa [if_pos hq, ← not_not (a := '\n' ∈ v.toList)]
  · next hq => rwa [if_neg hq]

theorem Unprintable.not_isListText {p : Property} {v : String} (h : Unprintable p v) :
    ¬ IsListText v := by
  rintro ⟨items, rfl, hitems⟩
  have hbad := h.2
  split at hbad
  · exact newline_not_mem_list hitems hbad
  · exact hbad (.inr (.inr ⟨items, rfl, hitems⟩))

/-- No token that fits into the printed default and one more character stands for the default. -/
theorem Unprintable.literalText_ne {p : Property} {v literal : String} (h : Unprintable p v)
    (hliteral : p.defaultLiteral? = some literal) {t : Terminal} (ht : t.isLiteral = true)
    {cs : List Char} (hcs : t.Spells cs) (hlen : cs.length ≤ literal.toList.length + 1) :
    literalText t cs ≠ v := by
  obtain ⟨hv, hbad⟩ := h
  cases hq : p.quotesDefault with
  | true =>
    rw [hq, if_pos rfl] at hbad
    rintro rfl
    exact newline_not_mem_literalText ht hcs hbad
  | false =>
    rw [hq, if_neg Bool.false_ne_true] at hbad
    rw [State.defaultLiteral?_of_not_quotesDefault hv hq] at hliteral
    obtain rfl := Option.some.inj hliteral
    exact Schema.literalText_ne hbad ht hcs hlen

/-- The place is inside of the default of a field. -/
def Place.inDefault : Place → Bool
  | .fieldDefault _ | .firstItem _ | .afterItem _ | .nextItem _ | .fieldEnd _ => true
  | _ => false

namespace State

/-! ### Reading past a default -/

/-- Neither the field that is being read nor the last property before it has the default. -/
structure Avoids (v : String) (s : State) : Prop where
  sound : s.Sound
  field : s.draft.field.default ≠ some v
  last : s.place.inDefault = true ∨
    ∀ x ∈ s.draft.properties.getLast?, x.defaultValue ≠ some v

theorem Avoids.endField {v : String} {o : Owner} {m : Mark} {q : Place} {d : Draft}
    (hm : Place.afterField o m = some q) (hd : d.field.default ≠ some v)
    (hsound : Sound ⟨q, d.endField o m⟩) : Avoids v ⟨q, d.endField o m⟩ := by
  have hlast : ∀ x ∈ (d.properties ++ [d.field.property]).getLast?, x.defaultValue ≠ some v := by
    intro x hx
    rw [List.getLast?_concat] at hx
    obtain rfl := Option.some.inj hx
    exact hd
  refine ⟨hsound, ?_, .inr ?_⟩
  · rcases Place.afterField_eq_some hm with ⟨rfl, -⟩ | ⟨rfl, -⟩ <;> cases o <;>
      exact fun h => by cases h
  · rcases Place.afterField_eq_some hm with ⟨rfl, -⟩ | ⟨rfl, -⟩ <;> cases o <;> exact hlast

/-- A token that does not stand for the default keeps it avoided. -/
theorem Avoids.step {v : String} (hlist : ¬ IsListText v) {s t : State} {kind : Terminal}
    {cs : List Char} (h : Avoids v s) (r : Reads s kind cs t)
    (hliteral : kind.isLiteral = true → literalText kind cs ≠ v) : Avoids v t := by
  have hsound := h.sound.step r
  cases r.step with
  | letter k d =>
    refine ⟨hsound, ?_, .inr ?_⟩
    · intro hfalse
      cases hfalse
    · intro x hx
      cases hx
  | sideName side d =>
    have hlast := h.last.resolve_left Bool.false_ne_true
    cases side with
    | source => exact ⟨hsound, h.field, .inr hlast⟩
    | target => exact ⟨hsound, h.field, .inr hlast⟩
  | propertiesBody d =>
    refine ⟨hsound, h.field, .inr ?_⟩
    intro x hx
    cases hx
  | closeEdge hp d =>
    rcases hp with rfl | rfl
    · exact ⟨hsound, h.field, .inr (h.last.resolve_left Bool.false_ne_true)⟩
    · exact ⟨hsound, h.field, .inr (h.last.resolve_left Bool.false_ne_true)⟩
  | closeFields o d =>
    have hlast := h.last.resolve_left Bool.false_ne_true
    cases o with
    | plain => exact ⟨hsound, h.field, .inr hlast⟩
    | edge => exact ⟨hsound, h.field, .inr hlast⟩
  | fieldName hp d =>
    rcases hp with rfl | rfl
    · exact ⟨hsound, h.field, .inr (h.last.resolve_left Bool.false_ne_true)⟩
    · exact ⟨hsound, h.field, .inr (h.last.resolve_left Bool.false_ne_true)⟩
  | endType hm d type => exact Avoids.endField hm h.field hsound
  | endDefault hm d => exact Avoids.endField hm h.field hsound
  -- tokens of a default
  | literal o ht d =>
    refine ⟨hsound, ?_, .inl rfl⟩
    intro heq
    exact hliteral ht (Option.some.inj heq)
  | openList o d => exact ⟨hsound, h.field, .inl rfl⟩
  | item hp ht d => exact ⟨hsound, h.field, .inl rfl⟩
  | itemComma o d => exact ⟨hsound, h.field, .inl rfl⟩
  | closeList hp d =>
    have hitems : ∀ i ∈ d.field.items, IsItem i.toList := by
      rcases hp with rfl | rfl
      · exact h.sound.field.2.2
      · exact h.sound.field.2.2
    refine ⟨hsound, ?_, .inl rfl⟩
    intro heq
    exact hlist ⟨d.field.items, (Option.some.inj heq).symm, hitems⟩
  | _ => exact ⟨hsound, h.field, .inr (h.last.resolve_left Bool.false_ne_true)⟩

/-! ### Lines that are misread -/

/-- Where a field may begin the last property differs from another one, and where a field may end
the field that is being read does. -/
def Mismatch (s : State) (p : Property) : Prop :=
  ∀ o, (s.place.headOwner? = some o → ∀ x ∈ s.draft.properties.getLast?, x.Differs p) ∧
    (s.place = .afterType o ∨ s.place = .fieldEnd o → s.draft.field.property.Differs p)

theorem Avoids.mismatch {v : String} {s : State} (h : Avoids v s) {p : Property}
    (hp : p.defaultValue = some v) : s.Mismatch p := by
  intro o
  constructor
  · intro hplace x hx
    have hout : s.place.inDefault = false := by
      revert hplace
      cases s.place <;> first | exact fun _ => rfl | exact fun hfalse => by cases hfalse
    have hlast := h.last.resolve_left (by simp [hout]) x hx
    rw [← hp] at hlast
    exact .inl hlast
  · intro _
    have hfield := h.field
    rw [← hp] at hfield
    exact .inl hfield

/-- The text of a field ends there, or with a comma. -/
def IsFieldEnd (cs : List Char) : Prop := cs = [] ∨ cs = [',']

theorem IsFieldEnd.apart {cs : List Char} (h : IsFieldEnd cs) : Apart cs := by
  rcases h with rfl | rfl
  · exact apart_nil
  · exact apart_of_head _ (by decide)

theorem mismatch_of_unprintable {s t : State} (hs : Sound s) {indent : String} {p : Property}
    (hindent : ∀ c ∈ indent.toList, isLayoutChar c = true)
    (hname : isIdentifier p.name.toList = true) (hp : ¬ p.HasPrintableDefault) {cs : List Char}
    (hcs : IsFieldEnd cs) (h : s.advance (fieldsText indent [p] ++ cs) = some t) :
    t.Mismatch p := by
  obtain ⟨v, hbad⟩ := exists_unprintable hp
  obtain ⟨literal, hliteral⟩ : ∃ literal, p.defaultLiteral? = some literal := by
    simp [Property.defaultLiteral?, hbad.1]
  -- nothing that can be read from the literal stands for the default
  have hne (kind : Terminal) (lexeme : List Char) (hwithin : lexeme <:+: literal.toList ++ cs)
      (hspells : kind.Spells lexeme) (hkind : kind.isLiteral = true) :
      literalText kind lexeme ≠ v := by
    have hlen := hwithin.length_le
    have hend : cs.length ≤ 1 := by rcases hcs with rfl | rfl <;> simp
    rw [List.length_append] at hlen
    exact hbad.literalText_ne hliteral hkind hspells (by omega)
  have hclause : p.defaultClause.toList ++ cs = " DEFAULT ".toList ++ (literal.toList ++ cs) := by
    simp [Property.defaultClause, hliteral]
  rw [fieldsText_singleton_append] at h
  rcases type_of_advance (headWords_chars hindent hname) (apart_defaultClause p hcs.apart) h with
    ⟨o, d, hhead, hrest⟩ | ⟨d, hrest⟩
  · -- read as a field: the default is avoided from its first token on
    have hd : Sound ⟨.fieldColon o, d⟩ := hs.advance hhead
    rw [hclause, advance_default] at hrest
    have hstart : Avoids v
        ⟨.fieldDefault o, d.withField fun f => { typeOf p f with type := p.type }⟩ := by
      refine ⟨{ hd with field := ⟨hd.field.1.congr rfl rfl rfl rfl, hd.field.2⟩ }, ?_, .inl rfl⟩
      have hnone : d.field.default = none := hd.field.2
      intro heq
      cases hnone.symm.trans heq
    have hend : Avoids v t := advance_induction hrest hstart
      fun _ _ kind lexeme hwithin hu hr =>
        hu.step hbad.not_isListText hr (hne kind lexeme hwithin hr.spells)
    exact hend.mismatch hbad.1
  · rw [hclause, not_advance_default] at hrest
    cases hrest

/-- No shorter word of the grammar starts the name. -/
def IsUncut (name : String) : Prop :=
  ∀ (m : Mark) (more : List Char), m.isWord = true → name.toList = m.text.toList ++ more → more = []

theorem isUncut_modifier {name : String} (h : name = "UNIQUE" ∨ name = "INDEX") : IsUncut name := by
  intro m more hm happend
  have hbegins : m.text.toList <+: name.toList := ⟨more, happend.symm⟩
  have hlen : name.toList.length = m.text.toList.length := by
    revert hm hbegins
    rcases h with heq | heq <;> (rw [heq]; cases m <;> decide)
  rw [happend, List.length_append] at hlen
  exact List.length_eq_zero_iff.1 (by omega)

/-- A name is what stands right before the colon of a field. -/
theorem name_of_fieldColon {s t : State} {name : String} (h : s.advance name.toList = some t)
    (hname : isIdentifier name.toList = true) {o : Owner} (ht : t.place = .fieldColon o)
    (hmark : IsUncut name) : t.draft.field.name = name := by
  rw [← List.append_nil name.toList] at h
  obtain ⟨v, ⟨hreads, hrest⟩ | ⟨m, more, hm, happend, hreads, hrest⟩⟩ :=
    step_of_name hname apart_nil h
  · rw [advance_nil] at hrest
    obtain rfl := Option.some.inj hrest
    have hnext := hreads.next
    rw [ht] at hnext
    obtain ⟨place, d⟩ := s
    obtain ⟨-, rfl | rfl⟩ := Place.next_fieldColon hnext
    · have hpush : d.push ⟨.fields o, .name, name.toList, 0⟩ =
          .ok (d.withField fun f => { f with name := name }) := by
        cases o <;> simp only [Draft.push, String.ofList_toList]
      rw [← Except.ok.inj (hpush.symm.trans hreads.push)]
      rfl
    · have hpush : d.push ⟨.fieldName o, .name, name.toList, 0⟩ =
          .ok (d.withField fun f => { f with name := name }) := by
        simp only [Draft.push, String.ofList_toList]
      rw [← Except.ok.inj (hpush.symm.trans hreads.push)]
      rfl
  · -- a mark that takes the whole name is no name
    rw [List.append_nil] at happend
    obtain rfl := hmark m more hm happend
    rw [advance_nil] at hrest
    obtain rfl := Option.some.inj hrest
    have hnext := hreads.next
    rw [ht] at hnext
    cases (Place.next_fieldColon hnext).1

/-- Among the clauses of an edge nothing is promised. -/
theorem mismatch_of_clauses {q : Place} (hq : q = .clauseEnd ∨ q = .clauses) (d : Draft)
    (p : Property) : Mismatch ⟨q, d⟩ p := by
  have hhead (o : Owner) : q.headOwner? ≠ some o := by
    rcases hq with rfl | rfl <;> exact fun hplace => by cases hplace
  have hend (o : Owner) : ¬ (q = .afterType o ∨ q = .fieldEnd o) := by
    rcases hq with rfl | rfl <;> simp
  intro o
  exact ⟨fun hplace => absurd hplace (hhead o), fun hplace => absurd hplace (hend o)⟩

/-- A field whose modifiers are enough to tell its property from another one. -/
theorem mismatch_of_field {p : Property} {o : Owner} {d : Draft} {items : List String}
    (hd : d.field.default = none)
    (hdiffers : ∀ x : Property, x.isUnique = d.field.isUnique → x.isIndex = d.field.isIndex →
      x.Differs p)
    {cs : List Char} (hcs : IsFieldEnd cs) {t : State}
    (h : advance (fieldState p o d items) cs = some t) : t.Mismatch p := by
  intro o'
  rcases hcs with rfl | rfl
  · rw [advance_nil] at h
    obtain rfl := Option.some.inj h
    constructor
    · intro hplace
      rw [fieldState] at hplace
      split at hplace <;> cases hplace
    · intro _
      apply hdiffers
      · rw [fieldState]
        split <;> rfl
      · rw [fieldState]
        split <;> rfl
  · -- the comma completes the property
    rw [advance_fieldComma p o hd, advance_nil] at h
    obtain rfl := Option.some.inj h
    constructor
    · intro _ x hx
      have hx : (d.properties ++ [propertyOf p d.field]).getLast? = some x := hx
      rw [List.getLast?_concat] at hx
      obtain rfl := Option.some.inj hx
      exact hdiffers _ rfl rfl
    · intro hplace
      rcases hplace with hplace | hplace <;> cases hplace

theorem mismatch_of_bare {s t : State} (hs : Sound s) {indent : String} {p : Property}
    (hindent : ∀ c ∈ indent.toList, isLayoutChar c = true) (hbare : p.IsBareModifier)
    (hp : p.HasPrintableDefault) {cs : List Char} (hcs : IsFieldEnd cs)
    (h : s.advance (fieldsText indent [p] ++ cs) = some t) : t.Mismatch p := by
  obtain ⟨hword, hunique, hindex⟩ := hbare
  have hname : isIdentifier p.name.toList = true := by
    rcases hword with heq | heq <;> (rw [heq]; decide)
  rcases field_of_advance hindent hname hp hcs.apart h with ⟨o, d, items, hhead, hrest⟩ | ⟨d, hrest⟩
  · have hd : Sound ⟨.fieldColon o, d⟩ := hs.advance hhead
    have hmodifier : p.modifier = "" := by simp [Property.modifier, hunique, hindex]
    rw [headWords, advance_layout hindent, hmodifier, String.toList_empty, List.nil_append] at hhead
    have hfield : d.field.name = p.name :=
      name_of_fieldColon hhead hname rfl (isUncut_modifier hword)
    -- no field is sound whose name is a bare modifier, so a modifier was read before the name
    have hflags : d.field.isUnique = true ∨ d.field.isIndex = true := by
      by_contra hnot
      simp only [not_or, Bool.not_eq_true] at hnot
      apply hd.field.1.notBare
      refine ⟨?_, hnot⟩
      rw [FieldDraft.property, hfield]
      exact hword
    apply mismatch_of_field hd.field.2 _ hcs hrest
    intro x hu hi
    refine .inr ⟨⟨hword, hunique, hindex⟩, ?_⟩
    rw [hu, hi]
    exact hflags
  · -- read as a clause of an edge
    rcases hcs with rfl | rfl
    · rw [advance_nil] at hrest
      obtain rfl := Option.some.inj hrest
      exact mismatch_of_clauses (.inl rfl) d p
    · rw [advance_clauseComma, advance_nil] at hrest
      obtain rfl := Option.some.inj hrest
      exact mismatch_of_clauses (.inr rfl) d p

/-- A field that is not declarable is misread or not read at all. -/
theorem mismatch_of_not_declarable {s t : State} (hs : Sound s) {indent : String} {p : Property}
    (hindent : ∀ c ∈ indent.toList, isLayoutChar c = true)
    (hname : isIdentifier p.name.toList = true) (hp : ¬ p.IsDeclarable) {cs : List Char}
    (hcs : IsFieldEnd cs) (h : s.advance (fieldsText indent [p] ++ cs) = some t) :
    t.Mismatch p := by
  by_cases hprintable : p.HasPrintableDefault
  · have hbare : p.IsBareModifier := by
      by_contra hnot
      exact hp ⟨hname, hnot, hprintable⟩
    exact mismatch_of_bare hs hindent hbare hprintable hcs h
  · exact mismatch_of_unprintable hs hindent hname hprintable hcs h

end State

end Schema

end Hql
