import Hql.Proofs.Library.Makeup
import Hql.Proofs.Library.Names
import Hql.Proofs.Library.Titles
import Hql.Proofs.Validation.Due

/-!
The names in queries as identifiers. The checks look at the name of an entity without the blanks around
it, the templates write it as it stands. Main statement: in a model without errors the names in a query
are identifiers, but for blanks around the names of entities. Parameters and accessors, which name
properties, are free of them.
-/

namespace Hql.Library

open Fragment Naming Text Validation

/-! ### Names in a query -/

/-- `[A-Za-z][A-Za-z0-9_]*` -/
def IsBareIdentifier (cs : List Char) : Prop :=
  ∃ c ds, cs = c :: ds ∧ c.isAlpha = true ∧ ∀ d ∈ ds, isIdentChar d = true

instance (cs : List Char) : Decidable (IsBareIdentifier cs) :=
  decidable_of_iff (isPropertyName cs = true) (isPropertyName_iff cs)

/-- What a name in a query names: the query, a parameter, a type of an entity or the direction of an
order, a field of a projection, or the property that an accessor reads. -/
inductive Role where
  | title | parameter | type | field | accessed
  deriving DecidableEq

/-- A name stands in a query, in a role. -/
inductive Names (q : Query) : Role → String → Prop
  | title : Names q .title q.name
  | parameter {name type : String} (h : (name, type) ∈ q.params) : Names q .parameter name
  | stepType {operator name : String} {args : Option (List Fragment)} {attached : Bool}
      (h : step operator (some name) args attached ∈ q.toFragment.parts) : Names q .type name
  | sourceType {origin name : String} {args : Option (List Fragment)} {steps : List Fragment}
      {multiline : Bool} (h : source origin (some name) args steps multiline ∈ q.toFragment.parts) :
      Names q .type name
  | field {name : String} {value : Fragment} {fields : List (String × Fragment)}
      (h : projection fields ∈ q.toFragment.parts) (hfield : (name, value) ∈ fields) :
      Names q .field name
  | accessed {target name : String} {callArgs : Option (List Fragment)} {chain : List Fragment}
      (h : expression (target ++ "::\x7b" ++ name ++ "\x7d") callArgs chain ∈ q.toFragment.parts) :
      Names q .accessed name

/-! ### Identifiers with blanks -/

/-- Every character of a text is of a kind. -/
def MadeOf (P : Char → Prop) (s : String) : Prop := ∀ c ∈ s.toList, P c

@[simp] theorem madeOf_append (P : Char → Prop) (s t : String) :
    MadeOf P (s ++ t) ↔ MadeOf P s ∧ MadeOf P t := by
  rw [MadeOf, String.toList_append, List.forall_mem_append, MadeOf, MadeOf]

/-- A character of identifiers, or a blank in the name of an entity. -/
def IsNameChar (model : Model) (c : Char) : Prop :=
  isIdentChar c = true ∨ isBlank c = true ∧ ∃ x ∈ model.entities, c ∈ x.name.toList

/-- An identifier, but for blanks in the names of entities. -/
structure IsSpaced (model : Model) (name : String) : Prop where
  letter : ∃ blanks c rest, name.toList = blanks ++ c :: rest ∧
    (∀ b ∈ blanks, isBlank b = true) ∧ c.isAlpha = true
  chars : MadeOf (IsNameChar model) name

section Blanks

variable {model : Model} {name more : String}

theorem isIdentChar_of_isAlpha {c : Char} (h : c.isAlpha = true) : isIdentChar c = true :=
  Bool.or_eq_true_iff.2 (.inl (Bool.or_eq_true_iff.2 (.inl h)))

theorem isAlpha_toLower {c : Char} (h : c.isAlpha = true) : c.toLower.isAlpha = true := by
  have hall : ∀ n < 128, (Char.ofNat n).isAlpha = true → (Char.ofNat n).toLower.isAlpha = true := by
    decide +kernel
  have hascii := toNat_lt_of_isIdentChar (isIdentChar_of_isAlpha h)
  rw [← Char.ofNat_toNat c] at h ⊢
  exact hall _ hascii h

theorem isBlank_of_isAlpha {c : Char} (h : c.isAlpha = true) : isBlank c = false :=
  not_isBlank_of_isIdentChar (isIdentChar_of_isAlpha h)

theorem IsBareIdentifier.identChars {cs : List Char} (h : IsBareIdentifier cs) :
    ∀ c ∈ cs, isIdentChar c = true := by
  obtain ⟨c, ds, rfl, hletter, hrest⟩ := h
  exact List.forall_mem_cons.2 ⟨isIdentChar_of_isAlpha hletter, hrest⟩

theorem IsBareIdentifier.isSpaced (h : IsBareIdentifier name.toList) : IsSpaced model name where
  letter := by
    obtain ⟨c, ds, heq, hletter, -⟩ := h
    exact ⟨[], c, ds, heq, List.forall_mem_nil _, hletter⟩
  chars := fun c hc => .inl (h.identChars c hc)

theorem IsSpaced.append (h : IsSpaced model name) (hmore : MadeOf (IsNameChar model) more) :
    IsSpaced model (name ++ more) where
  letter := by
    obtain ⟨blanks, c, rest, heq, hblanks, hletter⟩ := h.letter
    exact ⟨blanks, c, rest ++ more.toList, by simp [heq], hblanks, hletter⟩
  chars := (madeOf_append _ _ _).2 ⟨h.chars, hmore⟩

/-- What is left without the blanks is an identifier. -/
theorem IsSpaced.isBare (h : IsSpaced model name) :
    IsBareIdentifier (withoutBlanks name.toList) := by
  obtain ⟨blanks, c, rest, heq, hblanks, hletter⟩ := h.letter
  have hnone : blanks.filter (fun b => !isBlank b) = [] := by
    rw [List.filter_eq_nil_iff]
    intro b hb
    rw [hblanks b hb]
    decide
  have hletters : withoutBlanks name.toList = c :: withoutBlanks rest := by
    rw [heq, withoutBlanks, List.filter_append, hnone, List.nil_append,
      List.filter_cons_of_pos (by simp [isBlank_of_isAlpha hletter]), withoutBlanks]
  refine ⟨c, withoutBlanks rest, hletters, hletter, fun d hd => ?_⟩
  obtain ⟨hd, hplain⟩ := List.mem_filter.1 hd
  rcases h.chars d (by simp [heq, hd]) with hident | ⟨hblank, -⟩
  · exact hident
  · rw [hblank] at hplain
    cases hplain

/-- Without blanks in the names of entities there are none in the names that are made of them. -/
theorem IsSpaced.isBare_of_plain (h : IsSpaced model name)
    (hplain : ∀ x ∈ model.entities, ∀ c ∈ x.name.toList, isBlank c = false) :
    IsBareIdentifier name.toList := by
  have hself : withoutBlanks name.toList = name.toList := by
    rw [withoutBlanks, List.filter_eq_self]
    intro c hc
    rcases h.chars c hc with hident | ⟨-, x, hx, hmem⟩
    · rw [not_isBlank_of_isIdentChar hident]
      rfl
    · rw [hplain x hx c hmem]
      rfl
  rw [← hself]
  exact h.isBare

/-- Pascal case leaves blanks as they are. -/
theorem isNameChar_pascalCase (h : MadeOf (IsNameChar model) name) :
    MadeOf (IsNameChar model) (pascalCase name) := by
  rw [MadeOf, pascalCase, String.toList_ofList]
  refine forall_mem_pascalFrom (fun c hc => ?_) h true
  rcases hc with hident | hblank
  · rw [upperChar, if_pos (toNat_lt_of_isIdentChar hident), List.forall_mem_singleton]
    exact .inl (isIdentChar_toUpper hident).1
  · rw [(case_of_isBlank hblank.1).1, List.forall_mem_singleton]
    exact .inr hblank

end Blanks

/-! ### Names of queries -/

namespace Title

/-- The names in a title besides that of its entity. -/
def held : Title → List String
  | aggregate _ property => [property]
  | group property => [property]
  | search _ property => property.toList
  | get (.keyed property) => [property]
  | get (.following start) => [start]
  | _ => []

/-- After its word a title has the name of its entity, the names that it holds, and letters. -/
theorem madeOf_rest {P : Char → Prop} (hident : ∀ c, isIdentChar c = true → P c) {name : String}
    (hname : MadeOf P name) {t : Title} (hheld : ∀ s ∈ t.held, MadeOf P s) :
    MadeOf P (t.rest name) := by
  have hwords : ∀ w ∈ ["By", "Of", "All", "Mutual", "DeepDetail", "Vector", "Network", ""],
      MadeOf P w := by
    have hall : ∀ w ∈ ["By", "Of", "All", "Mutual", "DeepDetail", "Vector", "Network", ""],
        ∀ c ∈ w.toList, isIdentChar c = true := by decide
    exact fun w hw c hc => hident c (hall w hw c hc)
  cases t with
  | plain a => cases a <;> simp [rest, Action.ending, hname, hwords]
  | upsert isVector => cases isVector <;> simp [rest, hname, hwords]
  | aggregate isAverage property => simpa [rest, held, hname] using hheld
  | group property => simpa [rest, held, hname, hwords] using hheld
  | search isHybrid property =>
    cases property with
    | none => exact hname
    | some property => simpa [rest, held, hname, hwords] using hheld
  | get v =>
    cases v with
    | keyed property => simpa [rest, View.rest, held, hname, hwords] using hheld
    | following start => simpa [rest, View.rest, held, hname, hwords] using hheld
    | _ => simp [rest, View.rest, hname, hwords]

end Title

/-- The titles of an entity hold two fixed words, names of its properties and that of its start. -/
theorem forall_held {e : Entity} {P : String → Prop} (hfixed : ∀ s ∈ ["Id", "Keyword"], P s)
    (hproperty : ∀ p ∈ e.namedProperties, P (pascalCase p.name))
    (hstart : e.isEdge = true → P (pascalCase (e.source.getD ""))) :
    ∀ t ∈ titles e, ∀ s ∈ t.held, P s := by
  rw [List.forall_mem_cons, List.forall_mem_singleton] at hfixed
  obtain ⟨hid, hkeyword⟩ := hfixed
  have hfilter (keep : Property → Bool) : ∀ p ∈ e.namedProperties.filter keep, P (pascalCase p.name) :=
    fun p hp => hproperty p (List.mem_filter.1 hp).1
  rw [titles]
  cases hkind : e.kind with
  | node =>
    simp only [nodeTitles, List.forall_mem_append, List.forall_mem_cons, List.forall_mem_map,
      List.forall_mem_flatMap, Title.held, List.not_mem_nil, false_imp_iff, implies_true, and_true,
      true_and, Option.toList_some, and_self]
    exact ⟨⟨⟨hid, hfilter _⟩, hkeyword⟩, hfilter _, hfilter _⟩
  | edge => simpa [edgeTitles, Title.held] using hstart (decide_eq_true hkind)
  | vector =>
    simp only [vectorTitles, List.forall_mem_append, List.forall_mem_cons, List.forall_mem_flatMap,
      Title.held, List.not_mem_nil, false_imp_iff, implies_true, and_true, true_and,
      Option.toList_none, Option.toList_some, and_self]
    exact ⟨hfilter _, hkeyword⟩

/-! ### Names of a model without errors -/

section Accepted

variable {config : Config} {model : Model} (h : ErrorFree (validate model)) {e : Entity}
  (he : e ∈ model.entities)

include h he

theorem isBare_property {p : Property} (hp : p ∈ e.namedProperties)
    (hnewline : p.name.toList.getLast? ≠ some '\n') : IsBareIdentifier p.name.toList := by
  have hstored := (accepts_of_validate h e he).properties p
    (Entity.mem_properties_of_mem_namedProperties hp)
  exact (isPropertyName_iff _).1 (isPropertyName_of_isStoredPropertyName hstored hnewline)

/-- The name of an entity is an identifier between blanks, which may be turned into lower case. -/
theorem exists_blanks_name : ∃ a c w b, e.name.toList = a ++ c :: w ++ b ∧
    (lowercase e.name).toList = a ++ (c :: w).map Char.toLower ++ b ∧
    (∀ d ∈ a, isBlank d = true) ∧ (∀ d ∈ b, isBlank d = true) ∧ c.isAlpha = true ∧
    ∀ d ∈ w, isIdentChar d = true := by
  obtain ⟨a, b, hname, ha, hb⟩ := Layout.exists_blanks_trim e.name.toList
  have hform := (accepts_of_validate h e he).name
  cases htrim : trim e.name.toList with
  | nil =>
    rw [htrim] at hform
    cases hform
  | cons c w =>
    rw [htrim] at hform hname
    obtain ⟨hupper, hrest⟩ := Bool.and_eq_true_iff.1 hform
    have hletter : c.isAlpha = true := Bool.or_eq_true_iff.2 (.inl hupper)
    have hw : ∀ d ∈ w, isIdentChar d = true := List.all_eq_true.1 hrest
    refine ⟨a, c, w, b, hname, ?_, ha, hb, hletter, hw⟩
    rw [lowercase, String.toList_ofList, hname]
    exact lower_name ha (List.forall_mem_cons.2 ⟨isIdentChar_of_isAlpha hletter, hw⟩) hb

theorem isSpaced_name : IsSpaced model e.name := by
  obtain ⟨a, c, w, b, hname, -, ha, hb, hletter, hw⟩ := exists_blanks_name h he
  refine ⟨⟨a, c, w ++ b, by simp [hname], ha, hletter⟩, fun d hd => ?_⟩
  -- the blanks of a name are those of the entity itself
  have hmem := hd
  rw [hname, List.mem_append, List.mem_append, List.mem_cons] at hmem
  rcases hmem with (hblank | rfl | hident) | hblank
  · exact .inr ⟨ha d hblank, e, he, hd⟩
  · exact .inl (isIdentChar_of_isAlpha hletter)
  · exact .inl (hw d hident)
  · exact .inr ⟨hb d hblank, e, he, hd⟩

theorem isSpaced_lowercase : IsSpaced model (lowercase e.name) := by
  obtain ⟨a, c, w, b, hname, hlower, ha, hb, hletter, hw⟩ := exists_blanks_name h he
  refine ⟨⟨a, c.toLower, w.map Char.toLower ++ b, by simp [hlower], ha, isAlpha_toLower hletter⟩,
    fun d hd => ?_⟩
  rw [hlower, List.mem_append, List.mem_append, List.mem_map] at hd
  rcases hd with (hblank | ⟨d', hd', rfl⟩) | hblank
  · exact .inr ⟨ha d hblank, e, he, by simp [hname, hblank]⟩
  · have hident : ∀ d ∈ c :: w, isIdentChar d = true :=
      List.forall_mem_cons.2 ⟨isIdentChar_of_isAlpha hletter, hw⟩
    exact .inl (isIdentChar_toUpper (hident d' hd')).2
  · exact .inr ⟨hb d hblank, e, he, by simp [hname, hblank]⟩

/-- The name at the start of an edge is that of an entity, or the word for an end that is not set. -/
theorem isSpaced_start (hedge : e.isEdge = true) : IsSpaced model (endName e.source) ∧
    MadeOf (IsNameChar model) (e.source.getD "") := by
  rw [← getD_setEnd, endName]
  cases hset : setEnd e.source with
  | none =>
    have hundefined : IsBareIdentifier undefinedEnd.toList := by decide
    exact ⟨hundefined.isSpaced, List.forall_mem_nil _⟩
  | some s =>
    obtain ⟨x, hx, rfl⟩ := List.mem_map.1 ((accepts_of_validate h e he).source hedge s hset)
    exact ⟨isSpaced_name h hx, (isSpaced_name h hx).chars⟩

/-- The types in a query about an entity are names of entities or words. -/
theorem isSpaced_type {name : String} (htype : IsType model e name) : IsSpaced model name := by
  cases htype with
  | direction =>
    have hword : IsBareIdentifier "Asc".toList := by decide
    exact hword.isSpaced
  | own => exact isSpaced_name h he
  | start hedge => exact (isSpaced_start h he hedge).1
  | related hrelated => exact isSpaced_name h (List.mem_filter.1 hrelated).1

variable (hproperties : ∀ p ∈ e.namedProperties, IsBareIdentifier p.name.toList)

include hproperties

theorem isSpaced_title {t : Title} (ht : t ∈ titles e) :
    IsSpaced model (t.text (pascalCase e.name)) := by
  have hword : IsBareIdentifier t.word.toList := by
    have hall : ∀ w ∈ frontWords, IsBareIdentifier w.toList := by decide
    exact hall _ t.word_mem
  have hbare {s : String} (hs : ∀ c ∈ s.toList, isIdentChar c = true) : MadeOf (IsNameChar model) s :=
    fun c hc => .inl (hs c hc)
  refine hword.isSpaced.append (Title.madeOf_rest (fun _ hc => .inl hc)
    (isNameChar_pascalCase (isSpaced_name h he).chars) (forall_held ?_ ?_ ?_ t ht))
  · have hfixed : ∀ s ∈ ["Id", "Keyword"], ∀ c ∈ s.toList, isIdentChar c = true := by decide
    exact fun s hs => hbare (hfixed s hs)
  · exact fun p hp => isNameChar_pascalCase (hbare (hproperties p hp).identChars)
  · exact fun hedge => isNameChar_pascalCase (isSpaced_start h he hedge).2

end Accepted

section Bare

variable {model : Model} {e : Entity} {q : Query}
  (hproperties : ∀ p ∈ e.namedProperties, IsBareIdentifier p.name.toList)

include hproperties

theorem isBare_param (h : HasParams e q) : ∀ a ∈ q.params.map Prod.fst, IsBareIdentifier a.toList := by
  have hnames : ∀ a ∈ e.namedProperties.map Property.name, IsBareIdentifier a.toList :=
    List.forall_mem_map.2 hproperties
  cases h with
  | fixed names hfixed hparams =>
    have hall : ∀ names ∈ fixedParams, ∀ a ∈ names, IsBareIdentifier a.toList := by decide
    rw [hparams]
    exact hall _ hfixed
  | storing leading hleading hparams =>
    have hall : ∀ kind ∈ EntityKind.all, ∀ leading ∈ leadingParams kind, ∀ a ∈ leading,
        IsBareIdentifier a.toList := by decide
    rw [hparams, List.forall_mem_append]
    exact ⟨hall e.kind (by cases e.kind <;> decide) _ hleading, hnames⟩
  | connecting h =>
    rw [params_of_isConnection h, List.forall_mem_cons, List.forall_mem_cons]
    exact ⟨by decide, by decide, hnames⟩

theorem isSpaced_field (h : ErrorFree (validate model)) {fields : List (String × Fragment)}
    (hfields : Draws model e q (projection fields)) : ∀ field ∈ fields, IsSpaced model field.1 := by
  have hstored : ∀ field ∈ storedFields e, IsSpaced model field.1 :=
    List.forall_mem_map.2 fun p hp => (hproperties p hp).isSpaced
  rcases hfields with rfl | ⟨-, rfl⟩
  · exact hstored
  · have hid : IsBareIdentifier "node_id".toList := by decide
    have hcount : ∀ c ∈ "_count".toList, isIdentChar c = true := by decide
    rw [detailFields, List.cons_append, List.forall_mem_cons, List.forall_mem_append,
      List.forall_mem_map]
    refine ⟨hid.isSpaced, hstored, fun edge hedge => ?_⟩
    have hmem := (List.mem_filter.1 (List.mem_of_mem_take hedge)).1
    exact (isSpaced_lowercase h hmem).append fun c hc => .inl (hcount c hc)

/-- What an accessor reads is a property. -/
theorem isBare_accessed {target name : String} (h : IsHead e (target ++ "::\x7b" ++ name ++ "\x7d")) :
    IsBareIdentifier name.toList := by
  have hlast : '}' ∈ (target ++ "::\x7b" ++ name ++ "\x7d").toList := by simp
  generalize hhead : target ++ "::\x7b" ++ name ++ "\x7d" = head at h
  cases h with
  | word hw =>
    have hall : ∀ w ∈ ["_", "_::ID", "\"Deleted\"", "EXISTS", "SUM", "AVG"], '}' ∉ w.toList := by decide
    rw [hhead] at hlast
    exact absurd hlast (hall _ hw)
  | named hp =>
    rw [hhead] at hlast
    exact absurd ((hproperties _ hp).identChars _ hlast) (by decide)
  | @accessor p hp target' htarget =>
    have htext := congrArg String.toList hhead.symm
    have hlists : (target'.toList ++ "::".toList) ++ '\x7b' :: (p.name.toList ++ ['\x7d']) =
        (target.toList ++ "::".toList) ++ '\x7b' :: (name.toList ++ ['\x7d']) := by
      simpa using htext
    -- an accessor of the templates has one opening brace, behind which the property stands
    have hbefore : '\x7b' ∉ target'.toList ++ "::".toList := by
      have hall : ∀ w ∈ ["_", "result"], '\x7b' ∉ w.toList ++ "::".toList := by decide
      exact hall _ htarget
    have hafter : '\x7b' ∉ p.name.toList ++ ['\x7d'] := by
      rw [List.mem_append, not_or]
      exact ⟨fun hmem => absurd ((hproperties p hp).identChars _ hmem) (by decide), by decide⟩
    obtain ⟨-, -, hname⟩ := (List.append_cons_inj_of_notMem hbefore hafter).1 hlists
    rw [← List.append_cancel_right hname]
    exact hproperties p hp

end Bare

/-! ### Names in the queries of a library -/

/-- The name of a query is a title of its entity. -/
theorem exists_title {config : Config} {model : Model} {g : Group} (hg : g ∈ build config model)
    {q : Query} (hq : q ∈ g.all) :
    ∃ t ∈ titles g.entity, t.text (pascalCase g.entity.name) = q.name := by
  obtain ⟨e, -, rfl⟩ := List.mem_map.1 hg
  exact List.mem_map.1 ((names_sublist config model e).subset (List.mem_map_of_mem hq))

/-- In a model without errors, in which no property name ends with a line feed, every name in a query
is a letter followed by letters, digits and underscores once the blanks around the names of entities
are left out. Such blanks are found in no parameter and in no property that an accessor reads. -/
theorem isBare_of_names {config : Config} {model : Model} (h : ErrorFree (validate model))
    (hnewline : ∀ x ∈ model.entities, ∀ p ∈ x.namedProperties, p.name.toList.getLast? ≠ some '\n')
    {g : Group} (hg : g ∈ build config model) {q : Query} (hq : q ∈ g.all) {role : Role}
    {name : String} (hname : Names q role name) :
    IsBareIdentifier (withoutBlanks name.toList) ∧
    (role = .parameter ∨ role = .accessed → IsBareIdentifier name.toList) ∧
    ((∀ x ∈ model.entities, trimmed x.name = x.name) → IsBareIdentifier name.toList) := by
  obtain ⟨he, htemplate⟩ := template_of_mem_build hg hq
  have hmakeup := htemplate.makeup
  have hproperties : ∀ p ∈ g.entity.namedProperties, IsBareIdentifier p.name.toList :=
    fun p hp => isBare_property h he hp (hnewline _ he p hp)
  have hspaced : IsSpaced model name ∧
      (role = .parameter ∨ role = .accessed → IsBareIdentifier name.toList) := by
    cases hname with
    | title =>
      obtain ⟨t, ht, heq⟩ := exists_title hg hq
      rw [← heq]
      exact ⟨isSpaced_title h he hproperties ht, by simp⟩
    | parameter hparam =>
      have hbare := isBare_param hproperties hmakeup.params name (List.mem_map_of_mem hparam)
      exact ⟨hbare.isSpaced, fun _ => hbare⟩
    | stepType hstep => exact ⟨isSpaced_type h he (hmakeup.everywhere _ hstep), by simp⟩
    | sourceType hsource => exact ⟨isSpaced_type h he (hmakeup.everywhere _ hsource), by simp⟩
    | field hprojection hfield =>
      exact ⟨isSpaced_field hproperties h (hmakeup.everywhere _ hprojection) _ hfield, by simp⟩
    | accessed hexpression =>
      have hbare := isBare_accessed hproperties (hmakeup.everywhere _ hexpression)
      exact ⟨hbare.isSpaced, fun _ => hbare⟩
  obtain ⟨hspaced, hbare⟩ := hspaced
  -- a name that is trimmed is an identifier, so there is no blank left in the model
  refine ⟨hspaced.isBare, hbare, fun htrimmed => hspaced.isBare_of_plain fun x hx => ?_⟩
  have hident := isIdentifier_of_accepts (accepts_of_validate h x hx) (htrimmed x hx)
  exact not_isBlank_of_isIdentifier hident

theorem isBare_of_names_socialModel : ErrorFree (validate socialModel) ∧
    (∀ x ∈ socialModel.entities, ∀ p ∈ x.namedProperties, p.name.toList.getLast? ≠ some '\n') ∧
    (∀ x ∈ socialModel.entities, trimmed x.name = x.name) ∧
    ∃ g ∈ build (Config.uniform true) socialModel, ∃ creation ∈ g.all, ∃ lookup ∈ g.all,
      Names creation .title "CreatePerson" ∧ Names creation .parameter "email" ∧
      Names creation .type "Person" ∧ Names creation .field "email" ∧
      Names lookup .accessed "email" ∧
      ∀ q ∈ g.all, ∀ role name, Names q role name → IsBareIdentifier name.toList := by
  have hnewline : ∀ x ∈ socialModel.entities, ∀ p ∈ x.namedProperties,
      p.name.toList.getLast? ≠ some '\n' := by decide
  have htrimmed : ∀ x ∈ socialModel.entities, trimmed x.name = x.name := by decide +kernel
  let person := socialModel.entities.get ⟨0, by decide⟩
  let email := person.namedProperties.get ⟨0, by decide⟩
  let g : Group := ⟨person, sectionQueries (Config.uniform true) socialModel person⟩
  have hg : g ∈ build (Config.uniform true) socialModel := List.mem_map_of_mem (List.get_mem _ _)
  have hcreation : createNode person ∈ g.all :=
    List.mem_flatMap.2 ⟨.crud, by decide, List.mem_of_getElem? (i := 0) rfl⟩
  have hlookup : nodeByUnique person email ∈ g.all :=
    List.mem_flatMap.2 ⟨.crud, by decide, List.mem_of_getElem? (i := 3) rfl⟩
  have htitle : (createNode person).name = "CreatePerson" := by decide +kernel
  refine ⟨errorFree_socialModel, hnewline, htrimmed, g, hg, _, hcreation, _, hlookup, htitle ▸ .title, ?_, ?_, ?_, ?_,
    fun q hq role name hname => ?_⟩
  · have hparam : ("email", "String") ∈ (createNode person).params := List.mem_of_getElem? (i := 0) rfl
    exact .parameter hparam
  · exact .sourceType (List.mem_of_getElem? (i := 2) rfl)
  · exact .field (List.mem_of_getElem? (i := 3) rfl) (List.mem_of_getElem? (i := 0) rfl)
  · have haccess : expression ("_" ++ "::\x7b" ++ "email" ++ "\x7d") none
        [step "EQ" none (some [text "val"]) false] ∈ (nodeByUnique person email).toFragment.parts :=
      List.mem_of_getElem? (i := 4) rfl
    exact .accessed haccess
  · exact (isBare_of_names errorFree_socialModel hnewline hg hq hname).2.2 htrimmed

/-- A model with a blank in front of the name of a node. -/
def indentedModel : Model := [some { id := "u", name := " User", kind := .node }]

/-- The checks accept names of entities with blanks around them, and the templates write the blanks. -/
theorem not_isBare_of_names : ¬ ∀ (config : Config) (model : Model), ErrorFree (validate model) →
    ∀ g ∈ build config model, ∀ q ∈ g.all, ∀ role name, Names q role name →
      IsBareIdentifier name.toList := by
  intro h
  let node := indentedModel.entities.get ⟨0, by decide⟩
  have hg : ⟨node, sectionQueries {} indentedModel node⟩ ∈ build {} indentedModel :=
    List.mem_map_of_mem (List.get_mem _ _)
  have hq : createNode node ∈ Group.all ⟨node, sectionQueries {} indentedModel node⟩ :=
    List.mem_flatMap.2 ⟨.crud, by decide, List.mem_of_getElem? (i := 0) rfl⟩
  have htitle : ¬ IsBareIdentifier (createNode node).name.toList := by decide +kernel
  exact htitle (h {} indentedModel (by decide +kernel) _ hg _ hq _ _ .title)

end Hql.Library
