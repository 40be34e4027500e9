import Hql.Library.Sections
import Hql.Proofs.Library.Templates

/-!
The text of a library as paragraphs. Each query is a paragraph, the first one of a section with the
header above it. In a model without errors whose property names are no words of the language, each
paragraph holds its query, so the text can be laid out paragraph by paragraph.
-/

namespace Hql

open Text Layout

namespace Layout

/-! ### Texts put together -/

theorem document_append {ps qs : List Paragraph} (hps : ps ≠ []) (hqs : qs ≠ []) :
    document (ps ++ qs) = document ps ++ '\n' :: '\n' :: document qs := by
  induction ps with
  | nil => exact absurd rfl hps
  | cons p ps ih =>
    cases ps with
    | nil =>
      obtain ⟨q, qs, rfl⟩ := List.exists_cons_of_ne_nil hqs
      rfl
    | cons p' ps =>
      rw [List.cons_append, List.cons_append, document, ← List.cons_append, ih (by simp), document,
        List.append_assoc]
      rfl

/-- Texts of paragraphs with an empty line between two are a text of paragraphs. -/
theorem intercalate_document {pss : List (List Paragraph)} (h : ∀ ps ∈ pss, ps ≠ []) :
    ['\n', '\n'].intercalate (pss.map document) = document pss.flatten := by
  induction pss with
  | nil => rfl
  | cons ps pss ih =>
    obtain ⟨hps, hpss⟩ := List.forall_mem_cons.1 h
    cases pss with
    | nil => simp
    | cons qs pss =>
      have hqs : (qs :: pss).flatten ≠ [] := by
        rw [List.flatten_cons]
        exact List.append_ne_nil_of_left_ne_nil (hpss qs (List.mem_cons_self ..)) _
      rw [List.flatten_cons, document_append hps hqs, ← ih hpss]
      simp [List.intercalate]

theorem document_eq_intercalate (ps : List Paragraph) :
    document ps = ['\n', '\n'].intercalate (ps.map Paragraph.chars) := by
  have hsingle : ∀ qs ∈ ps.map fun p => [p], qs ≠ [] := List.forall_mem_map.2 fun p _ => by simp
  have hflatten : (ps.map fun p => [p]).flatten = ps := by
    rw [← List.flatMap_def, List.flatMap_singleton']
  have hdocument := intercalate_document hsingle
  rw [hflatten, List.map_map] at hdocument
  exact hdocument.symm

end Layout

namespace Library

/-! ### Paragraphs of a library -/

/-- The paragraph of a query, below the header of its section if it is the first one. -/
def paragraph (header : Option String) (q : Query) : Paragraph := ⟨header.map String.toList, q.text.toList⟩

@[simp] theorem text_paragraph (header : Option String) (q : Query) :
    (paragraph header q).text = q.text.toList := by rw [paragraph]

@[simp] theorem chars_paragraph_none (q : Query) : (paragraph none q).chars = q.text.toList := by
  rw [paragraph, Paragraph.chars, Option.map_none]

@[simp] theorem chars_paragraph_some (header : String) (q : Query) :
    (paragraph (some header) q).chars = header.toList ++ '\n' :: q.text.toList := by
  rw [paragraph, Paragraph.chars, Option.map_some]

/-- The paragraphs of a section. -/
def sectionParagraphs (s : Section × List Query) : List Paragraph :=
  match s.2 with
  | [] => []
  | q :: qs => paragraph (some s.1.header) q :: qs.map (paragraph none)

/-- The paragraphs of a library. -/
def paragraphs (config : Config) (model : Model) : List Paragraph :=
  ((build config model).flatMap Group.sections).flatMap sectionParagraphs

theorem sectionParagraphs_ne_nil {s : Section × List Query} (h : s.2 ≠ []) :
    sectionParagraphs s ≠ [] := by
  obtain ⟨q, qs, hqs⟩ := List.exists_cons_of_ne_nil h
  rw [sectionParagraphs, hqs]
  exact List.cons_ne_nil _ _

theorem sectionText_toList {s : Section × List Query} (h : s.2 ≠ []) :
    (sectionText s).toList = document (sectionParagraphs s) := by
  obtain ⟨q, qs, hqs⟩ := List.exists_cons_of_ne_nil h
  have hrest : (qs.map (paragraph none)).map Paragraph.chars = (qs.map Query.text).map String.toList := by
    simp only [List.map_map, Function.comp_def, chars_paragraph_none]
  rw [document_eq_intercalate, sectionParagraphs, sectionText, hqs, List.map_cons, List.map_cons, hrest,
    chars_paragraph_some]
  cases qs with
  | nil => simp
  | cons q' qs => simp [List.intercalate, String.toList_intercalate]

theorem sections_ne_nil {g : Group} {s : Section × List Query} (h : s ∈ g.sections) : s.2 ≠ [] := by
  have hne := (List.mem_filter.1 h).2
  simpa using hne

/-- The text of a library is that of its paragraphs. -/
theorem print_toList (config : Config) (model : Model) :
    (print config model).toList = document (paragraphs config model) := by
  have hne : ∀ s ∈ (build config model).flatMap Group.sections, s.2 ≠ [] := by
    intro s hs
    obtain ⟨g, -, hs⟩ := List.mem_flatMap.1 hs
    exact sections_ne_nil hs
  have htexts : ((build config model).flatMap fun g => g.sections.map sectionText).map String.toList =
      (((build config model).flatMap Group.sections).map sectionParagraphs).map document := by
    rw [← List.map_flatMap, List.map_map, List.map_map]
    exact List.map_congr_left fun s hs => sectionText_toList (hne s hs)
  rw [print, String.toList_intercalate, htexts]
  exact intercalate_document (List.forall_mem_map.2 fun s hs => sectionParagraphs_ne_nil (hne s hs))

/-! ### The queries of the paragraphs -/

theorem map_text_sectionParagraphs (s : Section × List Query) :
    (sectionParagraphs s).map Paragraph.text = s.2.map fun q => q.text.toList := by
  obtain ⟨s, qs⟩ := s
  cases qs with
  | nil => rfl
  | cons q qs =>
    simp only [sectionParagraphs, List.map_cons, List.map_map, Function.comp_def, text_paragraph]

/-- Sections without queries are left out, which makes no difference to what is empty for them. -/
theorem flatMap_sections {α : Type} (g : Group) {f : Section × List Query → List α}
    (hnone : ∀ s, f (s, []) = []) :
    g.sections.flatMap f = Section.all.flatMap fun s => f (s, g.queries s) := by
  rw [Group.sections]
  generalize Section.all = ss
  induction ss with
  | nil => rfl
  | cons s ss ih =>
    rw [List.map_cons, List.filter_cons, List.flatMap_cons, ← ih]
    cases hqs : g.queries s with
    | nil => simp [hnone]
    | cons q qs => simp

theorem flatMap_snd_sections (g : Group) : g.sections.flatMap Prod.snd = g.all :=
  flatMap_sections g fun _ => rfl

/-- The texts of the paragraphs are those of the queries, in order. -/
theorem map_text_paragraphs (config : Config) (model : Model) :
    (paragraphs config model).map Paragraph.text =
      ((build config model).flatMap Group.all).map fun q => q.text.toList := by
  have hall : (fun g => g.sections.flatMap Prod.snd) = Group.all :=
    funext flatMap_snd_sections
  rw [paragraphs, List.map_flatMap, ← hall, ← List.flatMap_assoc, List.map_flatMap]
  simp only [map_text_sectionParagraphs]

/-- Each paragraph has the text of a query. -/
theorem text_of_mem_paragraphs {config : Config} {model : Model} {p : Paragraph}
    (h : p ∈ paragraphs config model) :
    ∃ g ∈ build config model, ∃ q ∈ g.all, p.text = q.text.toList := by
  have htext : p.text ∈ (paragraphs config model).map Paragraph.text := List.mem_map_of_mem h
  rw [map_text_paragraphs] at htext
  obtain ⟨q, hq, htext⟩ := List.mem_map.1 htext
  obtain ⟨g, hg, hq⟩ := List.mem_flatMap.1 hq
  exact ⟨g, hg, q, hq, htext.symm⟩

/-- The comments of the paragraphs are headers of sections. -/
theorem comment_of_mem_paragraphs {config : Config} {model : Model} {p : Paragraph}
    (h : p ∈ paragraphs config model) : ∀ c ∈ p.comment, ∃ s : Section, c = s.header.toList := by
  obtain ⟨s, -, hp⟩ := List.mem_flatMap.1 h
  rw [sectionParagraphs] at hp
  split at hp
  · cases hp
  · rcases List.mem_cons.1 hp with rfl | hp
    · rintro c ⟨⟩
      exact ⟨s.1, rfl⟩
    · obtain ⟨q, -, rfl⟩ := List.mem_map.1 hp
      rintro c ⟨⟩

theorem isComment_header (s : Section) : IsComment s.header.toList := by
  have hall : ∀ s ∈ Section.all, s.header.toList.take 2 = ['/', '/'] ∧ '\n' ∉ s.header.toList ∧
      (∀ c ∈ s.header.toList.getLast?, isBlank c = false) ∧ startsBlock s.header.toList = false := by
    decide +kernel
  obtain ⟨hstarts, hline, hlast, hblock⟩ := hall s (by cases s <;> decide)
  have hparts : s.header.toList = ['/', '/'] ++ s.header.toList.drop 2 :=
    (List.take_append_drop 2 _).symm.trans (congrArg (· ++ s.header.toList.drop 2) hstarts)
  exact ⟨⟨_, hparts⟩, hline, hlast, hblock⟩

/-! ### Models whose words are kept -/

/-- The names of a model and the names of its queries hold no word that is spelled otherwise when the
library is laid out, and none that starts a query or a deletion. Names of entities that the checks
accept hold no such word anyway. -/
structure KeepsWords (config : Config) (model : Model) : Prop where
  properties : ∀ e ∈ model.entities, ∀ p ∈ e.namedProperties, IsPlainWord (trim p.name.toList)
  titles : ∀ g ∈ build config model, ∀ q ∈ g.all, KeepsTitle q.name

instance (config : Config) (model : Model) : Decidable (KeepsWords config model) :=
  decidable_of_iff ((∀ e ∈ model.entities, ∀ p ∈ e.namedProperties,
      IsPlainWord (trim p.name.toList)) ∧ ∀ g ∈ build config model, ∀ q ∈ g.all, KeepsTitle q.name)
    ⟨fun ⟨hproperties, htitles⟩ => ⟨hproperties, htitles⟩, fun h => ⟨h.properties, h.titles⟩⟩

section ErrorFree

open Validation

variable {model : Model} (h : ErrorFree (validate model))

include h

theorem isIdentifier_of_validate {e : Entity} (he : e ∈ model.entities) :
    isIdentifier (trim e.name.toList) = true :=
  isIdentifier_of_isEntityName (accepts_of_validate h e he).name

/-- The name of an entity stands anywhere. -/
theorem isName_of_validate {e : Entity} (he : e ∈ model.entities) : IsName e.name := by
  have hident := isIdentifier_of_validate h he
  exact ⟨trim e.name.toList, lexemes_of_isIdentifier_trim hident,
    isNeutral_of_not_isReserved (fun _ hc => Schema.isIdentChar_of_mem hident _ hc)
      (not_isReserved_of_validate h e he)⟩

theorem isCompound_of_validate {e : Entity} (he : e ∈ model.entities) : IsCompound e.name.toList :=
  isCompound_of_isIdentifier_trim (isIdentifier_of_validate h he)

/-- The names of the properties of an entity are stored ones. -/
theorem isStored_of_validate {e : Entity} (he : e ∈ model.entities) :
    ∀ p ∈ e.namedProperties, isStoredPropertyName p.name.toList = true := by
  intro p hp
  obtain ⟨hp, -⟩ := List.mem_filter.1 hp
  obtain ⟨p', hp', rfl⟩ := List.mem_filterMap.1 hp
  exact (accepts_of_validate h e he).properties p hp'

/-- The start of an edge is written with the name of an entity, or as one that is not set. -/
theorem source_of_validate {e : Entity} (he : e ∈ model.entities) (hedge : e.isEdge = true) :
    IsName (endName e.source) ∧ IsCompound (e.source.getD "").toList := by
  cases hset : setEnd e.source with
  | some s =>
    obtain ⟨e', he', rfl⟩ := List.mem_map.1 ((accepts_of_validate h e he).source hedge s hset)
    obtain ⟨hsource, -⟩ := Option.filter_eq_some_iff.1 hset
    rw [endName, hset, hsource]
    exact ⟨isName_of_validate h he', isCompound_of_validate h he'⟩
  | none =>
    rw [endName, hset]
    refine ⟨isName_of_mem (by decide), ?_⟩
    rw [setEnd, Option.filter_eq_none_iff] at hset
    cases hsource : e.source with
    | none => simp [IsCompound]
    | some s =>
      have hempty : s = "" := by simpa using hset s hsource
      simp [hempty, IsCompound]

/-- The names of a model without errors can be read in its library. -/
theorem isReadable_of_validate (hplain : ∀ e ∈ model.entities, ∀ p ∈ e.namedProperties,
    IsPlainWord (trim p.name.toList)) : ∀ e ∈ model.entities, IsReadable e := by
  intro e he
  have hident := isIdentifier_of_validate h he
  exact {
    name := isName_of_validate h he
    compound := isCompound_of_validate h he
    source := source_of_validate h he
    count := exists_words_count hident (not_isReserved_of_validate h e he)
    properties := by
      intro p hp
      obtain ⟨hident, hhead⟩ := isIdentifier_trim_of_isStoredPropertyName (isStored_of_validate h he p hp)
      exact ⟨⟨trim p.name.toList, lexemes_of_isIdentifier_trim hident, hplain e he p hp⟩,
        isCompound_of_isIdentifier_trim hident, hhead⟩ }

/-- The queries of a model without errors can be laid out. -/
theorem isSound_of_mem_build {config : Config} (hwords : KeepsWords config model) {g : Group}
    (hg : g ∈ build config model) {q : Query} (hq : q ∈ g.all) : q.IsSound := by
  obtain ⟨he, htemplate⟩ := template_of_mem_build hg hq
  exact (htemplate.isFilled (isReadable_of_validate h hwords.properties) he).isSound
    (hwords.titles g hg q hq)

/-- The paragraph of a query holds it. -/
theorem holds_of_text {config : Config} (hwords : KeepsWords config model) {p : Paragraph}
    (hp : p ∈ paragraphs config model) {g : Group} (hg : g ∈ build config model) {q : Query}
    (hq : q ∈ g.all) (htext : p.text = q.text.toList) : p.Holds q.outline := by
  refine (isSound_of_mem_build h hwords hg hq).holds (fun c hc => ?_) htext
  obtain ⟨s, rfl⟩ := comment_of_mem_paragraphs hp c hc
  exact isComment_header s

/-- Each paragraph of a library holds a query. -/
theorem holds_of_mem_paragraphs {config : Config} (hwords : KeepsWords config model) {p : Paragraph}
    (hp : p ∈ paragraphs config model) :
    ∃ g ∈ build config model, ∃ q ∈ g.all, p.Holds q.outline := by
  obtain ⟨g, hg, q, hq, htext⟩ := text_of_mem_paragraphs hp
  exact ⟨g, hg, q, hq, holds_of_text h hwords hp hg hq htext⟩

/-- Each query of a library is held by a paragraph. -/
theorem holds_of_mem_build {config : Config} (hwords : KeepsWords config model) {g : Group}
    (hg : g ∈ build config model) {q : Query} (hq : q ∈ g.all) :
    ∃ p ∈ paragraphs config model, p.Holds q.outline := by
  have htext : q.text.toList ∈ (paragraphs config model).map Paragraph.text := by
    rw [map_text_paragraphs]
    exact List.mem_map_of_mem (List.mem_flatMap.2 ⟨g, hg, hq⟩)
  obtain ⟨p, hp, htext⟩ := List.mem_map.1 htext
  exact ⟨p, hp, holds_of_text h hwords hp hg hq htext⟩

end ErrorFree

end Library

end Hql
