import Hql.Proofs.Library.Document
import Hql.Proofs.Library.Stability

/-!
Libraries laid out. Nothing but the blanks of a library changes when it is laid out, and no query of it
is cut, as long as its words are kept. It is laid out for good the first time, unless an edge has a
single property with a name of three characters.
-/

namespace Hql

open Text Layout

namespace Layout

/-- The lines of a block that no other one breaks into. -/
def Segment.whole? : Segment → Option (List (List Char))
  | .block ls => some ls
  | _ => none

/-- A block is cut in two. -/
def Segment.isBroken : Segment → Bool
  | .broken _ => true
  | _ => false

theorem whole_segments (p : Paragraph) :
    p.segments.filterMap Segment.whole? = [lines p.text] ∧ p.segments.any Segment.isBroken = false := by
  rw [Paragraph.segments]
  cases p.comment <;> exact ⟨rfl, rfl⟩

/-- The blocks of a text of paragraphs are their texts. -/
theorem whole_segmentsOf_document {ps : List Paragraph} (h : ∀ p ∈ ps, p.IsSound) :
    (segmentsOf none (lines (document ps))).filterMap Segment.whole? =
        (ps.map Paragraph.text).map lines ∧
      (segmentsOf none (lines (document ps))).any Segment.isBroken = false := by
  rw [segmentsOf_document h]
  clear h
  induction ps with
  | nil => exact ⟨rfl, rfl⟩
  | cons p ps ih =>
    obtain ⟨hwhole, hbroken⟩ := whole_segments p
    rw [List.flatMap_cons, List.filterMap_append, List.any_append, hwhole, hbroken, ih.1, ih.2]
    exact ⟨rfl, rfl⟩

/-- The text of a paragraph laid out again. -/
theorem Paragraph.Holds.laid_laid {p : Paragraph} {q : Outline} (h : p.Holds q) :
    (q.Firm → p.laid.laid = p.laid) ∧
      ((spaced q.relaid.lay).length < (spaced q.lay).length →
        p.laid.laid.chars.length < p.laid.chars.length) := by
  have hcomment : p.laid.laid.comment = p.laid.comment := rfl
  have hfirst := h.text_laid
  have hagain := h.laid.text_laid
  constructor
  · intro hfirm
    have htext : p.laid.laid.text = p.laid.text := by rw [hagain, hfirm.lay_relaid, hfirst]
    cases hp : p.laid.laid
    cases hq : p.laid
    simp_all
  · intro hlt
    rw [← hagain, ← hfirst] at hlt
    rw [Paragraph.chars, Paragraph.chars, hcomment]
    cases p.laid.comment with
    | none => exact hlt
    | some c =>
      simp only [List.length_append, List.length_cons]
      omega

end Layout

namespace Library

/-- An edge with a short field is written. -/
theorem exists_upsertEdge {e : Entity} (h : HasShortField e) : ∃ q, upsertEdge? e = some q := by
  obtain ⟨p, hp, -⟩ := h
  exact ⟨_, by rw [upsertEdge?, hp]⟩

/-- The query that writes an edge with properties is in the library. -/
theorem mem_build_upsertEdge {config : Config} {model : Model} (hflag : config.crud.upsert = true)
    {e : Entity} (he : e ∈ model.entities) (hconnected : e.isConnected = true) {q : Query}
    (h : upsertEdge? e = some q) : ∃ g ∈ build config model, g.entity = e ∧ q ∈ g.all := by
  have hcrud : q ∈ crudQueries config.crud e := by
    rw [crudQueries, edgeCrud, h]
    simp [mem_whenOn, hconnected, hflag]
  have hsection : q ∈ (⟨e, sectionQueries config model e⟩ : Group).all :=
    List.mem_flatMap.2 ⟨.crud, List.mem_cons_self .., hcrud⟩
  exact ⟨_, List.mem_map_of_mem he, rfl, hsection⟩

section Words

variable {config : Config} {model : Model} (h : Validation.ErrorFree (Validation.validate model))
  (hwords : KeepsWords config model)

include h hwords

theorem holds_paragraphs : ∀ p ∈ paragraphs config model, ∃ q, p.Holds q := by
  intro p hp
  obtain ⟨-, -, q, -, hq⟩ := holds_of_mem_paragraphs h hwords hp
  exact ⟨q.outline, hq⟩

/-- Laying out a library changes its blanks only. -/
theorem format_print_keeps :
    withoutBlanks (format (print config model)).toList = withoutBlanks (print config model).toList ∧
      lexemes (format (print config model)).toList = lexemes (print config model).toList ∧
      (segmentsOf none (lines (print config model).toList)).filterMap Segment.whole? =
        ((build config model).flatMap Group.all).map (fun q => lines q.text.toList) ∧
      (segmentsOf none (lines (print config model).toList)).any Segment.isBroken = false := by
  have hholds := holds_paragraphs h hwords
  have hlexemes : lexemes (format (print config model)).toList = lexemes (print config model).toList := by
    rw [format, String.toList_ofList, print_toList]
    exact lexemes_formatChars hholds
  obtain ⟨hwhole, hbroken⟩ := whole_segmentsOf_document fun p hp => (hholds p hp).elim fun _ hq => hq.isSound
  rw [map_text_paragraphs, List.map_map, Function.comp_def, ← print_toList] at hwhole
  rw [← print_toList] at hbroken
  refine ⟨?_, hlexemes, hwhole, hbroken⟩
  rw [← flatMap_chars_lexemes, hlexemes, flatMap_chars_lexemes]

end Words

/-! ### Models -/

theorem keepsWords_socialModel : KeepsWords (Config.uniform true) socialModel := by decide +kernel

theorem format_print_keeps_socialModel :
    Validation.ErrorFree (Validation.validate socialModel) ∧
      KeepsWords (Config.uniform true) socialModel ∧
        withoutBlanks (format (print (Config.uniform true) socialModel)).toList =
          withoutBlanks (print (Config.uniform true) socialModel).toList :=
  ⟨errorFree_socialModel, keepsWords_socialModel,
    (format_print_keeps errorFree_socialModel keepsWords_socialModel).1⟩

/-- A node with a property that is a structural word in lower case. -/
def inwardModel : Model :=
  [some { id := "a", name := "A", kind := .node, properties := [some { name := "in" }] }]

/-- The flag of grouped nodes alone. -/
def groupingConfig : Config :=
  { Config.uniform false with analytics := { aggregation := false, grouping := true } }

/-- Structural words are spelled in upper case wherever they stand, names of properties too. -/
theorem not_format_print_keeps : ¬ ∀ (config : Config) (model : Model),
    Validation.ErrorFree (Validation.validate model) →
      withoutBlanks (format (print config model)).toList = withoutBlanks (print config model).toList :=
  fun h => absurd (h groupingConfig inwardModel (by decide +kernel)) (by decide +kernel)

/-- An edge with a single property, whose name has three characters. -/
def shortFieldModel : Model := [
  some { id := "a", name := "A", kind := .node },
  some { id := "e", name := "B", kind := .edge, source := some "A", target := some "A"
         properties := [some { name := "abc" }] }]

/-- The flag of queries that write alone. -/
def upsertConfig : Config :=
  { Config.uniform false with crud := ⟨false, false, true, false, false⟩ }

end Library

end Hql
