import Hql.Proofs.Library.Document
import Hql.Proofs.Library.OneLine

/-!
The text of a library cut back into its queries. No query holds an empty line, so the empty lines of a
library stand between its queries, and cutting the text there gives one chunk for each of them.
-/

namespace Hql

open Layout

namespace Layout

/-! ### Texts cut at their empty lines -/

/-- The chunks of a text between its empty lines, which two line ends together make. -/
def chunks : List Char → List (List Char)
  | [] => [[]]
  | [c] => [[c]]
  | c :: d :: cs =>
    if c = '\n' ∧ d = '\n' then [] :: chunks cs else (chunks (d :: cs)).modifyHead (c :: ·)

theorem chunks_cons {c d : Char} {cs : List Char} (h : ¬ (c = '\n' ∧ d = '\n')) :
    chunks (c :: d :: cs) = (chunks (d :: cs)).modifyHead (c :: ·) := by
  rw [chunks, if_neg h]

theorem exists_chunks_cons (cs : List Char) : ∃ first more, chunks cs = first :: more := by
  fun_induction chunks cs with
  | case1 => exact ⟨_, _, rfl⟩
  | case2 c => exact ⟨_, _, rfl⟩
  | case3 c d cs hcut ih => exact ⟨_, _, rfl⟩
  | case4 c d cs hcut ih =>
    obtain ⟨first, more, hfirst⟩ := ih
    exact ⟨c :: first, more, by rw [hfirst, List.modifyHead_cons]⟩

/-- The chunks with empty lines between them are the text again. -/
theorem intercalate_chunks (cs : List Char) : ['\n', '\n'].intercalate (chunks cs) = cs := by
  fun_induction chunks cs with
  | case1 => rfl
  | case2 c => simp
  | case3 c d cs hcut ih =>
    obtain ⟨rfl, rfl⟩ := hcut
    obtain ⟨first, more, hfirst⟩ := exists_chunks_cons cs
    rw [hfirst] at ih ⊢
    rw [intercalate_eq_flatMap, List.flatMap_cons, ← List.append_assoc, List.nil_append,
      List.append_assoc, ← intercalate_eq_flatMap, ih]
    rfl
  | case4 c d cs hcut ih =>
    obtain ⟨first, more, hfirst⟩ := exists_chunks_cons (d :: cs)
    rw [hfirst, intercalate_eq_flatMap] at ih
    rw [hfirst, List.modifyHead_cons, intercalate_eq_flatMap, List.cons_append, ih]

/-- A text without empty lines stays whole. -/
theorem Unbroken.chunks_eq {cs : List Char} (h : cs.IsChain fun c d => ¬ (c = '\n' ∧ d = '\n')) :
    chunks cs = [cs] := by
  induction h with
  | nil => rfl
  | singleton c => rfl
  | cons_cons hcd _ ih => rw [chunks_cons hcd, ih, List.modifyHead_cons]

/-- The first empty line after a text without any ends the first chunk. -/
theorem Unbroken.chunks_append {a : List Char} (h : Unbroken a) (b : List Char) :
    chunks (a ++ '\n' :: '\n' :: b) = a :: chunks b := by
  obtain ⟨hapart, hends⟩ := h
  induction hapart with
  | nil => rfl
  | singleton c =>
    have hc : ¬ (c = '\n' ∧ '\n' = '\n') := fun heq => hends (congrArg some heq.1)
    have hcut : chunks ('\n' :: '\n' :: b) = [] :: chunks b := if_pos ⟨rfl, rfl⟩
    rw [List.singleton_append, chunks_cons hc, hcut, List.modifyHead_cons]
  | cons_cons hcd _ ih =>
    rw [List.getLast?_cons_cons] at hends
    rw [List.cons_append, List.cons_append, chunks_cons hcd, ← List.cons_append, ih hends,
      List.modifyHead_cons]

theorem chunks_document {ps : List Paragraph} (h : ∀ p ∈ ps, Unbroken p.chars) (hne : ps ≠ []) :
    chunks (document ps) = ps.map Paragraph.chars := by
  induction ps with
  | nil => exact absurd rfl hne
  | cons p ps ih =>
    obtain ⟨hp, hps⟩ := List.forall_mem_cons.1 h
    cases ps with
    | nil => exact Unbroken.chunks_eq hp.apart
    | cons q ps =>
      rw [document, List.map_cons, ← ih hps (List.cons_ne_nil q ps)]
      exact hp.chunks_append _

end Layout

namespace Library

/-- The chunks of a text between its empty lines. -/
def chunksOf (s : String) : List String := (chunks s.toList).map String.ofList

/-- The chunk of a query: the first one of a section stands below its header. -/
def chunk (s : Section) (i : Nat) (q : Query) : String :=
  if i = 0 then s.header ++ "\n" ++ q.text else q.text

theorem map_chars_sectionParagraphs (s : Section × List Query) :
    (sectionParagraphs s).map Paragraph.chars = (s.2.mapIdx (chunk s.1)).map String.toList := by
  obtain ⟨s, qs⟩ := s
  cases qs with
  | nil => rfl
  | cons q qs =>
    have hrest : qs.mapIdx (fun i q => chunk s (i + 1) q) = qs.map Query.text :=
      List.ext_getElem (by simp) fun i _ _ => by simp [chunk]
    rw [List.mapIdx_cons, hrest, sectionParagraphs, List.map_cons, List.map_cons, List.map_map,
      List.map_map, chars_paragraph_some]
    simp [chunk, Function.comp_def]

/-- The paragraphs of a library, as texts. -/
theorem map_chars_paragraphs (config : Config) (model : Model) :
    (paragraphs config model).map Paragraph.chars =
      ((build config model).flatMap fun g => Section.all.flatMap fun s =>
        (g.queries s).mapIdx (chunk s)).map String.toList := by
  have hsections (g : Group) : g.sections.flatMap (fun s => s.2.mapIdx (chunk s.1)) =
      Section.all.flatMap fun s => (g.queries s).mapIdx (chunk s) :=
    flatMap_sections g fun _ => List.mapIdx_nil
  rw [paragraphs, List.map_flatMap, List.flatMap_assoc, List.map_flatMap]
  simp only [map_chars_sectionParagraphs, ← List.map_flatMap, hsections]

theorem startsLine_text (q : Query) : StartsLine q.text.toList := by
  refine ⟨'Q', ?_, by decide⟩
  simp [Query.text, Query.toFragment, Fragment.render]

theorem unbroken_chars {config : Config} {model : Model}
    (hmodel : ∀ e ∈ model.entities, HasIdentifiers e) {p : Paragraph}
    (hp : p ∈ paragraphs config model) : Unbroken p.chars := by
  obtain ⟨g, hg, q, hq, htext⟩ := text_of_mem_paragraphs hp
  have hquery := unbroken_text hmodel hg hq
  have hstarts := startsLine_text q
  rw [← htext] at hquery hstarts
  rw [Paragraph.chars]
  cases hcomment : p.comment with
  | none => exact hquery
  | some c =>
    obtain ⟨s, rfl⟩ := comment_of_mem_paragraphs hp c hcomment
    exact (Unbroken.of_not_mem (isComment_header s).line).append (hquery.newline hstarts)

/-- A library is cut at its empty lines into one chunk for each query, in order: entity by entity,
section by section. -/
theorem chunksOf_print {config : Config} {model : Model}
    (hmodel : ∀ e ∈ model.entities, HasIdentifiers e)
    (hsome : ∃ g ∈ build config model, g.all ≠ []) :
    chunksOf (print config model) = (build config model).flatMap fun g =>
      Section.all.flatMap fun s => (g.queries s).mapIdx (chunk s) := by
  have hne : paragraphs config model ≠ [] := by
    intro hnil
    have htexts := map_text_paragraphs config model
    rw [hnil, List.map_nil] at htexts
    obtain ⟨g, hg, hqueries⟩ := hsome
    exact hqueries (List.flatMap_eq_nil_iff.1 (List.map_eq_nil_iff.1 htexts.symm) g hg)
  rw [chunksOf, print_toList, chunks_document (fun p => unbroken_chars hmodel) hne,
    map_chars_paragraphs, List.map_map]
  simp

theorem chunksOf_print_socialModel :
    chunksOf (print (Config.uniform true) socialModel) =
        (build (Config.uniform true) socialModel).flatMap (fun g =>
          Section.all.flatMap fun s => (g.queries s).mapIdx (chunk s)) ∧
      (chunksOf (print (Config.uniform true) socialModel)).length = 32 := by
  have hmodel : ∀ e ∈ socialModel.entities, HasIdentifiers e := by decide
  have hsome : ∃ g ∈ build (Config.uniform true) socialModel, g.all ≠ [] :=
    ⟨_, List.mem_cons_self .., by decide +kernel⟩
  have h := chunksOf_print hmodel hsome
  exact ⟨h, h ▸ by decide +kernel⟩

end Library

end Hql
