import Hql.Proofs.Schema.Block

/-!
The round trip of schemas: what is read from the schema of a model is what the model declares.
-/

namespace Hql.Schema

open Text

/-- The blocks of entities, with a blank line between two of them. -/
def blocksText (es : List Entity) : List Char :=
  (String.intercalate "\n\n" (es.map Entity.block)).toList

theorem blocksText_singleton (e : Entity) : blocksText [e] = e.block.toList := by
  simp [blocksText]

theorem blocksText_cons (e f : Entity) (es : List Entity) :
    blocksText (e :: f :: es) = e.block.toList ++ '\n' :: '\n' :: blocksText (f :: es) := by
  simp [blocksText]

/-! ### Texts without a definition -/

theorem isEmptyText_cons {c : Char} (cs : List Char) (hblank : isBlank c = false) (hc : c ≠ '{') :
    isEmptyText (c :: cs) = false := by
  have hstart : trimStart (c :: cs) = c :: cs := by simp [trimStart, hblank]
  -- nothing is trimmed past a character that is not blank
  have hkeep : ∃ more, trimEnd (c :: cs) = c :: more := by
    rw [trimEnd, List.reverse_cons, List.dropWhile_append]
    split
    · exact ⟨[], by simp [hblank]⟩
    · exact ⟨(cs.reverse.dropWhile isBlank).reverse, by simp⟩
  obtain ⟨more, hmore⟩ := hkeep
  have hhead : (c :: more == empty.toList) = false := by
    apply beq_eq_false_iff_ne.2
    intro heq
    have hfirst : '{' = c := by
      have hhead := congrArg List.head? heq
      exact (Option.some.inj hhead).symm
    exact hc hfirst.symm
  rw [isEmptyText, trim, hstart, hmore, hhead]
  rfl

/-- A block starts with the letter of its kind. -/
theorem block_head (e : Entity) :
    ∃ c cs, e.block.toList = c :: cs ∧ isBlank c = false ∧ c ≠ '{' := by
  have hhead : ∃ c cs, headText e = c :: cs ∧ isBlank c = false ∧ c ≠ '{' := by
    rw [headText]
    split
    · exact ⟨'E', _, rfl, rfl, by decide⟩
    · cases e.kind with
      | node => exact ⟨'N', _, rfl, rfl, by decide⟩
      | edge => exact ⟨'E', _, rfl, rfl, by decide⟩
      | vector => exact ⟨'V', _, rfl, rfl, by decide⟩
  obtain ⟨c, cs, h, hc⟩ := hhead
  exact ⟨c, _, by rw [block_toList, h, List.cons_append], hc⟩

theorem blocksText_head (e : Entity) (es : List Entity) :
    ∃ c cs, blocksText (e :: es) = c :: cs ∧ isBlank c = false ∧ c ≠ '{' := by
  obtain ⟨c, cs, h, hblank, hbrace⟩ := block_head e
  cases es with
  | nil => exact ⟨c, cs, by rw [blocksText_singleton, h], hblank, hbrace⟩
  | cons f es => exact ⟨c, _, by rw [blocksText_cons, h, List.cons_append], hblank, hbrace⟩

theorem isEmptyText_blocksText (e : Entity) (es : List Entity) :
    isEmptyText (blocksText (e :: es)) = false := by
  obtain ⟨c, cs, h, hblank, hbrace⟩ := blocksText_head e es
  rw [h]
  exact isEmptyText_cons cs hblank hbrace

theorem isEmptyText_print {model : Model} (h : model.entities = []) :
    isEmptyText (print model).toList = true := by
  cases model with
  | nil => decide +kernel
  | cons e es =>
    have hprint : print (e :: es) = "" := by
      rw [print, h]
      · rfl
      · intro hnil
        cases hnil
    rw [hprint]
    decide +kernel

/-- The schema of a model with an entity is the text of its blocks. -/
theorem print_toList {model : Model} (h : model.entities ≠ []) :
    (print model).toList = blocksText model.entities := by
  cases model with
  | nil => exact absurd rfl h
  | cons e es => rfl

namespace State

/-! ### All definitions -/

theorem entities_foldl_blockDraft (es : List Entity) (d : Draft) :
    (es.foldl blockDraft d).entities =
      d.entities ++ es.mapIdx fun i e => e.declared (i + d.entities.length) := by
  induction es generalizing d with
  | nil => simp
  | cons e es ih =>
    rw [List.foldl_cons, ih, entities_blockDraft, List.mapIdx_cons, List.append_assoc]
    simp only [List.length_append, List.length_singleton, List.singleton_append, Nat.zero_add,
      Nat.add_assoc, Nat.add_comm 1]

/-- The blocks of declarable entities are read one after another. -/
theorem advance_blocks (es : List Entity) (h : ∀ e ∈ es, e.IsDeclarable) (d : Draft) :
    advance ⟨.outside, d⟩ (blocksText es) = some ⟨.outside, es.foldl blockDraft d⟩ := by
  induction es generalizing d with
  | nil => exact advance_nil _
  | cons e es ih =>
    have he := h e (by simp)
    cases es with
    | nil =>
      have hblock := advance_block he d []
      rw [List.append_nil] at hblock
      rw [blocksText_singleton, hblock, advance_nil]
      rfl
    | cons f es =>
      have hlines (s : State) (cs : List Char) : advance s ('\n' :: '\n' :: cs) = advance s cs :=
        advance_congr rfl
      rw [blocksText_cons, advance_block he, hlines,
        ih (fun x hx => h x (List.mem_cons_of_mem e hx))]
      rfl

end State

/-- The entities of the schema of a declarable model. -/
theorem entities?_print {model : Model} (h : model.IsDeclarable) :
    entities? (print model).toList = .ok model.declared := by
  rw [entities?_eq_ok_iff]
  cases hes : model.entities with
  | nil =>
    left
    refine ⟨isEmptyText_print hes, ?_⟩
    rw [Model.declared, hes]
    rfl
  | cons e es =>
    right
    have hne : model.entities ≠ [] := by simp [hes]
    have hread := State.advance_blocks model.entities h {}
    rw [print_toList hne]
    refine ⟨?_, _, hread, rfl, ?_⟩
    · rw [hes]
      exact isEmptyText_blocksText e es
    · rw [State.entities_foldl_blockDraft, Model.declared]
      simp

/-- A schema round trip gives the declarations of the model, and always succeeds. -/
theorem read_print {model : Model} (h : model.IsDeclarable) :
    read (print model) = .ok model.declared :=
  read_eq_ok_iff.2 (entities?_print h)

/-- A model whose names are words of the grammar, with gaps and with defaults of all shapes. -/
def wordyModel : Model := [
  some {
    id := "a", name := "E", kind := .node, source := some "not an end"
    properties := [
      some { name := "UNIQUE", isIndex := true, defaultValue := some "say \"N::X \x7b\" \\" },
      none,
      some { name := "From", type := .i32, isArray := true,
             defaultValue := some "[1, \"a, b\", x]" },
      some { name := "", defaultValue := some "unnamed\ntext" }] },
  none,
  some {
    id := "b", name := "To", kind := .edge, isUniqueRelation := true
    source := some "N", target := some "Undefined"
    properties := [
      some { name := "DEFAULT", type := .date, isUnique := true, isIndex := true,
             defaultValue := some "NOW" },
      some { name := "INDEX", type := .f64, isUnique := true, defaultValue := some "-1.5e3" }] }]

theorem read_print_wordyModel :
    wordyModel.IsDeclarable ∧ read (print wordyModel) = .ok wordyModel.declared := by
  have hlist : IsListText "[1, \"a, b\", x]" :=
    ⟨["1", "\"a, b\"", "x"], by decide +kernel, by decide +kernel⟩
  have hnumber : IsNumber "-1.5e3".toList := by decide +kernel
  have h : wordyModel.IsDeclarable := by
    intro e he
    have hmem : e = (wordyModel.entities)[0] ∨ e = (wordyModel.entities)[1] := by
      simpa [wordyModel, Model.entities] using he
    rcases hmem with rfl | rfl
    · refine ⟨by decide, by decide, by decide, ?_⟩
      intro p hp
      have hp : p = (wordyModel.entities)[0].namedProperties[0] ∨
          p = (wordyModel.entities)[0].namedProperties[1] := by
        simpa [wordyModel, Model.entities, Entity.namedProperties] using hp
      rcases hp with rfl | rfl
      · exact ⟨by decide, by decide, .of_quoted rfl (by decide) (by decide)⟩
      · exact ⟨by decide, by decide, .of_bare rfl (by decide) (.inr (.inr hlist))⟩
    · refine ⟨by decide, by decide, by decide, ?_⟩
      intro p hp
      have hp : p = (wordyModel.entities)[1].namedProperties[0] ∨
          p = (wordyModel.entities)[1].namedProperties[1] := by
        simpa [wordyModel, Model.entities, Entity.namedProperties] using hp
      rcases hp with rfl | rfl
      · exact ⟨by decide, by decide, .of_quoted rfl (by decide) (by decide)⟩
      · exact ⟨by decide, by decide, .of_bare rfl (by decide) (.inr (.inl hnumber))⟩
  exact ⟨h, read_print h⟩

end Hql.Schema
