import Hql.Proofs.Schema.Declaration
import Hql.Proofs.Schema.Reading

/-!
Defaults in schema text. A quoted text stands for the text that was quoted, and the literal of a
printable default is read back as this default.
-/

namespace Hql.Schema

open Text

/-! ### Quoted texts -/

theorem unescape_escape (cs : List Char) :
    Literal.unescape false (cs.flatMap Literal.escapeChar) = cs := by
  induction cs with
  | nil => rfl
  | cons c cs ih =>
    rw [List.flatMap_cons]
    by_cases hc : c = '"' ∨ c = '\\'
    · have hescape : Literal.escapeChar c = ['\\', c] := by simp [Literal.escapeChar, hc]
      simp [hescape, Literal.unescape, ih]
    · have hescape : Literal.escapeChar c = [c] := by simp [Literal.escapeChar, hc]
      rw [not_or] at hc
      simp [hescape, Literal.unescape, hc.2, ih]

theorem isQuotedBody_escape {cs : List Char} (h : '\n' ∉ cs) :
    IsQuotedBody (cs.flatMap Literal.escapeChar) := by
  induction cs with
  | nil => exact IsQuotedBody.nil
  | cons c cs ih =>
    have hc : c ≠ '\n' := by
      rintro rfl
      exact h (by simp)
    have hcs := ih fun hmem => h (List.mem_cons_of_mem c hmem)
    rw [List.flatMap_cons]
    by_cases hspecial : c = '"' ∨ c = '\\'
    · have hescape : Literal.escapeChar c = ['\\', c] := by simp [Literal.escapeChar, hspecial]
      rw [hescape]
      exact IsQuotedBody.marked hc hcs
    · have hescape : Literal.escapeChar c = [c] := by simp [Literal.escapeChar, hspecial]
      rw [not_or] at hspecial
      rw [hescape]
      exact IsQuotedBody.plain hspecial.1 hspecial.2 hc hcs

theorem quote_toList (s : String) :
    (Literal.quote s).toList = '"' :: (s.toList.flatMap Literal.escapeChar ++ ['"']) := by
  simp [Literal.quote]

theorem isQuoted_quote {s : String} (h : '\n' ∉ s.toList) :
    IsQuoted (Literal.quote s).toList :=
  ⟨_, quote_toList s, isQuotedBody_escape h⟩

theorem quotedText_body (body : List Char) :
    Draft.quotedText ('"' :: (body ++ ['"'])) = String.ofList (Literal.unescape false body) := by
  rw [Draft.quotedText, List.drop_succ_cons, List.drop_zero, List.dropLast_concat]

theorem quotedText_quote (s : String) : Draft.quotedText (Literal.quote s).toList = s := by
  rw [quote_toList, quotedText_body, unescape_escape, String.ofList_toList]

/-- The text that a quoted text stands for lies on one line and is no longer than its inside. -/
theorem unescape_body {body : List Char} (h : IsQuotedBody body) :
    '\n' ∉ Literal.unescape false body ∧
      (Literal.unescape false body).length ≤ body.length := by
  induction h with
  | nil => exact ⟨by simp [Literal.unescape], by simp [Literal.unescape]⟩
  | @plain c cs hq hb hn _ ih =>
    have hunescape : Literal.unescape false (c :: cs) = c :: Literal.unescape false cs := by
      simp [Literal.unescape, hb]
    rw [hunescape]
    exact ⟨by simp [ih.1, hn.symm], by simpa using ih.2⟩
  | @marked c cs hn _ ih =>
    have hunescape : Literal.unescape false ('\\' :: c :: cs) =
        c :: Literal.unescape false cs := by
      simp [Literal.unescape]
    rw [hunescape]
    refine ⟨by simp [ih.1, hn.symm], ?_⟩
    have hle := ih.2
    simp only [List.length_cons]
    omega

theorem quotedText_of_isQuoted {cs : List Char} (h : IsQuoted cs) :
    '\n' ∉ (Draft.quotedText cs).toList ∧ (Draft.quotedText cs).toList.length + 2 ≤ cs.length := by
  obtain ⟨body, rfl, hbody⟩ := h
  obtain ⟨hnewline, hle⟩ := unescape_body hbody
  rw [quotedText_body, String.toList_ofList]
  refine ⟨hnewline, ?_⟩
  simp only [List.length_cons, List.length_append, List.length_nil]
  omega

/-! ### Lists -/

/-- The kind of token that an item is. -/
theorem IsItem.spells {cs : List Char} (h : IsItem cs) :
    ∃ t : Terminal, t.Spells cs ∧ (t = .name ∨ t = .number ∨ t = .quoted) := by
  rcases h with h | h | h
  · exact ⟨.name, h, .inl rfl⟩
  · exact ⟨.number, h, .inr (.inl rfl)⟩
  · exact ⟨.quoted, h, .inr (.inr rfl)⟩

/-- The two places where an item may stand. -/
def Place.IsItemPlace (p : Place) (o : Owner) : Prop := p = .firstItem o ∨ p = .nextItem o

theorem advance_item {p : Place} {o : Owner} (hp : p.IsItemPlace o) {i : String}
    (hi : IsItem i.toList) {rest : List Char} (hrest : Apart rest) (d : Draft) :
    State.advance ⟨p, d⟩ (i.toList ++ rest) =
      State.advance ⟨.afterItem o, d.withField fun f => { f with items := f.items ++ [i] }⟩
        rest := by
  obtain ⟨t, ht, hkind⟩ := hi.spells
  have hnext : p.next t = some (.afterItem o) := by
    rcases hp with rfl | rfl <;> rcases hkind with rfl | rfl | rfl <;> rfl
  have hword : t = .name → ¬ p.IsMarkWord i.toList := by
    rintro rfl
    apply Place.not_isMarkWord hnext _ ht
    rcases hp with rfl | rfl <;> exact fun _ h => by cases h
  have hpush : d.push ⟨p, t, i.toList, 0⟩ =
      .ok (d.withField fun f => { f with items := f.items ++ [i] }) := by
    rcases hp with rfl | rfl <;> rcases hkind with rfl | rfl | rfl <;>
      simp only [Draft.push, String.ofList_toList]
  exact State.advance_token hnext ht hword (fun _ => hrest) hpush

/-- Items up to the closing bracket. -/
theorem advance_items {p : Place} {o : Owner} (hp : p.IsItemPlace o) (i : String)
    (items : List String) (h : ∀ j ∈ i :: items, IsItem j.toList) (rest : List Char) (d : Draft) :
    State.advance ⟨p, d⟩ ((String.intercalate ", " (i :: items)).toList ++ ']' :: rest) =
      State.advance ⟨.fieldEnd o, d.withField fun f => { f with
        items := f.items ++ i :: items
        default := some (Draft.listText (f.items ++ i :: items)) }⟩ rest := by
  have hi : IsItem i.toList := h i (by simp)
  induction items generalizing p i d with
  | nil =>
    have hclose (d : Draft) : State.advance ⟨.afterItem o, d⟩ (']' :: rest) =
        State.advance ⟨.fieldEnd o, d.withField fun f => { f with
          default := some (Draft.listText f.items) }⟩ rest :=
      State.advance_mark .closeBracket rfl (fun h => by cases h) rfl
    rw [String.intercalate_singleton,
      advance_item hp hi (apart_of_head rest (by decide)), hclose]
    rfl
  | cons j items ih =>
    have htext : (String.intercalate ", " (i :: j :: items)).toList ++ ']' :: rest =
        i.toList ++ (',' :: ' ' ::
          ((String.intercalate ", " (j :: items)).toList ++ ']' :: rest)) := by
      simp
    have hcomma (d : Draft) (cs : List Char) : State.advance ⟨.afterItem o, d⟩ (',' :: cs) =
        State.advance ⟨.nextItem o, d⟩ cs :=
      State.advance_mark .comma rfl (fun h => by cases h) rfl
    have hmore := ih (.inr rfl) j (fun k hk => h k (List.mem_cons_of_mem i hk))
      (d.withField fun f => { f with items := f.items ++ [i] }) (h j (by simp))
    rw [htext, advance_item hp hi (apart_of_head _ (by decide)), hcomma, State.advance_blank,
      hmore]
    simp only [Draft.withField, List.append_assoc, List.singleton_append]

/-- A list in brackets is read as the default that it is the text of. -/
theorem advance_list {s : String} (h : IsListText s) (o : Owner) (d : Draft) :
    ∃ items, ∀ rest, State.advance ⟨.fieldDefault o, d⟩ (s.toList ++ rest) =
      State.advance ⟨.fieldEnd o, d.withField fun f => { f with items, default := some s }⟩
        rest := by
  obtain ⟨items, rfl, hitems⟩ := h
  refine ⟨items, ?_⟩
  intro rest
  have hopen (cs : List Char) : State.advance ⟨.fieldDefault o, d⟩ ('[' :: cs) =
      State.advance ⟨.firstItem o, d.withField fun f => { f with items := [] }⟩ cs :=
    State.advance_mark .openBracket rfl (fun h => by cases h) rfl
  cases items with
  | nil =>
    have hclose (d : Draft) : State.advance ⟨.firstItem o, d⟩ (']' :: rest) =
        State.advance ⟨.fieldEnd o, d.withField fun f => { f with
          default := some (Draft.listText f.items) }⟩ rest :=
      State.advance_mark .closeBracket rfl (fun h => by cases h) rfl
    have htext : (Draft.listText []).toList ++ rest = '[' :: ']' :: rest := by
      simp [Draft.listText]
    rw [htext, hopen, hclose]
    rfl
  | cons i items =>
    have htext : (Draft.listText (i :: items)).toList ++ rest =
        '[' :: ((String.intercalate ", " (i :: items)).toList ++ ']' :: rest) := by
      simp [Draft.listText]
    rw [htext, hopen, advance_items (.inl rfl) i items hitems]
    rfl

end Hql.Schema
