import Hql.Proofs.Schema.RoundTrip
import Hql.Proofs.Schema.Shape

/-!
Reading backwards. From the fact that a text could be read, and from how the text starts, follows
which step was made first and at which places it can have been made.
-/

namespace Hql.Schema

open Text

theorem Found.head? {cs : List Char} {p : Place} {f : Found} (h : p.find cs = some f) :
    f.lexeme.head? = cs.head? := by
  obtain ⟨happend, hne⟩ := (Place.find_eq_some h).1
  obtain ⟨c, more, hcs⟩ := List.exists_cons_of_ne_nil hne
  have hlexeme : f.lexeme = c :: more := hcs
  rw [← happend, hlexeme]
  rfl

namespace Place

theorem closed_ne {q : Place} (hout : q ≠ outside) (hend : q ≠ clauseEnd) (o : Owner) :
    closed o ≠ q := by
  cases o with
  | plain => exact hout.symm
  | edge => exact hend.symm

/-- After a field come the next field or the end of a list of fields. -/
theorem afterField_ne {q : Place} (hout : q ≠ outside) (hend : q ≠ clauseEnd)
    (hfields : ∀ o, q ≠ fields o) (o : Owner) (m : Mark) : afterField o m ≠ some q := by
  intro hm
  rcases afterField_eq_some hm with ⟨-, rfl⟩ | ⟨-, rfl⟩
  · exact hfields o rfl
  · exact closed_ne hout hend o rfl

theorem next_letter {p : Place} {t : Terminal} {k : EntityKind} (h : p.next t = some (.letter k)) :
    p = .outside := by
  have hclosed := closed_ne (q := letter k) (by simp) (by simp)
  have hfield := afterField_ne (q := letter k) (by simp) (by simp) (by simp)
  unfold next at h
  split at h
  all_goals
    first
    | rfl
    | exact absurd h (hfield _ _)
    | exact absurd (Option.some.inj h) (hclosed _)
    | cases h

theorem next_fieldColon {p : Place} {t : Terminal} {o : Owner}
    (h : p.next t = some (.fieldColon o)) :
    t = .name ∧ (p = .fields o ∨ p = .fieldName o) := by
  have hclosed := closed_ne (q := fieldColon o) (by simp) (by simp)
  have hfield := afterField_ne (q := fieldColon o) (by simp) (by simp) (by simp)
  unfold next at h
  split at h
  all_goals
    first
    | exact absurd h (hfield _ _)
    | exact absurd (Option.some.inj h) (hclosed _)
    | cases h
  · exact ⟨rfl, .inl rfl⟩
  · exact ⟨rfl, .inr rfl⟩

theorem next_colons {p q : Place} (h : p.next (.mark .colons) = some q) : ∃ k, p = .letter k := by
  cases p with
  | letter k => exact ⟨k, rfl⟩
  | head k => cases k <;> cases h
  | _ => cases h

theorem next_colon {p q : Place} (h : p.next (.mark .colon) = some q) :
    (∃ o, p = .fieldColon o ∧ q = .fieldType o) ∨
      (∃ side, p = .sideColon side ∧ q = .sideName side) ∨
      (p = .propertiesColon ∧ q = .propertiesBody) := by
  cases p with
  | fieldColon o => exact .inl ⟨o, rfl, (Option.some.inj h).symm⟩
  | sideColon side => exact .inr (.inl ⟨side, rfl, (Option.some.inj h).symm⟩)
  | propertiesColon => exact .inr (.inr ⟨rfl, (Option.some.inj h).symm⟩)
  | head k => cases k <;> cases h
  | _ => cases h

end Place

namespace State

/-- A text whose first character is no layout and starts no comment is read from its first token. -/
theorem exists_step {u t : State} {cs : List Char} (hcs : cs ≠ [])
    (hhead : ∀ c ∈ cs.head?, isLayoutChar c = false ∧ c ≠ '/') (h : u.advance cs = some t) :
    ∃ f v, u.place.find cs = some f ∧ Reads u f.terminal f.lexeme v ∧
      v.advance f.rest = some t := by
  have hskip := skipLayout_of_head hhead
  rcases advance_eq_some h with ⟨hnil, -⟩ | ⟨f, v, hf, hv, hrest⟩
  · exact absurd (hskip.symm.trans hnil) hcs
  · rw [hskip] at hf
    exact ⟨f, v, hf, reads_of_accept hf hv, hrest⟩

/-- The first token of a text that starts with a mark which is no word. -/
theorem mark_of_advance {u t : State} (m : Mark) (hm : m.isWord = false) {rest : List Char}
    (h : u.advance (m.text.toList ++ rest) = some t) :
    ∃ m' more v, Reads u (.mark m') m'.text.toList v ∧ v.advance more = some t ∧
      m.text.toList ++ rest = m'.text.toList ++ more ∧
      (m' = m ∨ (m = .colon ∧ m' = .colons) ∨ (m = .colons ∧ m' = .colon)) := by
  have hplain := m.head_plain
  have hnotstart := Mark.head_not_identStart hm
  rw [← m.head?_append rest] at hplain hnotstart
  have hne : m.text.toList ++ rest ≠ [] := by
    intro hnil
    exact m.text_ne_nil (List.append_eq_nil_iff.1 hnil).1
  obtain ⟨f, v, hf, hreads, hrest⟩ := exists_step hne
    (fun c hc => ⟨(hplain c hc).2.2.1, (hplain c hc).2.1⟩) h
  have hhead := Found.head? hf
  have happend := (Place.find_eq_some hf).1.1
  obtain ⟨kind, lexeme, more, place⟩ := f
  rw [← hhead] at hplain hnotstart
  obtain ⟨c, cs, hlexeme⟩ := List.exists_cons_of_ne_nil hreads.spells.ne_nil
  have hc : c ∈ lexeme.head? := by
    have hlexeme : lexeme = c :: cs := hlexeme
    rw [hlexeme]
    rfl
  -- no other kind of token starts with the first character of such a mark
  cases kind with
  | mark m' =>
    obtain rfl : lexeme = m'.text.toList := hreads.spells
    have hsame : m.text.toList.head? = m'.text.toList.head? := by
      rw [← m.head?_append rest]
      exact hhead.symm
    refine ⟨m', more, v, hreads, hrest, happend.symm, ?_⟩
    exact (Mark.eq_of_head hsame).imp_left Eq.symm
  | name =>
    have hstart := hreads.spells
    have hlexeme : lexeme = c :: cs := hlexeme
    rw [Terminal.Spells, hlexeme, isIdentifier_cons, hnotstart c hc] at hstart
    exact absurd hstart.1 Bool.false_ne_true
  | quoted =>
    obtain ⟨body, hquoted, -⟩ := hreads.spells
    have hquote : c = '"' := by
      have hlexeme : lexeme = c :: cs := hlexeme
      rw [hlexeme] at hquoted
      exact (List.cons.inj hquoted).1
    exact absurd hquote (hplain c hc).1
  | number =>
    obtain ⟨-, -, -, hdigit, hplus, hminus, hdot⟩ := hplain c hc
    rcases IsNumber.head hreads.spells c hc with hd | rfl | rfl | rfl
    · rw [hdigit] at hd
      cases hd
    · exact absurd rfl hplus
    · exact absurd rfl hminus
    · exact absurd rfl hdot

/-- The first step over a text that starts with a mark which is no word and no colon. -/
theorem step_of_mark {u t : State} (m : Mark) (hm : m.isWord = false) (hcolon : m ≠ .colon)
    (hcolons : m ≠ .colons) {rest : List Char} (h : u.advance (m.text.toList ++ rest) = some t) :
    ∃ v, Reads u (.mark m) m.text.toList v ∧ v.advance rest = some t := by
  obtain ⟨m', more, v, hreads, hrest, happend, heq | ⟨heq, -⟩ | ⟨heq, -⟩⟩ := mark_of_advance m hm h
  · subst heq
    obtain rfl := List.append_cancel_left happend
    exact ⟨v, hreads, hrest⟩
  · exact absurd heq hcolon
  · exact absurd heq hcolons

/-- The places where a single colon may stand. -/
theorem step_of_colon {u t : State} {rest : List Char} (hrest : ':' ∉ rest.head?)
    (h : u.advance (':' :: rest) = some t) :
    ∃ v, Reads u (.mark .colon) [':'] v ∧ v.advance rest = some t := by
  obtain ⟨m', more, v, hreads, hmore, happend, heq | ⟨-, heq⟩ | ⟨hfalse, -⟩⟩ :=
    mark_of_advance .colon rfl h
  · subst heq
    obtain rfl := List.append_cancel_left happend
    exact ⟨v, hreads, hmore⟩
  · subst heq
    have hcolon : rest = ':' :: more := (List.cons.inj happend).2
    rw [hcolon] at hrest
    exact absurd rfl hrest
  · cases hfalse

/-- The first step over a text that starts with a name. A word that is a mark may be shorter than
the name. -/
theorem step_of_name {u t : State} {cs rest : List Char} (hcs : isIdentifier cs = true)
    (hrest : Apart rest) (h : u.advance (cs ++ rest) = some t) :
    ∃ v, (Reads u .name cs v ∧ v.advance rest = some t) ∨
      ∃ m more, m.isWord = true ∧ cs ++ rest = m.text.toList ++ more ∧
        Reads u (.mark m) m.text.toList v ∧ v.advance more = some t := by
  obtain ⟨c, more, hcons⟩ := List.exists_cons_of_ne_nil (isIdentifier_ne_nil hcs)
  have hstart : isIdentStart c = true := by
    rw [hcons, isIdentifier_cons] at hcs
    exact hcs.1
  have hhead : (cs ++ rest).head? = some c := by
    rw [hcons]
    rfl
  have hne : cs ++ rest ≠ [] := by
    rw [hcons]
    exact List.cons_ne_nil _ _
  obtain ⟨f, v, hf, hreads, hmore⟩ := exists_step hne (by
    intro d hd
    obtain rfl : c = d := Option.some.inj (hhead.symm.trans hd)
    exact not_layout_of_isIdentChar (isIdentChar_of_isIdentStart hstart)) h
  have hlexeme : c ∈ f.lexeme.head? := (Found.head? hf).trans hhead
  refine ⟨v, ?_⟩
  -- a word of the grammar that is accepted here goes before a name
  by_cases hword : ∃ m, u.place.accepts (.mark m) = true ∧ m.text.toList = cs
  · obtain ⟨m, haccepts, rfl⟩ := hword
    obtain ⟨q, hnext⟩ := Option.isSome_iff_exists.1 haccepts
    have hisword := Mark.isWord_of_identStart (by rw [hcons]; rfl) hstart
    obtain rfl := Option.some.inj ((Place.find_mark hnext fun _ _ => hrest.endsName).symm.trans hf)
    exact .inr ⟨m, rest, hisword, rfl, hreads, hmore⟩
  · cases hname : u.place.next .name with
    | some q =>
      obtain rfl := Option.some.inj ((Place.find_name hname hcs hword hrest.endsName).symm.trans hf)
      exact .inl ⟨hreads, hmore⟩
    | none =>
      -- where no name is accepted, a fixed text may take the start of one
      have hnext := (Place.find_eq_some hf).2
      have happend := (Place.find_eq_some hf).1.1
      obtain ⟨kind, lexeme, left, place⟩ := f
      cases kind with
      | mark m =>
        obtain rfl : lexeme = m.text.toList := hreads.spells
        have hisword := Mark.isWord_of_identStart hlexeme hstart
        exact .inr ⟨m, left, hisword, happend.symm, hreads, hmore⟩
      | name =>
        rw [hname] at hnext
        cases hnext
      | quoted =>
        obtain ⟨body, rfl, -⟩ := hreads.spells
        obtain rfl : '"' = c := Option.some.inj hlexeme
        cases hstart
      | number =>
        have hplain := (IsNumber.not_name_head hreads.spells c hlexeme).1
        rw [hstart] at hplain
        cases hplain

/-- A definition starts outside of any other. -/
theorem outside_of_definition {u t : State} (k : EntityKind) {rest : List Char}
    (h : u.advance ((Mark.ofKind k).text.toList ++ ':' :: ':' :: rest) = some t) :
    u.place = .outside := by
  have hletter : isIdentifier (Mark.ofKind k).text.toList = true := by cases k <;> decide
  obtain ⟨v, hfirst⟩ := step_of_name hletter (apart_of_head _ (by decide)) h
  -- whatever the letter is taken for, the colons are left
  obtain ⟨kind, hnext, hcolons⟩ : ∃ kind, u.place.next kind = some v.place ∧
      v.advance (':' :: ':' :: rest) = some t := by
    rcases hfirst with ⟨hreads, hmore⟩ | ⟨m, more, hword, happend, hreads, hmore⟩
    · exact ⟨.name, hreads.next, hmore⟩
    · have hhead : m.text.toList.head? = (Mark.ofKind k).text.toList.head? := by
        rw [← m.head?_append more, ← happend, Mark.head?_append]
      rcases Mark.eq_of_head hhead with rfl | ⟨rfl, -⟩ | ⟨rfl, -⟩
      · rw [← List.append_cancel_left happend] at hmore
        exact ⟨_, hreads.next, hmore⟩
      · cases hword
      · cases hword
  obtain ⟨m', more, w, hreads, hmore, happend, rfl | ⟨hfalse, -⟩ | ⟨-, rfl⟩⟩ :=
    mark_of_advance .colons rfl hcolons
  · obtain ⟨k', hplace⟩ := Place.next_colons hreads.next
    rw [hplace] at hnext
    exact Place.next_letter hnext
  · cases hfalse
  · -- no colon may stand after a single colon
    obtain rfl : ':' :: rest = more := (List.cons.inj happend).2
    obtain ⟨m', more, x, hreads', -, -, hm⟩ := mark_of_advance .colon rfl hmore
    have hafter := hreads'.next
    have hplace := Place.next_colon hreads.next
    rcases hm with rfl | ⟨-, rfl⟩ | ⟨hfalse, -⟩
    · rcases hplace with ⟨o, -, hq⟩ | ⟨side, -, hq⟩ | ⟨-, hq⟩ <;> (rw [hq] at hafter; cases hafter)
    · rcases hplace with ⟨o, -, hq⟩ | ⟨side, -, hq⟩ | ⟨-, hq⟩ <;> (rw [hq] at hafter; cases hafter)
    · cases hfalse

end State

end Hql.Schema
