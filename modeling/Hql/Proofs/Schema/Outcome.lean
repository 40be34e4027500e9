import Hql.Proofs.Layout.Paragraph
import Hql.Proofs.Schema.Leading

/-!
What reading a text comes to. Blanks alone, and an empty pair of braces between blanks, stand for a
model without entities; no text with a token is one of them. Any other text gives the entities of its
tokens or one fault.
-/

namespace Hql.Schema

open Text

theorem isEmptyText_iff {cs : List Char} : isEmptyText cs = true ↔
    ∃ a m b, cs = a ++ m ++ b ∧ (∀ c ∈ a, isBlank c = true) ∧ (∀ c ∈ b, isBlank c = true) ∧
      (m = [] ∨ m = ['{', '}']) := by
  rw [isEmptyText, Bool.or_eq_true, List.isEmpty_iff, beq_iff_eq]
  have hempty : empty.toList = ['{', '}'] := rfl
  rw [hempty]
  constructor
  · intro h
    obtain ⟨a, b, hcs, ha, hb⟩ := Layout.exists_blanks_trim cs
    exact ⟨a, trim cs, b, hcs, ha, hb, h⟩
  · rintro ⟨a, m, b, rfl, ha, hb, hm⟩
    have htrim : trim (a ++ m ++ b) = m := by
      rcases hm with rfl | rfl
      · exact Layout.trim_between ha hb (by simp) (by simp)
      · exact Layout.trim_between ha hb (by decide) (by decide)
    rwa [htrim]

theorem isEmptyText_eq_false {c : Char} (hblank : isBlank c = false) (hopen : c ≠ '{')
    (hclose : c ≠ '}') {cs : List Char} (hc : c ∈ cs) : isEmptyText cs = false := by
  rw [Bool.eq_false_iff]
  intro h
  obtain ⟨a, m, b, rfl, ha, hb, hm⟩ := isEmptyText_iff.1 h
  rcases List.mem_append.1 hc with hc | hc
  · rcases List.mem_append.1 hc with hc | hc
    · exact Bool.false_ne_true (hblank.symm.trans (ha c hc))
    · rcases hm with rfl | rfl
      · cases hc
      · simp [hopen, hclose] at hc
  · exact Bool.false_ne_true (hblank.symm.trans (hb c hc))

theorem isEmptyText_of_blanks {cs : List Char} (h : ∀ c ∈ cs, isBlank c = true) :
    isEmptyText cs = true :=
  isEmptyText_iff.2 ⟨cs, [], [], by simp, h, by simp, .inl rfl⟩

theorem isEmptyText_of_append {a b : List Char} (h : isEmptyText (a ++ b) = true)
    (hpair : trim (a ++ b) ≠ empty.toList) : isEmptyText a = true := by
  rw [isEmptyText, Bool.or_eq_true, List.isEmpty_iff, beq_iff_eq] at h
  have hnil := h.resolve_right hpair
  obtain ⟨x, y, hcs, hx, hy⟩ := Layout.exists_blanks_trim (a ++ b)
  rw [hnil, List.append_nil] at hcs
  refine isEmptyText_of_blanks fun c hc => ?_
  have hmem : c ∈ x ++ y := hcs ▸ List.mem_append_left _ hc
  exact (List.mem_append.1 hmem).elim (hx c) (hy c)

/-- No line end stands within the pair of braces, so one of two lines is empty if both together
are. -/
theorem isEmptyText_newline {a b : List Char} (h : isEmptyText (a ++ '\n' :: b) = true) :
    isEmptyText a = true ∨ isEmptyText b = true := by
  obtain ⟨x, m, y, hcs, hx, hy, rfl | rfl⟩ := isEmptyText_iff.1 h
  · refine .inl (isEmptyText_of_blanks fun c hc => ?_)
    have hmem : c ∈ x ++ [] ++ y := hcs ▸ List.mem_append_left _ hc
    rcases List.mem_append.1 hmem with hmem | hmem
    · exact hx c (by simpa using hmem)
    · exact hy c hmem
  · rw [List.append_assoc] at hcs
    rcases List.append_eq_append_iff.1 hcs with ⟨u, rfl, -⟩ | ⟨u, rfl, hu⟩
    · exact .inl (isEmptyText_of_blanks fun c hc => hx c (List.mem_append_left _ hc))
    · -- neither brace is a line end, so it is among the blanks after them
      have hline : y = u.drop 2 ++ '\n' :: b := by
        rcases u with _ | ⟨c, _ | ⟨d, u⟩⟩
        · exact absurd (List.cons.inj hu).1 (by decide)
        · exact absurd (List.cons.inj (List.cons.inj hu).2).1 (by decide)
        · exact (List.cons.inj (List.cons.inj hu).2).2
      refine .inr (isEmptyText_of_blanks fun c hc => hy c ?_)
      rw [hline]
      exact List.mem_append_right _ (List.mem_cons_of_mem _ hc)

/-- The first token of a schema is a letter. -/
theorem isEmptyText_of_token {offset : Nat} {cs : List Char}
    (h : (scan .outside offset cs).1 ≠ []) : isEmptyText cs = false := by
  obtain ⟨front, rest, q, rfl, hleads, -⟩ := exists_leads .outside offset cs
  obtain ⟨t, ts, hts⟩ := List.exists_cons_of_ne_nil h
  rw [hts] at hleads
  cases hleads with
  | @cons _ q' _ _ gap lexeme more t _ hgap hfind hmore =>
    have hnext := (Place.find_eq_some hfind).2
    have hspells := (Place.spells_of_find hfind).1
    obtain ⟨c, hc, hplain⟩ : ∃ c ∈ lexeme, isBlank c = false ∧ c ≠ '{' ∧ c ≠ '}' := by
      cases t with
      | mark m =>
        obtain rfl : lexeme = m.text.toList := hspells
        cases m with
        | node => exact ⟨'N', by decide, by decide⟩
        | edge => exact ⟨'E', by decide, by decide⟩
        | vector => exact ⟨'V', by decide, by decide⟩
        | _ => cases hnext
      | _ => cases hnext
    exact isEmptyText_eq_false hplain.1 hplain.2.1 hplain.2.2
      (List.mem_append_left _ (List.mem_append_right _ (List.mem_append_left _ hc)))

/-! ### Entities and faults -/

theorem entitiesOf_eq (ts : List Token) (e : Ending) :
    entitiesOf ts e = ((ts.foldlM Draft.push {}).map Draft.entities).bind fun es =>
      match e with
      | .complete => .ok es
      | .unexpected offset => .error (.unexpected offset)
      | .unfinished => .error (.unfinished ((ts.getLast?.map Token.offset).getD 0)) := by
  rw [entitiesOf]
  cases ts.foldlM Draft.push {} with
  | ok d => cases e <;> rfl
  | error fault => rfl

theorem complete_of_entitiesOf {ts : List Token} {e : Ending} {es : List Entity}
    (h : entitiesOf ts e = .ok es) : e = .complete := by
  rw [entitiesOf_eq] at h
  generalize (ts.foldlM Draft.push {}).map Draft.entities = x at h
  cases x with
  | error fault => cases h
  | ok fs => cases e <;> first | rfl | cases h

theorem entitiesOf_eq_error {ts : List Token} {e : Ending} {fault : Fault}
    (h : entitiesOf ts e = .error fault) :
    ts.foldlM Draft.push {} = .error fault ∨ (∃ n, e = .unexpected n ∧ fault = .unexpected n) ∨
      ∃ n, e = .unfinished ∧ fault = .unfinished n := by
  rw [entitiesOf_eq] at h
  cases hfold : ts.foldlM Draft.push {} with
  | error fault' =>
    rw [hfold] at h
    exact .inl (congrArg Except.error (Except.error.inj h))
  | ok d =>
    rw [hfold] at h
    cases e with
    | complete => cases h
    | unexpected n => exact .inr (.inl ⟨n, rfl, (Except.error.inj h).symm⟩)
    | unfinished => exact .inr (.inr ⟨_, rfl, (Except.error.inj h).symm⟩)

theorem tokens_of_unfinished {offset : Nat} {cs : List Char}
    (h : (scan .outside offset cs).2 = .unfinished) : (scan .outside offset cs).1 ≠ [] := by
  intro hnil
  rcases scan_eq_nil (Prod.ext hnil h) with ⟨-, hending⟩ | ⟨_, _, -, -, -, -, -, hending⟩ <;>
    cases hending

theorem entities?_eq_error_iff {cs : List Char} {fault : Fault} :
    entities? cs = .error fault ↔ isEmptyText cs = false ∧
      entitiesOf (scan .outside 0 cs).1 (scan .outside 0 cs).2 = .error fault := by
  rw [entities?]
  cases isEmptyText cs with
  | true => simp
  | false => simp

theorem read_eq_error_iff {text : String} {e : ReadError} :
    read text = .error e ↔ entities? text.toList = .error e.fault ∧
      e.position = .ofOffset text.toList e.fault.offset := by
  rw [read]
  cases entities? text.toList with
  | ok es => simp
  | error fault =>
    constructor
    · intro h
      obtain rfl := Except.error.inj h
      exact ⟨rfl, rfl⟩
    · rintro ⟨hfault, hposition⟩
      obtain ⟨fault', position⟩ := e
      obtain rfl : fault = fault' := Except.error.inj hfault
      obtain rfl : position = .ofOffset text.toList fault.offset := hposition
      rfl

/-- What a text defines is what its tokens define, if the grammar accepts it. -/
theorem entities?_of_complete {cs : List Char} (h : (scan .outside 0 cs).2 = .complete) :
    entities? cs = entitiesOf (scan .outside 0 cs).1 .complete := by
  rw [entities?]
  split
  · next hempty =>
    have htokens : (scan .outside 0 cs).1 = [] := by
      by_contra hne
      exact Bool.false_ne_true ((isEmptyText_of_token hne).symm.trans hempty)
    rw [htokens]
    rfl
  · rw [← h]

end Hql.Schema
