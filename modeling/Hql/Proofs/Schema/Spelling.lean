import Hql.Proofs.Schema.Seam

/-!
The spelling of tokens. A place finds a token of each kind that may stand there in a text that
starts with a spelling of it, and what a place finds is always spelled as its kind says.
-/

namespace Hql.Schema

open Text

-- On closed texts these are evaluated along the text, never over all characters.
section Chars

variable {P : Char → Prop} [DecidablePred P]

theorem forall_mem_of_all {cs : List Char} (h : (cs.all fun c => decide (P c)) = true) :
    ∀ c ∈ cs, P c := by
  intro c hc
  exact of_decide_eq_true (List.all_eq_true.1 h c hc)

theorem forall_mem_head?_of_all {cs : List Char}
    (h : (cs.head?.all fun c => decide (P c)) = true) : ∀ c ∈ cs.head?, P c := by
  intro c hc
  exact of_decide_eq_true ((Option.all_eq_true _ _).1 h c hc)

end Chars

namespace Mark

/-- The marks that are words. -/
def isWord : Mark → Bool
  | node | edge | vector | source | target | properties | unique | index | default => true
  | _ => false

theorem isIdentifier_text {m : Mark} (h : m.isWord = true) :
    isIdentifier m.text.toList = true := by
  revert h
  cases m <;> decide

theorem text_injective {m m' : Mark} (h : m.text.toList = m'.text.toList) : m = m' := by
  revert h
  cases m <;> cases m' <;> decide

/-- Marks that start alike are equal, but for the colons. -/
theorem eq_of_head {m m' : Mark} (h : m.text.toList.head? = m'.text.toList.head?) :
    m = m' ∨ (m = colon ∧ m' = colons) ∨ (m = colons ∧ m' = colon) := by
  revert h
  cases m <;> cases m' <;> decide

/-- The first character of a mark starts no quoted text, number, layout or comment. -/
theorem head_plain (m : Mark) : ∀ c ∈ m.text.toList.head?,
    c ≠ '"' ∧ c ≠ '/' ∧ isLayoutChar c = false ∧ c.isDigit = false ∧ c ≠ '+' ∧ c ≠ '-' ∧
      c ≠ '.' := by
  apply forall_mem_head?_of_all
  cases m <;> decide

theorem head_not_identStart {m : Mark} (h : m.isWord = false) :
    ∀ c ∈ m.text.toList.head?, isIdentStart c = false := by
  apply forall_mem_head?_of_all
  revert h
  cases m <;> decide

theorem isWord_of_identStart {m : Mark} {c : Char} (hc : c ∈ m.text.toList.head?)
    (h : isIdentStart c = true) : m.isWord = true := by
  by_contra hnot
  have hplain := head_not_identStart (by simpa using hnot) c hc
  rw [h] at hplain
  cases hplain

theorem head?_append (m : Mark) (rest : List Char) :
    (m.text.toList ++ rest).head? = m.text.toList.head? := by
  obtain ⟨c, cs, h⟩ := List.exists_cons_of_ne_nil m.text_ne_nil
  rw [h]
  rfl

end Mark

/-- The texts that tokens of a kind are spelled with. -/
def Terminal.Spells : Terminal → List Char → Prop
  | mark m, cs => cs = m.text.toList
  | name, cs => isIdentifier cs = true
  | quoted, cs => IsQuoted cs
  | number, cs => IsNumber cs

/-- The names that the place takes for marks. -/
def Place.IsMarkWord (p : Place) (cs : List Char) : Prop :=
  ∃ m, p.accepts (.mark m) = true ∧ m.text.toList = cs

theorem number?_eq_none {cs : List Char}
    (h : ∀ c ∈ cs.head?, c.isDigit = false ∧ c ≠ '+' ∧ c ≠ '-' ∧ c ≠ '.') :
    number? cs = none := by
  cases cs with
  | nil => rfl
  | cons c cs =>
    obtain ⟨hd, hp, hm, hdot⟩ := h c (by simp)
    have hsign : leadingSign (c :: cs) = [] := by simp [leadingSign, hp, hm]
    have hdigits : leadingDigits (c :: cs) = [] := by simp [leadingDigits, hd]
    have hfraction : leadingFraction (c :: cs) = [] := by simp [leadingFraction, hdot]
    have hunsigned : leadingUnsigned (c :: cs) = [] := by
      simp [leadingUnsigned, hdigits, hfraction]
    simp [number?, hsign, hunsigned]

theorem IsNumber.head {cs : List Char} (h : IsNumber cs) :
    ∀ c ∈ cs.head?, c.isDigit = true ∨ c = '+' ∨ c = '-' ∨ c = '.' := by
  intro c hc
  by_contra hnot
  simp only [not_or, Bool.not_eq_true] at hnot
  have hnone : number? cs = none := by
    apply number?_eq_none
    intro d hd
    obtain rfl : c = d := Option.some.inj (hc.symm.trans hd)
    exact hnot
  rw [number?_self h] at hnone
  cases hnone

theorem IsNumber.not_name_head {cs : List Char} (h : IsNumber cs) :
    ∀ c ∈ cs.head?, isIdentStart c = false ∧ c ≠ '"' := by
  intro c hc
  rcases h.head c hc with hd | rfl | rfl | rfl
  · refine ⟨not_isIdentStart_of_isDigit hd, ?_⟩
    rintro rfl
    exact absurd hd (by decide)
  all_goals decide

theorem name?_eq_none {cs : List Char} (h : ∀ c ∈ cs.head?, isIdentStart c = false) :
    name? cs = none := by
  cases cs with
  | nil => rfl
  | cons c cs => simp [name?, h c (by simp)]

namespace Place

theorem take_of_next {p q : Place} {t : Terminal} (h : p.next t = some q)
    (x : List Char × List Char) : p.take t x = some ⟨t, x.1, x.2, q⟩ := by
  rw [take, h, Option.map_some]

theorem accepts_of_next {p q : Place} {t : Terminal} (h : p.next t = some q) :
    p.accepts t = true := by
  rw [accepts, h, Option.isSome_some]

/-- One colon and two may not stand at the same place. -/
theorem not_accepts_colons (p : Place) (h : p.accepts (.mark .colon) = true) :
    p.accepts (.mark .colons) = false := by
  revert h
  cases p <;> simp [accepts, next, afterField]

theorem leadingMark?_of_accepts {p : Place} {m : Mark} (h : p.accepts (.mark m) = true)
    (rest : List Char) : p.leadingMark? (m.text.toList ++ rest) = some m := by
  have hself : m.text.toList.isPrefixOf (m.text.toList ++ rest) = true :=
    List.isPrefixOf_iff_prefix.2 (List.prefix_append _ _)
  rw [leadingMark?]
  cases hf : Mark.all.find? fun m' =>
      p.accepts (.mark m') && m'.text.toList.isPrefixOf (m.text.toList ++ rest) with
  | none =>
    have hnone := List.find?_eq_none.1 hf m (Mark.mem_all m)
    rw [h, hself] at hnone
    exact absurd rfl hnone
  | some m' =>
    obtain ⟨hfound, -⟩ := List.find?_eq_some_iff_append.1 hf
    obtain ⟨haccepts, hbegins⟩ := Bool.and_eq_true_iff.1 hfound
    have hhead : m'.text.toList.head? = m.text.toList.head? := by
      obtain ⟨more, hmore⟩ := List.isPrefixOf_iff_prefix.1 hbegins
      rw [← m'.head?_append more, hmore, m.head?_append]
    rcases Mark.eq_of_head hhead with rfl | ⟨rfl, rfl⟩ | ⟨rfl, rfl⟩
    · rfl
    · rw [p.not_accepts_colons haccepts] at h
      cases h
    · rw [p.not_accepts_colons h] at haccepts
      cases haccepts

theorem markOf?_text {p : Place} {m : Mark} (h : p.accepts (.mark m) = true) :
    p.markOf? m.text.toList = some m := by
  rw [markOf?]
  cases hf : Mark.all.find? fun m' =>
      p.accepts (.mark m') && m'.text.toList == m.text.toList with
  | none =>
    have hnone := List.find?_eq_none.1 hf m (Mark.mem_all m)
    rw [h, beq_self_eq_true] at hnone
    exact absurd rfl hnone
  | some m' =>
    obtain ⟨hfound, -⟩ := List.find?_eq_some_iff_append.1 hf
    have htext := beq_iff_eq.1 (Bool.and_eq_true_iff.1 hfound).2
    rw [Mark.text_injective htext]

theorem markOf?_eq_none {p : Place} {cs : List Char} (h : ¬ p.IsMarkWord cs) :
    p.markOf? cs = none := by
  rw [markOf?, List.find?_eq_none]
  intro m _ hm
  obtain ⟨haccepts, htext⟩ := Bool.and_eq_true_iff.1 hm
  exact h ⟨m, haccepts, beq_iff_eq.1 htext⟩

/-- Only at the start of a field may both a name and a word that is a mark stand. -/
theorem not_isMarkWord {p q : Place} (h : p.next .name = some q) (hfields : ∀ o, p ≠ .fields o)
    {cs : List Char} (hcs : isIdentifier cs = true) : ¬ p.IsMarkWord cs := by
  rintro ⟨m, haccepts, rfl⟩
  have hword : m.isWord = false := by
    cases p with
    | fields o => exact absurd rfl (hfields o)
    | _ => cases m <;> simp_all [accepts, next, Mark.isWord]
  obtain ⟨c, rest, htext⟩ := List.exists_cons_of_ne_nil m.text_ne_nil
  have hc := Mark.head_not_identStart hword c (by rw [htext]; rfl)
  rw [htext, isIdentifier_cons, hc] at hcs
  exact Bool.false_ne_true hcs.1

/-- A mark is found before any text, unless it is a word and names may stand here too. -/
theorem find_mark {p q : Place} {m : Mark} (h : p.next (.mark m) = some q) {rest : List Char}
    (hr : p.accepts .name = true → m.isWord = true → EndsName rest) :
    p.find (m.text.toList ++ rest) = some ⟨.mark m, m.text.toList, rest, q⟩ := by
  have haccepts := accepts_of_next h
  have hplain := m.head_plain
  rw [← m.head?_append rest] at hplain
  have hquoted : quoted? (m.text.toList ++ rest) = none :=
    quoted?_eq_none fun hq => (hplain '"' hq).1 rfl
  have hnumber : number? (m.text.toList ++ rest) = none := by
    apply number?_eq_none
    intro c hc
    obtain ⟨-, -, -, hd, hp, hm, hdot⟩ := hplain c hc
    exact ⟨hd, hp, hm, hdot⟩
  have hfixed : fixed? m.text.toList (m.text.toList ++ rest) = some (m.text.toList, rest) := by
    have hbegins : m.text.toList.isPrefixOf (m.text.toList ++ rest) = true :=
      List.isPrefixOf_iff_prefix.2 (List.prefix_append _ _)
    rw [fixed?, if_pos hbegins, List.drop_left]
  have hmark : p.findMark (m.text.toList ++ rest) =
      some ⟨.mark m, m.text.toList, rest, q⟩ := by
    rw [findMark, leadingMark?_of_accepts haccepts rest]
    simp only [Option.bind_eq_bind, Option.bind_some, hfixed]
    exact take_of_next h _
  have hother : (p.findQuoted (m.text.toList ++ rest) <|> p.findNumber (m.text.toList ++ rest) <|>
      p.findMark (m.text.toList ++ rest)) = some ⟨.mark m, m.text.toList, rest, q⟩ := by
    rw [findQuoted, hquoted, findNumber, hnumber, hmark]
    rfl
  -- a mark that is a word is read as a name first, which is then found to be the mark
  rw [find]
  by_cases hname : p.accepts .name = true
  · rw [if_pos hname]
    cases hw : m.isWord with
    | true =>
      rw [findName, name?_identifier (Mark.isIdentifier_text hw) (hr hname hw)]
      simp only [Option.bind_eq_bind, Option.bind_some, markOf?_text haccepts]
      rw [take_of_next h]
      rfl
    | false =>
      have hnone : name? (m.text.toList ++ rest) = none := by
        apply name?_eq_none
        rw [m.head?_append]
        exact Mark.head_not_identStart hw
      rw [findName, hnone]
      exact hother
  · rw [if_neg hname]
    exact hother

theorem find_name {p q : Place} (h : p.next .name = some q) {cs rest : List Char}
    (hcs : isIdentifier cs = true) (hm : ¬ p.IsMarkWord cs) (hr : EndsName rest) :
    p.find (cs ++ rest) = some ⟨.name, cs, rest, q⟩ := by
  rw [find, if_pos (accepts_of_next h), findName, name?_identifier hcs hr]
  simp only [Option.bind_eq_bind, Option.bind_some, markOf?_eq_none hm]
  rw [take_of_next h]
  rfl

theorem find_quoted {p q : Place} (h : p.next .quoted = some q) {cs : List Char}
    (hcs : IsQuoted cs) (rest : List Char) :
    p.find (cs ++ rest) = some ⟨.quoted, cs, rest, q⟩ := by
  have hname : name? (cs ++ rest) = none := by
    obtain ⟨body, rfl, -⟩ := hcs
    apply name?_eq_none
    intro c hc
    obtain rfl : '"' = c := by simpa using hc
    rfl
  have hfind : p.findQuoted (cs ++ rest) = some ⟨.quoted, cs, rest, q⟩ := by
    rw [findQuoted, quoted?_quoted hcs rest]
    exact take_of_next h _
  rw [find, findName, hname, hfind]
  split <;> rfl

theorem find_number {p q : Place} (h : p.next .number = some q) {cs rest : List Char}
    (hcs : IsNumber cs) (hr : Apart rest) :
    p.find (cs ++ rest) = some ⟨.number, cs, rest, q⟩ := by
  have hne : cs ≠ [] := by
    rintro rfl
    exact absurd (number?_self hcs) (by decide)
  have hhead : ∀ c ∈ (cs ++ rest).head?, isIdentStart c = false ∧ c ≠ '"' := by
    obtain ⟨d, ds, rfl⟩ := List.exists_cons_of_ne_nil hne
    exact hcs.not_name_head
  have hname : name? (cs ++ rest) = none := name?_eq_none fun c hc => (hhead c hc).1
  have hquoted : quoted? (cs ++ rest) = none := quoted?_eq_none fun hc => (hhead '"' hc).2 rfl
  have hfind : p.findNumber (cs ++ rest) = some ⟨.number, cs, rest, q⟩ := by
    rw [findNumber, number?_number hcs hr]
    exact take_of_next h _
  rw [find, findName, hname, findQuoted, hquoted, hfind]
  split <;> rfl

/-- Whatever is found at the start of a text is spelled as its kind says, and a name is none of the
words that are marks at this place. -/
theorem spells_of_find {p : Place} {cs : List Char} {f : Found} (h : p.find cs = some f) :
    f.terminal.Spells f.lexeme ∧ (f.terminal = .name → p.markOf? f.lexeme = none) := by
  have taken {t : Terminal} {x : List Char × List Char} (hf : p.take t x = some f) :
      f.terminal = t ∧ f.lexeme = x.1 := by
    obtain ⟨q, -, rfl⟩ := Option.map_eq_some_iff.1 hf
    exact ⟨rfl, rfl⟩
  -- the order of the attempts: names and words that are marks, quoted texts, numbers, other marks
  simp only [find, Option.orElse_eq_orElse, Option.orElse_eq_or, Option.or_eq_some_iff] at h
  rcases h with h | ⟨-, h | ⟨-, h | ⟨-, h⟩⟩⟩
  · split at h
    · obtain ⟨x, hx, h⟩ := Option.bind_eq_some_iff.1 h
      split at h
      · next m hm =>
        obtain ⟨ht, hl⟩ := taken h
        obtain ⟨hfound, -⟩ := List.find?_eq_some_iff_append.1 hm
        have htext := beq_iff_eq.1 (Bool.and_eq_true_iff.1 hfound).2
        rw [ht, hl]
        exact ⟨htext.symm, fun hname => by cases hname⟩
      · next hm =>
        obtain ⟨ht, hl⟩ := taken h
        rw [ht, hl]
        exact ⟨isIdentifier_of_name? hx, fun _ => hm⟩
    · cases h
  · obtain ⟨x, hx, h⟩ := Option.bind_eq_some_iff.1 h
    obtain ⟨ht, hl⟩ := taken h
    rw [ht, hl]
    exact ⟨isQuoted_of_quoted? hx, fun hname => by cases hname⟩
  · obtain ⟨x, hx, h⟩ := Option.bind_eq_some_iff.1 h
    obtain ⟨ht, hl⟩ := taken h
    rw [ht, hl]
    exact ⟨isNumber_of_number? hx, fun hname => by cases hname⟩
  · obtain ⟨m, -, h⟩ := Option.bind_eq_some_iff.1 h
    obtain ⟨x, hx, h⟩ := Option.bind_eq_some_iff.1 h
    obtain ⟨ht, hl⟩ := taken h
    have hfixed : x.1 = m.text.toList := by
      rw [fixed?] at hx
      split at hx
      · obtain rfl := Option.some.inj hx
        rfl
      · cases hx
    rw [ht, hl]
    exact ⟨hfixed, fun hname => by cases hname⟩

end Place

end Hql.Schema
