import Hql.Proofs.Schema.Spelling

/-!
Reading a printed text token by token: what is passed over, and what a token at the start of a text
does to the state.
-/

namespace Hql.Schema

open Text

/-- Tokens of the kind reach as far as they can, so that what follows has to stand apart. -/
def Terminal.isGreedy : Terminal → Bool
  | mark m => m.isWord
  | quoted => false
  | _ => true

theorem apart_of_head {c : Char} (cs : List Char)
    (h : isIdentChar c = false ∧ c ≠ '.' ∧ c ≠ '+' ∧ c ≠ '-') : Apart (c :: cs) := by
  intro d hd
  obtain rfl : c = d := by simpa using hd
  exact h

theorem apart_nil : Apart [] := by
  intro c hc
  cases hc

theorem Terminal.Spells.ne_nil {t : Terminal} {cs : List Char} (h : t.Spells cs) : cs ≠ [] := by
  cases t with
  | mark m =>
    obtain rfl : cs = m.text.toList := h
    exact m.text_ne_nil
  | name => exact isIdentifier_ne_nil h
  | quoted =>
    obtain ⟨body, rfl, -⟩ := h
    simp
  | number =>
    rintro rfl
    exact absurd (number?_self h) (by decide)

theorem not_layout_of_isIdentChar {c : Char} (h : isIdentChar c = true) :
    isLayoutChar c = false ∧ c ≠ '/' := by
  constructor
  · by_contra hlayout
    simp only [isLayoutChar, Bool.not_eq_false, Bool.or_eq_true, beq_iff_eq] at hlayout
    rcases hlayout with (((rfl | rfl) | rfl) | rfl) | rfl <;> exact absurd h (by decide)
  · rintro rfl
    exact absurd h (by decide)

/-- No token starts like layout. -/
theorem Terminal.Spells.head {t : Terminal} {cs : List Char} (h : t.Spells cs) :
    ∀ c ∈ cs.head?, isLayoutChar c = false ∧ c ≠ '/' := by
  intro c hc
  cases t with
  | mark m =>
    obtain rfl : cs = m.text.toList := h
    obtain ⟨-, hslash, hlayout, -⟩ := m.head_plain c hc
    exact ⟨hlayout, hslash⟩
  | name =>
    obtain ⟨d, ds, rfl⟩ := List.exists_cons_of_ne_nil (isIdentifier_ne_nil h)
    obtain rfl : d = c := by simpa using hc
    exact not_layout_of_isIdentChar (isIdentChar_of_mem h d (by simp))
  | quoted =>
    obtain ⟨body, rfl, -⟩ := h
    obtain rfl : '"' = c := by simpa using hc
    decide
  | number =>
    rcases IsNumber.head h c hc with hd | rfl | rfl | rfl
    · exact not_layout_of_isIdentChar (isIdentChar_of_isDigit hd)
    all_goals decide

theorem skipLayout_of_head {cs : List Char}
    (h : ∀ c ∈ cs.head?, isLayoutChar c = false ∧ c ≠ '/') : skipLayout false cs = cs := by
  cases cs with
  | nil => rfl
  | cons c cs =>
    obtain ⟨hlayout, hslash⟩ := h c (by simp)
    simp [skipLayout, hlayout, hslash]

theorem skipLayout_spelled {t : Terminal} {cs : List Char} (h : t.Spells cs) (rest : List Char) :
    skipLayout false (cs ++ rest) = cs ++ rest := by
  apply skipLayout_of_head
  obtain ⟨c, cs, rfl⟩ := List.exists_cons_of_ne_nil h.ne_nil
  exact h.head

namespace State

theorem advance_layout {s : State} {blank : List Char}
    (h : ∀ c ∈ blank, isLayoutChar c = true) (cs : List Char) :
    s.advance (blank ++ cs) = s.advance cs := by
  apply advance_congr
  induction blank with
  | nil => rfl
  | cons c blank ih =>
    have hc := h c (by simp)
    rw [List.cons_append, skipLayout, if_neg Bool.false_ne_true, if_pos hc]
    exact ih fun d hd => h d (List.mem_cons_of_mem c hd)

theorem advance_nil (s : State) : s.advance [] = some s := advance_of_layout rfl

theorem advance_blank (s : State) (cs : List Char) : s.advance (' ' :: cs) = s.advance cs :=
  advance_congr rfl

/-- A spelled token is read as such, and the draft grows by it. -/
theorem advance_token {p q : Place} {d d' : Draft} {t : Terminal} {cs rest : List Char}
    (hnext : p.next t = some q) (hcs : t.Spells cs) (hname : t = .name → ¬ p.IsMarkWord cs)
    (hrest : t.isGreedy = true → Apart rest) (hpush : d.push ⟨p, t, cs, 0⟩ = .ok d') :
    advance ⟨p, d⟩ (cs ++ rest) = advance ⟨q, d'⟩ rest := by
  have hfind : p.find (cs ++ rest) = some ⟨t, cs, rest, q⟩ := by
    cases t with
    | mark m =>
      obtain rfl : cs = m.text.toList := hcs
      exact Place.find_mark hnext fun _ hword => (hrest hword).endsName
    | name => exact Place.find_name hnext hcs (hname rfl) (hrest rfl).endsName
    | quoted => exact Place.find_quoted hnext hcs rest
    | number => exact Place.find_number hnext hcs (hrest rfl)
  rw [← skipLayout_spelled hcs rest] at hfind
  have haccept : accept ⟨p, d⟩ ⟨t, cs, rest, q⟩ = some ⟨q, d'⟩ := by
    rw [accept, hpush]
    rfl
  rw [advance_of_find hfind, haccept, Option.bind_some]

/-- A mark at the start of a text. -/
theorem advance_mark {p q : Place} {d d' : Draft} (m : Mark) {rest : List Char}
    (hnext : p.next (.mark m) = some q) (hrest : m.isWord = true → Apart rest)
    (hpush : d.push ⟨p, .mark m, m.text.toList, 0⟩ = .ok d') :
    advance ⟨p, d⟩ (m.text.toList ++ rest) = advance ⟨q, d'⟩ rest :=
  advance_token hnext rfl (fun h => by cases h) hrest hpush

/-- A name at the start of a text, at a place where no word is a mark. -/
theorem advance_name {p q : Place} {d d' : Draft} {cs rest : List Char}
    (hnext : p.next .name = some q) (hfields : ∀ o, p ≠ .fields o)
    (hcs : isIdentifier cs = true) (hrest : Apart rest)
    (hpush : d.push ⟨p, .name, cs, 0⟩ = .ok d') :
    advance ⟨p, d⟩ (cs ++ rest) = advance ⟨q, d'⟩ rest :=
  advance_token hnext hcs (fun _ => Place.not_isMarkWord hnext hfields hcs) (fun _ => hrest) hpush

end State

end Hql.Schema
