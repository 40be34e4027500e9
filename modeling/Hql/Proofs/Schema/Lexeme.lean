import Hql.Schema.Token
import Mathlib.Data.List.TakeWhile
import Mathlib.Tactic.Common

/-!
The lexemes of schema text as classes of texts that are described without a reader, and the readers
against them: each reader takes the texts of its class and nothing else, and what it takes does not
depend on the text after a separator.
-/

namespace Hql.Schema

open Text

/-- A text that continues neither a name nor a number. -/
def Apart (rest : List Char) : Prop :=
  ∀ c ∈ rest.head?, isIdentChar c = false ∧ c ≠ '.' ∧ c ≠ '+' ∧ c ≠ '-'

/-- A text that does not continue a name. -/
def EndsName (rest : List Char) : Prop := ∀ c ∈ rest.head?, isIdentChar c = false

theorem Apart.endsName {rest : List Char} (h : Apart rest) : EndsName rest := fun c hc => (h c hc).1

/-- The inside of a quoted text, on one line. Each quote and backslash has a backslash before it. -/
inductive IsQuotedBody : List Char → Prop
  | nil : IsQuotedBody []
  | plain {c : Char} {cs : List Char} : c ≠ '"' → c ≠ '\\' → c ≠ '\n' → IsQuotedBody cs →
      IsQuotedBody (c :: cs)
  | marked {c : Char} {cs : List Char} : c ≠ '\n' → IsQuotedBody cs →
      IsQuotedBody ('\\' :: c :: cs)

/-- A text between quotes. -/
def IsQuoted (cs : List Char) : Prop := ∃ body, cs = '"' :: (body ++ ['"']) ∧ IsQuotedBody body

/-! ### Names -/

theorem isIdentChar_of_isIdentStart {c : Char} (h : isIdentStart c = true) :
    isIdentChar c = true := by
  simp only [isIdentStart, isIdentChar, Char.isAlphanum, Bool.or_eq_true] at h ⊢
  rcases h with h | h
  · exact .inl (.inl h)
  · exact .inr h

theorem isIdentChar_of_isDigit {c : Char} (h : c.isDigit = true) : isIdentChar c = true := by
  simp [isIdentChar, Char.isAlphanum, h]

theorem not_isIdentStart_of_isDigit {c : Char} (h : c.isDigit = true) :
    isIdentStart c = false := by
  have hunderscore : c ≠ '_' := by
    rintro rfl
    exact absurd h (by decide)
  have halpha : c.isAlpha = false := by
    delta Char.isAlpha Char.isUpper Char.isLower
    delta Char.isDigit at h
    simp only [Bool.and_eq_true, decide_eq_true_eq, Bool.or_eq_false_iff, Bool.and_eq_false_iff,
      decide_eq_false_iff_not, UInt32.le_iff_toNat_le, ge_iff_le] at h ⊢
    have hnine : '9'.val.toNat < 'A'.val.toNat := by decide
    have hupper : 'A'.val.toNat < 'a'.val.toNat := by decide
    omega
  rw [isIdentStart, halpha, beq_eq_false_iff_ne.2 hunderscore]
  rfl

theorem isIdentifier_cons {c : Char} {cs : List Char} :
    isIdentifier (c :: cs) = true ↔ isIdentStart c = true ∧ ∀ d ∈ cs, isIdentChar d = true := by
  simp [isIdentifier]

theorem isIdentifier_ne_nil {cs : List Char} (h : isIdentifier cs = true) : cs ≠ [] := by
  rintro rfl
  simp [isIdentifier] at h

theorem isIdentChar_of_mem {cs : List Char} (h : isIdentifier cs = true) :
    ∀ c ∈ cs, isIdentChar c = true := by
  cases cs with
  | nil => simp
  | cons c cs =>
    obtain ⟨hc, hcs⟩ := isIdentifier_cons.1 h
    intro d hd
    rcases List.mem_cons.1 hd with rfl | hd
    · exact isIdentChar_of_isIdentStart hc
    · exact hcs d hd

theorem takeWhile_append_of_head {p : Char → Bool} (a : List Char) {s : List Char}
    (h : ∀ c ∈ s.head?, p c = false) : (a ++ s).takeWhile p = a.takeWhile p := by
  induction a with
  | nil => cases s with
    | nil => rfl
    | cons c s => simp [h c (by simp)]
  | cons x a ih => by_cases hx : p x = true <;> simp [hx, ih]

theorem dropWhile_append_of_head {p : Char → Bool} (a : List Char) {s : List Char}
    (h : ∀ c ∈ s.head?, p c = false) : (a ++ s).dropWhile p = a.dropWhile p ++ s := by
  induction a with
  | nil => cases s with
    | nil => rfl
    | cons c s => simp [h c (by simp)]
  | cons x a ih => by_cases hx : p x = true <;> simp [hx, ih]

theorem name?_append (a : List Char) {s : List Char} (hs : EndsName s) :
    name? (a ++ s) = (name? a).map fun x => (x.1, x.2 ++ s) := by
  cases a with
  | nil =>
    cases s with
    | nil => rfl
    | cons c s =>
      have hc : ¬ isIdentStart c = true := by
        intro hstart
        have hident := isIdentChar_of_isIdentStart hstart
        rw [hs c (by simp)] at hident
        exact Bool.false_ne_true hident
      simp [name?, hc]
  | cons x a =>
    have htake := takeWhile_append_of_head (x :: a) hs
    have hdrop := dropWhile_append_of_head (x :: a) hs
    rw [List.cons_append] at htake hdrop
    by_cases hx : isIdentStart x = true
    · simp only [name?, List.cons_append, hx, if_true, htake, hdrop, Option.map_some]
    · simp only [name?, List.cons_append, hx, if_false, Option.map_none, Bool.false_eq_true]

theorem name?_self {cs : List Char} (h : isIdentifier cs = true) : name? cs = some (cs, []) := by
  have hall := isIdentChar_of_mem h
  cases cs with
  | nil => simp [isIdentifier] at h
  | cons c cs =>
    have hc := (isIdentifier_cons.1 h).1
    rw [name?, if_pos hc, List.takeWhile_eq_self_iff.2 hall, List.dropWhile_eq_nil_iff.2 hall]

theorem name?_identifier {cs rest : List Char} (h : isIdentifier cs = true) (hr : EndsName rest) :
    name? (cs ++ rest) = some (cs, rest) := by
  simp [name?_append cs hr, name?_self h]

theorem isIdentifier_of_name? {cs : List Char} {x : List Char × List Char}
    (h : name? cs = some x) : isIdentifier x.1 = true := by
  cases cs with
  | nil => simp [name?] at h
  | cons c cs =>
    by_cases hc : isIdentStart c = true
    · rw [name?, if_pos hc] at h
      obtain rfl := Option.some.inj h
      have hi := isIdentChar_of_isIdentStart hc
      rw [List.takeWhile_cons_of_pos hi]
      refine isIdentifier_cons.2 ⟨hc, fun d hd => ?_⟩
      exact List.mem_takeWhile_imp hd
    · rw [name?, if_neg hc] at h
      simp at h

/-! ### Quoted texts -/

theorem closeQuote?_body {body : List Char} (h : IsQuotedBody body) (rest : List Char) :
    closeQuote? false (body ++ '"' :: rest) = some (body ++ ['"'], rest) := by
  induction h with
  | nil => simp [closeQuote?]
  | @plain c cs hq hb hn _ ih =>
    have hcb : (c == '\\') = false := beq_eq_false_iff_ne.2 hb
    simp [closeQuote?, hq, hn, hcb, ih]
  | @marked c cs hn _ ih => simp [closeQuote?, hn, ih]

/-- What closes a quoted text is its inside and a quote. After a backslash the inside starts with
the character that the backslash marks. -/
theorem isQuotedBody_of_closeQuote? {marked : Bool} {cs : List Char} {x : List Char × List Char}
    (h : closeQuote? marked cs = some x) :
    ∃ body, x.1 = body ++ ['"'] ∧
      if marked then ∃ c more, body = c :: more ∧ c ≠ '\n' ∧ IsQuotedBody more
      else IsQuotedBody body := by
  -- the flag says that a backslash stands before the text, so the induction speaks of both of its
  -- values
  induction cs generalizing marked x with
  | nil => simp [closeQuote?] at h
  | cons c cs ih =>
    rw [closeQuote?] at h
    by_cases hn : c = '\n'
    · simp [hn] at h
    rw [if_neg hn] at h
    cases marked with
    | true =>
      simp only [Bool.not_true, Bool.and_false, Bool.false_eq_true, if_false] at h
      obtain ⟨y, hy, rfl⟩ := Option.map_eq_some_iff.1 h
      obtain ⟨body, hbody, hmore⟩ := ih hy
      exact ⟨c :: body, by simp [hbody], c, body, rfl, hn, by simpa using hmore⟩
    | false =>
      simp only [Bool.not_false, Bool.and_true] at h
      by_cases hq : c = '"'
      · simp only [hq, decide_true, if_true] at h
        obtain rfl := Option.some.inj h
        exact ⟨[], rfl, IsQuotedBody.nil⟩
      · simp only [hq, decide_false, Bool.false_eq_true, if_false] at h
        obtain ⟨y, hy, rfl⟩ := Option.map_eq_some_iff.1 h
        obtain ⟨body, hbody, hmore⟩ := ih hy
        refine ⟨c :: body, by simp [hbody], ?_⟩
        by_cases hb : c = '\\'
        · subst hb
          obtain ⟨d, more, rfl, hd, hmore⟩ : ∃ d more, body = d :: more ∧ d ≠ '\n' ∧
              IsQuotedBody more := by simpa using hmore
          exact IsQuotedBody.marked hd hmore
        · have hcb : (c == '\\') = false := by simp [hb]
          rw [hcb] at hmore
          exact IsQuotedBody.plain hq hb hn (by simpa using hmore)

theorem quoted?_quoted {cs : List Char} (h : IsQuoted cs) (rest : List Char) :
    quoted? (cs ++ rest) = some (cs, rest) := by
  obtain ⟨body, rfl, hbody⟩ := h
  simp [quoted?, closeQuote?_body hbody rest]

theorem isQuoted_of_quoted? {cs : List Char} {x : List Char × List Char}
    (h : quoted? cs = some x) : IsQuoted x.1 := by
  cases cs with
  | nil => simp [quoted?] at h
  | cons c cs =>
    by_cases hc : c = '"'
    · rw [quoted?, if_pos hc] at h
      obtain ⟨y, hy, rfl⟩ := Option.map_eq_some_iff.1 h
      obtain ⟨body, hbody, hin⟩ := isQuotedBody_of_closeQuote? hy
      exact ⟨body, by simp [hc, hbody], by simpa using hin⟩
    · rw [quoted?, if_neg hc] at h
      simp at h

theorem isQuoted_iff {cs : List Char} : IsQuoted cs ↔ quoted? cs = some (cs, []) := by
  constructor
  · intro h
    have hread := quoted?_quoted h []
    rwa [List.append_nil] at hread
  · intro h
    exact isQuoted_of_quoted? h

instance (cs : List Char) : Decidable (IsQuoted cs) := decidable_of_iff _ isQuoted_iff.symm

theorem quoted?_eq_none {cs : List Char} (h : '"' ∉ cs.head?) : quoted? cs = none := by
  cases cs with
  | nil => rfl
  | cons c cs =>
    have hc : c ≠ '"' := by
      rintro rfl
      exact h (by simp)
    rw [quoted?, if_neg hc]

theorem closeQuote?_newline (marked : Bool) (a b : List Char) :
    closeQuote? marked (a ++ '\n' :: b) =
      (closeQuote? marked a).map fun x => (x.1, x.2 ++ '\n' :: b) := by
  induction a generalizing marked with
  | nil => simp [closeQuote?]
  | cons c a ih =>
    rw [List.cons_append, closeQuote?, closeQuote?, ih]
    by_cases hn : c = '\n'
    · simp [hn]
    by_cases hq : (decide (c = '"') && !marked) = true
    · simp only [hn, hq, if_true, if_false, Option.map_some]
    · simp only [hn, hq, if_false, Bool.false_eq_true, Option.map_map, Function.comp_def]

/-- A quoted text ends before its line does. -/
theorem quoted?_newline (a b : List Char) :
    quoted? (a ++ '\n' :: b) = (quoted? a).map fun x => (x.1, x.2 ++ '\n' :: b) := by
  cases a with
  | nil => simp [quoted?]
  | cons c a =>
    rw [List.cons_append, quoted?, quoted?, closeQuote?_newline]
    by_cases hc : c = '"'
    · simp only [hc, if_true, Option.map_map, Function.comp_def]
    · simp only [hc, if_false, Option.map_none]

end Hql.Schema
