import Hql.Proofs.Schema.Lexeme

/-!
Signed numbers: the texts that stand for them, and the reader of numbers against these texts.
-/

namespace Hql.Schema

open Text

def IsDigits (cs : List Char) : Prop := ∀ c ∈ cs, c.isDigit = true

def IsSign (cs : List Char) : Prop := cs = [] ∨ cs = ['+'] ∨ cs = ['-']

/-- No fraction, or a point with digits after it. -/
def IsFraction (cs : List Char) : Prop := cs = [] ∨ ∃ digits, cs = '.' :: digits ∧ IsDigits digits

/-- No exponent, or the letter E with a whole number after it. -/
def IsExponent (cs : List Char) : Prop :=
  cs = [] ∨ ∃ e sign digits, cs = e :: (sign ++ digits) ∧ (e = 'e' ∨ e = 'E') ∧ IsSign sign ∧
    IsDigits digits ∧ digits ≠ []

/-- A signed number: digits with or without a fraction, or a fraction with digits, and perhaps an
exponent. -/
def IsNumber (cs : List Char) : Prop :=
  ∃ sign whole fraction exponent, cs = sign ++ (whole ++ fraction ++ exponent) ∧ IsSign sign ∧
    IsDigits whole ∧ IsFraction fraction ∧ IsExponent exponent ∧
    (whole ≠ [] ∨ 2 ≤ fraction.length)

theorem leadingSign_append (a : List Char) {s : List Char} (h : Apart s) :
    leadingSign (a ++ s) = leadingSign a := by
  cases a with
  | nil => cases s with
    | nil => rfl
    | cons c s =>
      obtain ⟨-, -, hp, hm⟩ := h c (by simp)
      simp [leadingSign, hp, hm]
  | cons x a => simp [leadingSign]

theorem leadingDigits_append (a : List Char) {s : List Char} (h : Apart s) :
    leadingDigits (a ++ s) = leadingDigits a := by
  apply takeWhile_append_of_head
  intro c hc
  by_contra hd
  have hi := isIdentChar_of_isDigit (by simpa using hd)
  rw [(h c hc).1] at hi
  exact Bool.false_ne_true hi

theorem leadingSign_length_le (cs : List Char) : (leadingSign cs).length ≤ cs.length := by
  cases cs with
  | nil => simp [leadingSign]
  | cons c cs =>
    rw [leadingSign]
    split <;> simp

theorem leadingDigits_length_le (cs : List Char) : (leadingDigits cs).length ≤ cs.length :=
  (List.takeWhile_sublist _).length_le

theorem leadingExponent_append (a : List Char) {s : List Char} (h : Apart s) :
    leadingExponent (a ++ s) = leadingExponent a := by
  cases a with
  | nil => cases s with
    | nil => rfl
    | cons c s =>
      have hc := (h c (by simp)).1
      have he : c ≠ 'e' := by
        rintro rfl
        exact absurd hc (by decide)
      have hE : c ≠ 'E' := by
        rintro rfl
        exact absurd hc (by decide)
      simp [leadingExponent, he, hE]
  | cons x a =>
    have hdrop : (a ++ s).drop (leadingSign a).length = a.drop (leadingSign a).length ++ s :=
      List.drop_append_of_le_length (leadingSign_length_le a)
    simp only [leadingExponent, List.cons_append, leadingSign_append a h, hdrop,
      leadingDigits_append _ h]

theorem leadingFraction_append (a : List Char) {s : List Char} (h : Apart s) :
    leadingFraction (a ++ s) = leadingFraction a := by
  cases a with
  | nil => cases s with
    | nil => rfl
    | cons c s => simp [leadingFraction, (h c (by simp)).2.1]
  | cons x a => simp only [leadingFraction, List.cons_append, leadingDigits_append a h]

theorem leadingFraction_length_le (cs : List Char) :
    (leadingFraction cs).length ≤ cs.length := by
  have h := congrArg List.length (leadingFraction_append_drop cs)
  rw [List.length_append] at h
  omega

theorem leadingUnsigned_append (a : List Char) {s : List Char} (h : Apart s) :
    leadingUnsigned (a ++ s) = leadingUnsigned a := by
  have hw : (a ++ s).drop (leadingDigits a).length = a.drop (leadingDigits a).length ++ s :=
    List.drop_append_of_le_length (leadingDigits_length_le a)
  have hf (b : List Char) : (b ++ s).drop (leadingFraction b).length =
      b.drop (leadingFraction b).length ++ s :=
    List.drop_append_of_le_length (leadingFraction_length_le b)
  simp only [leadingUnsigned, leadingDigits_append a h, hw, leadingFraction_append _ h, hf,
    leadingExponent_append _ h]

theorem leadingUnsigned_length_le (cs : List Char) :
    (leadingUnsigned cs).length ≤ cs.length := by
  have h := congrArg List.length (leadingUnsigned_append_drop cs)
  rw [List.length_append] at h
  omega

theorem number?_append (a : List Char) {s : List Char} (h : Apart s) :
    number? (a ++ s) = (number? a).map fun x => (x.1, x.2 ++ s) := by
  have hs : (a ++ s).drop (leadingSign a).length = a.drop (leadingSign a).length ++ s :=
    List.drop_append_of_le_length (leadingSign_length_le a)
  have hu (b : List Char) : (b ++ s).drop (leadingUnsigned b).length =
      b.drop (leadingUnsigned b).length ++ s :=
    List.drop_append_of_le_length (leadingUnsigned_length_le b)
  simp only [number?, leadingSign_append a h, hs, leadingUnsigned_append _ h, hu]
  split <;> rfl

/-! ### The reader takes every number -/

theorem leadingDigits_digits {digits s : List Char} (hd : IsDigits digits)
    (hs : ∀ c ∈ s.head?, c.isDigit = false) : leadingDigits (digits ++ s) = digits := by
  rw [leadingDigits, takeWhile_append_of_head digits hs]
  exact List.takeWhile_eq_self_iff.2 hd

theorem leadingSign_sign {sign s : List Char} (h : IsSign sign)
    (hs : ∀ c ∈ s.head?, c ≠ '+' ∧ c ≠ '-') : leadingSign (sign ++ s) = sign := by
  rcases h with rfl | rfl | rfl
  · cases s with
    | nil => rfl
    | cons c s => simp [leadingSign, hs c (by simp)]
  · rfl
  · rfl

theorem leadingExponent_self {cs : List Char} (h : IsExponent cs) : leadingExponent cs = cs := by
  rcases h with rfl | ⟨e, sign, digits, rfl, he, hsign, hdigits, hne⟩
  · rfl
  · have hs : leadingSign (sign ++ digits) = sign := by
      refine leadingSign_sign hsign fun c hc => ?_
      have hc := hdigits c (List.mem_of_mem_head? hc)
      exact ⟨by rintro rfl; exact absurd hc (by decide), by rintro rfl; exact absurd hc (by decide)⟩
    have hd : leadingDigits digits = digits := List.takeWhile_eq_self_iff.2 hdigits
    simp [leadingExponent, hs, hd, he, hne]

theorem IsExponent.head {cs : List Char} (h : IsExponent cs) :
    ∀ c ∈ cs.head?, c = 'e' ∨ c = 'E' := by
  rcases h with rfl | ⟨e, sign, digits, rfl, he, -⟩
  · simp
  · simpa using he

theorem leadingFraction_fraction {fraction s : List Char} (h : IsFraction fraction)
    (hs : IsExponent s) : leadingFraction (fraction ++ s) = fraction := by
  have hne (c : Char) (hc : c ∈ s.head?) : c ≠ '.' ∧ c.isDigit = false := by
    rcases hs.head c hc with rfl | rfl <;> decide
  rcases h with rfl | ⟨digits, rfl, hd⟩
  · cases s with
    | nil => rfl
    | cons c s => simp [leadingFraction, hne c (by simp)]
  · have hdigits := leadingDigits_digits hd fun c hc => (hne c hc).2
    simp [leadingFraction, hdigits]

theorem leadingUnsigned_self {whole fraction exponent : List Char} (hw : IsDigits whole)
    (hf : IsFraction fraction) (he : IsExponent exponent)
    (hne : whole ≠ [] ∨ 2 ≤ fraction.length) :
    leadingUnsigned (whole ++ fraction ++ exponent) = whole ++ fraction ++ exponent := by
  have hhead : ∀ c ∈ (fraction ++ exponent).head?, c.isDigit = false := by
    intro c hc
    rcases hf with rfl | ⟨digits, rfl, -⟩
    · rcases he.head c (by simpa using hc) with rfl | rfl <;> decide
    · obtain rfl : '.' = c := by simpa using hc
      decide
  have hdigits : leadingDigits (whole ++ (fraction ++ exponent)) = whole :=
    leadingDigits_digits hw hhead
  have hcond : ¬ ((whole.isEmpty && decide (fraction.length < 2)) = true) := by
    rw [Bool.and_eq_true, List.isEmpty_iff, decide_eq_true_eq]
    rintro ⟨hnil, hlt⟩
    rcases hne with hne | hle
    · exact hne hnil
    · omega
  rw [List.append_assoc, leadingUnsigned]
  simp only [hdigits, List.drop_left, leadingFraction_fraction hf he, leadingExponent_self he]
  rw [if_neg hcond, List.append_assoc]

theorem number?_self {cs : List Char} (h : IsNumber cs) : number? cs = some (cs, []) := by
  obtain ⟨sign, whole, fraction, exponent, rfl, hsign, hw, hf, he, hne⟩ := h
  have hu := leadingUnsigned_self hw hf he hne
  have hhead : ∀ c ∈ (whole ++ fraction ++ exponent).head?, c ≠ '+' ∧ c ≠ '-' := by
    intro c hc
    cases whole with
    | cons d whole =>
      obtain rfl : d = c := by simpa using hc
      have hd := hw d (by simp)
      exact ⟨by rintro rfl; exact absurd hd (by decide), by rintro rfl; exact absurd hd (by decide)⟩
    | nil =>
      rcases hf with rfl | ⟨digits, rfl, -⟩
      · simp at hne
      · obtain rfl : '.' = c := by simpa using hc
        decide
  have hs := leadingSign_sign hsign hhead
  have hnil : whole ++ fraction ++ exponent ≠ [] := by
    rintro hnil
    simp only [List.append_eq_nil_iff] at hnil
    simp [hnil] at hne
  simp only [number?, hs, List.drop_left, hu, List.isEmpty_iff, hnil, if_false, List.drop_length]

theorem number?_number {cs rest : List Char} (h : IsNumber cs) (hr : Apart rest) :
    number? (cs ++ rest) = some (cs, rest) := by
  simp [number?_append cs hr, number?_self h]

/-! ### The reader takes only numbers -/

theorem isSign_leadingSign (cs : List Char) : IsSign (leadingSign cs) := by
  cases cs with
  | nil => exact .inl rfl
  | cons c cs =>
    rw [leadingSign]
    split
    · next h =>
      have h : c = '+' ∨ c = '-' := by simpa using h
      rcases h with rfl | rfl
      · exact .inr (.inl rfl)
      · exact .inr (.inr rfl)
    · exact .inl rfl

theorem isDigits_leadingDigits (cs : List Char) : IsDigits (leadingDigits cs) :=
  fun _ hc => List.mem_takeWhile_imp hc

theorem isFraction_leadingFraction (cs : List Char) : IsFraction (leadingFraction cs) := by
  cases cs with
  | nil => exact .inl rfl
  | cons c cs =>
    rw [leadingFraction]
    split
    · next h => exact .inr ⟨leadingDigits cs, by rw [h], isDigits_leadingDigits cs⟩
    · exact .inl rfl

theorem isExponent_leadingExponent (cs : List Char) : IsExponent (leadingExponent cs) := by
  cases cs with
  | nil => exact .inl rfl
  | cons c cs =>
    simp only [leadingExponent]
    split
    · next h =>
      obtain ⟨he, hd⟩ := Bool.and_eq_true_iff.1 h
      refine .inr ⟨c, _, _, rfl, by simpa using he, isSign_leadingSign _,
        isDigits_leadingDigits _, ?_⟩
      simpa using hd
    · exact .inl rfl

theorem isNumber_of_number? {cs : List Char} {x : List Char × List Char}
    (h : number? cs = some x) : IsNumber x.1 := by
  have hne : ¬ (leadingUnsigned (cs.drop (leadingSign cs).length)).isEmpty = true := by
    intro hnil
    simp [number?, hnil] at h
  simp only [number?, if_neg hne] at h
  obtain rfl := Option.some.inj h
  generalize cs.drop (leadingSign cs).length = rest at hne ⊢
  let fraction := leadingFraction (rest.drop (leadingDigits rest).length)
  let exponent :=
    leadingExponent ((rest.drop (leadingDigits rest).length).drop fraction.length)
  by_cases hcond : ((leadingDigits rest).isEmpty && decide (fraction.length < 2)) = true
  · have hu : leadingUnsigned rest = [] := if_pos hcond
    exact absurd (by rw [hu]; rfl) hne
  · have hu : leadingUnsigned rest = leadingDigits rest ++ fraction ++ exponent := if_neg hcond
    refine ⟨leadingSign cs, leadingDigits rest, fraction, exponent, by rw [hu],
      isSign_leadingSign cs, isDigits_leadingDigits rest, isFraction_leadingFraction _,
      isExponent_leadingExponent _, ?_⟩
    by_contra hnot
    rw [not_or, not_not, Nat.not_le] at hnot
    exact hcond (by simp [hnot.1, hnot.2])

theorem isNumber_iff {cs : List Char} : IsNumber cs ↔ number? cs = some (cs, []) :=
  ⟨number?_self, fun h => isNumber_of_number? h⟩

instance (cs : List Char) : Decidable (IsNumber cs) := decidable_of_iff _ isNumber_iff.symm

end Hql.Schema
