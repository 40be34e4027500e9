import Hql.Text.Blank
import Hql.Text.Case
import Hql.Text.Word
import Mathlib.Tactic.Common

/-!
The forms that characters have in upper and lower case. Blanks have no case, and nothing else becomes a
blank or an underscore in upper case. An upper-case form begins with a character that is its own
upper-case form. Only a few characters beyond ASCII equal a letter of ASCII when case is ignored.
-/

namespace Hql.Text

/-- The run moves the code point. -/
def CaseRun.Moves (r : CaseRun) (n : Nat) : Prop :=
  r.first ≤ n ∧ n ≤ r.last ∧ (n - r.first) % r.step = 0

section

variable {specials : List (Nat × List Nat)} {runs : List CaseRun} {c d : Char}

theorem mapCase_cases (specials : List (Nat × List Nat)) (runs : List CaseRun) (c : Char) :
    (∃ s ∈ specials, s.1 = c.toNat ∧ mapCase specials runs c = s.2.map Char.ofNat) ∨
      (∃ r ∈ runs, r.Moves c.toNat ∧
        mapCase specials runs c = [Char.ofNat (c.toNat + r.offset).toNat]) ∨
      mapCase specials runs c = [c] := by
  rw [mapCase]
  split
  · rename_i form hform
    obtain ⟨before, after, hspecials, -⟩ := List.lookup_eq_some_iff.1 hform
    have hmem : (c.toNat, form) ∈ specials := by
      rw [hspecials]
      exact List.mem_append_right _ (List.mem_cons_self ..)
    exact .inl ⟨_, hmem, rfl, rfl⟩
  · split
    · rename_i offset hoffset
      obtain ⟨r, hr, rfl⟩ := Option.map_eq_some_iff.1 hoffset
      have hfound := List.find?_some hr
      simp only [Bool.and_eq_true, decide_eq_true_eq, beq_iff_eq] at hfound
      obtain ⟨⟨hfirst, hlast⟩, hstep⟩ := hfound
      exact .inr (.inl ⟨r, List.mem_of_find?_eq_some hr, ⟨hfirst, hlast, hstep⟩, rfl⟩)
    · exact .inr (.inr rfl)

theorem mem_mapCase (h : d ∈ mapCase specials runs c) :
    (∃ s ∈ specials, ∃ n ∈ s.2, d = Char.ofNat n) ∨
      (∃ r ∈ runs, r.Moves c.toNat ∧ d = Char.ofNat (c.toNat + r.offset).toNat) ∨ d = c := by
  rcases mapCase_cases specials runs c with
    ⟨s, hs, -, hform⟩ | ⟨r, hr, hmoves, hform⟩ | hform <;> rw [hform] at h
  · obtain ⟨n, hn, rfl⟩ := List.mem_map.1 h
    exact .inl ⟨s, hs, n, hn, rfl⟩
  · exact .inr (.inl ⟨r, hr, hmoves, List.mem_singleton.1 h⟩)
  · exact .inr (.inr (List.mem_singleton.1 h))

/-- The code points that a run moves. -/
def CaseRun.points (r : CaseRun) : List Nat :=
  (List.range ((r.last - r.first) / r.step + 1)).map fun k => r.first + r.step * k

theorem CaseRun.Moves.mem_points {r : CaseRun} {n : Nat} (h : r.Moves n) : n ∈ r.points := by
  obtain ⟨hfirst, hlast, hstep⟩ := h
  refine List.mem_map.2 ⟨(n - r.first) / r.step, List.mem_range.2 ?_, ?_⟩
  · exact Nat.lt_succ_of_le (Nat.div_le_div_right (Nat.sub_le_sub_right hlast r.first))
  · have hsteps := Nat.div_add_mod (n - r.first) r.step
    omega

/-- A set of numbers as the bits of a number. -/
def bits (ns : List Nat) : Nat := ns.foldr (fun n set => 1 <<< n ||| set) 0

theorem testBit_bits {ns : List Nat} {n : Nat} (h : n ∈ ns) : (bits ns).testBit n = true := by
  induction ns with
  | nil => cases h
  | cons m ns ih =>
    rw [bits, List.foldr_cons, ← bits, Nat.testBit_or, Bool.or_eq_true]
    rcases List.mem_cons.1 h with rfl | h
    · exact .inl (by simp)
    · exact .inr (ih h)

/-- The code points that have another form. A bit is looked up in one step, where a table would be gone
through each time. -/
def changed (specials : List (Nat × List Nat)) (runs : List CaseRun) : Nat :=
  bits (specials.map Prod.fst ++ runs.flatMap CaseRun.points)

theorem mapCase_eq_self (h : (changed specials runs).testBit c.toNat = false) :
    mapCase specials runs c = [c] := by
  have hnot : c.toNat ∉ specials.map Prod.fst ++ runs.flatMap CaseRun.points := fun hmem => by
    rw [changed, testBit_bits hmem] at h
    cases h
  rw [List.mem_append, not_or] at hnot
  obtain ⟨hspecials, hruns⟩ := hnot
  rcases mapCase_cases specials runs c with
    ⟨s, hs, hpoint, hform⟩ | ⟨r, hr, hmoves, hform⟩ | hform
  · exact absurd (List.mem_map.2 ⟨s, hs, hpoint⟩) hspecials
  · exact absurd (List.mem_flatMap.2 ⟨r, hr, hmoves.mem_points⟩) hruns
  · exact hform

end

/-- Where a run moves a code point to there is a character, or the null character is taken. -/
theorem toNat_ofNat_cases (n : Nat) :
    (Char.ofNat n).toNat = n ∨ (Char.ofNat n).toNat = 0 := by
  delta Char.ofNat
  by_cases hvalid : n.isValidChar
  · exact .inl (by rw [dif_pos hvalid]; rfl)
  · exact .inr (by rw [dif_neg hvalid]; rfl)

/-! ### Letters of ASCII -/

theorem toUpper_cases (c : Char) : c.toUpper = c ∨
    (97 ≤ c.toNat ∧ c.toNat ≤ 122) ∧ c.toUpper.toNat = c.toNat - 32 := by
  by_cases h : 'a'.val ≤ c.val ∧ c.val ≤ 'z'.val
  · have hfirst : 97 ≤ c.toNat := h.1
    have hlast : c.toNat ≤ 122 := h.2
    have hshift : ('A'.val - 'a'.val).toNat = 2 ^ 32 - 32 := by decide
    have hupper : c.toUpper.toNat = (c.toNat + ('A'.val - 'a'.val).toNat) % 2 ^ 32 := by
      have hletter : c.toUpper = ⟨c.val + ('A'.val - 'a'.val), _⟩ := dif_pos h
      rw [hletter]
      exact UInt32.toNat_add _ _
    omega
  · exact .inl (dif_neg h)

theorem toUpper_toUpper (c : Char) : c.toUpper.toUpper = c.toUpper := by
  rcases toUpper_cases c with hself | ⟨hletter, hupper⟩
  · rw [hself, hself]
  · rcases toUpper_cases c.toUpper with hself | ⟨hsmall, -⟩
    · exact hself
    · omega

theorem toLower_eq_self {c : Char} (h : ¬ (65 ≤ c.toNat ∧ c.toNat ≤ 90)) : c.toLower = c := dif_neg h

/-! ### The tables for upper case -/

/-- The small letters of ASCII and the code points beyond it that have another upper-case form. -/
def raised : Nat := bits (CaseRun.points ⟨97, 122, 1, -32⟩) ||| changed upperSpecials upperRuns

/-- The underscore and the blanks, which have no case. -/
def caseless : List (Nat × Nat) := (95, 95) :: blankRanges

theorem bounds_of_caseless {n : Nat} (h : inRanges caseless n = true) :
    (n < 65 ∨ 90 < n) ∧ (n < 97 ∨ 122 < n) := by
  have hall : ∀ b ∈ caseless, (b.2 < 65 ∨ 90 < b.1) ∧ (b.2 < 97 ∨ 122 < b.1) := by decide
  obtain ⟨b, hb, hlow, hhigh⟩ := (inRanges_iff _ _).1 h
  have hbounds := hall b hb
  omega

theorem caseless_of_isBlank {c : Char} (h : isBlank c = true) : inRanges caseless c.toNat = true :=
  Bool.or_eq_true_iff.2 (.inr h)

def caselessPoints : List Nat := caseless.flatMap fun b => CaseRun.points ⟨b.1, b.2, 1, 0⟩

theorem mem_caselessPoints {n : Nat} (h : inRanges caseless n = true) : n ∈ caselessPoints := by
  obtain ⟨b, hb, hlow, hhigh⟩ := (inRanges_iff _ _).1 h
  have hmoves : CaseRun.Moves ⟨b.1, b.2, 1, 0⟩ n := ⟨hlow, hhigh, Nat.mod_one _⟩
  exact List.mem_flatMap.2 ⟨b, hb, hmoves.mem_points⟩

/-- Checked of the tables, all at once: the first character of a special form has no other form, and
none of its characters is without case; a run moves no code point to one that has another form or is
without case. -/
theorem upper_tables :
    (upperSpecials.all fun s =>
      (s.2.head?.any fun n => !raised.testBit n) && s.2.all fun n => !inRanges caseless n) = true ∧
    (upperRuns.all fun r => r.points.all fun n =>
      !(raised ||| bits caselessPoints).testBit (n + r.offset).toNat) = true := by
  decide +kernel

theorem head_of_mem_specials {s : Nat × List Nat} (hs : s ∈ upperSpecials) :
    ∃ n ns, s.2 = n :: ns ∧ raised.testBit n = false := by
  have hhead := (Bool.and_eq_true_iff.1 (List.all_eq_true.1 upper_tables.1 s hs)).1
  obtain ⟨n, hn, hfixed⟩ := (Option.any_eq_true _ _).1 hhead
  obtain ⟨ns, hform⟩ := List.head?_eq_some_iff.1 hn
  exact ⟨n, ns, hform, by simpa using hfixed⟩

theorem not_caseless_of_mem_specials {s : Nat × List Nat} (hs : s ∈ upperSpecials) {n : Nat}
    (hn : n ∈ s.2) : inRanges caseless n = false := by
  have hform := (Bool.and_eq_true_iff.1 (List.all_eq_true.1 upper_tables.1 s hs)).2
  simpa using List.all_eq_true.1 hform n hn

theorem not_raised_of_moves {r : CaseRun} (hr : r ∈ upperRuns) {n : Nat} (hn : r.Moves n) :
    raised.testBit (n + r.offset).toNat = false ∧ inRanges caseless (n + r.offset).toNat = false := by
  have hpoint := List.all_eq_true.1 (List.all_eq_true.1 upper_tables.2 r hr) n hn.mem_points
  rw [Bool.not_eq_true', Nat.testBit_or, Bool.or_eq_false_iff] at hpoint
  refine ⟨hpoint.1, ?_⟩
  rw [← Bool.not_eq_true]
  intro hcaseless
  rw [testBit_bits (mem_caselessPoints hcaseless)] at hpoint
  cases hpoint.2

theorem not_caseless_ofNat {n : Nat} (h : inRanges caseless n = false) :
    inRanges caseless (Char.ofNat n).toNat = false := by
  rcases toNat_ofNat_cases n with hcode | hnull
  · rwa [hcode]
  · rw [hnull]
    decide

/-- No other character becomes one without case in upper case. -/
theorem eq_of_mem_upperChar {c d : Char} (h : d ∈ upperChar c) (hd : inRanges caseless d.toNat = true) :
    d = c := by
  rw [upperChar] at h
  split at h
  · rw [List.mem_singleton.1 h] at hd ⊢
    rcases toUpper_cases c with hself | ⟨hletter, hupper⟩
    · exact hself
    · have hbounds := bounds_of_caseless hd
      omega
  · rcases mem_mapCase h with ⟨s, hs, n, hn, rfl⟩ | ⟨r, hr, hmoves, rfl⟩ | rfl
    · rw [not_caseless_ofNat (not_caseless_of_mem_specials hs hn)] at hd
      cases hd
    · rw [not_caseless_ofNat (not_raised_of_moves hr hmoves).2] at hd
      cases hd
    · rfl

/-- No other character becomes an underscore in upper case. -/
theorem eq_underscore_of_mem_upperChar {c : Char} (h : '_' ∈ upperChar c) : c = '_' :=
  (eq_of_mem_upperChar h (by decide)).symm

/-! ### Blanks -/

theorem case_of_isBlank {c : Char} (h : isBlank c = true) : upperChar c = [c] ∧ lowerChar c = [c] := by
  rw [upperChar, lowerChar]
  split
  · have hbounds := bounds_of_caseless (caseless_of_isBlank h)
    have hlower : c.toLower = c := toLower_eq_self (by omega)
    rcases toUpper_cases c with hupper | ⟨hletter, -⟩
    · rw [hupper, hlower]
      exact ⟨rfl, rfl⟩
    · omega
  · have hall : ∀ r ∈ blankRanges, ∀ k < r.2 + 1 - r.1,
        (changed upperSpecials upperRuns).testBit (r.1 + k) = false ∧
          (changed lowerSpecials lowerRuns).testBit (r.1 + k) = false := by
      decide +kernel
    obtain ⟨r, hr, hlow, hhigh⟩ := (inRanges_iff _ _).1 h
    have hcase := hall r hr (c.toNat - r.1) (by omega)
    rw [Nat.add_sub_cancel' hlow] at hcase
    exact ⟨mapCase_eq_self hcase.1, mapCase_eq_self hcase.2⟩

/-- No character becomes a blank in upper case. -/
theorem not_isBlank_of_mem_upperChar {c d : Char} (hc : isBlank c = false) (h : d ∈ upperChar c) :
    isBlank d = false := by
  rw [← Bool.not_eq_true]
  intro hd
  rw [eq_of_mem_upperChar h (caseless_of_isBlank hd), hc] at hd
  cases hd

/-! ### Upper case of upper case -/

theorem upperChar_eq_self {c : Char} (h : raised.testBit c.toNat = false) : upperChar c = [c] := by
  rw [raised, Nat.testBit_or, Bool.or_eq_false_iff] at h
  obtain ⟨hletters, hbeyond⟩ := h
  rw [upperChar]
  split
  · rcases toUpper_cases c with hself | ⟨⟨hfirst, hlast⟩, -⟩
    · rw [hself]
    · have hletter : CaseRun.Moves ⟨97, 122, 1, -32⟩ c.toNat := ⟨hfirst, hlast, Nat.mod_one _⟩
      rw [testBit_bits hletter.mem_points] at hletters
      cases hletters
  · exact mapCase_eq_self hbeyond

theorem upperChar_ofNat {n : Nat} (h : raised.testBit n = false) :
    upperChar (Char.ofNat n) = [Char.ofNat n] := by
  rcases toNat_ofNat_cases n with hcode | hnull
  · exact upperChar_eq_self (by rwa [hcode])
  · rw [← Char.ofNat_toNat (Char.ofNat n), hnull]
    rfl

/-- The upper-case form of a character begins with a character that is its own upper-case form. -/
theorem exists_upperChar_eq_cons (c : Char) : ∃ d ds, upperChar c = d :: ds ∧ upperChar d = [d] := by
  by_cases hascii : c.toNat < 128
  · refine ⟨c.toUpper, [], if_pos hascii, ?_⟩
    have hupper : c.toUpper.toNat < 128 := by
      rcases toUpper_cases c with hself | ⟨hletter, hupper⟩
      · rwa [hself]
      · omega
    rw [upperChar, if_pos hupper, toUpper_toUpper]
  have hmap : upperChar c = mapCase upperSpecials upperRuns c := if_neg hascii
  rcases mapCase_cases upperSpecials upperRuns c with
    ⟨s, hs, -, hform⟩ | ⟨r, hr, hmoves, hform⟩ | hform
  · obtain ⟨n, ns, hcodes, hfixed⟩ := head_of_mem_specials hs
    exact ⟨Char.ofNat n, ns.map Char.ofNat, by rw [hmap, hform, hcodes, List.map_cons],
      upperChar_ofNat hfixed⟩
  · exact ⟨_, [], hmap.trans hform, upperChar_ofNat (not_raised_of_moves hr hmoves).1⟩
  · exact ⟨c, [], hmap.trans hform, hmap.trans hform⟩

/-! ### Folded letters -/

/-- Only the characters of ASCII and three letters beyond it fold to a character of ASCII. -/
theorem ascii_of_foldChar {c : Char} (h : (foldChar c).toNat < 128) :
    c.toNat < 128 ∨ c = 'İ' ∨ c = 'ı' ∨ c = 'ſ' := by
  by_contra hbeyond
  rw [not_or, not_or, not_or] at hbeyond
  obtain ⟨hbig, hdotted, hdotless, hlong⟩ := hbeyond
  have hfold : foldChar c = c.toLower := by simp [foldChar, hdotted, hdotless, hlong]
  have hlower : c.toLower = c := toLower_eq_self (by omega)
  rw [hfold, hlower] at h
  exact hbig h

/-- Folded to a character of ASCII, a character other than the dotted capital I has the upper-case
form of that character. -/
theorem upperChar_of_foldChar {c : Char} (hascii : (foldChar c).toNat < 128) (hdotted : c ≠ 'İ') :
    upperChar c = [(foldChar c).toUpper] := by
  rcases ascii_of_foldChar hascii with hc | rfl | rfl | rfl
  · have hall : ∀ n < 128, (foldChar (Char.ofNat n)).toUpper = (Char.ofNat n).toUpper := by
      decide +kernel
    have hupper := hall c.toNat hc
    rw [Char.ofNat_toNat] at hupper
    rw [upperChar, if_pos hc, hupper]
  · exact absurd rfl hdotted
  · decide +kernel
  · decide +kernel

/-- A word without an i that equals another one, case ignored, has its upper-case form. -/
theorem upper_eq_of_equalsFolded {w lowered : List Char} (h : equalsFolded w lowered = true)
    (hascii : ∀ c ∈ lowered, c.toNat < 128 ∧ c ≠ 'i') : upper w = lowered.map Char.toUpper := by
  rw [equalsFolded, beq_iff_eq] at h
  subst h
  induction w with
  | nil => rfl
  | cons c w ih =>
    obtain ⟨⟨hc, hi⟩, hw⟩ := List.forall_mem_cons.1 hascii
    have hdotted : c ≠ 'İ' := by
      rintro rfl
      exact hi (by decide)
    rw [upper_cons, upperChar_of_foldChar hc hdotted, ih hw]
    rfl

end Hql.Text
