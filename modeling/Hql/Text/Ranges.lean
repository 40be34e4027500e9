/-!
Statements about the characters of a text, decided along the text, and character classes given by
ranges of code points.
-/

namespace Hql.Text

section

-- There are finitely many characters, so Batteries decides a statement about all of them by trying
-- each one. A statement about the characters of a text, or about the one at its end, is decided
-- along the text instead.

variable {p : Char → Prop} [DecidablePred p]

instance (priority := 1100) decidableForallMem (cs : List Char) : Decidable (∀ c ∈ cs, p c) :=
  List.decidableBAll p cs

instance (priority := 1100) decidableExistsMem (cs : List Char) : Decidable (∃ c ∈ cs, p c) :=
  List.decidableBEx p cs

instance (priority := 1100) decidableForallMem? (c? : Option Char) : Decidable (∀ c ∈ c?, p c) :=
  Option.decidableForallMem c?

end

/-- A code point lies in one of the closed ranges. -/
def inRanges (ranges : List (Nat × Nat)) (n : Nat) : Bool :=
  ranges.any fun r => r.1 ≤ n && n ≤ r.2

theorem inRanges_iff (ranges : List (Nat × Nat)) (n : Nat) :
    inRanges ranges n = true ↔ ∃ r ∈ ranges, r.1 ≤ n ∧ n ≤ r.2 := by
  simp [inRanges]

end Hql.Text
