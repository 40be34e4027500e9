import Hql.Text.WordTable
import Hql.Text.Ranges

/-!
Word characters, identifiers, and the division of a text into runs of word characters and runs of
other characters. A word of a text is always a whole run.
-/

namespace Hql.Text

/-- A letter, number or underscore of any script. -/
def isWordChar (c : Char) : Bool :=
  if c.toNat < 128 then c.isAlphanum || c == '_' else inRanges wordRanges c.toNat

/-- An identifier starts with an ASCII letter or an underscore. -/
def isIdentStart (c : Char) : Bool := c.isAlpha || c == '_'

/-- An identifier continues with ASCII letters, digits and underscores. -/
def isIdentChar (c : Char) : Bool := c.isAlphanum || c == '_'

/-- A non-empty text of ASCII letters, digits and underscores that starts with no digit. -/
def isIdentifier : List Char → Bool
  | [] => false
  | c :: cs => isIdentStart c && cs.all isIdentChar

/-- The maximal runs of word characters and of other characters, in order. -/
def runs : List Char → List (List Char)
  | [] => []
  | c :: cs =>
    match runs cs with
    | (d :: run) :: more =>
      if isWordChar c == isWordChar d then (c :: d :: run) :: more else [c] :: (d :: run) :: more
    | more => [c] :: more

/-- A run is a word when it starts as an identifier does; the characters after the first may be of
any script. -/
def isWord : List Char → Bool
  | [] => false
  | c :: _ => isIdentStart c

theorem flatten_runs (cs : List Char) : (runs cs).flatten = cs := by
  induction cs with
  | nil => rfl
  | cons c cs ih =>
    rw [runs]
    split
    · rename_i d run more h
      rw [h] at ih
      split <;> simpa using ih
    · simp [ih]

theorem toNat_lt_of_isAlphanum {c : Char} (h : c.isAlphanum = true) : c.toNat < 128 := by
  delta Char.isAlphanum Char.isAlpha Char.isUpper Char.isLower Char.isDigit at h
  simp only [Bool.or_eq_true, Bool.and_eq_true, decide_eq_true_eq] at h
  have bound {n : UInt32} (hn : c.val ≤ n) (hlt : n.toNat < 128) : c.toNat < 128 :=
    Nat.lt_of_le_of_lt (UInt32.le_iff_toNat_le.1 hn) hlt
  rcases h with (h | h) | h
  · exact bound h.2 (by decide)
  · exact bound h.2 (by decide)
  · exact bound h.2 (by decide)

theorem isWordChar_of_isAlphanum {c : Char} (h : c.isAlphanum = true) : isWordChar c = true := by
  simp [isWordChar, toNat_lt_of_isAlphanum h, h]

theorem isWordChar_of_isAlpha {c : Char} (h : c.isAlpha = true) : isWordChar c = true :=
  isWordChar_of_isAlphanum (by simp [Char.isAlphanum, h])

end Hql.Text
