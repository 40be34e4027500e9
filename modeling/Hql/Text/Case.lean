import Hql.Text.CaseTable
import Hql.Text.CasedTable
import Hql.Text.Ranges

/-!
Upper case, lower case, and the comparison of a character with a letter when case is ignored. The
mappings are the full ones: the upper-case form of a character may have several characters, and a
capital sigma is lowered by its place in the word.
-/

namespace Hql.Text

/-- The distance that the first run which holds the code point moves it by. -/
def CaseRun.offset? (runs : List CaseRun) (n : Nat) : Option Int :=
  (runs.find? fun r => r.first ≤ n && n ≤ r.last && (n - r.first) % r.step == 0).map CaseRun.offset

/-- The form of a character beyond ASCII: its special form, or the one that its run gives it, or
the character itself. -/
def mapCase (specials : List (Nat × List Nat)) (runs : List CaseRun) (c : Char) : List Char :=
  match specials.lookup c.toNat with
  | some form => form.map Char.ofNat
  | none =>
    match CaseRun.offset? runs c.toNat with
    | some offset => [Char.ofNat (c.toNat + offset).toNat]
    | none => [c]

/-- The upper-case form of a character. -/
def upperChar (c : Char) : List Char :=
  if c.toNat < 128 then [c.toUpper] else mapCase upperSpecials upperRuns c

/-- The upper-case form of a text. -/
def upper (cs : List Char) : List Char := cs.flatMap upperChar

/-- The lower-case form of a character wherever it stands. -/
def lowerChar (c : Char) : List Char :=
  if c.toNat < 128 then [c.toLower] else mapCase lowerSpecials lowerRuns c

/-- The first character that is not passed over has case. -/
def meetsCased (cs : List Char) : Bool :=
  match cs.dropWhile fun c => inRanges caseIgnorableRanges c.toNat with
  | [] => false
  | c :: _ => inRanges casedRanges c.toNat

/-- The lower-case form of a text that stands after `before`, which is given from its end. A capital
sigma at the end of a word becomes a final sigma. -/
def lowerAfter (before : List Char) : List Char → List Char
  | [] => []
  | c :: cs =>
    (if c = 'Σ' && meetsCased before && !meetsCased cs then ['ς'] else lowerChar c) ++
      lowerAfter (c :: before) cs

/-- The lower-case form of a text. -/
def lower (cs : List Char) : List Char := lowerAfter [] cs

/-- The upper-case form of a text. -/
def uppercase (s : String) : String := String.ofList (upper s.toList)

/-- The lower-case form of a text. -/
def lowercase (s : String) : String := String.ofList (lower s.toList)

/-- The ASCII letter, in lower case, that a character equals when case is ignored; any other
character stays. The letters i and s have forms beyond ASCII. -/
def foldChar (c : Char) : Char :=
  if c = 'İ' || c = 'ı' then 'i' else if c = 'ſ' then 's' else c.toLower

/-- A word equals another one, given in lower case, when case is ignored. -/
def equalsFolded (word : List Char) (lowered : List Char) : Bool := word.map foldChar == lowered

@[simp] theorem upper_nil : upper [] = [] := rfl

@[simp] theorem upper_cons (c : Char) (cs : List Char) : upper (c :: cs) = upperChar c ++ upper cs :=
  rfl

@[simp] theorem upper_append (a b : List Char) : upper (a ++ b) = upper a ++ upper b := by
  simp [upper]

end Hql.Text
