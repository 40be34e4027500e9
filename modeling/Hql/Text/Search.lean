/-!
Occurrences of one text in another, and texts cut into pieces.
-/

namespace Hql.Text

/-- The text before and the text after the first occurrence of `sought`. -/
def splitFirst? (sought : List Char) : List Char → Option (List Char × List Char)
  | [] => if sought.isEmpty then some ([], []) else none
  | c :: cs =>
    if sought.isPrefixOf (c :: cs) then some ([], (c :: cs).drop sought.length)
    else (splitFirst? sought cs).map fun p => (c :: p.1, p.2)

/-- The number of characters before the last occurrence of `sought`. -/
def lastIndex? (sought : List Char) : List Char → Option Nat
  | [] => if sought.isEmpty then some 0 else none
  | c :: cs =>
    match lastIndex? sought cs with
    | some i => some (i + 1)
    | none => if sought.isPrefixOf (c :: cs) then some 0 else none

/-- The pieces with one more character at the start of the first. -/
def consFirst (c : Char) : List (List Char) → List (List Char)
  | [] => [[c]]
  | piece :: pieces => (c :: piece) :: pieces

/-- The lines of a text. A carriage return directly before a line feed belongs to the line end. -/
def lines : List Char → List (List Char)
  | [] => [[]]
  | c :: cs =>
    if c = '\n' then [] :: lines cs
    else if c = '\r' && cs.head? == some '\n' then lines cs
    else consFirst c (lines cs)

theorem splitFirst?_eq_some {sought cs : List Char} {p : List Char × List Char}
    (h : splitFirst? sought cs = some p) : p.1 ++ sought ++ p.2 = cs := by
  induction cs generalizing p with
  | nil =>
    rw [splitFirst?] at h
    split at h
    · rename_i hs
      obtain rfl := Option.some.inj h
      simpa using hs
    · simp at h
  | cons c cs ih =>
    rw [splitFirst?] at h
    split at h
    · rename_i hp
      obtain rfl := Option.some.inj h
      obtain ⟨r, hr⟩ := List.isPrefixOf_iff_prefix.1 hp
      simp [← hr]
    · obtain ⟨q, hq, rfl⟩ := Option.map_eq_some_iff.1 h
      simp [← ih hq]

@[simp] theorem flatten_consFirst (c : Char) (pieces : List (List Char)) :
    (consFirst c pieces).flatten = c :: pieces.flatten := by
  cases pieces <;> rfl

end Hql.Text
