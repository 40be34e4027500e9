import Hql.Text.Blank
import Hql.Text.Search

/-!
Brackets in query text, and texts split where no bracket is open.
-/

namespace Hql.Layout

open Text

def isOpener (c : Char) : Bool := c == '(' || c == '<' || c == '\x7b' || c == '['

def isCloser (c : Char) : Bool := c == ')' || c == '>' || c == '\x7d' || c == ']'

/-- The number of open brackets after one more character, which `after` follows. Any closer closes
the last opener, one too many closes nothing, and the arrow `<-` opens nothing. -/
def depthAfter (depth : Nat) (c : Char) (after : List Char) : Nat :=
  if isOpener c then if c == '<' && after.head? == some '-' then depth else depth + 1
  else if isCloser c then depth - 1
  else depth

/-- The pieces of a text between the separators that stand outside brackets. `depth` brackets are
open at its start, and its first `skip` characters are the rest of a separator. -/
def segments (separator : List Char) : (depth skip : Nat) → List Char → List (List Char)
  | _, _, [] => [[]]
  | depth, skip + 1, _ :: cs => segments separator depth skip cs
  | depth, 0, c :: cs =>
    let depth := depthAfter depth c cs
    if depth = 0 && separator.isPrefixOf (c :: cs) then
      [] :: segments separator depth (separator.length - 1) cs
    else consFirst c (segments separator depth 0 cs)

/-- The pieces of a text between the separators outside brackets, without blanks at their ends and
without the empty ones. -/
def splitTopLevel (separator cs : List Char) : List (List Char) :=
  ((segments separator 0 0 cs).map trim).filter fun piece => !piece.isEmpty

/-- The text up to the brace that closes one more than `depth` open braces, and the text after
it. -/
def untilBrace? (depth : Nat) : List Char → Option (List Char × List Char)
  | [] => none
  | c :: cs =>
    if c = '\x7b' then (untilBrace? (depth + 1) cs).map fun p => (c :: p.1, p.2)
    else if c = '\x7d' then
      if depth = 0 then some ([], cs)
      else (untilBrace? (depth - 1) cs).map fun p => (c :: p.1, p.2)
    else (untilBrace? depth cs).map fun p => (c :: p.1, p.2)

theorem untilBrace?_eq_some {depth : Nat} {cs : List Char} {p : List Char × List Char}
    (h : untilBrace? depth cs = some p) : p.1 ++ '\x7d' :: p.2 = cs := by
  induction cs generalizing depth p with
  | nil => simp [untilBrace?] at h
  | cons c cs ih =>
    rw [untilBrace?] at h
    split at h
    · obtain ⟨q, hq, rfl⟩ := Option.map_eq_some_iff.1 h
      simp [ih hq]
    · split at h
      · rename_i hc
        subst hc
        split at h
        · obtain rfl := Option.some.inj h
          rfl
        · obtain ⟨q, hq, rfl⟩ := Option.map_eq_some_iff.1 h
          simp [ih hq]
      · obtain ⟨q, hq, rfl⟩ := Option.map_eq_some_iff.1 h
        simp [ih hq]

end Hql.Layout
