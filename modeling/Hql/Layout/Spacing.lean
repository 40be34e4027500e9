import Hql.Text.Blank

/-!
Spacing of code: one space for a run of blanks, none around `::`, after an opening bracket or
before a closing one.
-/

namespace Hql.Layout

open Text

/-- The text without blanks around `::`. `pending` are the blanks before it, from their end, and
`afterColons` says that it stands directly after `::`. -/
def joinChains (pending : List Char) (afterColons : Bool) : List Char → List Char
  | [] => pending.reverse
  | ':' :: ':' :: cs => ':' :: ':' :: joinChains [] true cs
  | c :: cs =>
    if isBlank c then joinChains (if afterColons then pending else c :: pending) afterColons cs
    else pending.reverse ++ c :: joinChains [] false cs

/-- The text with one space for each run of blanks. `inRun` says that a blank stands before it. -/
def squeeze (inRun : Bool) : List Char → List Char
  | [] => []
  | c :: cs =>
    if isBlank c then if inRun then squeeze true cs else ' ' :: squeeze true cs
    else c :: squeeze false cs

/-- The text without blanks directly after `bracket`. `skip` says that the bracket stands before
it. -/
def closeAfter (bracket : Char) (skip : Bool) : List Char → List Char
  | [] => []
  | c :: cs =>
    if isBlank c && skip then closeAfter bracket true cs
    else c :: closeAfter bracket (c == bracket) cs

/-- The text without blanks directly before `bracket`. -/
def closeBefore (bracket : Char) (cs : List Char) : List Char :=
  (closeAfter bracket false cs.reverse).reverse

/-- Code with its spacing in order. -/
def space (cs : List Char) : List Char :=
  closeBefore '\x7d' <| closeAfter '\x7b' false <| closeBefore ')' <| closeAfter '(' false <|
    squeeze false <| joinChains [] false cs

end Hql.Layout
