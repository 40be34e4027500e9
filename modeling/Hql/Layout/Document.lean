import Hql.Layout.Block

/-!
Whole texts laid out. A text is divided into blocks, which hold a query or migration each, and loose
lines between them; each is laid out by itself.
-/

namespace Hql.Layout

open Text

/-- A part of a text: a loose line, the lines of a block, or the lines of a block that another one
breaks into. -/
inductive Segment where
  | loose (line : List Char)
  | block (lines : List (List Char))
  | broken (lines : List (List Char))
  deriving DecidableEq, Repr

def isBlankLine (line : List Char) : Bool := (trim line).isEmpty

/-- A block ends before the lines that follow it if there are none, if the first of them that is
not blank starts a block, or if it is a comment and the next one starts a block. A comment directly
above a block belongs to that block. -/
def endsBefore (following : List (List Char)) : Bool :=
  if following.isEmpty then true
  else
    match following.dropWhile isBlankLine with
    | [] => false
    | line :: more =>
      startsBlock (trim line) || (startsComment (trim line) &&
        match more.dropWhile isBlankLine with
        | [] => false
        | next :: _ => startsBlock (trim next))

/-- The segments of a text, line by line. `current` are the lines of the block that is open, if one
is. Blank lines outside blocks are left out. -/
def segmentsOf (current : Option (List (List Char))) : List (List Char) → List Segment
  | [] => []
  | line :: more =>
    -- the segments if this line belongs to a block
    let extend (block : List (List Char)) : List Segment :=
      if endsBefore more then .block block :: segmentsOf none more
      else segmentsOf (some block) more
    match current with
    | none =>
      if isBlankLine line then segmentsOf none more
      else if startsBlock (trim line) then extend [line]
      else .loose line :: segmentsOf none more
    | some block =>
      if startsBlock (trim line) then .broken block :: extend [line]
      else extend (block ++ [line])

/-- The lines of a segment laid out. An empty line follows a block. -/
def Segment.lines : Segment → List (List Char)
  | loose line => [tidy (trim line)]
  | block ls => blockLines ls ++ [[]]
  | broken ls => blockLines ls

/-- The text with at most two line feeds in a row. `count` are the line feeds before it. -/
def limitBreaks (count : Nat) : List Char → List Char
  | [] => []
  | c :: cs =>
    if c = '\n' then
      if count < 2 then c :: limitBreaks (count + 1) cs else limitBreaks count cs
    else c :: limitBreaks 0 cs

/-- A character that ends code, so that a comment below it keeps its distance. -/
def endsCode (c : Char) : Bool :=
  c.isUpper || c.isDigit || c == '\'' || c == '"' || c == '\x7d' || c == ')'

/-- The text with one empty line between code and a comment below it. `afterCode` says that code
ends before the `count` line feeds that stand before the text. -/
def partComments (afterCode : Bool) (count : Nat) : List Char → List Char
  | [] => List.replicate count '\n'
  | c :: cs =>
    if c = '\n' then partComments afterCode (count + 1) cs
    else
      let breaks := if afterCode && 0 < count && startsComment (c :: cs) then 2 else count
      List.replicate breaks '\n' ++ c :: partComments (endsCode c) 0 cs

/-- A text laid out. -/
def formatChars (cs : List Char) : List Char :=
  let laid := (segmentsOf none (lines cs)).flatMap Segment.lines
  trim (partComments false 0 (limitBreaks 0 (['\n'].intercalate laid)))

/-- A text laid out. -/
def format (code : String) : String := String.ofList (formatChars code.toList)

end Hql.Layout
