import Hql.Layout.Spelling
import Hql.Text.Indent

/-!
Queries and migrations laid out: the header, one line for each statement, and the returned value at
the end. A chain that is long takes one line for each step, and a projection with several fields one
line for each field.
-/

namespace Hql.Layout

open Text

/-- A word that starts a query or migration. -/
def isBlockWord (run : List Char) : Bool :=
  equalsFolded run "query".toList || equalsFolded run "migration".toList

/-- A line that starts a query or migration. -/
def startsBlock (line : List Char) : Bool := (runs line).any isBlockWord

/-- The parts of a query or migration. -/
structure Block where
  keyword : List Char
  signature : List Char
  body : List Char

/-- The parts of the first query or migration among the runs of a text whose blanks are single
spaces. Its signature ends at the first arrow after its keyword. -/
def Block.ofRuns? : List (List Char) → Option Block
  | [] => none
  | run :: more =>
    if isBlockWord run && [' '].isPrefixOf more.flatten then
      (splitFirst? ['=', '>'] (more.flatten.drop 1)).map fun p => ⟨run, trim p.1, trim p.2⟩
    else ofRuns? more

/-- The header of a query or migration. -/
def Block.header (b : Block) : List Char :=
  upper b.keyword ++ ' ' :: closeBefore '(' b.signature ++ [' ', '=', '>']

/-- The pieces of a text that is cut wherever `cuts` says so. It is told whether a word character
stands before the place, as `afterWord` tells it for the start, and the text from the place on. -/
def cutWhere (cuts : Bool → List Char → Bool) (afterWord : Bool) : List Char → List (List Char)
  | [] => [[]]
  | c :: cs =>
    let pieces := consFirst c (cutWhere cuts (isWordChar c) cs)
    if cuts afterWord (c :: cs) then [] :: pieces else pieces

/-- An assignment starts with a word that the arrow `<-` follows. -/
def startsAssignment : List Char → Bool
  | [] => false
  | c :: cs =>
    isIdentStart c && ['<', '-'].isPrefixOf ((cs.dropWhile isWordChar).dropWhile isBlank)

/-- A statement starts with an assignment, with the word `DROP`, or with a comment. -/
def startsStatement (afterWord : Bool) (cs : List Char) : Bool :=
  (!afterWord && (startsAssignment cs || cs.takeWhile isWordChar == ['D', 'R', 'O', 'P'])) ||
    startsComment cs

/-- The statements of a text. -/
def statements (cs : List Char) : List (List Char) :=
  ((cutWhere startsStatement false cs).map trim).filter fun s => !s.isEmpty

/-- The pieces of a text that is cut at its comments. A text that starts with one has no piece
before it. -/
def cutAtComments (cs : List Char) : List (List Char) :=
  match cutWhere (fun _ rest => startsComment rest) false cs with
  | [] :: piece :: pieces => piece :: pieces
  | pieces => pieces

/-- The indentation of statements. -/
def indent : List Char := tab.toList

/-- The indentation of what belongs to a statement. -/
def indentTwice : List Char := indent ++ indent

/-- The content of a pair of braces, with several fields on a line each. -/
def expandFields (content : List Char) : List Char :=
  match splitTopLevel [','] content with
  | first :: second :: fields =>
    let separator := ',' :: '\n' :: indentTwice
    '\x7b' :: '\n' :: indentTwice ++ separator.intercalate (first :: second :: fields) ++
      '\n' :: indent ++ ['\x7d']
  | _ => '\x7b' :: content ++ ['\x7d']

/-- A text with the fields of its outermost braces on a line each. From a brace that is not closed
on it stays as it is. -/
def expandBraces (cs : List Char) : List Char :=
  match cs with
  | [] => []
  | c :: cs =>
    if c = '\x7b' then
      match _h : untilBrace? 0 cs with
      | some (content, rest) => expandFields content ++ expandBraces rest
      | none => c :: cs
    else c :: expandBraces cs
termination_by cs.length
decreasing_by
  · have := congrArg List.length (untilBrace?_eq_some _h)
    simp only [List.length_append, List.length_cons] at this ⊢
    omega
  · exact Nat.lt_succ_self _

/-- An element of a chain with its projection expanded. -/
def expandElement (element : List Char) : List Char :=
  if element.contains '\x7b' && element.contains ',' then expandBraces element else element

/-- A text starts with one of some words, whatever its case. -/
def startsWithAny (words : List String) (cs : List Char) : Bool :=
  words.any fun w => w.toList.isPrefixOf (upper cs)

/-- A step that need not stand on a line of its own. -/
def isShortStep (step : List Char) : Bool :=
  startsWithAny ["WHERE", "RANGE", "COUNT", "GROUP_BY", "OUT", "IN"] step || step.length < 20

/-- A step that stays on the line of the step before it. -/
def staysAttached (step : List Char) : Bool := startsWithAny ["FROM", "TO"] step

/-- The lines of a chain whose first line is `line`. -/
def chainLines (line : List Char) : List (List Char) → List (List Char)
  | [] => [line]
  | step :: steps =>
    if staysAttached step then chainLines (line ++ ':' :: ':' :: step) steps
    else line :: chainLines (indentTwice ++ ':' :: ':' :: step) steps

/-- The lines of an assignment. Chains of at most two elements stay on one line, and so do chains
without an expanded projection whose steps are all short. -/
def assignmentLines (name expression : List Char) : List (List Char) :=
  let elements := splitTopLevel [':', ':'] expression
  let tidied := elements.map tidy
  let expanded := tidied.map expandElement
  let start := indent ++ name ++ [' ', '<', '-', ' ']
  if elements.length ≤ 2 || (expanded == tidied && (elements.drop 1).all isShortStep) then
    [start ++ [':', ':'].intercalate expanded]
  else
    match expanded with
    | [] => [start]
    | first :: steps => chainLines (start ++ first) steps

/-- The lines of a statement. -/
def statementLines (statement : List Char) : List (List Char) :=
  if startsComment statement then [indent ++ statement]
  else
    match splitFirst? ['<', '-'] statement with
    | some (name, expression) => assignmentLines (trim name) (trim expression)
    | none => [indent ++ tidy statement]

/-- The word that gives the returned value, as it stands in a body. -/
def returnWord : List Char := " RETURN ".toList

/-- The lines of the returned value. Comments after it stand below it, after an empty line. -/
def returnLines (cs : List Char) : List (List Char) :=
  match cutAtComments cs with
  | [] => []
  | value :: comments =>
    (indent ++ "RETURN ".toList ++ tidy (trim value)) ::
      (if comments.isEmpty then [] else [] :: comments.map trim)

/-- The lines of a body. It is divided at the last `RETURN` in it; the place is looked for in the
upper-case form of the body, which may be longer than the body. -/
def bodyLines (body : List Char) : List (List Char) :=
  match lastIndex? returnWord (upper body) with
  | none => if body.isEmpty then [] else [indent ++ tidy body]
  | some i =>
    (statements (trim (body.take i))).flatMap statementLines ++
      returnLines (trim (body.drop (i + returnWord.length)))

/-- The lines of a block laid out. Lines in which no block is found stay as they are. -/
def blockLines (lines : List (List Char)) : List (List Char) :=
  match Block.ofRuns? (runs (squeeze false ([' '].intercalate lines))) with
  | none => lines
  | some b => tidy b.header :: bodyLines b.body

end Hql.Layout
