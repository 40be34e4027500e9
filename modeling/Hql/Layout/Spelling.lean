import Hql.Keyword
import Hql.Layout.Brackets
import Hql.Layout.Comment
import Hql.Layout.Spacing
import Hql.Text.Word

/-!
The words of query text in their own spelling. Which spelling a word takes depends on what stands
before and after it: structural words are spelled in upper case everywhere, steps and functions
where they are called, scalar types where a type stands.
-/

namespace Hql.Layout

open Text

/-- Code with the two sort directions in their own spelling. -/
def spellDirections (cs : List Char) : List Char :=
  (runs cs).flatMap fun run =>
    if equalsFolded run ['a', 's', 'c'] then ['A', 's', 'c']
    else if equalsFolded run ['d', 'e', 's', 'c'] then ['D', 'e', 's', 'c']
    else run

/-- The innermost open bracket before a place is a brace that opens an argument or a projection.
The text before the place is given from its end, `depth` counts the brackets that are closed again
before the place, and `after` is the character after the text. The arrows `=>`, `->` and `<-` are no
brackets. -/
def inValueBlock (depth : Nat) (after : Option Char) : List Char → Bool
  | [] => false
  | c :: before =>
    if isCloser c then
      -- the head of `=>` or `->` closes nothing
      if c == '>' && (before.head? == some '=' || before.head? == some '-') then
        inValueBlock depth (some c) before
      else inValueBlock (depth + 1) (some c) before
    else if isOpener c && !(c == '<' && after == some '-') then
      if 0 < depth then inValueBlock (depth - 1) (some c) before
      else
        -- an element of a chain that stands alone starts with its projection
        let context := before.dropWhile isBlank
        c == '\x7b' && (context.isEmpty || context.head? == some '(' ||
          context.head? == some ',' || [':', ':'].isPrefixOf context)
    else inValueBlock depth (some c) before

/-- A step or function is called after `::`, or before `<`, `(` or `::`. The text before the word is
given from its end. -/
def inCallPosition (before after : List Char) : Bool :=
  [':', ':'].isPrefixOf before || after.head? == some '<' || after.head? == some '(' ||
    [':', ':'].isPrefixOf after

/-- A type stands after a single colon that gives no value, after `[` or `<`, or before `]`. The
text before the word is given from its end. -/
def inTypePosition (before after : List Char) : Bool :=
  (before.head? == some ':' && !([':', ':'].isPrefixOf before) && !inValueBlock 0 none before) ||
    before.head? == some '[' || before.head? == some '<' || after.head? == some ']'

/-- The spelling of a word between two texts, of which the first is given from its end. A word alone
in braces names a property and is left as it is. -/
def spelling (before after word : List Char) : List Char :=
  let before := before.dropWhile (· == ' ')
  let after := after.dropWhile (· == ' ')
  let name := String.ofList word
  -- sort directions have their spelling already
  if name == "Asc" || name == "Desc" then word
  else if before.head? == some '\x7b' && after.head? == some '\x7d' then word
  else
    -- a word that is called is a step before it is a structural word, and a type last of all
    let called := if inCallPosition before after then Keyword.step? name else none
    let typed := if inTypePosition before after then Keyword.type? name else none
    match called <|> Keyword.structural? name <|> typed with
    | some s => s.toList
    | none => word

/-- The runs of a text with every word in its own spelling. The text before them is given from its
end. -/
def spellWords (before : List Char) : List (List Char) → List Char
  | [] => []
  | run :: more =>
    (if isWord run then spelling before more.flatten run else run) ++
      spellWords (run.reverse ++ before) more

/-- Code with spacing and spelling in order. -/
def tidyCode (cs : List Char) : List Char :=
  spellWords [] (runs (spellDirections (space cs)))

/-- A piece of text with its code in order and its comment as it is. -/
def Piece.tidy : Piece → List Char
  | code cs => tidyCode cs
  | comment cs => cs

/-- A text with the spacing and the spelling of its code in order. -/
def tidy (cs : List Char) : List Char := (pieces [] cs).flatMap Piece.tidy

end Hql.Layout
