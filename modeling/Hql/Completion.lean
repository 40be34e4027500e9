import Hql.Keyword
import Hql.Model.Entity
import Hql.Text.Blank
import Hql.Text.Word

/-!
What can be written at a place of a query text: the vocabulary of the language and the names of a
schema.
-/

namespace Hql.Completion

open Text

/-- Something that can be written, with what it is. -/
structure Item where
  label : String
  kind : String
  detail : Option String := none
  deriving DecidableEq, Repr

/-- The names of a schema. -/
structure Names where
  nodes : List String := []
  edges : List String := []
  vectors : List String := []
  deriving DecidableEq, Repr

/-- The names of a model. Entities without a name have none. -/
def Names.ofModel (model : Model) : Names :=
  let named (kind : EntityKind) : List String :=
    (model.entities.filter fun e => e.kind == kind && e.name != "").map Entity.name
  ⟨named .node, named .edge, named .vector⟩

namespace Names

def nodeItems (names : Names) : List Item := names.nodes.map fun n => ⟨n, "class", some "Node"⟩

def edgeItems (names : Names) : List Item :=
  names.edges.map fun n => ⟨n, "interface", some "Edge"⟩

def vectorItems (names : Names) : List Item :=
  names.vectors.map fun n => ⟨n, "namespace", some "Vector"⟩

def items (names : Names) : List Item := names.nodeItems ++ names.edgeItems ++ names.vectorItems

end Names

/-- The items of a list of words. -/
def itemsOf (words : List String) (kind : String) (detail : Option String := none) : List Item :=
  words.map fun w => ⟨w, kind, detail⟩

/-- The vocabulary by itself. -/
def options : List Item :=
  itemsOf Keyword.structural "keyword" ++ itemsOf Keyword.steps "function" ++
  itemsOf Keyword.types "type" ++ itemsOf Keyword.functions "function" "math"

/-- The vocabulary as it is offered where anything can stand. -/
def general : List Item :=
  itemsOf Keyword.structural "keyword" ++ [⟨"Properties", "keyword", none⟩] ++
  itemsOf Keyword.steps "function" "Traversal" ++
  [⟨"SearchBM25", "function", some "SearchBM25<T>(query, limit)"⟩,
    ⟨"SearchV", "function", some "SearchV<T>(vector, k)"⟩] ++
  itemsOf Keyword.functions "function" "Math" ++ itemsOf Keyword.types "type"

/-- The text ends with the given one, blanks at its end apart. Both are given from their end. -/
def endsIn (reversed : List Char) (ending : String) : Option (List Char) :=
  let rest := reversed.dropWhile isBlank
  let ending := ending.toList.reverse
  if ending.isPrefixOf rest then some (rest.drop ending.length) else none

/-- A search whose type is about to be named: `SearchV<` or `SearchBM25<`. The text is given from
its end. -/
def opensSearchType (reversed : List Char) : Bool :=
  match endsIn reversed "<" with
  | none => false
  | some rest => (endsIn rest "SearchV").isSome || (endsIn rest "SearchBM25").isSome

/-- The origins and steps that take an entity. -/
def entityCalls : List String :=
  ["N", "E", "V", "AddN", "AddE", "AddV", "UpsertN", "UpsertE", "UpsertV"]

/-- A call that takes an entity and is about to name it. The text is given from its end. -/
def opensEntityCall (reversed : List Char) : Bool :=
  match endsIn reversed "(" with
  | none => false
  | some rest =>
    let word := ((rest.dropWhile isBlank).takeWhile isWordChar).reverse
    entityCalls.contains (String.ofList word)

/-- The text before the cursor, given from its end and without blanks there. A cursor outside the
text stands at its nearer end. -/
def beforeCursor (code : String) (cursor : Int) : List Char :=
  (code.toList.take cursor.toNat).reverse.dropWhile isBlank

/-- What can be written at the cursor. -/
def complete (code : String) (cursor : Int) (names : Names) : List Item :=
  let before := beforeCursor code cursor
  if opensSearchType before then names.nodeItems
  else if [':', ':'].isPrefixOf before then
    itemsOf Keyword.types "type" "Type" ++ names.nodeItems
  else if opensEntityCall before then names.items
  else general ++ names.items

end Hql.Completion
