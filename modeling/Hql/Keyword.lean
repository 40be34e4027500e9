import Hql.Model.Property
import Hql.Text.Case

/-!
The vocabulary of the language: its structural words, traversal steps, scalar types and functions,
and the spelling that each word has whatever its case.
-/

namespace Hql.Keyword

/-- The words that structure queries and schemas. -/
def structural : List String := [
  "QUERY", "MIGRATION", "RETURN", "UPDATE", "DROP", "FOR", "IN", "AS", "DEFAULT", "UNIQUE",
  "INDEX", "EXISTS", "NOW", "NONE"]

/-- Origins of traversals, steps, and the comparisons within steps. -/
def steps : List String := [
  "N", "E", "V",
  "Out", "In", "OutE", "InE", "FromN", "ToN", "FromV", "ToV",
  "ShortestPath", "ShortestPathDijkstras", "ShortestPathBFS", "ShortestPathAStar",
  "SearchV", "SearchBM25", "PREFILTER", "RerankRRF", "RerankMMR", "Embed",
  "AddN", "AddE", "AddV", "BatchAddV", "UpsertN", "UpsertE", "UpsertV",
  "WHERE", "ORDER", "RANGE", "COUNT", "FIRST", "AGGREGATE_BY", "GROUP_BY", "ID",
  "AND", "OR", "GT", "GTE", "LT", "LTE", "EQ", "NEQ", "IS_IN", "CONTAINS", "Asc", "Desc"]

/-- The scalar types. -/
def types : List String := PropertyType.all.map PropertyType.name

/-- Functions of numbers and aggregates. -/
def functions : List String := [
  "ADD", "SUB", "MUL", "DIV", "POW", "MOD", "ABS", "SQRT", "LN", "LOG10", "LOG", "EXP", "CEIL",
  "FLOOR", "ROUND", "SIN", "COS", "TAN", "ASIN", "ACOS", "ATAN", "ATAN2", "PI", "MIN", "MAX",
  "SUM", "AVG"]

/-- The words that usually begin a line. -/
def lineStarts : List String := ["RETURN", "RANGE", "ORDER", "WHERE", "UPDATE", "DROP", "FOR"]

/-- Every word of the vocabulary in upper case. -/
def reserved : List String := (structural ++ steps ++ types ++ functions).map Text.uppercase

/-- The words of the vocabulary in upper case, in alphabetical order, each once. -/
def sorted : List String := reserved.eraseDups.mergeSort fun a b => decide (a ≤ b)

/-- A word belongs to the vocabulary, whatever its case. -/
def isReserved (word : String) : Bool := reserved.contains (Text.uppercase word)

/-- The word of a list that has this upper-case form. -/
def spelling? (words : List String) (upperCase : String) : Option String :=
  words.find? fun w => Text.uppercase w = upperCase

/-- The spelling of a structural word. -/
def structural? (word : String) : Option String := spelling? structural (Text.uppercase word)

/-- The spelling of a step or function. -/
def step? (word : String) : Option String := spelling? (steps ++ functions) (Text.uppercase word)

/-- The spelling of a scalar type. -/
def type? (word : String) : Option String := spelling? types (Text.uppercase word)

end Hql.Keyword
