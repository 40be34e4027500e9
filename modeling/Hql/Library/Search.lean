import Hql.Library.Node

/-!
Queries that search: by vector, by vector and text together, and by keyword; and the queries that
store vectors.
-/

namespace Hql.Library

open Fragment Naming

/-- The constant of reciprocal-rank fusion when results are ranked again. -/
def rankConstant : Nat := 60

/-- Properties that a vector search can be narrowed by: scalar ones that are indexed, unique or
boolean. -/
def prefilterProperties (vector : Entity) : List Property :=
  vector.namedProperties.filter fun p =>
    !p.isArray && (p.isIndex || p.isUnique || p.type == .boolean)

/-- The parameters of a vector search. -/
def searchParams (prefilter : Option Property) : List (String × String) :=
  [("vec", "[F64]"), ("limit", "I32")] ++
    (prefilter.toList.map fun p => ("val", p.typeName))

/-- The end of the name of a search that is narrowed by a property. -/
def prefilterSuffix (prefilter : Option Property) : String :=
  match prefilter with
  | some p => "By" ++ pascalCase p.name
  | none => ""

/-- A search among the vectors of a type. -/
def searchSource (vector : Entity) (prefilter : Option Property) : Fragment :=
  let steps := prefilter.toList.map fun p =>
    step "PREFILTER" none (some [(property p.name).op "EQ" (some [text "val"])]) false
  source "SearchV" (some vector.name) (some [text "vec", text "limit"]) steps false

/-- Finds the vectors nearest to a vector. -/
def vectorSearch (vector : Entity) (prefilter : Option Property := none) : Query where
  name := "Search" ++ pascalCase vector.name ++ prefilterSuffix prefilter
  params := searchParams prefilter
  statements := [assignment "results" (searchSource vector prefilter)]
  returns := text "results"

/-- Finds vectors and ranks them again. -/
def hybridSearch (vector : Entity) (prefilter : Option Property := none) : Query where
  name := "HybridSearch" ++ pascalCase vector.name ++ prefilterSuffix prefilter
  params := searchParams prefilter
  statements := [assignment "results" ((searchSource vector prefilter).andThen
    [step "RerankRRF" none (some [text ("k: " ++ toString rankConstant)]) false])]
  returns := text "results"

/-- Stores a vector with its properties. -/
def addVector (vector : Entity) : Query where
  name := "Add" ++ pascalCase vector.name ++ "Vector"
  params := ("data", "[F64]") :: propertyParams vector.namedProperties
  statements :=
    let args := match vector.namedProperties with
      | [] => [text "data"]
      | ps => [text "data", assignAll ps]
    [assignment "new_v" (source "AddV" (some vector.name) (some args) [] false)]
  returns := text "new_v"

/-- Stores or changes a vector; nothing for one without properties. -/
def upsertVector? (vector : Entity) : Option Query :=
  match vector.namedProperties with
  | [] => none
  | ps => some {
      name := "Upsert" ++ pascalCase vector.name ++ "Vector"
      params := ("id", "ID") :: ("data", "[F64]") :: propertyParams ps
      statements := [
        assignment "existing" (byIdParam "V" vector),
        assignment "upsert_v" (source "existing" none none
          [step "UpsertV" none (some [text "data", assignAll ps]) false] false)]
      returns := text "upsert_v" }

/-- Finds entities whose text matches keywords. -/
def keywordSearch (e : Entity) : Query where
  name := "Search" ++ pascalCase e.name ++ "ByKeyword"
  params := [("text", "String"), ("limit", "I32")]
  statements := [assignment "results"
    (source "SearchBM25" (some e.name) (some [text "text", text "limit"]) [] false)]
  returns := text "results"

end Hql.Library
