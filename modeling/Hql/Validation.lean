import Hql.Diagnostic
import Hql.Keyword
import Hql.Naming
import Hql.Text.Blank
import Hql.Text.Word

/-!
The checks of a model. Entities are checked in the order of the model: first their name, then the
ends of an edge, then their properties. Nothing in a model makes the checks fail; whatever is wrong
becomes a diagnostic.
-/

namespace Hql.Validation

open Text

/-- An entity name starts with an upper-case ASCII letter. -/
def isEntityName : List Char → Bool
  | [] => false
  | c :: cs => c.isUpper && cs.all isIdentChar

/-- A property name starts with an ASCII letter. -/
def isPropertyName : List Char → Bool
  | [] => false
  | c :: cs => c.isAlpha && cs.all isIdentChar

/-- A property name as it may be stored: one line end after it does no harm. -/
def isStoredPropertyName (cs : List Char) : Bool :=
  isPropertyName cs || (cs.getLast? == some '\n' && isPropertyName cs.dropLast)

/-- The text with one underscore in place of each run of characters that no identifier holds.
`inRun` says that such a run came before. -/
def underscoreRuns (inRun : Bool) : List Char → List Char
  | [] => []
  | c :: cs =>
    if isIdentChar c then c :: underscoreRuns false cs
    else if inRun then underscoreRuns true cs
    else '_' :: underscoreRuns true cs

/-- The text without underscores at either end. -/
def trimUnderscores (cs : List Char) : List Char :=
  ((cs.dropWhile (· == '_')).reverse.dropWhile (· == '_')).reverse

/-- The identifier nearest to a text. -/
def identifierOf (name : String) : String :=
  String.ofList (trimUnderscores (underscoreRuns false name.toList))

/-- An entity name to offer in place of one that has the wrong form. -/
def suggestEntityName? (name : String) : Option String :=
  let candidate := Naming.pascalCase (identifierOf name)
  if isEntityName candidate.toList && candidate != name then some candidate else none

/-- A property name to offer in place of one that has the wrong form. -/
def suggestPropertyName? (name : String) : Option String :=
  let candidate := identifierOf name
  if isPropertyName candidate.toList && candidate != name then some candidate else none

/-- The diagnostic if a condition holds. -/
def report (condition : Bool) (d : Diagnostic) : List Diagnostic := if condition then [d] else []

/-- Names that differ in case or in blanks at their ends have the same key. -/
def nameKey (name : String) : String := lowercase (trimmed name)

/-- The checks of a name, given the keys of the names before it. -/
def checkName (used : List String) (e : Entity) : List Diagnostic :=
  let name := trimmed e.name
  -- nothing else is said of a name that is not there
  if name = "" then [{ entityId := e.id, finding := .entityUnnamed }]
  else
    report (!isEntityName name.toList)
      { entityId := e.id, finding := .entityNameForm, fix := suggestEntityName? name } ++
    report (Keyword.isReserved name)
      { entityId := e.id, finding := .entityNameReserved name } ++
    report (used.contains (nameKey e.name))
      { entityId := e.id, finding := .entityNameTaken name }

/-- The check of one end of an edge, given the names of the model. An end that is not set names
nothing unknown. -/
def checkEnd (names : List String) (e : Entity) (side : Option String)
    (finding : String → Finding) : List Diagnostic :=
  match setEnd side with
  | none => []
  | some name => report (!names.contains name) { entityId := e.id, finding := finding name }

/-- The checks of the ends of an edge. -/
def checkEnds (names : List String) (e : Entity) : List Diagnostic :=
  checkEnd names e e.source .unknownSource ++
  checkEnd names e e.target .unknownTarget ++
  report ((setEnd e.source).isNone || (setEnd e.target).isNone)
    { entityId := e.id, finding := .unconnected }

/-- The name to offer for a property whose name the database keeps for itself. -/
def reservedFix? (e : Entity) (key : String) : Option String :=
  if e.name = "" then none else some (lowercase e.name ++ "_" ++ key)

/-- The checks of the property at a position, given the keys of the names before it. -/
def checkProperty (e : Entity) (seen : List String) (index : Nat) (p : Property) :
    List Diagnostic :=
  let key := nameKey p.name
  if key = "" then
    [{ entityId := e.id, finding := .propertyUnnamed, propertyIndex := some index }]
  else
    report (!isStoredPropertyName p.name.toList)
      { entityId := e.id, finding := .propertyNameForm, propertyIndex := some index,
        fix := suggestPropertyName? p.name } ++
    report (e.kind.reservedFields.contains key)
      { entityId := e.id, finding := .propertyNameReserved p.name, propertyIndex := some index,
        fix := reservedFix? e key } ++
    report (seen.contains key)
      { entityId := e.id, finding := .propertyNameTaken p.name, propertyIndex := some index }

/-- The checks of the properties from a position on. Gaps count for the positions, and properties
without a name take none. -/
def checkProperties (e : Entity) (seen : List String) (index : Nat) :
    List (Option Property) → List Diagnostic
  | [] => []
  | none :: ps => checkProperties e seen (index + 1) ps
  | some p :: ps =>
    checkProperty e seen index p ++ checkProperties e (nameKey p.name :: seen) (index + 1) ps

/-- The checks of one entity, given the names of the model and the keys of the names before it. -/
def checkEntity (names used : List String) (e : Entity) : List Diagnostic :=
  checkName used e ++ (if e.isEdge then checkEnds names e else []) ++
    checkProperties e [] 0 e.properties

/-- The checks of entities, given the names of the model and the keys of the names before them. -/
def checkEntities (names used : List String) : List Entity → List Diagnostic
  | [] => []
  | e :: es => checkEntity names used e ++ checkEntities names (nameKey e.name :: used) es

/-- The diagnostics of a model. -/
def validate (model : Model) : List Diagnostic :=
  checkEntities (model.entities.map Entity.name) [] model.entities

end Hql.Validation
