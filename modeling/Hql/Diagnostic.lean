import Hql.Model.Entity

/-!
Diagnostics: what can be wrong with a model, how it is told, and how it is mended.
-/

namespace Hql

/-- How much a finding matters. -/
inductive Severity where
  | error | warning | info
  deriving DecidableEq, Repr

def Severity.name : Severity → String
  | error => "error"
  | warning => "warning"
  | info => "info"

/-- What is wrong with an entity or with one of its properties. -/
inductive Finding where
  | entityUnnamed
  | entityNameForm
  | entityNameReserved (name : String)
  | entityNameTaken (name : String)
  | unknownSource (name : String)
  | unknownTarget (name : String)
  | unconnected
  | propertyUnnamed
  | propertyNameForm
  | propertyNameReserved (name : String)
  | propertyNameTaken (name : String)
  deriving DecidableEq, Repr

namespace Finding

/-- An edge may stay unconnected while its author is at work; all else is an error. -/
def severity : Finding → Severity
  | unconnected => .info
  | _ => .error

def message : Finding → String
  | entityUnnamed => "Entity name is required"
  | entityNameForm =>
    "Standard: Entity names must start with an Uppercase letter " ++
      "and only contain Alphanumeric/Underscore"
  | entityNameReserved name =>
    "Reserved keyword: '" ++ name ++ "' cannot be used as an entity name"
  | entityNameTaken name => "Duplicate name: '" ++ name ++ "' (names are case-insensitive)"
  | unknownSource name => "Unknown source: '" ++ name ++ "'"
  | unknownTarget name => "Unknown target: '" ++ name ++ "'"
  | unconnected => "Relations must connect two entities"
  | propertyUnnamed => "Property name missing"
  | propertyNameForm => "Invalid characters in property name"
  | propertyNameReserved name =>
    "'" ++ name ++ "' is a reserved internal field managed by the database"
  | propertyNameTaken name => "Duplicate property: '" ++ name ++ "'"

end Finding

/-- A finding about an entity, or about the property at `propertyIndex`. A `fix` is a name that can
take the place of the one that was found wrong. -/
structure Diagnostic where
  entityId : String
  finding : Finding
  propertyIndex : Option Nat := none
  fix : Option String := none
  deriving DecidableEq, Repr

namespace Diagnostic

def message (d : Diagnostic) : String := d.finding.message

def severity (d : Diagnostic) : Severity := d.finding.severity

def isError (d : Diagnostic) : Bool := d.severity = .error

/-- The object that stores a diagnostic. -/
def toValue (d : Diagnostic) : Value :=
  .object <|
    [("entityId", .string d.entityId), ("message", .string d.message),
      ("level", .string d.severity.name)] ++
    (d.propertyIndex.toList.map fun i => ("propertyIndex", .int i)) ++
    (d.fix.toList.map fun s => ("fixSuggestion", .string s))

end Diagnostic

end Hql
