import Hql.Model.Property

/-!
Literals of the language. Texts, and dates other than `NOW`, stand between double quotes; lists
stand in brackets; everything else is written as it is.
-/

namespace Hql.Literal

/-- A character between double quotes. Quotes and backslashes are marked by a backslash. -/
def escapeChar (c : Char) : List Char := if c = '"' || c = '\\' then ['\\', c] else [c]

/-- A text between double quotes. -/
def quote (s : String) : String :=
  "\"" ++ String.ofList (s.toList.flatMap escapeChar) ++ "\""

/-- The text between double quotes with the marks of its quotes and backslashes taken away: a
backslash stands for the character after it. `marked` says that a backslash came before. -/
def unescape (marked : Bool) : List Char → List Char
  | [] => []
  | c :: cs => if c = '\\' && !marked then unescape true cs else c :: unescape false cs

/-- The literal of a scalar type whose text is given. -/
def ofText (type : PropertyType) (s : String) : String :=
  match type with
  | .string => quote s
  | .date => if s = "NOW" then s else quote s
  | _ => s

mutual

/-- The literal of a value, written for a scalar type. -/
def ofValue (type : PropertyType) : Value → String
  | .list vs => "[" ++ String.intercalate ", " (ofItems type vs) ++ "]"
  | .bool true => "true"
  | .bool false => "false"
  | v => ofText type v.text

def ofItems (type : PropertyType) : List Value → List String
  | [] => []
  | v :: vs => ofValue type v :: ofItems type vs

end

/-- The literal of a value, written for a list type if `isArray` is set. A text that is to be a list
is written as it is. -/
def ofTypedValue (type : PropertyType) (isArray : Bool) (v : Value) : String :=
  match v with
  | .list _ | .bool _ => ofValue type v
  | v => if isArray then v.text else ofValue type v

end Hql.Literal

namespace Hql.Property

/-- The default of a property as a literal of the language. -/
def defaultLiteral? (p : Property) : Option String :=
  p.defaultValue.map fun s => if p.isArray then s else Literal.ofText p.type s

end Hql.Property
