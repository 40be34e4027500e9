import Hql.Value

/-!
Scalar types and the typed properties of entities.
-/

namespace Hql

/-- The scalar types of properties. -/
inductive PropertyType where
  | string | boolean | f32 | f64 | i8 | i16 | i32 | i64 | u8 | u16 | u32 | u64 | u128 | id | date
  deriving DecidableEq, Repr

namespace PropertyType

/-- All scalar types, in the order in which they are offered. -/
def all : List PropertyType :=
  [string, boolean, f32, f64, i8, i16, i32, i64, u8, u16, u32, u64, u128, id, date]

/-- The name of a type in the language. -/
def name : PropertyType → String
  | string => "String"
  | boolean => "Boolean"
  | f32 => "F32"
  | f64 => "F64"
  | i8 => "I8"
  | i16 => "I16"
  | i32 => "I32"
  | i64 => "I64"
  | u8 => "U8"
  | u16 => "U16"
  | u32 => "U32"
  | u64 => "U64"
  | u128 => "U128"
  | id => "ID"
  | date => "Date"

/-- The type of a name. `Timestamp` is an older name of `Date`. -/
def ofName? (s : String) : Option PropertyType :=
  if s = "Timestamp" then some date else all.find? fun t => t.name = s

/-- The types that sums and weights can be taken of. -/
def isNumeric : PropertyType → Bool
  | string | boolean | id | date => false
  | _ => true

theorem mem_all (t : PropertyType) : t ∈ all := by cases t <;> decide

theorem ofName?_name (t : PropertyType) : ofName? t.name = some t := by cases t <;> decide

end PropertyType

/-- A typed property of an entity. `isUnique` is written `UNIQUE INDEX` and wins over `isIndex`,
which is written `INDEX`; `isArray` makes the type a list type; `defaultValue` is the text of a
literal. -/
structure Property where
  name : String
  type : PropertyType := .string
  isUnique : Bool := false
  isIndex : Bool := false
  isArray : Bool := false
  defaultValue : Option String := none
  description : Value := .null
  deriving DecidableEq

namespace Property

/-- The type as the language writes it. -/
def typeName (p : Property) : String :=
  if p.isArray then "[" ++ p.type.name ++ "]" else p.type.name

end Property

end Hql
