import Hql.Literal
import Hql.Model.Entity
import Hql.Text.Indent

/-!
The text of a schema: one block for each entity of a model, with a blank line between two blocks.
-/

namespace Hql

open Text (tab)

namespace Property

/-- The modifier in front of a field. -/
def modifier (p : Property) : String :=
  if p.isUnique then "UNIQUE INDEX " else if p.isIndex then "INDEX " else ""

/-- The default at the end of a field. -/
def defaultClause (p : Property) : String :=
  match p.defaultLiteral? with
  | some literal => " DEFAULT " ++ literal
  | none => ""

/-- A property as a field of a block. -/
def fieldText (p : Property) : String :=
  p.modifier ++ p.name ++ ": " ++ p.typeName ++ p.defaultClause

end Property

namespace Entity

/-- The fields of a block, each on its own line. Properties without a name are left out. -/
def fieldLines (e : Entity) (indent : String) : String :=
  match e.namedProperties with
  | [] => ""
  | ps => String.intercalate ",\n" (ps.map fun p => indent ++ p.fieldText) ++ "\n"

/-- The block that defines a node or vector. -/
def plainBlock (e : Entity) (letter : String) : String :=
  letter ++ "::" ++ e.name ++ " \x7b\n" ++ e.fieldLines tab ++ "\x7d"

/-- The block that defines an edge. -/
def edgeBlock (e : Entity) : String :=
  "E::" ++ e.name ++ (if e.isUniqueRelation then " UNIQUE" else "") ++ " \x7b\n" ++
    tab ++ "From: " ++ endName e.source ++ ",\n" ++
    tab ++ "To: " ++ endName e.target ++ ",\n" ++
    tab ++ "Properties: \x7b\n" ++ e.fieldLines (tab ++ tab) ++ tab ++ "\x7d\n\x7d"

/-- The block that defines an entity. -/
def block (e : Entity) : String :=
  match e.kind with
  | .node => e.plainBlock "N"
  | .vector => e.plainBlock "V"
  | .edge => e.edgeBlock

end Entity

namespace Schema

/-- The schema of a model without any place for an entity. -/
def empty : String := "\x7b\x7d"

/-- The schema of a model. -/
def print (model : Model) : String :=
  match model with
  | [] => empty
  | _ => String.intercalate "\n\n" (model.entities.map Entity.block)

end Schema

end Hql
