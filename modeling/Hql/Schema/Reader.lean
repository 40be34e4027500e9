import Hql.Schema.Draft
import Hql.Schema.Printer
import Hql.Text.Blank

/-!
Models read from schema text. A text that is blank, or an empty pair of braces, is the schema of a
model without entities.
-/

namespace Hql.Schema

/-- A place in a text. Lines and columns count from one, and only a line feed ends a line. -/
structure Position where
  line : Nat
  column : Nat
  deriving DecidableEq, Repr

/-- The position after the first `offset` characters of a text. -/
def Position.ofOffset (cs : List Char) (offset : Nat) : Position :=
  let before := cs.take offset
  ⟨before.count '\n' + 1, (before.reverse.takeWhile (· != '\n')).length + 1⟩

/-- Why a text is no schema, and where. -/
structure ReadError where
  fault : Fault
  position : Position
  deriving DecidableEq, Repr

def ReadError.message (e : ReadError) : String :=
  match e.fault with
  | .unknownType name _ => "Unknown property type: " ++ Text.quoted name
  | _ =>
    "Invalid schema syntax at line " ++ toString e.position.line ++ ", column " ++
      toString e.position.column

/-- A text that stands for a model without entities. -/
def isEmptyText (cs : List Char) : Bool :=
  (Text.trim cs).isEmpty || Text.trim cs == empty.toList

/-- The entities that a text defines. -/
def entities? (cs : List Char) : Except Fault (List Entity) :=
  if isEmptyText cs then .ok []
  else
    let (tokens, ending) := scan .outside 0 cs
    entitiesOf tokens ending

/-- The entities that a schema text defines, in order. -/
def read (s : String) : Except ReadError (List Entity) :=
  match entities? s.toList with
  | .ok es => .ok es
  | .error fault => .error ⟨fault, .ofOffset s.toList fault.offset⟩

end Hql.Schema
