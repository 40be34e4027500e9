import Hql.Completion
import Hql.Layout.Document
import Hql.Library.Sections
import Hql.Model.Load
import Hql.Schema.Reader
import Hql.Validation

/-!
A session keeps the flags of a library and the model that is being edited. The entries of the model
are stored data as they came or entities that were read from a schema; stored data is loaded anew
whenever the model is used, and only then found wrong.
-/

namespace Hql

/-- An entry of a model that is being edited. -/
inductive Entry where
  | stored (data : Value)
  | loaded (e : Entity)

/-- Why an operation of a session has no result. -/
inductive SessionError where
  | load (e : LoadError)
  | read (e : Schema.ReadError)

/-- What is generated from a model. -/
structure Generated where
  schema : String
  queries : String
  diagnostics : List Diagnostic

def Generated.hasErrors (g : Generated) : Bool := g.diagnostics.any Diagnostic.isError

/-- The flags of a session and the entries of its model. -/
structure Session where
  config : Config := {}
  entries : List Entry := []

namespace Session

/-- The entities of entries; null stands for none. -/
def load : List Entry → Except SessionError (List Entity)
  | [] => .ok []
  | .stored .null :: more => load more
  | .stored data :: more =>
    match Entity.ofValue data with
    | .ok e => do return e :: (← load more)
    | .error cause => .error (.load cause)
  | .loaded e :: more => do return e :: (← load more)

/-- The model of a session. It has no gaps. -/
def model (s : Session) : Except SessionError Model := do
  return (← load s.entries).map some

/-- The session with a model of stored data. -/
def setModel (s : Session) (items : List Value) : Session :=
  { s with entries := items.map .stored }

/-- The session with one more entry of stored data. -/
def add (s : Session) (data : Value) : Session :=
  { s with entries := s.entries ++ [.stored data] }

/-- The session without the entry at a position, if there is one. -/
def remove (s : Session) (index : Int) : Session :=
  if index < 0 then s else { s with entries := s.entries.eraseIdx index.toNat }

/-- The entities of a schema text, and the session with them as its model. -/
def loadSchema (s : Session) (text : String) : Except SessionError (List Entity × Session) :=
  match Schema.read text with
  | .ok es => .ok (es, { s with entries := es.map .loaded })
  | .error e => .error (.read e)

/-- The schema of the model. -/
def schema (s : Session) : Except SessionError String := do
  return Schema.print (← s.model)

/-- The model read back from its own schema. -/
def reload (s : Session) : Except SessionError (List Entity × Session) := do
  s.loadSchema (← s.schema)

/-- The query library of the model, with other flags for this time if they are given. -/
def queries (s : Session) (config : Option Config := none) : Except SessionError String := do
  return Library.print (config.getD s.config) (← s.model)

/-- The query library of the model, laid out. -/
def formattedQueries (s : Session) : Except SessionError String := do
  return Layout.format (← s.queries)

/-- The diagnostics of the model. -/
def diagnostics (s : Session) : Except SessionError (List Diagnostic) := do
  return Validation.validate (← s.model)

/-- Everything that is generated from the model. -/
def generate (s : Session) : Except SessionError Generated := do
  let model ← s.model
  return {
    schema := Schema.print model
    queries := Library.print s.config model
    diagnostics := Validation.validate model }

/-- What can be written at the cursor of a query text, with the names of the model. -/
def complete (s : Session) (code : String) (cursor : Int) :
    Except SessionError (List Completion.Item) := do
  return Completion.complete code cursor (.ofModel (← s.model))

end Session

end Hql
