import Hql.Literal
import Hql.Model.Entity

/-!
Fragments of query text, nested as the language nests them, and whole queries.
-/

namespace Hql

/-- A fragment of query text.

* A step `::name<T>(args)` may be `attached` to the line before it.
* An expression is a head, which `callArgs` make a call, followed by a chain of steps.
* A projection is a block of named fragments.
* A source is an origin `name<T>(args)` followed by steps and projections, which stand on lines of
  their own if it is `multiline`.

Arguments that are absent are written without parentheses, an empty list of them with. -/
inductive Fragment where
  | text (s : String)
  | step (name : String) (typeParam : Option String) (args : Option (List Fragment))
      (attached : Bool)
  | expression (head : String) (callArgs : Option (List Fragment)) (chain : List Fragment)
  | projection (fields : List (String × Fragment))
  | source (origin : String) (typeParam : Option String) (args : Option (List Fragment))
      (steps : List Fragment) (multiline : Bool)
  | assignment (name : String) (value : Fragment)
  | drop (target : Fragment)
  | query (name : String) (params : List (String × String)) (statements : List Fragment)
      (returns : Fragment)
  | block (e : Entity)

namespace Fragment

/-- A parameter or variable. -/
def ident (name : String) : Fragment := expression name none []

/-- The literal of a text. -/
def literal (s : String) : Fragment := expression (Literal.quote s) none []

/-- The property `name` of what `target` stands for. -/
def property (name : String) (target : String := "_") : Fragment :=
  expression (target ++ "::\x7b" ++ name ++ "\x7d") none []

/-- The id of what `target` stands for. -/
def identity (target : String := "_") : Fragment := expression (target ++ "::ID") none []

/-- A call of a function. -/
def call (function : String) (args : List Fragment) : Fragment := expression function (some args) []

/-- An expression with one more step at the end of its chain. -/
def op (f : Fragment) (name : String) (args : Option (List Fragment) := none)
    (typeParam : Option String := none) : Fragment :=
  match f with
  | expression head callArgs chain =>
    expression head callArgs (chain ++ [step name typeParam args false])
  | f => f

/-- A source with more steps at its end. -/
def andThen (f : Fragment) (more : List Fragment) : Fragment :=
  match f with
  | source origin typeParam args steps multiline =>
    source origin typeParam args (steps ++ more) multiline
  | f => f

/-- The projection that takes each property from the parameter of its name. -/
def assignAll (ps : List Property) : Fragment :=
  projection (ps.map fun p => (p.name, ident p.name))

end Fragment

/-- A query: its parameters with their types, its statements, and what it returns. -/
structure Query where
  name : String
  params : List (String × String) := []
  statements : List Fragment := []
  returns : Fragment

def Query.toFragment (q : Query) : Fragment := .query q.name q.params q.statements q.returns

end Hql
