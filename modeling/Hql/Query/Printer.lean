import Hql.Query.Fragment
import Hql.Schema.Printer

/-!
The text of a fragment. The indentation is that of the line on which the fragment starts; blocks
inside the fragment stand one level deeper.
-/

namespace Hql

open Text (tab)

namespace Fragment

/-- The type parameter of a step or source. An empty one is not written. -/
def typeArgument (typeParam : Option String) : String :=
  match typeParam.filter fun t => t ≠ "" with
  | some t => "<" ++ t ++ ">"
  | none => ""

def isAttached : Fragment → Bool
  | step _ _ _ attached => attached
  | _ => false

/-- What links a fragment to the chain before it. Steps bring their own link. -/
def link : Fragment → String
  | projection _ => "::"
  | _ => ""

mutual

/-- The text of a fragment that starts on a line with this indentation. -/
def render (indent : String) : Fragment → String
  | text s => s
  | step name typeParam args _ => "::" ++ name ++ typeArgument typeParam ++ renderArgs indent args
  | expression head callArgs chain =>
    head ++ renderArgs indent callArgs ++ renderChain indent false chain
  | projection fields =>
    match renderFields (indent ++ tab) fields with
    | [] => "\x7b\x7d"
    | lines => "\x7b\n" ++ String.intercalate ",\n" lines ++ "\n" ++ indent ++ "\x7d"
  | source origin typeParam args steps multiline =>
    origin ++ typeArgument typeParam ++ renderArgs indent args ++
      renderChain (if multiline then indent ++ tab else indent) multiline steps
  | assignment name value => name ++ " <- " ++ render indent value
  | drop target => "DROP " ++ render indent target
  | query name params statements returns =>
    indent ++ "QUERY " ++ name ++ "(" ++
      String.intercalate ", " (params.map fun p => p.1 ++ ": " ++ p.2) ++ ") =>" ++
      renderLines (indent ++ tab) statements ++
      "\n" ++ indent ++ tab ++ "RETURN " ++ render (indent ++ tab) returns
  | block e => e.block

/-- Arguments in parentheses. -/
def renderArgs (indent : String) : Option (List Fragment) → String
  | none => ""
  | some args => "(" ++ String.intercalate ", " (renderAll indent args) ++ ")"

def renderAll (indent : String) : List Fragment → List String
  | [] => []
  | f :: fs => render indent f :: renderAll indent fs

/-- The fields of a projection, each on its own line. -/
def renderFields (indent : String) : List (String × Fragment) → List String
  | [] => []
  | (name, f) :: more => (indent ++ name ++ ": " ++ render indent f) :: renderFields indent more

/-- The steps of a chain, each on its own line if `multiline` is set and it is not attached. -/
def renderChain (indent : String) (multiline : Bool) : List Fragment → String
  | [] => ""
  | f :: fs =>
    (if multiline && !f.isAttached then "\n" ++ indent else "") ++ f.link ++ render indent f ++
      renderChain indent multiline fs

/-- Statements, each on its own line. -/
def renderLines (indent : String) : List Fragment → String
  | [] => ""
  | f :: fs => "\n" ++ indent ++ render indent f ++ renderLines indent fs

end

section Characters

variable (indent : String)

theorem toList_renderArgs (args : List Fragment) : (renderArgs indent (some args)).toList =
    '(' :: ([',', ' '].intercalate ((renderAll indent args).map String.toList) ++ [')']) := by
  simp [renderArgs, String.toList_intercalate]

theorem toList_render_braces : (render indent (projection [])).toList = ['\x7b', '\x7d'] := by
  simp [render, renderFields]

/-- The fields of a projection stand between the braces, the closing one on a line of its own. -/
theorem toList_render_projection (field : String × Fragment) (fields : List (String × Fragment)) :
    (render indent (projection (field :: fields))).toList =
      '\x7b' :: ('\n' :: [',', '\n'].intercalate
        ((renderFields (indent ++ tab) (field :: fields)).map String.toList) ++
          '\n' :: (indent.toList ++ ['\x7d'])) := by
  rw [render]
  cases hlines : renderFields (indent ++ tab) (field :: fields) with
  | nil => cases hlines
  | cons line lines => simp [String.toList_intercalate]

theorem toList_renderField (name : String) (f : Fragment) :
    (indent ++ name ++ ": " ++ render indent f).toList =
      indent.toList ++ (name.toList ++ ':' :: ' ' :: (render indent f).toList) := by
  simp

theorem toList_renderLines (f : Fragment) (fs : List Fragment) :
    (renderLines indent (f :: fs)).toList =
      '\n' :: (indent.toList ++ ((render indent f).toList ++ (renderLines indent fs).toList)) := by
  simp [renderLines]

end Characters

end Fragment

/-- The text of a query. -/
def Query.text (q : Query) : String := q.toFragment.render ""

end Hql
