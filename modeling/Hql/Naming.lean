import Hql.Text.Case

/-!
Pascal case, in which the names of queries are built. Underscores divide a name into segments; they
are dropped and the first character of each segment is put into upper case.
-/

namespace Hql.Naming

/-- Pascal case of the rest of a name. `atStart` says that a segment begins here. -/
def pascalFrom (atStart : Bool) : List Char → List Char
  | [] => []
  | c :: cs =>
    if c = '_' then pascalFrom true cs
    else (if atStart then Text.upperChar c else [c]) ++ pascalFrom false cs

/-- Pascal case of a name: `user_profile` becomes `UserProfile`. -/
def pascalCase (name : String) : String := String.ofList (pascalFrom true name.toList)

end Hql.Naming
