import Hql.Number.Shortest
import Hql.Text.Quoted

/-!
Values of the data that models are stored in: null, booleans, numbers, texts, lists and objects.
-/

namespace Hql

/-- A stored value. The names of an object's fields are distinct and keep their order. -/
inductive Value where
  | null
  | bool (b : Bool)
  | int (i : Int)
  | real (x : Binary64)
  | string (s : String)
  | list (items : List Value)
  | object (fields : List (String × Value))
  deriving Repr, Inhabited

namespace Value

/-- The field of an object; null where there is none. -/
def field (name : String) : Value → Value
  | object fields => (fields.lookup name).getD null
  | _ => null

/-- The items of a list; none of any other value. -/
def items : Value → List Value
  | list vs => vs
  | _ => []

def isNull : Value → Bool
  | null => true
  | _ => false

/-- A flag or text counts as given unless it is null, false, zero or empty. -/
def isGiven : Value → Bool
  | null => false
  | bool b => b
  | int i => i != 0
  | real x => !x.isZero
  | string s => s != ""
  | list vs => !vs.isEmpty
  | object fields => !fields.isEmpty

mutual

/-- The text of a value inside a list or message, where texts stand between quotes. -/
def shown : Value → String
  | null => "None"
  | bool true => "True"
  | bool false => "False"
  | int i => toString i
  | real x => x.text
  | string s => Text.quoted s
  | list vs => "[" ++ String.intercalate ", " (shownItems vs) ++ "]"
  | object fields => "\x7b" ++ String.intercalate ", " (shownFields fields) ++ "\x7d"

def shownItems : List Value → List String
  | [] => []
  | v :: vs => shown v :: shownItems vs

def shownFields : List (String × Value) → List String
  | [] => []
  | (name, v) :: more => (Text.quoted name ++ ": " ++ shown v) :: shownFields more

end

/-- The text of a value: a text stands for itself, every other value as it is shown. -/
def text : Value → String
  | string s => s
  | v => shown v

/-- The text of a value that is given, and the empty text of one that is not. -/
def givenText (v : Value) : String := if v.isGiven then v.text else ""

mutual

/-- Two values are the same. -/
def same : Value → Value → Bool
  | null, null => true
  | bool a, bool b => a == b
  | int a, int b => a == b
  | real a, real b => a == b
  | string a, string b => a == b
  | list a, list b => sameItems a b
  | object a, object b => sameFields a b
  | _, _ => false

def sameItems : List Value → List Value → Bool
  | [], [] => true
  | a :: as, b :: bs => same a b && sameItems as bs
  | _, _ => false

def sameFields : List (String × Value) → List (String × Value) → Bool
  | [], [] => true
  | (m, a) :: as, (n, b) :: bs => m == n && same a b && sameFields as bs
  | _, _ => false

end

mutual

theorem same_iff : ∀ a b : Value, same a b = true ↔ a = b
  | a, b => by
    cases a with
    | list as => cases b <;> simp [same, sameItems_iff as]
    | object as => cases b <;> simp [same, sameFields_iff as]
    | _ => cases b <;> simp [same]

theorem sameItems_iff : ∀ as bs : List Value, sameItems as bs = true ↔ as = bs
  | [], bs => by cases bs <;> simp [sameItems]
  | a :: as, bs => by cases bs <;> simp [sameItems, same_iff a, sameItems_iff as]

theorem sameFields_iff : ∀ as bs : List (String × Value), sameFields as bs = true ↔ as = bs
  | [], bs => by cases bs <;> simp [sameFields]
  | (m, a) :: as, bs => by
    cases bs <;> simp [sameFields, same_iff a, sameFields_iff as, Prod.ext_iff, and_assoc]

end

instance : DecidableEq Value := fun a b => decidable_of_iff _ (same_iff a b)

end Value

end Hql
