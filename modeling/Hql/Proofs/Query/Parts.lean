import Hql.Query.Fragment

/-!
The fragments inside a fragment, and what operators are given: their type parameter and their
arguments.
-/

namespace Hql

namespace Fragment

mutual

/-- The fragments inside a fragment, itself included. -/
def parts : Fragment → List Fragment
  | text s => [text s]
  | step name typeParam args attached => step name typeParam args attached :: argsParts args
  | expression head callArgs chain =>
    expression head callArgs chain :: (argsParts callArgs ++ allParts chain)
  | projection fields => projection fields :: fieldsParts fields
  | source origin typeParam args steps multiline =>
    source origin typeParam args steps multiline :: (argsParts args ++ allParts steps)
  | assignment name value => assignment name value :: parts value
  | drop target => drop target :: parts target
  | query name params statements returns =>
    query name params statements returns :: (allParts statements ++ parts returns)
  | block e => [block e]

def argsParts : Option (List Fragment) → List Fragment
  | none => []
  | some args => allParts args

def allParts : List Fragment → List Fragment
  | [] => []
  | f :: fs => parts f ++ allParts fs

def fieldsParts : List (String × Fragment) → List Fragment
  | [] => []
  | (_, f) :: more => parts f ++ fieldsParts more

end

/-- What is said of a fragment is said of every fragment inside it. -/
def Everywhere (P : Fragment → Prop) (f : Fragment) : Prop := ∀ x ∈ f.parts, P x

instance (P : Fragment → Prop) [DecidablePred P] : DecidablePred (Everywhere P) :=
  fun f => inferInstanceAs (Decidable (∀ x ∈ f.parts, P x))

section Everywhere

variable {P : Fragment → Prop}

theorem forall_mem_allParts (fs : List Fragment) :
    (∀ x ∈ allParts fs, P x) ↔ ∀ f ∈ fs, Everywhere P f := by
  induction fs with
  | nil => exact iff_of_true (List.forall_mem_nil P) (List.forall_mem_nil _)
  | cons f fs ih =>
    change (∀ x ∈ parts f ++ allParts fs, P x) ↔ _
    rw [List.forall_mem_append, ih, List.forall_mem_cons]
    rfl

theorem forall_mem_argsParts (args : Option (List Fragment)) :
    (∀ x ∈ argsParts args, P x) ↔ ∀ f ∈ args.getD [], Everywhere P f := by
  cases args with
  | none => exact iff_of_true (List.forall_mem_nil P) (List.forall_mem_nil _)
  | some args => exact forall_mem_allParts args

theorem forall_mem_fieldsParts (fields : List (String × Fragment)) :
    (∀ x ∈ fieldsParts fields, P x) ↔ ∀ field ∈ fields, Everywhere P field.2 := by
  induction fields with
  | nil => exact iff_of_true (List.forall_mem_nil P) (List.forall_mem_nil _)
  | cons field fields ih =>
    change (∀ x ∈ parts field.2 ++ fieldsParts fields, P x) ↔ _
    rw [List.forall_mem_append, ih, List.forall_mem_cons]
    rfl

@[simp] theorem everywhere_text (s : String) : Everywhere P (text s) ↔ P (text s) := by
  exact List.forall_mem_singleton

@[simp] theorem everywhere_step (name : String) (typeParam : Option String)
    (args : Option (List Fragment)) (attached : Bool) :
    Everywhere P (step name typeParam args attached) ↔
      P (step name typeParam args attached) ∧ ∀ f ∈ args.getD [], Everywhere P f := by
  change (∀ x ∈ _ :: argsParts args, P x) ↔ _
  rw [List.forall_mem_cons, forall_mem_argsParts]

@[simp] theorem everywhere_expression (head : String) (callArgs : Option (List Fragment))
    (chain : List Fragment) :
    Everywhere P (expression head callArgs chain) ↔ P (expression head callArgs chain) ∧
      (∀ f ∈ callArgs.getD [], Everywhere P f) ∧ ∀ f ∈ chain, Everywhere P f := by
  change (∀ x ∈ _ :: (argsParts callArgs ++ allParts chain), P x) ↔ _
  rw [List.forall_mem_cons, List.forall_mem_append, forall_mem_argsParts, forall_mem_allParts]

@[simp] theorem everywhere_projection (fields : List (String × Fragment)) :
    Everywhere P (projection fields) ↔
      P (projection fields) ∧ ∀ field ∈ fields, Everywhere P field.2 := by
  change (∀ x ∈ _ :: fieldsParts fields, P x) ↔ _
  rw [List.forall_mem_cons, forall_mem_fieldsParts]

@[simp] theorem everywhere_source (origin : String) (typeParam : Option String)
    (args : Option (List Fragment)) (steps : List Fragment) (multiline : Bool) :
    Everywhere P (source origin typeParam args steps multiline) ↔
      P (source origin typeParam args steps multiline) ∧
        (∀ f ∈ args.getD [], Everywhere P f) ∧ ∀ f ∈ steps, Everywhere P f := by
  change (∀ x ∈ _ :: (argsParts args ++ allParts steps), P x) ↔ _
  rw [List.forall_mem_cons, List.forall_mem_append, forall_mem_argsParts, forall_mem_allParts]

@[simp] theorem everywhere_assignment (name : String) (value : Fragment) :
    Everywhere P (assignment name value) ↔ P (assignment name value) ∧ Everywhere P value := by
  exact List.forall_mem_cons

@[simp] theorem everywhere_drop (target : Fragment) :
    Everywhere P (drop target) ↔ P (drop target) ∧ Everywhere P target := by
  exact List.forall_mem_cons

theorem everywhere_query (name : String) (params : List (String × String))
    (statements : List Fragment) (returns : Fragment) :
    Everywhere P (query name params statements returns) ↔
      P (query name params statements returns) ∧
        (∀ f ∈ statements, Everywhere P f) ∧ Everywhere P returns := by
  change (∀ x ∈ _ :: (allParts statements ++ parts returns), P x) ↔ _
  rw [List.forall_mem_cons, List.forall_mem_append, forall_mem_allParts]
  rfl

end Everywhere

/-- The variables that a statement assigns. -/
def assigned : Fragment → List String
  | assignment name _ => [name]
  | _ => []

end Fragment

end Hql
