import Hql.Naming
import Hql.Proofs.Text.Case

/-!
Pascal case as a normal form of names. The scan of a name capitalizes its segments one by one, so the
Pascal case of joined names is their Pascal cases joined. Main statement: a name in Pascal case has no
underscore and is its own Pascal case, also where the first character of a segment has several
characters in upper case.
-/

namespace Hql.Naming

open Text

/-- A segment of a name with its first character in upper case. -/
def capitalize : List Char → List Char
  | [] => []
  | c :: cs => upperChar c ++ cs

/-! ### Segments -/

variable {cs : List Char}

theorem pascalFrom_underscore (atStart : Bool) (cs : List Char) :
    pascalFrom atStart ('_' :: cs) = pascalFrom true cs := if_pos rfl

theorem pascalFrom_cons {c : Char} (hc : c ≠ '_') (atStart : Bool) (cs : List Char) :
    pascalFrom atStart (c :: cs) = (if atStart then upperChar c else [c]) ++ pascalFrom false cs :=
  if_neg hc

/-- Underscores divide a name, and a segment begins behind each. -/
theorem pascalFrom_append (atStart : Bool) (a b : List Char) :
    pascalFrom atStart (a ++ '_' :: b) = pascalFrom atStart a ++ pascalFrom true b := by
  induction a generalizing atStart with
  | nil => exact pascalFrom_underscore atStart b
  | cons c a ih =>
    rw [List.cons_append]
    by_cases hc : c = '_'
    · rw [hc, pascalFrom_underscore, pascalFrom_underscore, ih]
    · rw [pascalFrom_cons hc, pascalFrom_cons hc, ih, List.append_assoc]

theorem pascalFrom_false_of_not_mem (h : '_' ∉ cs) : pascalFrom false cs = cs := by
  induction cs with
  | nil => rfl
  | cons c cs ih =>
    rw [List.mem_cons, not_or] at h
    obtain ⟨hc, hcs⟩ := h
    rw [pascalFrom_cons (Ne.symm hc), ih hcs]
    rfl

theorem pascalFrom_true_of_not_mem (h : '_' ∉ cs) : pascalFrom true cs = capitalize cs := by
  cases cs with
  | nil => rfl
  | cons c cs =>
    rw [List.mem_cons, not_or] at h
    obtain ⟨hc, hcs⟩ := h
    rw [pascalFrom_cons (Ne.symm hc), pascalFrom_false_of_not_mem hcs]
    rfl

/-- Pascal case capitalizes the segments between the underscores. -/
theorem pascalFrom_eq_flatMap (cs : List Char) :
    pascalFrom true cs = (cs.splitOn '_').flatMap capitalize := by
  by_cases h : '_' ∈ cs
  · obtain ⟨w, rest, rfl, hw⟩ := List.eq_append_cons_of_mem h
    have hshorter : rest.length < (w ++ '_' :: rest).length := by
      rw [List.length_append, List.length_cons]
      omega
    have hsplit : (w ++ '_' :: rest).splitOn '_' = w.splitOn '_' ++ rest.splitOn '_' :=
      List.splitOnP_append_cons w rest (beq_self_eq_true '_')
    rw [pascalFrom_append, pascalFrom_true_of_not_mem hw, hsplit, List.splitOn_eq_singleton hw,
      List.singleton_append, List.flatMap_cons, ← pascalFrom_eq_flatMap rest]
  · rw [List.splitOn_eq_singleton h, List.flatMap_singleton, pascalFrom_true_of_not_mem h]
termination_by cs.length

/-! ### The first character and the others -/

theorem underscore_not_mem_pascalFrom (atStart : Bool) (cs : List Char) :
    '_' ∉ pascalFrom atStart cs := by
  induction cs generalizing atStart with
  | nil => exact List.not_mem_nil
  | cons c cs ih =>
    by_cases hc : c = '_'
    · rw [hc, pascalFrom_underscore]
      exact ih true
    · rw [pascalFrom_cons hc, List.mem_append, not_or]
      refine ⟨fun hmem => hc ?_, ih false⟩
      split at hmem
      · exact eq_underscore_of_mem_upperChar hmem
      · exact (List.mem_singleton.1 hmem).symm

/-- Segments may be empty, so the first character that is put into upper case may be anywhere in the
name; what stands first then is its own upper-case form. -/
theorem pascalFrom_head (cs : List Char) :
    ∀ d ∈ (pascalFrom true cs).head?, upperChar d = [d] := by
  induction cs with
  | nil =>
    intro d hd
    cases hd
  | cons c cs ih =>
    by_cases hc : c = '_'
    · rw [hc, pascalFrom_underscore]
      exact ih
    · obtain ⟨d, ds, hform, hself⟩ := exists_upperChar_eq_cons c
      rw [pascalFrom_cons hc, if_pos rfl, hform]
      intro d' hd'
      obtain rfl := Option.some.inj hd'
      exact hself

theorem capitalize_eq_self (h : ∀ d ∈ cs.head?, upperChar d = [d]) : capitalize cs = cs := by
  cases cs with
  | nil => rfl
  | cons c cs =>
    change upperChar c ++ cs = c :: cs
    rw [h c rfl]
    rfl

/-- A name in Pascal case is one segment, which is capitalized already. -/
theorem pascalFrom_pascalFrom (cs : List Char) :
    pascalFrom true (pascalFrom true cs) = pascalFrom true cs := by
  rw [pascalFrom_true_of_not_mem (underscore_not_mem_pascalFrom true cs),
    capitalize_eq_self (pascalFrom_head cs)]

/-! ### Names -/

/-- Pascal case capitalizes each segment of a name and drops the underscores between them. So it can be
taken on both sides of an underscore for itself, it leaves no underscore, and taken again it changes
nothing. -/
theorem pascalCase_normal_form :
    (∀ name, (pascalCase name).toList = (name.toList.splitOn '_').flatMap capitalize) ∧
    (∀ a b, pascalCase (a ++ "_" ++ b) = pascalCase a ++ pascalCase b) ∧
    (∀ name, '_' ∉ (pascalCase name).toList) ∧
    ∀ name, pascalCase (pascalCase name) = pascalCase name := by
  refine ⟨fun name => ?_, fun a b => ?_, fun name => ?_, fun name => ?_⟩
  · rw [pascalCase, String.toList_ofList, pascalFrom_eq_flatMap]
  · have hjoined : (a ++ "_" ++ b).toList = a.toList ++ '_' :: b.toList := by simp
    rw [pascalCase, hjoined, pascalFrom_append, String.ofList_append]
    rfl
  · rw [pascalCase, String.toList_ofList]
    exact underscore_not_mem_pascalFrom true name.toList
  · rw [pascalCase, pascalCase, String.toList_ofList, pascalFrom_pascalFrom]

-- an empty segment in front, and a letter with two characters in upper case
example : pascalCase "_ßtamm_haus" = "SStammHaus" := by decide

end Hql.Naming
