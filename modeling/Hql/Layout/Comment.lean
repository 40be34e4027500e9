import Hql.Text.Search

/-!
Comments of query text: `//` and `#` to the end of the line, and `/*` to the next `*/`. A block
comment that is not closed is no comment.
-/

namespace Hql.Layout

/-- A comment may start here. -/
def startsComment (cs : List Char) : Bool :=
  ['/', '/'].isPrefixOf cs || ['#'].isPrefixOf cs || ['/', '*'].isPrefixOf cs

/-- A comment at the start of a text, and the text after it. -/
def comment? : List Char → Option (List Char × List Char)
  | [] => none
  | c :: cs =>
    if c = '#' || (c = '/' && cs.head? == some '/') then
      some ((c :: cs).takeWhile (· != '\n'), (c :: cs).dropWhile (· != '\n'))
    else if c = '/' && cs.head? == some '*' then
      (Text.splitFirst? ['*', '/'] (cs.drop 1)).map fun p => (c :: '*' :: p.1 ++ ['*', '/'], p.2)
    else none

theorem comment?_length {cs : List Char} {p : List Char × List Char} (h : comment? cs = some p) :
    p.2.length < cs.length := by
  unfold comment? at h
  split at h
  · simp at h
  · rename_i c cs
    split at h
    · rename_i hc
      obtain rfl := Option.some.inj h
      have hne : (c != '\n') = true := by
        simp only [Bool.or_eq_true, Bool.and_eq_true, decide_eq_true_eq] at hc
        rcases hc with rfl | ⟨rfl, _⟩ <;> rfl
      have := (List.dropWhile_suffix (l := cs) (fun x => x != '\n')).length_le
      simp only [List.dropWhile_cons, hne, if_true, List.length_cons]
      omega
    · split at h
      · obtain ⟨q, hq, rfl⟩ := Option.map_eq_some_iff.1 h
        have := congrArg List.length (Text.splitFirst?_eq_some hq)
        simp only [List.length_append, List.length_drop, List.length_cons, List.length_nil] at this
        simp only [List.length_cons]
        omega
      · simp at h

/-- A part of a text. -/
inductive Piece where
  | code (cs : List Char)
  | comment (cs : List Char)
  deriving DecidableEq, Repr

/-- The code and comments of a text, in order. `pending` is the code before it, from its end. -/
def pieces (pending : List Char) (cs : List Char) : List Piece :=
  match cs with
  | [] => [.code pending.reverse]
  | c :: cs =>
    match _h : comment? (c :: cs) with
    | some (comment, rest) => .code pending.reverse :: .comment comment :: pieces [] rest
    | none => pieces (c :: pending) cs
termination_by cs.length
decreasing_by
  · exact comment?_length _h
  · exact Nat.lt_succ_self _

end Hql.Layout
