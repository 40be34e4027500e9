import Hql.Proofs.Layout.Lines

/-!
Blank lines of texts laid out. Two passes go over the line feeds of the laid-out lines: the first one
takes away all but two in a row, and the second one sets the distance between code and a comment below
it. Main statement: whatever the text was, its layout has no blanks at its ends, never more than one
blank line in a row, and exactly one between code and a comment below it.
-/

namespace Hql.Layout

open Text

/-! ### Line feeds in a row -/

/-- Nowhere in a text, with `count` line feeds in front of it, are there more than two in a row. -/
def FewBreaks (count : Nat) : List Char → Prop
  | [] => count ≤ 2
  | c :: cs => if c = '\n' then FewBreaks (count + 1) cs else count ≤ 2 ∧ FewBreaks 0 cs

theorem fewBreaks_replicate (count k : Nat) (cs : List Char) :
    FewBreaks count (List.replicate k '\n' ++ cs) ↔ FewBreaks (count + k) cs := by
  induction k generalizing count with
  | zero => rfl
  | succ k ih =>
    rw [List.replicate_succ, List.cons_append, FewBreaks, if_pos rfl, ih]
    exact iff_of_eq (congrArg (FewBreaks · cs) (by omega))

theorem fewBreaks_limitBreaks {count : Nat} (h : count ≤ 2) (cs : List Char) :
    FewBreaks count (limitBreaks count cs) := by
  induction cs generalizing count with
  | nil => exact h
  | cons c cs ih =>
    rw [limitBreaks]
    split
    · split
      · rename_i hc hroom
        rw [FewBreaks, if_pos hc]
        exact ih hroom
      · exact ih h
    · rename_i hc
      rw [FewBreaks, if_neg hc]
      exact ⟨h, ih (Nat.zero_le 2)⟩

/-- The second pass writes two line feeds or as many as there were. -/
theorem fewBreaks_partComments {count : Nat} {cs : List Char} (h : FewBreaks count cs)
    (afterCode : Bool) : FewBreaks 0 (partComments afterCode count cs) := by
  induction cs generalizing afterCode count with
  | nil =>
    rw [partComments, ← List.append_nil (List.replicate count '\n'), fewBreaks_replicate, Nat.zero_add]
    exact h
  | cons c cs ih =>
    rw [partComments]
    rw [FewBreaks] at h
    split
    · rename_i hc
      rw [if_pos hc] at h
      exact ih h afterCode
    · rename_i hc
      rw [if_neg hc] at h
      dsimp only
      rw [fewBreaks_replicate, FewBreaks, if_neg hc, Nat.zero_add]
      refine ⟨?_, ih h.2 _⟩
      split
      · exact Nat.le_refl 2
      · exact h.1

/-- With three line feeds in a row there are too many. -/
theorem not_fewBreaks (count : Nat) (a b : List Char) :
    ¬ FewBreaks count (a ++ '\n' :: '\n' :: '\n' :: b) := by
  have hlong (cs : List Char) {count : Nat} (hcount : 2 < count) : ¬ FewBreaks count cs := by
    induction cs generalizing count with
    | nil => exact Nat.not_le_of_lt hcount
    | cons c cs ih =>
      rw [FewBreaks]
      split
      · exact ih (Nat.lt_succ_of_lt hcount)
      · exact fun h => absurd h.1 (Nat.not_le_of_lt hcount)
  induction a generalizing count with
  | nil =>
    rw [List.nil_append, FewBreaks, if_pos rfl, FewBreaks, if_pos rfl, FewBreaks, if_pos rfl]
    exact hlong b (by omega)
  | cons c a ih =>
    rw [List.cons_append, FewBreaks]
    split
    · exact ih _
    · exact fun h => ih 0 h.2

/-! ### Comments below code -/

/-- Wherever line feeds stand between code and a comment, there are two of them. `afterCode` says that
code ends before the `count` line feeds that stand before the text. -/
def Parted (afterCode : Bool) (count : Nat) : List Char → Prop
  | [] => True
  | c :: cs =>
    if c = '\n' then Parted afterCode (count + 1) cs
    else (afterCode = true → 0 < count → startsComment (c :: cs) = true → count = 2) ∧
      Parted (endsCode c) 0 cs

theorem parted_replicate (afterCode : Bool) (count k : Nat) (cs : List Char) :
    Parted afterCode count (List.replicate k '\n' ++ cs) ↔ Parted afterCode (count + k) cs := by
  induction k generalizing count with
  | zero => rfl
  | succ k ih =>
    rw [List.replicate_succ, List.cons_append, Parted, if_pos rfl, ih]
    exact iff_of_eq (congrArg (Parted afterCode · cs) (by omega))

/-- The line feeds in front of a character after the second pass. -/
theorem head_replicate (k : Nat) (cs : List Char) :
    (List.replicate k '\n' ++ cs).head? = if 0 < k then some '\n' else cs.head? := by
  cases k with
  | zero => rfl
  | succ k => rw [List.replicate_succ, List.cons_append, if_pos k.succ_pos, List.head?_cons]

/-- The second pass writes line feeds where there are some, and nothing else first. -/
theorem head_partComments (afterCode : Bool) (count : Nat) (cs : List Char) :
    (partComments afterCode count cs).head? = if 0 < count then some '\n' else cs.head? := by
  induction cs generalizing count with
  | nil =>
    rw [partComments, ← List.append_nil (List.replicate count '\n'), head_replicate]
  | cons c cs ih =>
    rw [partComments]
    split
    · rename_i hc
      rw [ih, if_pos count.succ_pos, List.head?_cons, hc, ite_self]
    · dsimp only
      rw [head_replicate, List.head?_cons, List.head?_cons]
      split <;> split <;> simp_all

theorem startsComment_cons (c : Char) (cs : List Char) : startsComment (c :: cs) =
    (c == '#' || (c == '/' && (cs.head? == some '/' || cs.head? == some '*'))) := by
  rw [Bool.eq_iff_iff]
  cases cs with
  | nil =>
    simp only [startsComment, List.isPrefixOf, Bool.or_eq_true, Bool.and_eq_true, beq_iff_eq,
      List.head?_nil]
    grind
  | cons d cs =>
    simp only [startsComment, List.isPrefixOf, Bool.or_eq_true, Bool.and_eq_true, beq_iff_eq,
      List.head?_cons, Option.some.injEq, and_true]
    grind

/-- A comment starts after the second pass where one started before it. -/
theorem startsComment_partComments (afterCode : Bool) (c : Char) (cs : List Char) :
    startsComment (c :: partComments afterCode 0 cs) = startsComment (c :: cs) := by
  rw [startsComment_cons, startsComment_cons, head_partComments]
  rfl

theorem parted_partComments (afterCode : Bool) (count : Nat) (cs : List Char) :
    Parted afterCode 0 (partComments afterCode count cs) := by
  induction cs generalizing afterCode count with
  | nil =>
    rw [partComments, ← List.append_nil (List.replicate count '\n'), parted_replicate]
    trivial
  | cons c cs ih =>
    rw [partComments]
    split
    · exact ih afterCode (count + 1)
    · rename_i hc
      dsimp only
      rw [parted_replicate, Parted, if_neg hc, Nat.zero_add, startsComment_partComments]
      refine ⟨fun hafter hbreaks hcomment => ?_, ih _ 0⟩
      simp only [hafter, hcomment, Bool.true_and, Bool.and_true, decide_eq_true_eq] at hbreaks ⊢
      split at hbreaks
      · rename_i hcount
        exact if_pos hcount
      · rename_i hcount
        exact absurd hbreaks hcount

/-- The line feeds between code and a comment, wherever they stand. -/
theorem Parted.eq_two {afterCode : Bool} {count : Nat} {a b : List Char} {c : Char} {n : Nat}
    (h : Parted afterCode count (a ++ c :: (List.replicate n '\n' ++ b))) (hc : endsCode c = true)
    (hn : 0 < n) (hb : startsComment b = true) : n = 2 := by
  induction a generalizing afterCode count with
  | nil =>
    have hline : c ≠ '\n' := by
      rintro rfl
      exact absurd hc (by decide)
    cases b with
    | nil => cases hb
    | cons d b =>
      have hd : d ≠ '\n' := by
        rintro rfl
        exact absurd hb (by simp [startsComment, List.isPrefixOf])
      rw [List.nil_append, Parted, if_neg hline, parted_replicate, Parted, if_neg hd, Nat.zero_add] at h
      exact h.2.1 hc hn hb
  | cons d a ih =>
    rw [List.cons_append, Parted] at h
    split at h
    · exact ih h
    · exact ih h.2

/-! ### Whole texts -/

/-- A character after which a comment on a line of its own keeps its distance: an ASCII capital or
digit, a quote, or the end of a block or of arguments. -/
def EndsCode (c : Char) : Prop :=
  ('A' ≤ c ∧ c ≤ 'Z') ∨ ('0' ≤ c ∧ c ≤ '9') ∨ c ∈ ['\'', '"', '\x7d', ')']

/-- A text starts with one of the three signs of a comment. -/
def OpensComment (cs : List Char) : Prop := ['/', '/'] <+: cs ∨ ['#'] <+: cs ∨ ['/', '*'] <+: cs

/-- A text as it is laid out: with no blanks at its ends, with no three line feeds in a row, and with
two wherever there are some between code and a comment. -/
structure IsParagraphed (cs : List Char) : Prop where
  first : ∀ c ∈ cs.head?, isBlank c = false
  last : ∀ c ∈ cs.getLast?, isBlank c = false
  breaks : ¬ ['\n', '\n', '\n'] <:+: cs
  comments : ∀ a c n b, cs = a ++ c :: (List.replicate n '\n' ++ b) → EndsCode c → 0 < n →
    OpensComment b → n = 2

theorem endsCode_of_endsCode {c : Char} (h : EndsCode c) : endsCode c = true := by
  rw [endsCode]
  rcases h with ⟨hlow, hhigh⟩ | ⟨hlow, hhigh⟩ | hmark
  · have hupper : c.isUpper = true := decide_eq_true ⟨hlow, hhigh⟩
    rw [hupper]
    rfl
  · have hdigit : c.isDigit = true :=
      Bool.and_eq_true_iff.2 ⟨decide_eq_true hlow, decide_eq_true hhigh⟩
    simp [hdigit]
  · simp only [List.mem_cons, List.not_mem_nil, or_false] at hmark
    rcases hmark with rfl | rfl | rfl | rfl <;> decide

theorem startsComment_of_opensComment {cs : List Char} (h : OpensComment cs) :
    startsComment cs = true := by
  rcases h with h | h | h <;> simp [startsComment, List.isPrefixOf_iff_prefix.2 h]

/-- The layout of every text, whatever was laid out. -/
theorem isParagraphed_format (code : String) : IsParagraphed (format code).toList := by
  obtain ⟨laid, hlaid⟩ : ∃ laid,
      (format code).toList = trim (partComments false 0 (limitBreaks 0 laid)) :=
    ⟨_, String.toList_ofList⟩
  have hfew : FewBreaks 0 (partComments false 0 (limitBreaks 0 laid)) :=
    fewBreaks_partComments (fewBreaks_limitBreaks (Nat.zero_le 2) laid) false
  have hparted := parted_partComments false 0 (limitBreaks 0 laid)
  -- what is trimmed is a part of the text that the two passes leave
  obtain ⟨x, y, htext, -, -⟩ := exists_blanks_trim (partComments false 0 (limitBreaks 0 laid))
  rw [← hlaid] at htext
  rw [htext] at hfew hparted
  constructor
  · exact hlaid ▸ not_isBlank_head_trim _
  · exact hlaid ▸ not_isBlank_getLast_trim _
  · rintro ⟨a, b, hbreaks⟩
    rw [← hbreaks] at hfew
    refine not_fewBreaks 0 (x ++ a) (b ++ y) ?_
    simpa using hfew
  · intro a c n b hcs hc hn hb
    rw [hcs] at hparted
    have hlonger {opener : List Char} (h : opener <+: b) : opener <+: b ++ y :=
      h.trans (List.prefix_append b y)
    have hb' : startsComment (b ++ y) = true :=
      startsComment_of_opensComment (hb.imp hlonger (Or.imp hlonger hlonger))
    have hall : Parted false 0 ((x ++ a) ++ c :: (List.replicate n '\n' ++ (b ++ y))) := by
      simpa using hparted
    exact hall.eq_two (endsCode_of_endsCode hc) hn hb'

end Hql.Layout
