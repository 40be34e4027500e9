import Hql.Proofs.Schema.Seam

/-!
What may stand between two tokens: blanks, and comments with the line feed that ends each of them.
Passing over layout takes a gap and nothing else, whatever comes after it.
-/

namespace Hql.Schema

open Text

/-- Blanks and whole comments. -/
inductive IsGap : List Char → Prop
  | nil : IsGap []
  | blank {c : Char} {cs : List Char} : isLayoutChar c = true → IsGap cs → IsGap (c :: cs)
  | comment {note cs : List Char} : '\n' ∉ note → IsGap cs →
      IsGap ('/' :: '/' :: (note ++ '\n' :: cs))

theorem skipLayout_slashes (cs : List Char) : skipLayout false ('/' :: '/' :: cs) = skipLayout true cs :=
  rfl

theorem skipLayout_comment {note : List Char} (h : '\n' ∉ note) (cs : List Char) :
    skipLayout true (note ++ '\n' :: cs) = skipLayout false cs := by
  induction note with
  | nil => rfl
  | cons c note ih =>
    obtain ⟨hc, hnote⟩ := not_or.1 (List.mem_cons.not.1 h)
    rw [List.cons_append, skipLayout, if_pos rfl, bne_iff_ne.2 (Ne.symm hc)]
    exact ih hnote

namespace IsGap

theorem append {a b : List Char} (ha : IsGap a) (hb : IsGap b) : IsGap (a ++ b) := by
  induction ha with
  | nil => exact hb
  | blank hc _ ih => exact .blank hc ih
  | @comment note cs hnote _ ih =>
    rw [List.cons_append, List.cons_append, List.append_assoc, List.cons_append]
    exact .comment hnote ih

theorem skipLayout_append {gap : List Char} (h : IsGap gap) (cs : List Char) :
    skipLayout false (gap ++ cs) = skipLayout false cs := by
  induction h with
  | nil => rfl
  | blank hc _ ih => rw [List.cons_append, skipLayout, if_neg Bool.false_ne_true, if_pos hc, ih]
  | @comment note more hnote _ ih =>
    rw [List.cons_append, List.cons_append, List.append_assoc, List.cons_append, skipLayout_slashes,
      skipLayout_comment hnote, ih]

theorem newline {gap : List Char} (h : IsGap gap) : IsGap (gap ++ ['\n']) :=
  h.append (.blank (by decide) .nil)

/-- Also within a comment a gap leads to nothing but layout: the first line feed of a gap ends the
comment and none of the gap's own comments is cut by it. -/
theorem skipLayout_eq_nil {gap : List Char} (h : IsGap gap) (inComment : Bool) :
    skipLayout inComment gap = [] := by
  cases inComment with
  | false => rw [← List.append_nil gap, h.skipLayout_append, skipLayout]
  | true =>
    induction h with
    | nil => rfl
    | @blank c cs _ hcs ih =>
      rw [skipLayout, if_pos rfl]
      cases c != '\n' with
      | true => exact ih
      | false => rw [← List.append_nil cs, hcs.skipLayout_append, skipLayout]
    | @comment note cs hnote hcs _ =>
      have hmark : '\n' ∉ '/' :: '/' :: note := by simpa using hnote
      have hskip := skipLayout_comment hmark cs
      rw [List.cons_append, List.cons_append] at hskip
      rw [hskip, ← List.append_nil cs, hcs.skipLayout_append, skipLayout]

end IsGap

/-- Layout that has been passed over is a gap, after the rest of the comment that the text may start
in. -/
theorem exists_gap_of_skipLayout {inComment : Bool} {cs : List Char} (h : skipLayout inComment cs ≠ []) :
    ∃ note gap, cs = note ++ gap ++ skipLayout inComment cs ∧ IsGap gap ∧
      if inComment then ∃ line, note = line ++ ['\n'] ∧ '\n' ∉ line else note = [] := by
  induction cs generalizing inComment with
  | nil => exact absurd rfl h
  | cons c cs ih =>
    cases inComment with
    | true =>
      rw [skipLayout, if_pos rfl] at h ⊢
      by_cases hc : c = '\n'
      · subst hc
        obtain ⟨note, gap, hcs, hgap, hnote⟩ := ih h
        obtain rfl : note = [] := hnote
        exact ⟨['\n'], gap, congrArg ('\n' :: ·) hcs, hgap, [], rfl, List.not_mem_nil⟩
      · have hne : (c != '\n') = true := bne_iff_ne.2 hc
        rw [hne] at h ⊢
        obtain ⟨note, gap, hcs, hgap, line, rfl, hline⟩ := ih h
        refine ⟨c :: (line ++ ['\n']), gap, congrArg (c :: ·) hcs, hgap, c :: line, rfl, ?_⟩
        exact List.mem_cons.not.2 (not_or.2 ⟨Ne.symm hc, hline⟩)
    | false =>
      rw [skipLayout, if_neg Bool.false_ne_true] at h ⊢
      by_cases hblank : isLayoutChar c = true
      · rw [if_pos hblank] at h ⊢
        obtain ⟨note, gap, hcs, hgap, hnote⟩ := ih h
        obtain rfl : note = [] := hnote
        exact ⟨[], c :: gap, congrArg (c :: ·) hcs, .blank hblank hgap, rfl⟩
      · rw [if_neg hblank] at h ⊢
        by_cases hslash : (c == '/' && cs.head? == some '/') = true
        · rw [if_pos hslash] at h ⊢
          obtain ⟨note, gap, hcs, hgap, line, rfl, hline⟩ := ih h
          obtain ⟨hc, hhead⟩ := Bool.and_eq_true_iff.1 hslash
          obtain rfl := beq_iff_eq.1 hc
          have hhead : cs.head? = some '/' := beq_iff_eq.1 hhead
          -- the comment starts with the second slash, so it is not empty
          obtain ⟨line', rfl⟩ : ∃ line', line = '/' :: line' := by
            rw [hcs] at hhead
            cases line with
            | nil => exact absurd (Option.some.inj hhead) (by decide)
            | cons d line => exact ⟨line, by rw [show d = '/' from Option.some.inj hhead]⟩
          refine ⟨[], '/' :: '/' :: (line' ++ '\n' :: gap), ?_, .comment (fun hmem => ?_) hgap, rfl⟩
          · refine (congrArg ('/' :: ·) hcs).trans ?_
            simp
          · exact hline (List.mem_cons_of_mem _ hmem)
        · rw [if_neg hslash]
          exact ⟨[], [], rfl, .nil, rfl⟩

/-- A text that holds more than layout starts with a gap. -/
theorem exists_gap {cs : List Char} (h : skipLayout false cs ≠ []) :
    ∃ gap, IsGap gap ∧ cs = gap ++ skipLayout false cs := by
  obtain ⟨note, gap, hcs, hgap, hnote⟩ := exists_gap_of_skipLayout h
  obtain rfl : note = [] := hnote
  exact ⟨gap, hgap, hcs⟩

theorem skipLayout_skipLayout (inComment : Bool) (cs : List Char) :
    skipLayout false (skipLayout inComment cs) = skipLayout inComment cs := by
  by_cases h : skipLayout inComment cs = []
  · rw [h, skipLayout]
  · induction cs generalizing inComment with
    | nil => exact absurd rfl h
    | cons c cs ih =>
      rw [skipLayout] at h ⊢
      split
      · next hcomment =>
        rw [if_pos hcomment] at h
        exact ih _ h
      · next hcomment =>
        rw [if_neg hcomment] at h
        split
        · next hblank =>
          rw [if_pos hblank] at h
          exact ih _ h
        · next hblank =>
          rw [if_neg hblank] at h
          split
          · next hslash =>
            rw [if_pos hslash] at h
            exact ih _ h
          · next hslash =>
            rw [skipLayout, if_neg Bool.false_ne_true, if_neg hblank, if_neg hslash]

/-! ### Layout continues no token -/

theorem apart_of_isLayoutChar {c : Char} (h : isLayoutChar c = true) (cs : List Char) :
    Apart (c :: cs) := by
  rintro d ⟨⟩
  simp only [isLayoutChar, Bool.or_eq_true, beq_iff_eq] at h
  rcases h with (((rfl | rfl) | rfl) | rfl) | rfl <;> decide

theorem apart_slash (cs : List Char) : Apart ('/' :: cs) := by
  rintro d ⟨⟩
  decide

theorem IsGap.apart {gap : List Char} (h : IsGap gap) (hne : gap ≠ []) (cs : List Char) :
    Apart (gap ++ cs) := by
  cases h with
  | nil => exact absurd rfl hne
  | blank hc _ => exact apart_of_isLayoutChar hc _
  | comment _ _ => exact apart_slash _

/-- A text of layout alone, with anything but a token after it. -/
theorem apart_of_skipLayout {cs : List Char} (h : skipLayout false cs = []) {more : List Char}
    (hmore : Apart more) : Apart (cs ++ more) := by
  cases cs with
  | nil => exact hmore
  | cons c cs =>
    rw [skipLayout, if_neg Bool.false_ne_true] at h
    by_cases hblank : isLayoutChar c = true
    · exact apart_of_isLayoutChar hblank _
    · rw [if_neg hblank] at h
      by_cases hslash : (c == '/' && cs.head? == some '/') = true
      · obtain rfl := beq_iff_eq.1 (Bool.and_eq_true_iff.1 hslash).1
        exact apart_slash _
      · rw [if_neg hslash] at h
        cases h

/-- Layout stays layout when a gap comes after it, even in an open comment. -/
theorem skipLayout_append_gap {cs gap : List Char} (hgap : IsGap gap) {inComment : Bool}
    (h : skipLayout inComment cs = []) : skipLayout inComment (cs ++ gap) = [] := by
  induction cs generalizing inComment with
  | nil => exact hgap.skipLayout_eq_nil inComment
  | cons c cs ih =>
    rw [List.cons_append, skipLayout]
    rw [skipLayout] at h
    split
    · next hcomment =>
      rw [if_pos hcomment] at h
      exact ih h
    · next hcomment =>
      rw [if_neg hcomment] at h
      split
      · next hblank =>
        rw [if_pos hblank] at h
        exact ih h
      · next hblank =>
        rw [if_neg hblank] at h
        by_cases hslash : (c == '/' && cs.head? == some '/') = true
        · rw [if_pos hslash] at h
          have hhead : cs.head? = some '/' := beq_iff_eq.1 (Bool.and_eq_true_iff.1 hslash).2
          have hsame : (cs ++ gap).head? = cs.head? := by rw [List.head?_append, hhead]; rfl
          rw [hsame, if_pos hslash]
          exact ih h
        · rw [if_neg hslash] at h
          cases h

end Hql.Schema
