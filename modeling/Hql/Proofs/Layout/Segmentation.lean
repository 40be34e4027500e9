import Hql.Layout.Document

/-!
The division of a text into segments, line by line. A block is closed before the next one can start,
so none is broken into: the invariant is that a block stays open only before lines that belong to it.
Main statement: every text is divided into loose lines and whole blocks, and no line is lost but the
blank ones between them.
-/

namespace Hql.Layout

open Text

/-- The lines of a whole block: the first one starts a block, and no other does. -/
def IsBlock : List (List Char) → Prop
  | [] => False
  | first :: more => startsBlock (trim first) = true ∧ ∀ l ∈ more, startsBlock (trim l) = false

/-- Lines divided into segments. What is left out is blank and stands in no block. -/
inductive Divided : List (List Char) → List Segment → Prop
  | nil : Divided [] []
  | blank {line : List Char} {more : List (List Char)} {segments : List Segment} :
      isBlankLine line = true → Divided more segments → Divided (line :: more) segments
  | loose {line : List Char} {more : List (List Char)} {segments : List Segment} :
      isBlankLine line = false → startsBlock (trim line) = false → Divided more segments →
        Divided (line :: more) (.loose line :: segments)
  | block {block more : List (List Char)} {segments : List Segment} :
      IsBlock block → Divided more segments → Divided (block ++ more) (.block block :: segments)

/-! ### One line -/

/-- What a line does if `current` is the block that is open before it and `more` are the lines after
it: the segments that it completes, and the block that is open after it. -/
def takeLine (current : Option (List (List Char))) (line : List Char) (more : List (List Char)) :
    List Segment × Option (List (List Char)) :=
  let extend (block : List (List Char)) : List Segment × Option (List (List Char)) :=
    if endsBefore more then ([.block block], none) else ([], some block)
  match current with
  | none =>
    if isBlankLine line then ([], none)
    else if startsBlock (trim line) then extend [line]
    else ([.loose line], none)
  | some block =>
    if startsBlock (trim line) then (.broken block :: (extend [line]).1, (extend [line]).2)
    else extend (block ++ [line])

/-- The segments of a text are those that its lines complete, one line after the other. -/
theorem segmentsOf_cons (current : Option (List (List Char))) (line : List Char)
    (more : List (List Char)) : segmentsOf current (line :: more) =
      (takeLine current line more).1 ++ segmentsOf (takeLine current line more).2 more := by
  cases current with
  | none =>
    simp only [segmentsOf, takeLine]
    split
    · rfl
    · split
      · split <;> rfl
      · rfl
  | some block =>
    simp only [segmentsOf, takeLine]
    split
    · split <;> rfl
    · split <;> rfl

/-- A block ends before a line that starts one. -/
theorem endsBefore_of_startsBlock {line : List Char} (h : startsBlock (trim line) = true)
    (more : List (List Char)) : endsBefore (line :: more) = true := by
  have hblank : isBlankLine line = false := by
    rw [isBlankLine, List.isEmpty_eq_false_iff]
    intro hnil
    rw [hnil] at h
    exact absurd h (by decide)
  have hdrop : (line :: more).dropWhile isBlankLine = line :: more :=
    List.dropWhile_cons_of_neg (by rw [hblank]; decide)
  rw [endsBefore, hdrop, if_neg (by simp)]
  exact Bool.or_eq_true_iff.2 (.inl h)

/-- The invariant of the division: an open block is one so far, and it does not end before the lines
to come. -/
def StaysOpen (current : Option (List (List Char))) (rest : List (List Char)) : Prop :=
  ∀ block ∈ current, IsBlock block ∧ endsBefore rest = false

theorem StaysOpen.none (rest : List (List Char)) : StaysOpen none rest := by
  rintro block ⟨⟩

/-- No block is open before a line that starts one. -/
theorem StaysOpen.eq_none {current : Option (List (List Char))} {line : List Char}
    {more : List (List Char)} (h : StaysOpen current (line :: more))
    (hstarts : startsBlock (trim line) = true) : current = .none := by
  cases current with
  | none => rfl
  | some block =>
    have hends := endsBefore_of_startsBlock hstarts more
    rw [(h block rfl).2] at hends
    cases hends

/-- No block is open after the last line. -/
theorem StaysOpen.eq_none_of_nil {current : Option (List (List Char))} (h : StaysOpen current []) :
    current = .none := by
  cases current with
  | none => rfl
  | some block => exact absurd (h block rfl).2 (by decide)

/-- What a line can do: it is left out or stands alone, or it belongs to a block and closes it or
keeps it open. No block is broken into. -/
inductive Takes (more : List (List Char)) (line : List Char) :
    Option (List (List Char)) → List Segment × Option (List (List Char)) → Prop
  | blank : isBlankLine line = true → Takes more line none ([], none)
  | loose : isBlankLine line = false → startsBlock (trim line) = false →
      Takes more line none ([.loose line], none)
  | close {current : Option (List (List Char))} : IsBlock (current.getD [] ++ [line]) →
      endsBefore more = true → Takes more line current ([.block (current.getD [] ++ [line])], none)
  | extend {current : Option (List (List Char))} : IsBlock (current.getD [] ++ [line]) →
      endsBefore more = false → Takes more line current ([], some (current.getD [] ++ [line]))

theorem IsBlock.append {block : List (List Char)} {line : List Char} (h : IsBlock block)
    (hline : startsBlock (trim line) = false) : IsBlock (block ++ [line]) := by
  cases block with
  | nil => exact h.elim
  | cons first more =>
    obtain ⟨hfirst, hmore⟩ := h
    refine ⟨hfirst, fun l hl => ?_⟩
    rcases List.mem_append.1 hl with hl | hl
    · exact hmore l hl
    · obtain rfl := List.mem_singleton.1 hl
      exact hline

theorem takes_takeLine {current : Option (List (List Char))} {line : List Char}
    {more : List (List Char)} (h : StaysOpen current (line :: more)) :
    Takes more line current (takeLine current line more) := by
  -- both ways to belong to a block: as its first line, and behind its other lines
  have hextend (hblock : IsBlock (current.getD [] ++ [line])) : Takes more line current
      (if endsBefore more then ([.block (current.getD [] ++ [line])], none)
        else ([], some (current.getD [] ++ [line]))) := by
    split
    · rename_i hends
      exact .close hblock hends
    · rename_i hgoes
      exact .extend hblock (Bool.eq_false_iff.2 hgoes)
  cases hstarts : startsBlock (trim line) with
  | true =>
    obtain rfl := h.eq_none hstarts
    have hblank : isBlankLine line = false := by
      rw [isBlankLine, List.isEmpty_eq_false_iff]
      intro hnil
      rw [hnil] at hstarts
      exact absurd hstarts (by decide)
    simp only [takeLine, hblank, hstarts, Bool.false_eq_true, if_true, if_false]
    exact hextend ⟨hstarts, by simp⟩
  | false =>
    cases current with
    | none =>
      cases hblank : isBlankLine line with
      | true => simpa only [takeLine, hblank, if_true] using Takes.blank hblank
      | false =>
        simpa only [takeLine, hblank, hstarts, Bool.false_eq_true, if_false] using
          Takes.loose hblank hstarts
    | some block =>
      simp only [takeLine, hstarts, Bool.false_eq_true, if_false]
      exact hextend ((h block rfl).1.append hstarts)

/-- Every line keeps the invariant. -/
theorem StaysOpen.takeLine {current : Option (List (List Char))} {line : List Char}
    {more : List (List Char)} (h : StaysOpen current (line :: more)) :
    StaysOpen (takeLine current line more).2 more := by
  have htakes := takes_takeLine h
  generalize Layout.takeLine current line more = taken at htakes ⊢
  cases htakes with
  | blank hblank => exact .none more
  | loose hblank hstarts => exact .none more
  | close hblock hends => exact .none more
  | extend hblock hgoes =>
    rintro block ⟨⟩
    exact ⟨hblock, hgoes⟩

/-! ### All lines -/

/-- The states that the division of lines goes through: the segments completed, the block that is
open, and the lines to come. -/
inductive Reaches (ls : List (List Char)) :
    List Segment → Option (List (List Char)) → List (List Char) → Prop
  | start : Reaches ls [] none ls
  | line {done : List Segment} {current : Option (List (List Char))} {line : List Char}
      {more : List (List Char)} : Reaches ls done current (line :: more) →
        Reaches ls (done ++ (takeLine current line more).1) (takeLine current line more).2 more

/-- In every state the invariant holds, and the segments to come are those of the lines to come. -/
theorem Reaches.invariant {ls rest : List (List Char)} {done : List Segment}
    {current : Option (List (List Char))} (h : Reaches ls done current rest) :
    StaysOpen current rest ∧ segmentsOf none ls = done ++ segmentsOf current rest := by
  induction h with
  | start => exact ⟨.none ls, rfl⟩
  | line _ ih =>
    obtain ⟨hopen, hsegments⟩ := ih
    refine ⟨hopen.takeLine, ?_⟩
    rw [hsegments, segmentsOf_cons, List.append_assoc]

/-- From every state the division goes on to the last line. -/
theorem Reaches.finish {ls rest : List (List Char)} {done : List Segment}
    {current : Option (List (List Char))} (h : Reaches ls done current rest) :
    Reaches ls (done ++ segmentsOf current rest) none [] := by
  induction rest generalizing done current with
  | nil =>
    obtain rfl := h.invariant.1.eq_none_of_nil
    simpa [segmentsOf] using h
  | cons line more ih =>
    have hnext := ih h.line
    rwa [List.append_assoc, ← segmentsOf_cons] at hnext

/-- Lines behind an open block are divided together with the lines of the block. -/
theorem StaysOpen.divided {current : Option (List (List Char))} {rest : List (List Char)}
    (h : StaysOpen current rest) : Divided (current.getD [] ++ rest) (segmentsOf current rest) := by
  induction rest generalizing current with
  | nil =>
    obtain rfl := h.eq_none_of_nil
    exact .nil
  | cons line more ih =>
    have hmore := ih h.takeLine
    have htakes := takes_takeLine h
    have hlines : current.getD [] ++ line :: more = current.getD [] ++ [line] ++ more := by simp
    rw [segmentsOf_cons]
    generalize Layout.takeLine current line more = taken at htakes hmore ⊢
    cases htakes with
    | blank hblank => exact .blank hblank hmore
    | loose hblank hstarts => exact .loose hblank hstarts hmore
    | close hblock hends =>
      rw [hlines]
      exact .block hblock hmore
    | extend hblock hgoes =>
      rw [hlines]
      exact hmore

/-- A text is divided line by line. No block is open before a line that starts one, nor after the last
line; so the segments are loose lines and whole blocks, and together they are the lines of the text
without the blank ones outside blocks. Each segment is laid out once, in this order. -/
theorem divided_segmentsOf (cs : List Char) :
    (∀ done current line more, Reaches (lines cs) done current (line :: more) →
      startsBlock (trim line) = true → current = none) ∧
    (∀ done current, Reaches (lines cs) done current [] →
      current = none ∧ done = segmentsOf none (lines cs)) ∧
    Reaches (lines cs) (segmentsOf none (lines cs)) none [] ∧
    Divided (lines cs) (segmentsOf none (lines cs)) ∧
    formatChars cs = trim (partComments false 0 (limitBreaks 0
      (['\n'].intercalate ((segmentsOf none (lines cs)).flatMap Segment.lines)))) := by
  refine ⟨fun done current line more hreach hstarts => ?_, fun done current hreach => ?_, ?_, ?_, rfl⟩
  · exact hreach.invariant.1.eq_none hstarts
  · obtain ⟨hopen, hsegments⟩ := hreach.invariant
    obtain rfl := hopen.eq_none_of_nil
    rw [segmentsOf, List.append_nil] at hsegments
    exact ⟨rfl, hsegments.symm⟩
  · exact Reaches.start.finish
  · exact (StaysOpen.none (lines cs)).divided

end Hql.Layout
