import Hql.Proofs.Layout.Lines

/-!
Texts that are one query. However such a text is broken into lines, all of them belong to one block,
and the block is laid out from what is left of it with one space for each run of blanks. So the layout
of a query does not depend on how it was laid out before.
-/

namespace Hql

namespace Text

/-- An occurrence stays the first one when more text follows. -/
theorem splitFirst?_append_right {sought cs : List Char} {p : List Char × List Char}
    (h : splitFirst? sought cs = some p) (more : List Char) :
    splitFirst? sought (cs ++ more) = some (p.1, p.2 ++ more) := by
  induction cs generalizing p with
  | nil =>
    rw [splitFirst?] at h
    split at h
    · rename_i hsought
      obtain rfl := Option.some.inj h
      obtain rfl := List.isEmpty_iff.1 hsought
      cases more <;> rfl
    · cases h
  | cons c cs ih =>
    rw [List.cons_append, splitFirst?]
    rw [splitFirst?] at h
    split at h
    · rename_i hprefix
      obtain rfl := Option.some.inj h
      obtain ⟨rest, hrest⟩ := List.isPrefixOf_iff_prefix.1 hprefix
      have hlong : sought.isPrefixOf (c :: (cs ++ more)) = true := by
        rw [List.isPrefixOf_iff_prefix, ← List.cons_append, ← hrest, List.append_assoc]
        exact List.prefix_append ..
      rw [if_pos hlong, ← List.cons_append, ← hrest, List.append_assoc, List.drop_left, List.drop_left]
    · rename_i hprefix
      obtain ⟨q, hq, rfl⟩ := Option.map_eq_some_iff.1 h
      -- a text that occurs later on is too short to reach into what follows
      have hlen : sought.length ≤ (c :: cs).length := by
        have hlength := congrArg List.length (splitFirst?_eq_some hq)
        simp only [List.length_append] at hlength
        simp only [List.length_cons]
        omega
      have hshort : ¬ sought.isPrefixOf (c :: (cs ++ more)) = true := by
        rw [List.isPrefixOf_iff_prefix, ← List.cons_append]
        intro hlong
        exact hprefix (List.isPrefixOf_iff_prefix.2
          (List.prefix_of_prefix_length_le hlong (List.prefix_append ..) hlen))
      rw [if_neg hshort, ih hq]
      rfl

end Text

namespace Layout

open Text

theorem trim_append_blanks {cs blanks : List Char} (h : ∀ c ∈ blanks, isBlank c = true) :
    trim (cs ++ blanks) = trim cs := by
  obtain ⟨a, b, hcs, ha, hb⟩ := exists_blanks_trim cs
  have hback : ∀ c ∈ b ++ blanks, isBlank c = true := List.forall_mem_append.2 ⟨hb, h⟩
  have htrim := trim_between ha hback (not_isBlank_head_trim cs) (not_isBlank_getLast_trim cs)
  rwa [← List.append_assoc, ← hcs] at htrim

/-! ### Texts on one line -/

/-- The text with one space for each run of blanks and none at its ends. -/
def collapsed (cs : List Char) : List Char := trim (squeeze false cs)

theorem squeeze_eq (cs : List Char) :
    squeeze false cs = written (tokens false cs) ++ gapChars (gapAfter false cs) :=
  squeeze_eq_written false cs

theorem collapsed_eq (cs : List Char) : collapsed cs = written (flush (tokens false cs)) := by
  rw [collapsed, squeeze_eq, trim_written (fits_tokens false cs)]

/-- Collapsing takes a space at most from either end of a squeezed text. -/
theorem squeeze_eq_collapsed (cs : List Char) :
    ∃ front back, squeeze false cs = gapChars front ++ collapsed cs ++ gapChars back := by
  refine ⟨(tokens false cs).head?.any Prod.fst, gapAfter false cs, ?_⟩
  rw [squeeze_eq, written_eq_gapChars, collapsed_eq]

theorem lexemes_collapsed (cs : List Char) : lexemes (collapsed cs) = lexemes cs := by
  have hfits : Fits (flush (tokens false cs)) := (fits_tokens false cs).flush
  rw [collapsed_eq, lexemes, tokens_written hfits, withGap_false, map_snd_flush, lexemes]

/-- A gap before a text is a matter of its first token alone. -/
theorem flush_tokens (gap : Bool) (cs : List Char) :
    flush (tokens gap cs) = flush (tokens false cs) := by
  induction cs using tokens_induction with
  | nil => rfl
  | colons cs => rfl
  | blank c cs hc => rw [tokens_blank hc, tokens_blank hc]
  | word c cs hc =>
    rw [tokens_wordChar hc, tokens_wordChar hc]
    unfold joinWord
    split <;> rfl
  | mark c cs hblank hword hcolons =>
    rw [tokens_mark hblank hword hcolons, tokens_mark hblank hword hcolons]
    rfl

theorem isBlank_of_isBlankLine {l : List Char} (h : isBlankLine l = true) :
    ∀ c ∈ l, isBlank c = true := by
  intro c hc
  by_contra hblank
  rw [isBlankLine_eq_false hc (Bool.eq_false_iff.2 hblank)] at h
  cases h

theorem flush_tokens_blanks {blanks : List Char} (h : ∀ c ∈ blanks, isBlank c = true) (cs : List Char) :
    flush (tokens false (blanks ++ cs)) = flush (tokens false cs) := by
  rw [tokens_blanks h, flush_tokens]

/-- Blank lines in front of other lines leave nothing. -/
theorem collapsed_dropWhile (ls : List (List Char)) :
    collapsed (oneLine (ls.dropWhile isBlankLine)) = collapsed (oneLine ls) := by
  induction ls with
  | nil => rfl
  | cons l ls ih =>
    cases hl : isBlankLine l with
    | false => rw [List.dropWhile_cons_of_neg (by rw [hl]; decide)]
    | true =>
      have hblanks := isBlank_of_isBlankLine hl
      rw [List.dropWhile_cons_of_pos hl, ih, collapsed_eq, collapsed_eq]
      cases ls with
      | nil =>
        have hnone := flush_tokens_blanks hblanks []
        have hline : oneLine [l] = l ++ [] := by simp [oneLine]
        rw [hline, hnone]
        rfl
      | cons m ls =>
        have hline : oneLine (l :: m :: ls) = (l ++ [' ']) ++ oneLine (m :: ls) := by
          rw [oneLine, oneLine, List.intercalate_cons_cons, List.append_assoc]
        have hfront : ∀ c ∈ l ++ [' '], isBlank c = true := by
          simpa [or_imp, forall_and] using ⟨hblanks, by decide⟩
        rw [hline, flush_tokens_blanks hfront]

theorem collapsed_oneLine_lines (cs : List Char) : collapsed (oneLine (lines cs)) = collapsed cs := by
  rw [collapsed_eq, tokens_oneLine_lines, ← collapsed_eq]

/-! ### One query -/

/-- A text that is one query: a word that starts a block, and behind a space the signature, the first
arrow and the body. No other word in it starts a block. -/
structure IsQuery (cs keyword signature body : List Char) : Prop where
  text : collapsed cs = keyword ++ ' ' :: (signature ++ ['=', '>'] ++ body)
  keyword : isBlockWord keyword = true
  arrow : splitFirst? ['=', '>'] (signature ++ ['=', '>'] ++ body) = some (signature, body)
  alone : startsBlock (signature ++ ['=', '>'] ++ body) = false

/-- The parts of a query, without blanks at their ends. -/
def blockOf (keyword signature body : List Char) : Block := ⟨keyword, trim signature, trim body⟩

theorem isSound_of_isBlockWord {w : List Char} (h : isBlockWord w = true) : (Token.word w).IsSound := by
  have hne : w ≠ [] := by
    rintro rfl
    exact absurd h (by decide)
  refine ⟨hne, fun c hc => ?_⟩
  by_contra hword
  rw [Bool.not_eq_true] at hword
  rw [isBlockWord, equalsFolded_eq_false hc hword (by decide),
    equalsFolded_eq_false hc hword (by decide)] at h
  cases h

namespace IsQuery

variable {cs keyword signature body : List Char} (h : IsQuery cs keyword signature body)

include h

theorem lexemes_eq : lexemes cs =
    .word keyword :: lexemes (signature ++ ['=', '>'] ++ body) := by
  have hword : lexemes keyword = [.word keyword] := by
    have htokens := tokens_chars (isSound_of_isBlockWord h.keyword) false
    rw [Token.chars] at htokens
    rw [lexemes, htokens]
    rfl
  rw [← lexemes_collapsed, h.text, lexemes_append (seam_of_not_glues (by decide) (by decide) _), hword,
    lexemes_space]
  rfl

/-- The first line that is not blank starts the block, and no later line starts one. -/
theorem lines_eq : ∃ first more, (lines cs).dropWhile isBlankLine = first :: more ∧
    isBlankLine first = false ∧ startsBlock (trim first) = true ∧
    ∀ l ∈ more, startsBlock (trim l) = false := by
  have hsplit := List.takeWhile_append_dropWhile (p := isBlankLine) (l := lines cs)
  have hnone : ∀ l : List Char, isBlankLine l = true → lexemes l = [] := by
    intro l hl
    have hblanks := lexemes_blanks (isBlank_of_isBlankLine hl) []
    rwa [List.append_nil] at hblanks
  have hdrop : ((lines cs).dropWhile isBlankLine).flatMap lexemes = lexemes cs := by
    have hfront : ((lines cs).takeWhile isBlankLine).flatMap lexemes = [] :=
      List.flatMap_eq_nil_iff.2 fun l hl => hnone l (List.mem_takeWhile_imp hl)
    rw [← flatMap_lexemes_lines cs]
    conv_rhs => rw [← hsplit, List.flatMap_append, hfront, List.nil_append]
  rw [h.lexemes_eq] at hdrop
  cases hlines : (lines cs).dropWhile isBlankLine with
  | nil =>
    rw [hlines] at hdrop
    cases hdrop
  | cons first more =>
    have hblank : isBlankLine first = false := by
      have hhead := List.head?_dropWhile_not isBlankLine (lines cs)
      rw [hlines] at hhead
      exact hhead
    rw [hlines, List.flatMap_cons] at hdrop
    -- a line that is not blank has a token, so the word of the block is on the first line
    cases hfirst : lexemes first with
    | nil =>
      have hchars := flatMap_chars_lexemes first
      rw [hfirst, withoutBlanks] at hchars
      have hall : ∀ c ∈ first, isBlank c = true := by
        simpa using List.filter_eq_nil_iff.1 hchars.symm
      rw [isBlankLine, trim_eq_nil hall] at hblank
      cases hblank
    | cons t ts =>
      rw [hfirst, List.cons_append] at hdrop
      obtain ⟨rfl, hrest⟩ := List.cons.inj hdrop
      refine ⟨first, more, rfl, hblank, ?_, fun l hl => ?_⟩
      · rw [startsBlock_eq, lexemes_trim, hfirst]
        exact Bool.or_eq_true_iff.2 (.inl h.keyword)
      · have halone := h.alone
        rw [startsBlock_eq, ← hrest, List.any_eq_false] at halone
        rw [startsBlock_eq, lexemes_trim, List.any_eq_false]
        intro w hw
        refine halone w ?_
        rw [words, List.filterMap_append, List.filterMap_flatMap]
        exact List.mem_append_right _ (List.mem_flatMap.2 ⟨l, hl, hw⟩)

end IsQuery

/-! ### One block -/

theorem segmentsOf_dropWhile (ls : List (List Char)) :
    segmentsOf none (ls.dropWhile isBlankLine) = segmentsOf none ls := by
  induction ls with
  | nil => rfl
  | cons l ls ih =>
    cases hl : isBlankLine l with
    | true => rw [List.dropWhile_cons_of_pos hl, ih, segmentsOf, if_pos hl]
    | false => rw [List.dropWhile_cons_of_neg (by rw [hl]; decide)]

/-- Lines of which none starts a block do not end the block before them. -/
theorem endsBefore_of_not_startsBlock {more : List (List Char)} (hne : more ≠ [])
    (h : ∀ l ∈ more, startsBlock (trim l) = false) : endsBefore more = false := by
  have hsub {l : List Char} {ls rest : List (List Char)} (hrest : ∀ m ∈ rest, m ∈ more)
      (hdrop : rest.dropWhile isBlankLine = l :: ls) :
      startsBlock (trim l) = false ∧ ∀ m ∈ ls, m ∈ more := by
    have hmem : ∀ m ∈ l :: ls, m ∈ more := fun m hm =>
      hrest m ((List.dropWhile_suffix _).subset (by rwa [hdrop]))
    exact ⟨h l (hmem l (List.mem_cons_self ..)), fun m hm => hmem m (List.mem_cons_of_mem _ hm)⟩
  rw [endsBefore, if_neg (by simpa using hne)]
  split
  · rfl
  · rename_i line rest hdrop
    obtain ⟨hline, hrest⟩ := hsub (fun m hm => hm) hdrop
    rw [hline, Bool.false_or, Bool.and_eq_false_iff]
    split
    · exact .inr rfl
    · rename_i next rest' hdrop'
      exact .inr (hsub hrest hdrop').1

theorem segmentsOf_some {more : List (List Char)} (hne : more ≠ [])
    (h : ∀ l ∈ more, startsBlock (trim l) = false) (block : List (List Char)) :
    segmentsOf (some block) more = [.block (block ++ more)] := by
  induction more generalizing block with
  | nil => exact absurd rfl hne
  | cons l more ih =>
    obtain ⟨hl, hmore⟩ := List.forall_mem_cons.1 h
    rw [segmentsOf]
    dsimp only
    rw [hl, if_neg (by decide)]
    cases more with
    | nil => rfl
    | cons m more =>
      rw [endsBefore_of_not_startsBlock (by simp) hmore, if_neg (by decide), ih (by simp) hmore,
        List.append_assoc, List.singleton_append]

namespace IsQuery

variable {cs keyword signature body : List Char} (h : IsQuery cs keyword signature body)

include h

/-- All lines of a query belong to its block. -/
theorem segmentsOf_lines :
    segmentsOf none (lines cs) = [.block ((lines cs).dropWhile isBlankLine)] := by
  obtain ⟨first, more, hlines, hblank, hstarts, hmore⟩ := h.lines_eq
  rw [← segmentsOf_dropWhile, hlines, segmentsOf]
  dsimp only
  rw [hblank, if_neg (by decide), hstarts, if_pos rfl]
  cases more with
  | nil => rfl
  | cons m more =>
    rw [endsBefore_of_not_startsBlock (by simp) hmore, if_neg (by decide), segmentsOf_some (by simp) hmore,
      List.singleton_append]

/-- The parts of a query are found in its lines. -/
theorem ofRuns?_eq : Block.ofRuns? (runs (squeeze false (oneLine ((lines cs).dropWhile isBlankLine)))) =
    some (blockOf keyword signature body) := by
  obtain ⟨front, back, hsqueeze⟩ := squeeze_eq_collapsed (oneLine ((lines cs).dropWhile isBlankLine))
  rw [collapsed_dropWhile, collapsed_oneLine_lines, h.text] at hsqueeze
  obtain ⟨hne, hchars⟩ := isSound_of_isBlockWord h.keyword
  -- the text from the word on
  have hword (rest : List Char) : runs (keyword ++ ' ' :: rest) = keyword :: runs (' ' :: rest) :=
    runs_word hne hchars (by simp; decide)
  have hkeyword (rest : List Char) : Block.ofRuns? (runs (keyword ++ ' ' :: rest)) =
      (splitFirst? ['=', '>'] rest).map fun p => ⟨keyword, trim p.1, trim p.2⟩ := by
    have hstart : [' '].isPrefixOf (' ' :: rest) = true := rfl
    rw [hword, Block.ofRuns?, h.keyword, flatten_runs, hstart, if_pos (by decide), List.drop_one,
      List.tail_cons]
  have hfront (rest : List Char) : Block.ofRuns? (runs (gapChars front ++ (keyword ++ ' ' :: rest))) =
      Block.ofRuns? (runs (keyword ++ ' ' :: rest)) := by
    cases front with
    | false => rfl
    | true =>
      obtain ⟨c, w, rfl⟩ := List.exists_cons_of_ne_nil hne
      have hc : isWordChar c = true := hchars c (List.mem_cons_self ..)
      have hspace : runs (' ' :: ((c :: w) ++ ' ' :: rest)) =
          [' '] :: runs ((c :: w) ++ ' ' :: rest) := by
        have hdiffer : (isWordChar ' ' == isWordChar c) = false := by rw [hc]; rfl
        rw [runs, hword]
        dsimp only
        rw [hdiffer, if_neg (by decide)]
      have hblank : isBlockWord [' '] = false := by decide
      rw [gapChars, if_pos rfl, List.singleton_append, hspace, Block.ofRuns?, hblank, Bool.false_and,
        if_neg (by decide)]
  have htext : gapChars front ++ (keyword ++ ' ' :: (signature ++ ['=', '>'] ++ body)) ++ gapChars back =
      gapChars front ++ (keyword ++ ' ' :: (signature ++ ['=', '>'] ++ body ++ gapChars back)) := by
    simp only [List.append_assoc, List.cons_append]
  rw [hsqueeze, htext, hfront, hkeyword, splitFirst?_append_right h.arrow, Option.map_some,
    trim_append_blanks isBlank_of_mem_gapChars]
  rfl

/-- A query is laid out from its parts. -/
theorem formatChars_eq : formatChars cs = trim (partComments false 0 (limitBreaks 0 (['\n'].intercalate
    (tidy (blockOf keyword signature body).header ::
      bodyLines (blockOf keyword signature body).body ++ [[]])))) := by
  have hblock := h.ofRuns?_eq
  rw [oneLine] at hblock
  rw [formatChars, h.segmentsOf_lines, List.flatMap_singleton, Segment.lines, blockLines, hblock]

end IsQuery

/-- The layout of a query does not depend on how it was laid out: texts that are the same but for their
blanks are laid out the same. -/
theorem format_eq_of_collapsed {s t : String} {keyword signature body : List Char}
    (h : IsQuery s.toList keyword signature body) (heq : collapsed s.toList = collapsed t.toList) :
    format s = format t := by
  have ht : IsQuery t.toList keyword signature body := ⟨heq ▸ h.text, h.keyword, h.arrow, h.alone⟩
  rw [format, format, h.formatChars_eq, ht.formatChars_eq]

/-- A query on one line, and broken into lines within its signature and before its returned value. -/
theorem format_eq_of_collapsed_adults :
    IsQuery "query Adults( a: I32 )=>x <- N<User>::RANGE(0, a) return x".toList "query".toList
      "Adults( a: I32 )".toList "x <- N<User>::RANGE(0, a) return x".toList ∧
    format "query Adults( a: I32 )=>x <- N<User>::RANGE(0, a) return x" =
      format "\n\tquery Adults(\r\n  a: I32\n\n)=>x <- N<User>::RANGE(0,\na)\nreturn\n x\n\n" := by
  have h : IsQuery "query Adults( a: I32 )=>x <- N<User>::RANGE(0, a) return x".toList
      "query".toList "Adults( a: I32 )".toList "x <- N<User>::RANGE(0, a) return x".toList := by
    constructor <;> decide +kernel
  exact ⟨h, format_eq_of_collapsed h (by decide +kernel)⟩

end Layout

end Hql
