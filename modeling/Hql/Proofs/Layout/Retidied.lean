import Hql.Proofs.Layout.Collapsed
import Hql.Proofs.Layout.Normal

/-!
Texts that are tidied again. Comments are told by their marks and by what stands directly next to them,
and tidying takes no blank away between two of these marks; so the same comments are found again in a
tidied text, with one exception. Tidying leaves no line feeds in code, so a comment to the end of its
line goes on to the next line feed that is left, which is one in a comment. Main statement: a tidied text
stays as it is if and only if no comment with a line feed stands behind a comment that ends with its line.
-/

namespace Hql

namespace Text

theorem isSome_splitFirst?_cons (sought : List Char) (c : Char) (cs : List Char) :
    (splitFirst? sought (c :: cs)).isSome =
      (sought.isPrefixOf (c :: cs) || (splitFirst? sought cs).isSome) := by
  rw [splitFirst?]
  split
  · rename_i hstarts
    rw [hstarts]
    rfl
  · rename_i hstarts
    rw [Option.isSome_map, Bool.eq_false_iff.2 hstarts, Bool.false_or]

/-- The first occurrence of a text stays the first one when other text follows it. -/
theorem splitFirst?_replace {sought a rest : List Char} (hne : sought ≠ [])
    (h : splitFirst? sought (a ++ (sought ++ rest)) = some (a, rest)) (more : List Char) :
    splitFirst? sought (a ++ (sought ++ more)) = some (a, more) := by
  induction a with
  | nil =>
    obtain ⟨c, cs, rfl⟩ := List.exists_cons_of_ne_nil hne
    have hstarts : (c :: cs).isPrefixOf (c :: (cs ++ more)) = true :=
      List.isPrefixOf_iff_prefix.2 (List.prefix_append (c :: cs) more)
    rw [List.nil_append, List.cons_append, splitFirst?, if_pos hstarts, ← List.cons_append,
      List.drop_left]
  | cons c a ih =>
    rw [List.cons_append, splitFirst?] at h
    rw [List.cons_append, splitFirst?]
    split at h
    · simp at h
    · rename_i hstarts
      obtain ⟨q, hq, heq⟩ := Option.map_eq_some_iff.1 h
      obtain ⟨hfront, hrest⟩ := Prod.mk.inj heq
      obtain rfl := (List.cons.inj hfront).2
      obtain rfl := hrest
      -- an occurrence in front of this one does not reach into what follows it
      have hshort : ¬ sought.isPrefixOf (c :: (q.1 ++ (sought ++ more))) = true := by
        rw [List.isPrefixOf_iff_prefix] at hstarts ⊢
        intro hlong
        refine hstarts ?_
        have hlen : sought.length ≤ (c :: (q.1 ++ sought)).length := by
          simp only [List.length_cons, List.length_append]
          omega
        have hfits : sought <+: c :: (q.1 ++ sought) := by
          refine List.prefix_of_prefix_length_le hlong ⟨more, ?_⟩ hlen
          simp only [List.cons_append, List.append_assoc]
        refine hfits.trans ⟨q.2, ?_⟩
        simp only [List.cons_append, List.append_assoc]
      rw [if_neg hshort, ih hq]
      rfl

end Text

namespace Layout

open Text

/-! ### Comment marks -/

/-- A character that comments are told by. -/
def isCommentMark (c : Char) : Bool := c == '/' || c == '*' || c == '#'

/-- The comment marks of a text, with one space for all that stands between two of them. `inGap` says
that such a space stands before it. -/
def sketch (inGap : Bool) : List Char → List Char
  | [] => []
  | c :: cs =>
    if isCommentMark c then c :: sketch false cs
    else if inGap then sketch true cs else ' ' :: sketch true cs

/-- Characters of a kind to which no comment mark belongs are none. -/
theorem isCommentMark_eq_false {p : Char → Bool} (hp : ∀ c ∈ ['/', '*', '#'], p c = false) {c : Char}
    (hc : p c = true) : isCommentMark c = false := by
  have hne {d : Char} (hd : d ∈ ['/', '*', '#']) : (c == d) = false := by
    refine beq_false_of_ne ?_
    rintro rfl
    rw [hp c hd] at hc
    cases hc
  rw [isCommentMark, hne (by decide), hne (by decide), hne (by decide)]
  rfl

theorem ne_of_isCommentMark {c d : Char} (hc : isCommentMark c = false)
    (hd : isCommentMark d = true) : c ≠ d := by
  rintro rfl
  rw [hd] at hc
  cases hc

theorem isCommentMark_of_isBlank {c : Char} (hc : isBlank c = true) : isCommentMark c = false :=
  isCommentMark_eq_false (by decide) hc

theorem isCommentMark_of_isWordChar {c : Char} (hc : isWordChar c = true) : isCommentMark c = false :=
  isCommentMark_eq_false (by decide) hc

theorem sketch_mark {c : Char} (hc : isCommentMark c = true) (inGap : Bool) (cs : List Char) :
    sketch inGap (c :: cs) = c :: sketch false cs := by
  rw [sketch, if_pos hc]

theorem sketch_other {c : Char} (hc : isCommentMark c = false) (inGap : Bool) (cs : List Char) :
    sketch inGap (c :: cs) = if inGap then sketch true cs else ' ' :: sketch true cs := by
  rw [sketch, hc, if_neg (by decide)]

/-- Characters that are no comment marks make no difference in a gap. -/
theorem sketch_true_append {u : List Char} (hu : ∀ c ∈ u, isCommentMark c = false) (cs : List Char) :
    sketch true (u ++ cs) = sketch true cs := by
  induction u with
  | nil => rfl
  | cons c u ih =>
    obtain ⟨hc, hu⟩ := List.forall_mem_cons.1 hu
    rw [List.cons_append, sketch_other hc, if_pos rfl, ih hu]

/-- Characters that are no comment marks leave a gap. -/
theorem sketch_append {u : List Char} (hne : u ≠ []) (hu : ∀ c ∈ u, isCommentMark c = false)
    (inGap : Bool) (cs : List Char) : sketch inGap (u ++ cs) = gapChars (!inGap) ++ sketch true cs := by
  obtain ⟨c, u, rfl⟩ := List.exists_cons_of_ne_nil hne
  obtain ⟨hc, hu⟩ := List.forall_mem_cons.1 hu
  rw [List.cons_append, sketch_other hc, sketch_true_append hu]
  cases inGap <;> rfl

theorem sketch_append_congr {a b : List Char} (h : ∀ inGap, sketch inGap a = sketch inGap b)
    (front : List Char) (inGap : Bool) : sketch inGap (front ++ a) = sketch inGap (front ++ b) := by
  induction front generalizing inGap with
  | nil => exact h inGap
  | cons c front ih => rw [List.cons_append, List.cons_append, sketch, sketch, ih, ih]

/-- A sketch of the front of a text is enough for a sketch of the text. -/
theorem sketch_sketch {inGap inGap' : Bool} (h : inGap' = true → inGap = true) (cs rest : List Char) :
    sketch inGap (sketch inGap' cs ++ rest) = sketch inGap (cs ++ rest) := by
  induction cs generalizing inGap inGap' with
  | nil => rfl
  | cons c cs ih =>
    cases hc : isCommentMark c with
    | true =>
      rw [sketch_mark hc, List.cons_append, List.cons_append, sketch_mark hc, sketch_mark hc,
        ih (by simp)]
    | false =>
      have hrest : sketch true (sketch true cs ++ rest) = sketch true (cs ++ rest) := ih fun _ => rfl
      rw [List.cons_append, sketch_other hc, sketch_other hc, ← hrest]
      cases inGap' with
      | true => rw [if_pos rfl, h rfl, if_pos rfl]
      | false => rw [if_neg (by decide), List.cons_append, sketch_other (by decide)]

/-! ### What tidying leaves of a sketch -/

theorem sketch_joinChains {pending : List Char} {after inGap : Bool}
    (hpending : ∀ c ∈ pending, isBlank c = true) (hafter : after = true → inGap = true)
    (cs : List Char) :
    sketch inGap (joinChains pending after cs) = sketch inGap (pending.reverse ++ cs) := by
  have hmarks {pending : List Char} (hpending : ∀ c ∈ pending, isBlank c = true) :
      ∀ c ∈ pending.reverse, isCommentMark c = false :=
    fun c hc => isCommentMark_of_isBlank (hpending c (List.mem_reverse.1 hc))
  fun_induction joinChains pending after cs generalizing inGap with
  | case1 pending after => rw [List.append_nil]
  | case2 pending after cs ih =>
    have hcolons : ∀ c ∈ [':', ':'], isCommentMark c = false := by decide
    have hall : ∀ c ∈ pending.reverse ++ [':', ':'], isCommentMark c = false :=
      List.forall_mem_append.2 ⟨hmarks hpending, hcolons⟩
    have hleft := sketch_append (by simp) hcolons inGap (joinChains [] true cs)
    have hright := sketch_append (by simp) hall inGap cs
    rw [List.append_assoc] at hright
    rw [show ':' :: ':' :: joinChains [] true cs = [':', ':'] ++ joinChains [] true cs from rfl, hleft,
      ih (by simp) (fun _ => rfl)]
    exact hright.symm
  | case3 pending after c cs hcolons hc ih =>
    cases after with
    | true =>
      have hall : ∀ d ∈ pending.reverse ++ [c], isCommentMark d = false :=
        List.forall_mem_append.2 ⟨hmarks hpending, by simpa using isCommentMark_of_isBlank hc⟩
      have hright := sketch_true_append hall cs
      rw [List.append_assoc] at hright
      -- a blank after colons goes away, and the sketch is in a gap already, which swallows it
      rw [hafter rfl, if_pos rfl]
      rw [if_pos rfl] at ih
      rw [ih hpending (fun _ => rfl), sketch_true_append (hmarks hpending)]
      exact hright.symm
    | false =>
      rw [if_neg (by decide)] at ih ⊢
      rw [ih (List.forall_mem_cons.2 ⟨hc, hpending⟩) (by simp), List.reverse_cons, List.append_assoc]
      rfl
  | case4 pending after c cs hcolons hc ih =>
    exact sketch_append_congr (sketch_append_congr (fun _ => ih (by simp) (by simp)) [c]) _ _

theorem sketch_squeeze {inGap inRun : Bool} (h : inRun = true → inGap = true) (cs : List Char) :
    sketch inGap (squeeze inRun cs) = sketch inGap cs := by
  induction cs generalizing inGap inRun with
  | nil => rfl
  | cons c cs ih =>
    rw [squeeze]
    split
    · rename_i hc
      have hrest : sketch true (squeeze true cs) = sketch true cs := ih fun _ => rfl
      rw [sketch_other (isCommentMark_of_isBlank hc), ← hrest]
      cases inRun with
      | true => rw [if_pos rfl, h rfl, if_pos rfl]
      | false => rw [if_neg (by decide), sketch_other (by decide)]
    · rw [sketch, sketch, ih (by simp), ih (by simp)]

theorem sketch_closeAfter {bracket : Char} (hbracket : isCommentMark bracket = false)
    {inGap skip : Bool} (h : skip = true → inGap = true) (cs : List Char) :
    sketch inGap (closeAfter bracket skip cs) = sketch inGap cs := by
  induction cs generalizing inGap skip with
  | nil => rfl
  | cons c cs ih =>
    rw [closeAfter]
    split
    · rename_i hskip
      obtain ⟨hc, rfl⟩ := Bool.and_eq_true_iff.1 hskip
      obtain rfl := h rfl
      rw [ih fun _ => rfl]
      exact (sketch_true_append (u := [c]) (by simpa using isCommentMark_of_isBlank hc) cs).symm
    · cases hmark : isCommentMark c with
      | true =>
        have hc : (c == bracket) = false :=
          beq_false_of_ne (ne_of_isCommentMark hbracket hmark).symm
        rw [sketch_mark hmark, sketch_mark hmark, hc, ih (by simp)]
      | false => rw [sketch_other hmark, sketch_other hmark, ih fun _ => rfl]

theorem sketch_closeBefore {bracket : Char} (hbracket : isCommentMark bracket = false)
    (inGap : Bool) (cs : List Char) : sketch inGap (closeBefore bracket cs) = sketch inGap cs := by
  induction cs generalizing inGap with
  | nil => rfl
  | cons c cs ih =>
    rw [closeBefore_cons]
    split
    · rename_i hskip
      obtain ⟨hc, hhead⟩ := Bool.and_eq_true_iff.1 hskip
      obtain ⟨more, hmore⟩ := List.head?_eq_some_iff.1 (beq_iff_eq.1 hhead)
      have hrest := ih true
      rw [hmore] at hrest ⊢
      rw [sketch_other hbracket, if_pos rfl] at hrest
      rw [sketch_other hbracket, sketch_other (isCommentMark_of_isBlank hc), hrest]
    · rw [sketch, sketch, ih, ih]

theorem sketch_space (inGap : Bool) (cs : List Char) : sketch inGap (space cs) = sketch inGap cs := by
  rw [space, sketch_closeBefore (by decide), sketch_closeAfter (by decide) (by simp),
    sketch_closeBefore (by decide), sketch_closeAfter (by decide) (by simp),
    sketch_squeeze (by simp), sketch_joinChains (by simp) (by simp)]
  rfl

theorem Reworded.sketch_eq {cs ds : List Char} (h : Reworded cs ds) (inGap : Bool) :
    sketch inGap ds = sketch inGap cs := by
  induction h generalizing inGap with
  | nil => rfl
  | mark _ _ ih => rw [sketch, sketch, ih, ih]
  | word hne hw _ hrespelled _ ih =>
    obtain ⟨hne', hw'⟩ := hrespelled.isWordRun hne hw
    rw [sketch_append hne fun c hc => isCommentMark_of_isWordChar (hw c hc),
      sketch_append hne' fun c hc => isCommentMark_of_isWordChar (hw' c hc), ih]

/-- Tidying takes no gap away between two comment marks. -/
theorem sketch_tidyCode (inGap : Bool) (cs : List Char) :
    sketch inGap (tidyCode cs) = sketch inGap cs := by
  rw [tidyCode, (reworded_spellWords [] _).sketch_eq, (reworded_spellDirections _).sketch_eq,
    sketch_space]

/-- Code that other text follows may be tidied. -/
theorem sketch_tidyCode_append (inGap : Bool) (cs rest : List Char) :
    sketch inGap (tidyCode cs ++ rest) = sketch inGap (cs ++ rest) := by
  have hfront (xs : List Char) : sketch inGap (sketch false xs ++ rest) = sketch inGap (xs ++ rest) :=
    sketch_sketch (by simp) xs rest
  calc sketch inGap (tidyCode cs ++ rest)
      = sketch inGap (sketch false (tidyCode cs) ++ rest) := (hfront _).symm
    _ = sketch inGap (sketch false cs ++ rest) := by rw [sketch_tidyCode]
    _ = sketch inGap (cs ++ rest) := hfront cs

/-! ### Where comments start -/

theorem isPrefixOf_pair (a b c : Char) (cs : List Char) :
    [a, b].isPrefixOf (c :: cs) = (c == a && cs.head? == some b) := by
  cases cs with
  | nil => simp [List.isPrefixOf]
  | cons d cs =>
    have ha : (a == c) = (c == a) := Bool.beq_comm ..
    have hb : (b == d) = (d == b) := Bool.beq_comm ..
    simp [List.isPrefixOf, ha, hb]

theorem head_sketch {d : Char} (hd : isCommentMark d = true) (cs : List Char) :
    ((sketch false cs).head? == some d) = (cs.head? == some d) := by
  cases cs with
  | nil => rfl
  | cons c cs =>
    cases hc : isCommentMark c with
    | true => rw [sketch_mark hc]; rfl
    | false =>
      have hne {x : Char} (hx : isCommentMark x = false) : (some x == some d) = false :=
        beq_false_of_ne fun heq => ne_of_isCommentMark hx hd (Option.some.inj heq)
      rw [sketch_other hc, if_neg (by decide), List.head?_cons, List.head?_cons, hne hc,
        hne (by decide)]

/-- A block comment is closed in a text if it is in its sketch. -/
theorem isSome_splitFirst?_sketch (inGap : Bool) (cs : List Char) :
    (splitFirst? ['*', '/'] (sketch inGap cs)).isSome = (splitFirst? ['*', '/'] cs).isSome := by
  induction cs generalizing inGap with
  | nil => rfl
  | cons c cs ih =>
    cases hc : isCommentMark c with
    | true =>
      rw [sketch_mark hc, isSome_splitFirst?_cons, isSome_splitFirst?_cons, isPrefixOf_pair,
        isPrefixOf_pair, head_sketch (by decide), ih]
    | false =>
      have hstar {x : Char} (hx : isCommentMark x = false) : (x == '*') = false :=
        beq_false_of_ne (ne_of_isCommentMark hx (by decide))
      rw [isSome_splitFirst?_cons, isPrefixOf_pair, hstar hc, Bool.false_and, Bool.false_or,
        sketch_other hc]
      cases inGap with
      | true => exact ih true
      | false =>
        rw [if_neg (by decide), isSome_splitFirst?_cons, isPrefixOf_pair, hstar (by decide),
          Bool.false_and, Bool.false_or]
        exact ih true

theorem isSome_comment?_cons (c : Char) (cs : List Char) : (comment? (c :: cs)).isSome =
    (c == '#' || (c == '/' && cs.head? == some '/') ||
      (c == '/' && cs.head? == some '*' && (splitFirst? ['*', '/'] (cs.drop 1)).isSome)) := by
  rw [comment?]
  split
  · rename_i hline
    have hline : (c == '#' || (c == '/' && cs.head? == some '/')) = true := by simpa using hline
    rw [hline]
    rfl
  · rename_i hline
    have hline : (c == '#' || (c == '/' && cs.head? == some '/')) = false := by simpa using hline
    rw [hline]
    split
    · rename_i hblock
      have hblock : (c == '/' && cs.head? == some '*') = true := by simpa using hblock
      rw [hblock, Option.isSome_map]
      rfl
    · rename_i hblock
      have hblock : (c == '/' && cs.head? == some '*') = false := by simpa using hblock
      rw [hblock]
      rfl

theorem comment?_of_not_mark {c : Char} (hc : isCommentMark c = false) (cs : List Char) :
    comment? (c :: cs) = none := by
  apply comment?_eq_none
  · exact ne_of_isCommentMark hc (by decide)
  · exact ne_of_isCommentMark hc (by decide)

/-- A comment starts a text if one starts its sketch. -/
theorem isSome_comment?_sketch (cs : List Char) :
    (comment? (sketch false cs)).isSome = (comment? cs).isSome := by
  cases cs with
  | nil => rfl
  | cons c cs =>
    cases hc : isCommentMark c with
    | true =>
      have hclosed : (cs.head? == some '*' &&
            (splitFirst? ['*', '/'] ((sketch false cs).drop 1)).isSome) =
          (cs.head? == some '*' && (splitFirst? ['*', '/'] (cs.drop 1)).isSome) := by
        cases hstar : cs.head? == some '*' with
        | false => rfl
        | true =>
          obtain ⟨more, rfl⟩ := List.head?_eq_some_iff.1 (beq_iff_eq.1 hstar)
          rw [sketch_mark (by decide), List.drop_one, List.drop_one, List.tail_cons, List.tail_cons,
            isSome_splitFirst?_sketch]
      rw [sketch_mark hc, isSome_comment?_cons, isSome_comment?_cons, head_sketch (by decide),
        head_sketch (by decide), Bool.and_assoc, hclosed, Bool.and_assoc]
    | false =>
      rw [sketch_other hc, if_neg (by decide), comment?_of_not_mark hc,
        comment?_of_not_mark (by decide)]

/-- No comment starts in a text that `rest` follows. -/
inductive Silent (rest : List Char) : List Char → Prop
  | nil : Silent rest []
  | cons {c : Char} {cs : List Char} : comment? (c :: (cs ++ rest)) = none → Silent rest cs →
      Silent rest (c :: cs)

theorem silent_cons {rest : List Char} {c : Char} {cs : List Char} :
    Silent rest (c :: cs) ↔ comment? (c :: (cs ++ rest)) = none ∧ Silent rest cs := by
  constructor
  · rintro ⟨⟩
    exact ⟨‹_›, ‹_›⟩
  · exact fun h => .cons h.1 h.2

theorem comment?_congr {a b : List Char} (h : sketch false a = sketch false b) :
    comment? a = none ↔ comment? b = none := by
  rw [← Option.isNone_iff_eq_none, ← Option.isNone_iff_eq_none, ← Option.not_isSome,
    ← Option.not_isSome, ← isSome_comment?_sketch, h, isSome_comment?_sketch]

theorem silent_sketch {inGap : Bool} {cs rest : List Char} :
    Silent rest (sketch inGap cs) ↔ Silent rest cs := by
  have hother {c : Char} (hc : isCommentMark c = false) (cs : List Char) :
      Silent rest (c :: cs) ↔ Silent rest cs :=
    silent_cons.trans (and_iff_right (comment?_of_not_mark hc _))
  induction cs generalizing inGap with
  | nil => exact Iff.rfl
  | cons c cs ih =>
    cases hc : isCommentMark c with
    | true =>
      have hstart : comment? (c :: (sketch false cs ++ rest)) = none ↔
          comment? (c :: (cs ++ rest)) = none := by
        apply comment?_congr
        rw [sketch_mark hc, sketch_mark hc, sketch_sketch (by simp)]
      rw [sketch_mark hc, silent_cons, silent_cons, hstart]
      exact and_congr_right fun _ => ih
    | false =>
      rw [hother hc, sketch_other hc]
      cases inGap with
      | true => exact ih
      | false => exact (hother (by decide) _).trans ih

theorem Silent.tidied {cs rest : List Char} (h : Silent rest cs) : Silent rest (tidyCode cs) := by
  have hsketch : Silent rest (sketch false cs) := silent_sketch.2 h
  rw [← sketch_tidyCode] at hsketch
  exact silent_sketch.1 hsketch

theorem Silent.of_sketch {cs rest rest' : List Char} (hsilent : Silent rest cs)
    (h : ∀ inGap, sketch inGap rest = sketch inGap rest') : Silent rest' cs := by
  induction hsilent with
  | nil => exact .nil
  | @cons c cs hnone _ ih =>
    exact .cons ((comment?_congr (sketch_append_congr h (c :: cs) false)).1 hnone) ih

theorem Silent.pieces_eq {cs rest : List Char} (h : Silent rest cs) (pending : List Char) :
    pieces pending (cs ++ rest) = pieces (cs.reverse ++ pending) rest := by
  induction h generalizing pending with
  | nil => rfl
  | cons hnone _ ih =>
    rw [List.cons_append, pieces_of_no_comment hnone, ih, List.reverse_cons, List.append_assoc]
    rfl

/-- A text is all code, or it is divided at its first comment. -/
theorem silent_or_comment (cs : List Char) : Silent [] cs ∨
    ∃ code comment rest, cs = code ++ (comment ++ rest) ∧ Silent (comment ++ rest) code ∧
      comment? (comment ++ rest) = some (comment, rest) := by
  induction cs with
  | nil => exact .inl .nil
  | cons c cs ih =>
    cases h : comment? (c :: cs) with
    | some p =>
      refine .inr ⟨[], p.1, p.2, (comment?_append h).symm, .nil, ?_⟩
      rw [comment?_append h, h]
    | none =>
      rcases ih with hsilent | ⟨code, comment, rest, rfl, hsilent, hcomment⟩
      · refine .inl (.cons ?_ hsilent)
        rwa [List.append_nil]
      · exact .inr ⟨c :: code, comment, rest, rfl, .cons h hsilent, hcomment⟩

/-! ### Texts tidied from comment to comment -/

theorem Silent.pieces_eq_code {cs : List Char} (h : Silent [] cs) : pieces [] cs = [.code cs] := by
  have hpieces := h.pieces_eq []
  rwa [List.append_nil, List.append_nil, pieces, List.reverse_reverse] at hpieces

theorem Silent.pieces_comment {code comment rest : List Char} (h : Silent (comment ++ rest) code)
    (hcomment : comment? (comment ++ rest) = some (comment, rest)) :
    pieces [] (code ++ (comment ++ rest)) = .code code :: .comment comment :: pieces [] rest := by
  rw [h.pieces_eq, List.append_nil]
  cases hcs : comment ++ rest with
  | nil =>
    rw [hcs] at hcomment
    cases hcomment
  | cons c cs =>
    rw [hcs] at hcomment
    rw [pieces_of_comment hcomment, List.reverse_reverse]

theorem Silent.tidy_eq {cs : List Char} (h : Silent [] cs) : tidy cs = tidyCode cs := by
  rw [tidy, h.pieces_eq_code]
  exact List.append_nil _

theorem Silent.tidy_comment {code comment rest : List Char} (h : Silent (comment ++ rest) code)
    (hcomment : comment? (comment ++ rest) = some (comment, rest)) :
    tidy (code ++ (comment ++ rest)) = tidyCode code ++ (comment ++ tidy rest) := by
  rw [tidy, h.pieces_comment hcomment]
  rfl

theorem length_lt_of_comment? {comment rest : List Char} (code : List Char)
    (h : comment? (comment ++ rest) = some (comment, rest)) :
    rest.length < (code ++ (comment ++ rest)).length := by
  have hlen : rest.length < (comment ++ rest).length := comment?_length h
  simp only [List.length_append] at hlen ⊢
  omega

/-- Tidying a text takes no gap away between two comment marks. -/
theorem sketch_tidy (inGap : Bool) (cs : List Char) : sketch inGap (tidy cs) = sketch inGap cs := by
  rcases silent_or_comment cs with hsilent | ⟨code, comment, rest, rfl, hsilent, hcomment⟩
  · rw [hsilent.tidy_eq, sketch_tidyCode]
  · have hshorter := length_lt_of_comment? code hcomment
    have hrest (inGap : Bool) : sketch inGap (tidy rest) = sketch inGap rest := sketch_tidy inGap rest
    rw [hsilent.tidy_comment hcomment, sketch_tidyCode_append]
    exact sketch_append_congr (sketch_append_congr hrest comment) code inGap
termination_by cs.length

/-! ### Comments before other text -/

/-- A comment that ends with its line. -/
def Piece.IsLineComment : Piece → Prop
  | code _ => False
  | comment cs => ['#'] <+: cs ∨ ['/', '/'] <+: cs

/-- A comment that runs over several lines. -/
def Piece.BreaksLine : Piece → Prop
  | code _ => False
  | comment cs => '\n' ∈ cs

instance : DecidablePred Piece.IsLineComment
  | .code _ => inferInstanceAs (Decidable False)
  | .comment _ => inferInstanceAs (Decidable (_ ∨ _))

instance : DecidablePred Piece.BreaksLine
  | .code _ => inferInstanceAs (Decidable False)
  | .comment _ => inferInstanceAs (Decidable (_ ∈ _))

/-- A comment that ends with its line goes on to the next line feed. -/
theorem comment?_line {comment rest : List Char}
    (h : comment? (comment ++ rest) = some (comment, rest))
    (hline : (Piece.comment comment).IsLineComment) (more : List Char) :
    comment? (comment ++ more) = some (comment ++ more.takeWhile (· != '\n'),
      more.dropWhile (· != '\n')) := by
  have hstart (more : List Char) : comment? (comment ++ more) =
      some ((comment ++ more).takeWhile (· != '\n'), (comment ++ more).dropWhile (· != '\n')) := by
    rcases hline with ⟨text, rfl⟩ | ⟨text, rfl⟩ <;> rfl
  have hall : ∀ c ∈ comment, (c != '\n') = true := by
    rw [hstart rest, Option.some.injEq, Prod.mk.injEq] at h
    intro c hc
    rw [← h.1] at hc
    have hkept := List.mem_takeWhile_imp hc
    exact hkept
  rw [hstart more, List.takeWhile_append_of_pos hall, List.dropWhile_append_of_pos hall]

/-- A comment that is closed ends where it is closed. -/
theorem comment?_block {comment rest : List Char}
    (h : comment? (comment ++ rest) = some (comment, rest))
    (hblock : ¬ (Piece.comment comment).IsLineComment) (more : List Char) :
    comment? (comment ++ more) = some (comment, more) := by
  have hblockStart (cs : List Char) : comment? ('/' :: '*' :: cs) =
      (splitFirst? ['*', '/'] cs).map fun p => ('/' :: '*' :: p.1 ++ ['*', '/'], p.2) := rfl
  generalize hcs : comment ++ rest = cs at h
  cases cs with
  | nil => cases h
  | cons c cs =>
    rw [comment?] at h
    split at h
    · rename_i hstart
      obtain ⟨rfl, -⟩ := Prod.mk.inj (Option.some.inj h)
      -- a comment up to the end of its line is not closed
      refine absurd ?_ hblock
      simp only [Bool.or_eq_true, Bool.and_eq_true, decide_eq_true_eq, beq_iff_eq] at hstart
      rcases hstart with rfl | ⟨rfl, hhead⟩
      · exact .inl ⟨cs.takeWhile (· != '\n'), rfl⟩
      · obtain ⟨more, rfl⟩ := List.head?_eq_some_iff.1 hhead
        exact .inr ⟨more.takeWhile (· != '\n'), rfl⟩
    · split at h
      · rename_i hstart
        simp only [Bool.and_eq_true, decide_eq_true_eq, beq_iff_eq] at hstart
        obtain ⟨rfl, hhead⟩ := hstart
        obtain ⟨cs, rfl⟩ := List.head?_eq_some_iff.1 hhead
        obtain ⟨q, hq, heq⟩ := Option.map_eq_some_iff.1 h
        obtain ⟨rfl, rfl⟩ := Prod.mk.inj heq
        rw [List.drop_one, List.tail_cons, ← splitFirst?_eq_some hq, List.append_assoc] at hq
        have hclosed := splitFirst?_replace (by simp) hq more
        have htext : '/' :: '*' :: q.1 ++ ['*', '/'] ++ more =
            '/' :: '*' :: (q.1 ++ (['*', '/'] ++ more)) := by simp
        rw [htext, hblockStart, hclosed]
        rfl
      · cases h

/-! ### Line feeds that are left -/

theorem newline_mem_tidy (cs : List Char) :
    '\n' ∈ tidy cs ↔ ∃ p ∈ pieces [] cs, p.BreaksLine := by
  rw [tidy, List.mem_flatMap]
  refine exists_congr fun p => and_congr_right fun _ => ?_
  cases p with
  | code cs => exact iff_of_false (not_mem_newline_tidyCode cs) id
  | comment cs => exact Iff.rfl

theorem count_newline_tidy_le (ps : List Piece) :
    (ps.flatMap Piece.tidy).count '\n' ≤ (piecesText ps).count '\n' := by
  induction ps with
  | nil => exact Nat.le_refl _
  | cons p ps ih =>
    have hp : p.tidy.count '\n' ≤ p.chars.count '\n' := by
      cases p with
      | code cs =>
        rw [Piece.tidy, List.count_eq_zero.2 (not_mem_newline_tidyCode cs)]
        exact Nat.zero_le _
      | comment cs => exact Nat.le_refl _
    rw [piecesText, List.flatMap_cons, List.flatMap_cons, List.count_append, List.count_append]
    exact Nat.add_le_add hp ih

/-- A line feed at the start of a text is code, so tidying takes it away. -/
theorem tidy_newline_ne (cs : List Char) : tidy ('\n' :: cs) ≠ '\n' :: cs := by
  obtain ⟨code, more, hpieces⟩ := exists_pieces cs
  have hall : pieces [] ('\n' :: cs) = .code ('\n' :: code) :: more := by
    rw [pieces_of_no_comment (comment?_of_not_mark (by decide) cs), hpieces]
    rfl
  have htext : piecesText (.code ('\n' :: code) :: more) = '\n' :: cs := by
    rw [← hall, piecesText_pieces]
    rfl
  intro heq
  -- tidying adds no line feed, and this one goes, so the text would have fewer of them
  have hcount := count_newline_tidy_le more
  have hcode := List.count_eq_zero.2 (not_mem_newline_tidyCode ('\n' :: code))
  rw [tidy, hall, ← htext, piecesText, List.flatMap_cons, List.flatMap_cons, Piece.tidy, Piece.chars,
    ← piecesText] at heq
  have hcounts := congrArg (List.count '\n') heq
  rw [List.count_append, List.count_append, hcode, List.count_cons_self] at hcounts
  omega

/-! ### Texts that are tidied again -/

/-- Behind a comment that ends with its line all is kept if no line feed stands there. -/
theorem tidy_eq_self_iff_line {code comment rest more : List Char} (hcode : tidyCode code = code)
    (hsilent : Silent (comment ++ more) code)
    (hcomment : comment? (comment ++ rest) = some (comment, rest))
    (hline : (Piece.comment comment).IsLineComment) :
    tidy (code ++ (comment ++ more)) = code ++ (comment ++ more) ↔ '\n' ∉ more := by
  have hsplit : more.takeWhile (· != '\n') ++ more.dropWhile (· != '\n') = more :=
    List.takeWhile_append_dropWhile
  have hlonger : comment? ((comment ++ more.takeWhile (· != '\n')) ++ more.dropWhile (· != '\n')) =
      some (comment ++ more.takeWhile (· != '\n'), more.dropWhile (· != '\n')) := by
    rw [List.append_assoc, hsplit]
    exact comment?_line hcomment hline more
  have htext : code ++ (comment ++ more) =
      code ++ ((comment ++ more.takeWhile (· != '\n')) ++ more.dropWhile (· != '\n')) := by
    rw [List.append_assoc comment, hsplit]
  rw [htext, Silent.tidy_comment (by rwa [List.append_assoc, hsplit]) hlonger, hcode,
    List.append_right_inj, List.append_right_inj]
  -- the comment takes in all up to a line feed, and behind it that line feed is code
  cases hrest : more.dropWhile (· != '\n') with
  | nil =>
    have hnone := List.dropWhile_eq_nil_iff.1 hrest
    have hempty : tidy [] = [] := by
      rw [tidy, pieces]
      rfl
    exact iff_of_true hempty fun hmem => by simpa using hnone '\n' hmem
  | cons c cs =>
    have hc : c = '\n' := by
      have hfirst := List.head?_dropWhile_not (· != '\n') more
      rw [hrest] at hfirst
      simpa using hfirst
    subst hc
    refine iff_of_false (tidy_newline_ne cs) (not_not_intro ?_)
    rw [← hsplit, hrest]
    simp

/-- A tidied text stays as it is if and only if no comment runs over several lines behind one that ends
with its line. -/
theorem tidy_tidy_iff (cs : List Char) (h : ¬ HasLooseColon cs) : tidy (tidy cs) = tidy cs ↔
    (pieces [] cs).Pairwise fun p q => p.IsLineComment → ¬ q.BreaksLine := by
  induction hn : cs.length using Nat.strong_induction_on generalizing cs with
  | _ n ih =>
  rcases silent_or_comment cs with hsilent | ⟨code, comment, rest, rfl, hsilent, hcomment⟩
  · rw [hsilent.tidy_eq, hsilent.tidied.tidy_eq, tidyCode_tidyCode h, hsilent.pieces_eq_code]
    exact iff_of_true rfl (List.pairwise_singleton _ _)
  · have hcode : ¬ HasLooseColon code := fun hloose =>
      h (hloose.of_isInfix (List.prefix_append code _).isInfix)
    have hrest : ¬ HasLooseColon rest := fun hloose => by
      refine h (hloose.of_isInfix (List.IsSuffix.isInfix ?_))
      exact (List.suffix_append comment rest).trans (List.suffix_append code _)
    -- in the tidied text the same comment is the first one, behind code that stays as it is
    have hagain : Silent (comment ++ tidy rest) (tidyCode code) :=
      hsilent.tidied.of_sketch
        (sketch_append_congr (fun inGap => (sketch_tidy inGap rest).symm) comment)
    have hpieces : (pieces [] (code ++ (comment ++ rest))).Pairwise
          (fun p q => p.IsLineComment → ¬ q.BreaksLine) ↔
        (∀ q ∈ pieces [] rest, (Piece.comment comment).IsLineComment → ¬ q.BreaksLine) ∧
          (pieces [] rest).Pairwise fun p q => p.IsLineComment → ¬ q.BreaksLine := by
      rw [hsilent.pieces_comment hcomment, List.pairwise_cons, List.pairwise_cons]
      exact and_iff_right fun _ _ hcode => absurd hcode id
    rw [hsilent.tidy_comment hcomment, hpieces]
    by_cases hline : (Piece.comment comment).IsLineComment
    · rw [tidy_eq_self_iff_line (tidyCode_tidyCode hcode) hagain hcomment hline, newline_mem_tidy]
      constructor
      · intro hnone
        have hall : ∀ q ∈ pieces [] rest, ¬ q.BreaksLine :=
          fun q hq hbreaks => hnone ⟨q, hq, hbreaks⟩
        exact ⟨fun q hq _ => hall q hq,
          List.pairwise_of_forall_mem_list fun _ _ q hq _ => hall q hq⟩
      · rintro ⟨hall, -⟩ ⟨q, hq, hbreaks⟩
        exact hall q hq hline hbreaks
    · have hshorter := length_lt_of_comment? code hcomment
      have hclosed : comment? (comment ++ tidy rest) = some (comment, tidy rest) :=
        comment?_block hcomment hline _
      rw [hagain.tidy_comment hclosed, tidyCode_tidyCode hcode, List.append_right_inj,
        List.append_right_inj, ih rest.length (hn ▸ hshorter) rest hrest rfl]
      exact (and_iff_right fun _ _ hcomment => absurd hcomment hline).symm

/-- A comment in one line behind one that ends with its line. -/
theorem tidy_tidy_commented : ¬ HasLooseColon "_ ::where( x ) // a\n/* b */ :x".toList ∧
    tidy (tidy "_ ::where( x ) // a\n/* b */ :x".toList) =
      tidy "_ ::where( x ) // a\n/* b */ :x".toList :=
  ⟨by decide +kernel, (tidy_tidy_iff _ (by decide +kernel)).2 (by decide +kernel)⟩

/-- A tidied text does not always stay as it is: a comment that ended with its line takes in what
follows it, up to a line feed in the next comment. -/
theorem not_tidy_tidy : ¬ ∀ cs, ¬ HasLooseColon cs → tidy (tidy cs) = tidy cs := by
  intro h
  have hsame := h "//a\n/* b\nc */".toList (by decide +kernel)
  exact absurd hsame (by decide +kernel)

end Layout

end Hql
