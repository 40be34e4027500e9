import Hql.Proofs.Layout.Paragraph

/-!
Whole texts laid out. The line breaks between laid-out paragraphs are as they should be already, so
each paragraph is laid out by itself and nothing else changes. A text is stable if and only if each of
its queries is.
-/

namespace Hql.Layout

open Text

/-! ### Line breaks -/

/-- A text without empty lines, which starts and ends on lines that are not blank and holds no
comment. -/
structure IsSolid (cs : List Char) : Prop where
  apart : cs.IsChain fun c d => ¬ (c = '\n' ∧ d = '\n')
  head : ∃ c rest, cs = c :: rest ∧ isBlank c = false
  last : ∀ c ∈ cs.getLast?, isBlank c = false
  marks : ∀ c ∈ cs, c ≠ '/' ∧ c ≠ '#'

theorem isChain_of_not_mem {cs : List Char} (h : '\n' ∉ cs) :
    cs.IsChain fun c d => ¬ (c = '\n' ∧ d = '\n') := by
  induction cs with
  | nil => exact .nil
  | cons c cs ih =>
    rw [List.mem_cons, not_or] at h
    exact List.isChain_cons.2 ⟨fun d _ heq => h.1 heq.1.symm, ih h.2⟩

/-- Line feeds of which no two stand together are kept. -/
theorem limitBreaks_append {cs : List Char} (h : cs.IsChain fun c d => ¬ (c = '\n' ∧ d = '\n'))
    (hlast : cs.getLast? ≠ some '\n') {count : Nat} (hcount : count = 0 ∨ cs.head? ≠ some '\n')
    (hne : cs ≠ []) (rest : List Char) :
    limitBreaks count (cs ++ rest) = cs ++ limitBreaks 0 rest := by
  induction cs generalizing count with
  | nil => exact absurd rfl hne
  | cons c cs ih =>
    obtain ⟨hfirst, happart⟩ := List.isChain_cons.1 h
    cases cs with
    | nil =>
      have hc : c ≠ '\n' := fun heq => hlast (congrArg some heq)
      rw [List.singleton_append, limitBreaks, if_neg hc]
      rfl
    | cons d cs =>
      rw [List.getLast?_cons_cons] at hlast
      rw [List.cons_append, limitBreaks]
      split
      · rename_i hc
        have hzero : count = 0 := hcount.resolve_right (by rw [hc]; simp)
        have hd : d ≠ '\n' := fun heq => hfirst d rfl ⟨hc, heq⟩
        have hhead : (d :: cs).head? ≠ some '\n' := fun heq => hd (Option.some.inj heq)
        rw [hzero, if_pos (by decide), ih happart hlast (.inr hhead) (by simp)]
        rfl
      · rw [ih happart hlast (.inl rfl) (by simp)]
        rfl

/-- Text without comments keeps its line breaks. -/
theorem partComments_append {cs : List Char} (hmarks : ∀ c ∈ cs, c ≠ '/' ∧ c ≠ '#')
    (hlast : cs.getLast? ≠ some '\n') (hne : cs ≠ []) (afterCode : Bool) (count : Nat)
    (rest : List Char) : ∃ after, partComments afterCode count (cs ++ rest) =
      List.replicate count '\n' ++ cs ++ partComments after 0 rest := by
  induction cs generalizing afterCode count with
  | nil => exact absurd rfl hne
  | cons c cs ih =>
    obtain ⟨hc, hcs⟩ := List.forall_mem_cons.1 hmarks
    rw [List.cons_append, partComments]
    split
    · rename_i heq
      subst heq
      have hcsne : cs ≠ [] := by
        rintro rfl
        exact hlast rfl
      rw [List.getLast?_cons_of_ne_nil hcsne] at hlast
      obtain ⟨after, hafter⟩ := ih hcs hlast hcsne afterCode (count + 1)
      refine ⟨after, ?_⟩
      rw [hafter, List.replicate_succ']
      simp
    · rw [startsComment_eq_false hc.1 hc.2, Bool.and_false, if_neg (by decide)]
      cases cs with
      | nil => exact ⟨endsCode c, by simp⟩
      | cons d cs =>
        rw [List.getLast?_cons_cons] at hlast
        obtain ⟨after, hafter⟩ := ih hcs hlast (by simp) (endsCode c) 0
        refine ⟨after, ?_⟩
        rw [hafter]
        simp

/-- A line is kept as it is. -/
theorem partComments_line {cs : List Char} (h : '\n' ∉ cs) (afterCode : Bool) (rest : List Char) :
    ∃ after, partComments afterCode 0 (cs ++ rest) = cs ++ partComments after 0 rest := by
  induction cs generalizing afterCode with
  | nil => exact ⟨afterCode, rfl⟩
  | cons c cs ih =>
    rw [List.mem_cons, not_or] at h
    obtain ⟨after, hafter⟩ := ih h.2 (endsCode c)
    refine ⟨after, ?_⟩
    rw [List.cons_append, partComments, if_neg (fun heq => h.1 heq.symm), hafter]
    simp

namespace IsSolid

variable {cs : List Char}

theorem ne_nil (h : IsSolid cs) : cs ≠ [] := by
  obtain ⟨c, rest, rfl, -⟩ := h.head
  simp

theorem head_ne (h : IsSolid cs) {d : Char} (hd : isBlank d = true) : cs.head? ≠ some d := by
  obtain ⟨c, rest, rfl, hc⟩ := h.head
  intro heq
  rw [Option.some.inj heq, hd] at hc
  cases hc

theorem getLast_ne (h : IsSolid cs) {d : Char} (hd : isBlank d = true) : cs.getLast? ≠ some d := by
  intro heq
  rw [h.last d heq] at hd
  cases hd

end IsSolid

namespace Paragraph

/-- A paragraph whose text is laid out. -/
structure IsLaid (p : Paragraph) : Prop where
  comment : ∀ c ∈ p.comment, IsComment c
  text : IsSolid p.text

namespace IsLaid

variable {p : Paragraph}

theorem chars_head (h : p.IsLaid) : ∃ c rest, p.chars = c :: rest ∧ isBlank c = false := by
  cases hcomment : p.comment with
  | none =>
    obtain ⟨c, rest, htext, hc⟩ := h.text.head
    exact ⟨c, rest, by rw [chars, hcomment]; exact htext, hc⟩
  | some c =>
    obtain ⟨rest, rfl⟩ := (h.comment c hcomment).starts
    exact ⟨'/', '/' :: rest ++ '\n' :: p.text, by rw [chars, hcomment]; rfl, by decide⟩

theorem chars_last (h : p.IsLaid) : ∀ c ∈ p.chars.getLast?, isBlank c = false := by
  rw [chars]
  split
  · exact h.text.last
  · rw [List.getLast?_append_of_ne_nil _ (by simp), List.getLast?_cons_of_ne_nil h.text.ne_nil]
    exact h.text.last

theorem chars_apart (h : p.IsLaid) : p.chars.IsChain fun c d => ¬ (c = '\n' ∧ d = '\n') := by
  rw [chars]
  split
  · exact h.text.apart
  · rename_i c hcomment
    have hline := (h.comment c hcomment).line
    refine List.isChain_append.2 ⟨?_, List.isChain_cons.2 ⟨?_, h.text.apart⟩, ?_⟩
    · exact isChain_of_not_mem hline
    · rintro d hd ⟨-, rfl⟩
      exact h.text.head_ne (by decide) hd
    · rintro d hd e he ⟨rfl, -⟩
      exact hline (List.mem_of_getLast? hd)

theorem partComments_chars (h : p.IsLaid) (afterCode : Bool) {count : Nat}
    (hcount : count = 0 ∨ count = 2) (rest : List Char) :
    ∃ after, partComments afterCode count (p.chars ++ rest) =
      List.replicate count '\n' ++ p.chars ++ partComments after 0 rest := by
  have hlast : p.text.getLast? ≠ some '\n' := h.text.getLast_ne (by decide)
  cases hcomment : p.comment with
  | none =>
    rw [chars, hcomment]
    exact partComments_append h.text.marks hlast h.text.ne_nil afterCode count rest
  | some c =>
    obtain ⟨⟨line, rfl⟩, hline, -, -⟩ := h.comment c hcomment
    rw [List.mem_cons, not_or] at hline
    -- a comment keeps its distance of no or two line feeds
    have hbreaks (cs : List Char) : (if afterCode && 0 < count && startsComment cs then 2
        else count) = count := by
      rcases hcount with rfl | rfl <;> simp
    have hchars : p.chars ++ rest = '/' :: (('/' :: line) ++ '\n' :: (p.text ++ rest)) := by
      rw [chars, hcomment]
      simp
    obtain ⟨after, hafter⟩ := partComments_line hline.2 (endsCode '/') ('\n' :: (p.text ++ rest))
    have htext (a : Bool) : partComments a 0 ('\n' :: (p.text ++ rest)) =
        partComments a 1 (p.text ++ rest) := rfl
    obtain ⟨after', hafter'⟩ := partComments_append h.text.marks hlast h.text.ne_nil after 1 rest
    refine ⟨after', ?_⟩
    rw [hchars, partComments, if_neg (by decide), hbreaks, hafter, htext, hafter', chars, hcomment]
    simp

end IsLaid

end Paragraph

theorem document_head {p : Paragraph} {ps : List Paragraph} (h : p.IsLaid) :
    ∃ c rest, document (p :: ps) = c :: rest ∧ isBlank c = false := by
  obtain ⟨c, rest, hchars, hc⟩ := h.chars_head
  cases ps with
  | nil => exact ⟨c, rest, hchars, hc⟩
  | cons q ps => exact ⟨c, _, by rw [document, hchars, List.cons_append], hc⟩

theorem document_last {ps : List Paragraph} (h : ∀ p ∈ ps, p.IsLaid) :
    ∀ c ∈ (document ps).getLast?, isBlank c = false := by
  induction ps with
  | nil => simp [document]
  | cons p ps ih =>
    obtain ⟨hp, hps⟩ := List.forall_mem_cons.1 h
    cases ps with
    | nil => exact hp.chars_last
    | cons q ps =>
      obtain ⟨c, rest, hdocument, -⟩ : ∃ c rest, document (q :: ps) = c :: rest ∧ isBlank c = false :=
        document_head (hps q (List.mem_cons_self ..))
      have hrest := ih hps
      rw [hdocument] at hrest
      rw [document, hdocument, List.getLast?_append_of_ne_nil _ (by simp), List.getLast?_cons_cons,
        List.getLast?_cons_cons]
      exact hrest

theorem limitBreaks_document {ps : List Paragraph} (h : ∀ p ∈ ps, p.IsLaid) (hne : ps ≠ [])
    (count : Nat) : limitBreaks count (document ps ++ ['\n']) = document ps ++ ['\n'] := by
  induction ps generalizing count with
  | nil => exact absurd rfl hne
  | cons p ps ih =>
    obtain ⟨hp, hps⟩ := List.forall_mem_cons.1 h
    obtain ⟨c, rest, hchars, hc⟩ := hp.chars_head
    have hhead : p.chars.head? ≠ some '\n' := by
      rw [hchars]
      intro heq
      rw [Option.some.inj heq] at hc
      exact absurd hc (by decide)
    have hlast : p.chars.getLast? ≠ some '\n' := fun heq =>
      absurd (hp.chars_last _ heq) (by decide)
    have hstep (rest : List Char) : limitBreaks count (p.chars ++ rest) =
        p.chars ++ limitBreaks 0 rest :=
      limitBreaks_append hp.chars_apart hlast (.inr hhead) (by rw [hchars]; simp) rest
    cases ps with
    | nil => exact hstep ['\n']
    | cons q ps =>
      have hbreaks (cs : List Char) : limitBreaks 0 ('\n' :: '\n' :: cs) =
          '\n' :: '\n' :: limitBreaks 2 cs := rfl
      rw [document, List.append_assoc, List.cons_append, List.cons_append, hstep, hbreaks,
        ih hps (by simp)]

theorem partComments_document {ps : List Paragraph} (h : ∀ p ∈ ps, p.IsLaid) (hne : ps ≠ [])
    (afterCode : Bool) {count : Nat} (hcount : count = 0 ∨ count = 2) :
    partComments afterCode count (document ps ++ ['\n']) =
      List.replicate count '\n' ++ document ps ++ ['\n'] := by
  induction ps generalizing afterCode count with
  | nil => exact absurd rfl hne
  | cons p ps ih =>
    obtain ⟨hp, hps⟩ := List.forall_mem_cons.1 h
    cases ps with
    | nil =>
      obtain ⟨after, hafter⟩ := hp.partComments_chars afterCode hcount ['\n']
      exact hafter
    | cons q ps =>
      obtain ⟨after, hafter⟩ :=
        hp.partComments_chars afterCode hcount ('\n' :: '\n' :: document (q :: ps) ++ ['\n'])
      have hbreaks (cs : List Char) : partComments after 0 ('\n' :: '\n' :: cs) =
          partComments after 2 cs := rfl
      rw [document, List.append_assoc, hafter, List.cons_append, List.cons_append, hbreaks,
        ih hps (by simp) after (.inr rfl)]
      simp

/-! ### Laying out a text -/

theorem IsComment.tidy_eq {cs : List Char} (h : IsComment cs) : tidy cs = cs := by
  obtain ⟨⟨rest, rfl⟩, hline, -, -⟩ := h
  have hcomment : comment? ('/' :: '/' :: rest) = some ('/' :: '/' :: rest, []) := by
    have hkeep : ∀ c ∈ '/' :: '/' :: rest, (c != '\n') = true := by
      intro c hc
      rw [bne_iff_ne]
      rintro rfl
      exact hline hc
    rw [comment?, if_pos (by simp), List.takeWhile_eq_self_iff.2 hkeep,
      List.dropWhile_eq_nil_iff.2 hkeep]
  rw [tidy, pieces]
  split
  · rename_i comment rest' heq
    rw [hcomment] at heq
    obtain ⟨rfl, rfl⟩ := Prod.mk.inj (Option.some.inj heq)
    have hend : pieces [] [] = [.code []] := by rw [pieces]; rfl
    rw [hend]
    have hnil : tidyCode [] = [] := rfl
    simp [Piece.tidy, hnil]
  · rename_i heq
    rw [hcomment] at heq
    cases heq

namespace Paragraph

/-- A paragraph laid out. -/
def laid (p : Paragraph) : Paragraph := ⟨p.comment, ['\n'].intercalate (blockLines (lines p.text))⟩

theorem blockLines_ne_nil {ls : List (List Char)} (h : ls ≠ []) : blockLines ls ≠ [] := by
  rw [blockLines]
  split
  · exact h
  · simp

theorem ended_segments (p : Paragraph) (h : ∀ c ∈ p.comment, IsComment c) :
    ended (p.segments.flatMap Segment.lines) = '\n' :: p.laid.chars ++ ['\n'] := by
  obtain ⟨l, ls, hls⟩ := List.exists_cons_of_ne_nil (blockLines_ne_nil (lines_ne_nil p.text))
  have htext : '\n' :: p.laid.text = ended (blockLines (lines p.text)) := by
    rw [laid, hls, intercalate_newline]
    rfl
  rw [segments, List.flatMap_append, ended_append, List.flatMap_singleton, Segment.lines,
    ended_append, ← htext, chars]
  cases hcomment : p.comment with
  | none => simp [laid, hcomment]
  | some c =>
    have hc := h c hcomment
    have hline : Segment.lines (.loose c) = [c] := by
      rw [Segment.lines, hc.trim_eq, hc.tidy_eq]
    simp [laid, hcomment, hline]

end Paragraph

theorem flatMap_document (ps : List Paragraph) (hne : ps ≠ []) :
    (ps.flatMap fun p => '\n' :: p.chars ++ ['\n']) = '\n' :: document ps ++ ['\n'] := by
  induction ps with
  | nil => exact absurd rfl hne
  | cons p ps ih =>
    cases ps with
    | nil => simp [document]
    | cons q ps =>
      rw [List.flatMap_cons, ih (by simp), document]
      simp

/-- A text of paragraphs is laid out paragraph by paragraph. -/
theorem formatChars_document {ps : List Paragraph} (h : ∀ p ∈ ps, p.IsSound)
    (hlaid : ∀ p ∈ ps, p.laid.IsLaid) :
    formatChars (document ps) = document (ps.map Paragraph.laid) := by
  have hended : ended ((ps.flatMap Paragraph.segments).flatMap Segment.lines) =
      (ps.map Paragraph.laid).flatMap fun p => '\n' :: p.chars ++ ['\n'] := by
    rw [List.flatMap_assoc, ended_flatMap, List.flatMap_map]
    exact congrArg List.flatten (List.map_congr_left fun p hp => p.ended_segments (h p hp).comment)
  rw [formatChars, segmentsOf_document h]
  cases ps with
  | nil => rfl
  | cons p ps =>
    have hlaid' : ∀ q ∈ (p :: ps).map Paragraph.laid, q.IsLaid := List.forall_mem_map.2 hlaid
    rw [flatMap_document _ (by simp)] at hended
    obtain ⟨l, ls, hls⟩ : ∃ l ls, ((p :: ps).flatMap Paragraph.segments).flatMap Segment.lines =
        l :: ls := by
      refine List.exists_cons_of_ne_nil fun hnil => ?_
      rw [hnil] at hended
      cases hended
    rw [hls, ended_cons] at hended
    -- without the line feed in front this is the document and a last line feed, and a document
    -- keeps its breaks and comments
    have hjoined : l ++ ended ls = document ((p :: ps).map Paragraph.laid) ++ ['\n'] :=
      (List.cons.inj hended).2
    rw [hls, intercalate_newline, hjoined, limitBreaks_document hlaid' (by simp),
      partComments_document hlaid' (by simp) false (.inl rfl)]
    obtain ⟨c, rest, hdocument, hc⟩ : ∃ c rest, document ((p :: ps).map Paragraph.laid) = c :: rest ∧
        isBlank c = false := document_head (hlaid p (List.mem_cons_self ..))
    have hhead : ∀ d ∈ (document ((p :: ps).map Paragraph.laid)).head?, isBlank d = false := by
      rw [hdocument]
      intro d hd
      obtain rfl := Option.some.inj hd
      exact hc
    exact trim_between (a := []) (by simp) (by decide) hhead (document_last hlaid')

/-! ### Paragraphs of queries -/

theorem mark_mem_lexemes {cs : List Char} {c : Char} (hword : isWordChar c = false)
    (hblank : isBlank c = false) (hcolon : c ≠ ':') (hc : c ∈ cs) : .mark c ∈ lexemes cs := by
  have hmem : c ∈ withoutBlanks cs := List.mem_filter.2 ⟨hc, by rw [hblank]; rfl⟩
  rw [← flatMap_chars_lexemes] at hmem
  obtain ⟨t, ht, hct⟩ := List.mem_flatMap.1 hmem
  obtain ⟨x, hx, rfl⟩ := List.mem_map.1 ht
  rwa [← eq_mark_of_mem_chars ((fits_tokens false cs).sound x hx) hword hcolon hct]

theorem not_isBlank_of_getLast_spaced {xs : List (List Char × Token)}
    (h : ∀ x ∈ xs, x.2.IsSound) : ∀ c ∈ (spaced xs).getLast?, isBlank c = false := by
  induction xs with
  | nil => simp [spaced]
  | cons x xs ih =>
    obtain ⟨hx, hxs⟩ := List.forall_mem_cons.1 h
    intro c hc
    have hne := hx.chars_ne_nil
    rw [spaced] at hc
    cases hrest : spaced xs with
    | nil =>
      rw [hrest, List.append_nil, Option.mem_def, List.getLast?_append_of_ne_nil _ hne] at hc
      exact hx.not_isBlank c (List.mem_of_getLast? hc)
    | cons d ds =>
      rw [hrest, Option.mem_def, List.getLast?_append_of_ne_nil _ (by simp), ← hrest] at hc
      exact ih hxs c hc

/-- A text with nothing but breaks between its tokens has no empty lines. -/
theorem spaced_apart {xs : List (List Char × Token)} (h : ∀ x ∈ xs, x.2.IsSound) (hbreaks : Broken xs) :
    (spaced xs).IsChain fun c d => ¬ (c = '\n' ∧ d = '\n') := by
  induction xs with
  | nil => exact .nil
  | cons x xs ih =>
    obtain ⟨hx, hxs⟩ := List.forall_mem_cons.1 h
    obtain ⟨hbreak, hbreaks⟩ := List.forall_mem_cons.1 hbreaks
    have hall : ∀ b ∈ breaks, b.IsChain fun c d => ¬ (c = '\n' ∧ d = '\n') := by decide
    have hnewline : '\n' ∉ x.2.chars := fun hmem => absurd (hx.not_isBlank _ hmem) (by decide)
    rw [spaced, List.append_assoc]
    refine List.isChain_append.2 ⟨hall _ hbreak, List.isChain_append.2
      ⟨isChain_of_not_mem hnewline, ih hxs hbreaks, ?_⟩, ?_⟩
    · rintro c hc d - ⟨rfl, -⟩
      exact hnewline (List.mem_of_getLast? hc)
    · rintro c - d hd ⟨-, rfl⟩
      rw [List.head?_append_of_ne_nil _ hx.chars_ne_nil] at hd
      exact hnewline (List.mem_of_mem_head? hd)

/-- A paragraph whose text has the tokens of a query. -/
structure Paragraph.Holds (p : Paragraph) (q : Outline) : Prop where
  comment : ∀ c ∈ p.comment, IsComment c
  starts : ∃ more, p.text = queryChars ++ ' ' :: more
  last : ∀ c ∈ p.text.getLast?, isBlank c = false
  tokens : Layout.tokens false p.text = q.tokens
  sound : q.IsSound

namespace Paragraph.Holds

variable {p : Paragraph} {q : Outline}

theorem lexemes_text (h : p.Holds q) : lexemes p.text = q.tokens.map Prod.snd :=
  congrArg (List.map Prod.snd) h.tokens

theorem isSound (h : p.Holds q) : p.IsSound where
  comment := h.comment
  starts := by
    obtain ⟨more, hmore⟩ := h.starts
    refine ⟨more, hmore, ?_⟩
    have hlexemes := h.lexemes_text
    rw [hmore, lexemes_append (seam_of_not_glues (by decide) (by decide) _), lexemes_space] at hlexemes
    have hnoBlock := h.sound.noBlock
    rw [← hlexemes] at hnoBlock
    exact hnoBlock
  marks := by
    have hmarks := h.sound.marks
    rw [← h.lexemes_text] at hmarks
    intro c hc
    constructor
    · rintro rfl
      exact hmarks.1 (mark_mem_lexemes (by decide) (by decide) (by decide) hc)
    · rintro rfl
      exact hmarks.2 (mark_mem_lexemes (by decide) (by decide) (by decide) hc)
  last := h.last

theorem fits (h : p.Holds q) : Fits q.tokens := h.tokens ▸ fits_tokens false p.text

/-- A query laid out. -/
theorem text_laid (h : p.Holds q) : p.laid.text = spaced q.lay := by
  refine Outline.blockLines_eq h.sound ?_
  rw [tokens_oneLine_lines, h.tokens]

theorem sound_lay (h : p.Holds q) : ∀ x ∈ q.lay, x.2.IsSound := by
  intro x hx
  have hmem : (!x.1.isEmpty, x.2) ∈ noted q.lay := List.mem_map_of_mem hx
  rw [Outline.noted_lay] at hmem
  exact (Outline.fits_relaid h.sound h.fits).sound _ hmem

/-- What is laid out holds the same query. -/
theorem laid (h : p.Holds q) : p.laid.Holds q.relaid where
  comment := h.comment
  starts := by
    obtain ⟨w, ts, hlexemes⟩ := h.sound.starts
    obtain ⟨x, rest, hsignature, -⟩ := List.map_eq_cons_iff.1 hlexemes
    rw [h.text_laid, Outline.lay, spaced_append, spaced_singleSpaced, hsignature, relaySignature]
    exact ⟨_, rfl⟩
  last := by
    rw [h.text_laid]
    exact not_isBlank_of_getLast_spaced h.sound_lay
  tokens := by
    rw [h.text_laid, tokens_spaced (isBlank_of_broken q.broken_lay), withGap_false, Outline.noted_lay]
    rw [Outline.noted_lay]
    exact Outline.fits_relaid h.sound h.fits
  sound := h.sound.relaid

theorem isLaid (h : p.Holds q) : p.laid.IsLaid where
  comment := h.comment
  text := by
    refine ⟨?_, ?_, h.laid.last, h.laid.isSound.marks⟩
    · rw [h.text_laid]
      exact spaced_apart h.sound_lay q.broken_lay
    · obtain ⟨more, hmore⟩ := h.laid.starts
      exact ⟨'Q', _, hmore, by decide⟩

end Paragraph.Holds

theorem lexemes_chars (p : Paragraph) : lexemes p.chars =
    (p.comment.toList.flatMap lexemes) ++ lexemes p.text := by
  rw [Paragraph.chars]
  cases p.comment with
  | none => rfl
  | some c =>
    have hnewline (cs : List Char) : lexemes ('\n' :: cs) = lexemes cs := by
      rw [lexemes, tokens_blank (by decide), map_snd_tokens]
    dsimp only
    rw [lexemes_append (seam_of_not_glues (by decide) (by decide) _), hnewline]
    simp

theorem lexemes_document (ps : List Paragraph) :
    lexemes (document ps) = ps.flatMap fun p => lexemes p.chars := by
  induction ps with
  | nil => rfl
  | cons p ps ih =>
    cases ps with
    | nil => simp [document]
    | cons q ps =>
      have hnewline (cs : List Char) : lexemes ('\n' :: cs) = lexemes cs := by
        rw [lexemes, tokens_blank (by decide), map_snd_tokens]
      rw [document, lexemes_append (seam_of_not_glues (by decide) (by decide) _), hnewline, hnewline,
        ih]
      rfl

/-! ### Texts of queries -/

section Queries

variable {ps : List Paragraph}

theorem formatChars_of_holds (h : ∀ p ∈ ps, ∃ q, p.Holds q) :
    formatChars (document ps) = document (ps.map Paragraph.laid) := by
  refine formatChars_document (fun p hp => ?_) (fun p hp => ?_)
  · obtain ⟨q, hq⟩ := h p hp
    exact hq.isSound
  · obtain ⟨q, hq⟩ := h p hp
    exact hq.isLaid

/-- Laying out a text of queries changes its blanks only. -/
theorem lexemes_formatChars (h : ∀ p ∈ ps, ∃ q, p.Holds q) :
    lexemes (formatChars (document ps)) = lexemes (document ps) := by
  rw [formatChars_of_holds h, lexemes_document, lexemes_document, List.flatMap_map]
  refine congrArg List.flatten (List.map_congr_left fun p hp => ?_)
  obtain ⟨q, hq⟩ := h p hp
  rw [lexemes_chars, lexemes_chars, hq.lexemes_text, hq.laid.lexemes_text, Outline.map_snd_relaid]
  rfl

theorem formatChars_formatChars (h : ∀ p ∈ ps, ∃ q, p.Holds q) :
    formatChars (formatChars (document ps)) =
      document (ps.map fun p => p.laid.laid) := by
  have hlaid : ∀ p ∈ ps.map Paragraph.laid, ∃ q, p.Holds q := by
    rw [List.forall_mem_map]
    intro p hp
    obtain ⟨q, hq⟩ := h p hp
    exact ⟨q.relaid, hq.laid⟩
  rw [formatChars_of_holds h, formatChars_of_holds hlaid, List.map_map]
  rfl

end Queries

/-! ### Stable texts -/

theorem length_document_le {f g : Paragraph → Paragraph} {ps : List Paragraph}
    (h : ∀ p ∈ ps, (f p).chars.length ≤ (g p).chars.length) :
    (document (ps.map f)).length ≤ (document (ps.map g)).length := by
  induction ps with
  | nil => exact Nat.le_refl _
  | cons p ps ih =>
    obtain ⟨hp, hps⟩ := List.forall_mem_cons.1 h
    cases ps with
    | nil => exact hp
    | cons q ps =>
      have hrest := ih hps
      simp only [List.map_cons, document, List.length_append, List.length_cons] at hrest ⊢
      omega

/-- Two texts whose paragraphs are the same, or shorter in the first, are the same only if all their
paragraphs are. -/
theorem document_eq_iff {f g : Paragraph → Paragraph} {ps : List Paragraph}
    (h : ∀ p ∈ ps, f p = g p ∨ (f p).chars.length < (g p).chars.length) :
    document (ps.map f) = document (ps.map g) ↔ ∀ p ∈ ps, f p = g p := by
  refine ⟨fun heq => ?_, fun heq => by rw [List.map_congr_left heq]⟩
  have hle : ∀ p ∈ ps, (f p).chars.length ≤ (g p).chars.length := fun p hp =>
    (h p hp).elim (fun heq => by rw [heq]) Nat.le_of_lt
  have hlength := congrArg List.length heq
  clear heq
  induction ps with
  | nil => simp
  | cons p ps ih =>
    obtain ⟨hp, hps⟩ := List.forall_mem_cons.1 h
    obtain ⟨hlep, hleps⟩ := List.forall_mem_cons.1 hle
    rw [List.forall_mem_cons]
    cases ps with
    | nil =>
      refine ⟨hp.resolve_right fun hlt => ?_, by simp⟩
      have hlength : (f p).chars.length = (g p).chars.length := hlength
      omega
    | cons q ps =>
      have hrest := length_document_le hleps
      have hnext := ih hps hleps
      simp only [List.map_cons, document, List.length_append, List.length_cons] at hlength hrest hnext
      exact ⟨hp.resolve_right (by omega), hnext (by omega)⟩

end Hql.Layout
