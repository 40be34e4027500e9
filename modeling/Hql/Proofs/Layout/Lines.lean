import Hql.Proofs.Layout.Document

/-!
Layout of the lines of a text. What is done to the text as a whole adds and removes empty lines only,
and a block without a signature keeps its lines; so the lines of a text without queries are laid out
one by one.
-/

namespace Hql.Layout

open Text

/-! ### Lines that are not empty -/

/-- The lines of a text that are not empty. -/
def solidLines (cs : List Char) : List (List Char) := (cs.splitOn '\n').filter fun l => !l.isEmpty

/-- A line that is not empty, by itself. -/
def solidLine (l : List Char) : List (List Char) := if l = [] then [] else [l]

theorem splitOn_newline (a b : List Char) :
    (a ++ '\n' :: b).splitOn '\n' = a.splitOn '\n' ++ b.splitOn '\n' :=
  List.splitOnP_append_cons a b (beq_self_eq_true '\n')

theorem solidLines_of_not_mem {cs : List Char} (h : '\n' ∉ cs) : solidLines cs = solidLine cs := by
  rw [solidLines, List.splitOn_eq_singleton h, solidLine]
  cases cs <;> rfl

/-- Lines are told apart at a line feed. -/
theorem solidLines_newline (a b : List Char) :
    solidLines (a ++ '\n' :: b) = solidLines a ++ solidLines b := by
  rw [solidLines, splitOn_newline, List.filter_append]
  rfl

theorem solidLines_newline_cons (cs : List Char) : solidLines ('\n' :: cs) = solidLines cs :=
  solidLines_newline [] cs

theorem solidLines_replicate (n : Nat) (cs : List Char) :
    solidLines (List.replicate n '\n' ++ cs) = solidLines cs := by
  induction n with
  | zero => rfl
  | succ n ih => rw [List.replicate_succ, List.cons_append, solidLines_newline_cons, ih]

theorem solidLines_line {w : List Char} (h : '\n' ∉ w) (cs : List Char) :
    solidLines (w ++ '\n' :: cs) = solidLine w ++ solidLines cs := by
  rw [solidLines_newline, solidLines_of_not_mem h]

theorem solidLines_intercalate {ls : List (List Char)} (h : ∀ l ∈ ls, '\n' ∉ l) :
    solidLines (['\n'].intercalate ls) = ls.filter fun l => !l.isEmpty := by
  cases ls with
  | nil => rfl
  | cons l ls => rw [solidLines, List.splitOn_intercalate '\n' h (List.cons_ne_nil l ls)]

/-- Induction over the lines of a text. -/
@[elab_as_elim]
theorem lines_induction {motive : List Char → Prop} (cs : List Char)
    (last : ∀ w, '\n' ∉ w → motive w)
    (line : ∀ w cs, '\n' ∉ w → motive cs → motive (w ++ '\n' :: cs)) : motive cs := by
  induction hn : cs.length using Nat.strong_induction_on generalizing cs with
  | _ n ih =>
    by_cases h : '\n' ∈ cs
    · obtain ⟨w, rest, rfl, hw⟩ := List.eq_append_cons_of_mem h
      exact line w rest hw (ih rest.length (by simp [← hn]; omega) rest rfl)
    · exact last cs h

theorem newline_not_mem_splitOn (cs : List Char) : ∀ l ∈ cs.splitOn '\n', '\n' ∉ l := by
  induction cs using lines_induction with
  | last w h => simpa [List.splitOn_eq_singleton h] using h
  | line w cs h ih => simpa [splitOn_newline, List.splitOn_eq_singleton h] using ⟨h, ih⟩

/-! ### The text as a whole -/

theorem limitBreaks_line {w : List Char} (hne : w ≠ []) (h : '\n' ∉ w) (count : Nat)
    (rest : List Char) : limitBreaks count (w ++ rest) = w ++ limitBreaks 0 rest := by
  refine limitBreaks_append (isChain_of_not_mem h) ?_ (.inr ?_) hne rest
  · exact fun hlast => h (List.mem_of_getLast? hlast)
  · exact fun hhead => h (List.mem_of_mem_head? hhead)

theorem solidLines_limitBreaks (count : Nat) (cs : List Char) :
    solidLines (limitBreaks count cs) = solidLines cs := by
  induction cs using lines_induction generalizing count with
  | last w h =>
    cases w with
    | nil => rfl
    | cons c w =>
      have hline := limitBreaks_line (List.cons_ne_nil c w) h count []
      rw [List.append_nil] at hline
      rw [hline, limitBreaks, List.append_nil]
  | line w cs h ih =>
    cases w with
    | nil =>
      rw [List.nil_append, solidLines_newline_cons, limitBreaks, if_pos rfl]
      split
      · rw [solidLines_newline_cons, ih]
      · exact ih count
    | cons c w =>
      rw [limitBreaks_line (List.cons_ne_nil c w) h, limitBreaks, if_pos rfl, if_pos (by decide),
        solidLines_newline, ih, solidLines_newline]

theorem partComments_first {w : List Char} (hne : w ≠ []) (h : '\n' ∉ w) (afterCode : Bool)
    (count : Nat) (rest : List Char) : ∃ breaks after, (0 < count → 0 < breaks) ∧
      (count = 0 → breaks = 0) ∧ partComments afterCode count (w ++ rest) =
        List.replicate breaks '\n' ++ w ++ partComments after 0 rest := by
  obtain ⟨c, w, rfl⟩ := List.exists_cons_of_ne_nil hne
  rw [List.mem_cons, not_or] at h
  obtain ⟨after, hafter⟩ := partComments_line h.2 (endsCode c) rest
  have hc : ¬ c = '\n' := fun heq => h.1 heq.symm
  rw [List.cons_append, partComments, if_neg hc, hafter]
  split
  · rename_i hcomment
    refine ⟨2, after, fun _ => by decide, fun hzero => ?_, ?_⟩
    · rw [hzero] at hcomment
      simp at hcomment
    · simp
  · exact ⟨count, after, id, id, by simp⟩

/-- Line feeds before a text stay line feeds. -/
theorem partComments_succ (afterCode : Bool) (count : Nat) (cs : List Char) :
    ∃ more, partComments afterCode (count + 1) cs = '\n' :: more ∧
      solidLines more = solidLines cs := by
  induction cs using lines_induction generalizing afterCode count with
  | last w h =>
    cases w with
    | nil =>
      refine ⟨List.replicate count '\n', by rw [partComments, List.replicate_succ], ?_⟩
      have hbreaks := solidLines_replicate count []
      rwa [List.append_nil] at hbreaks
    | cons c w =>
      obtain ⟨breaks, after, hpos, -, hparts⟩ :=
        partComments_first (List.cons_ne_nil c w) h afterCode (count + 1) []
      obtain ⟨n, rfl⟩ := Nat.exists_eq_succ_of_ne_zero (hpos (Nat.succ_pos count)).ne'
      rw [List.append_nil] at hparts
      rw [hparts, List.replicate_succ, partComments, List.replicate_zero, List.append_nil]
      exact ⟨_, rfl, solidLines_replicate n _⟩
  | line w cs h ih =>
    cases w with
    | nil =>
      rw [List.nil_append, partComments, if_pos rfl, solidLines_newline_cons]
      exact ih afterCode (count + 1)
    | cons c w =>
      obtain ⟨breaks, after, hpos, -, hparts⟩ :=
        partComments_first (List.cons_ne_nil c w) h afterCode (count + 1) ('\n' :: cs)
      obtain ⟨n, rfl⟩ := Nat.exists_eq_succ_of_ne_zero (hpos (Nat.succ_pos count)).ne'
      -- the line takes the breaks before it, and none are left for the lines behind it
      obtain ⟨more, hmore, hsolid⟩ := ih after 0
      rw [hparts, List.replicate_succ, partComments, if_pos rfl, hmore]
      refine ⟨List.replicate n '\n' ++ ((c :: w) ++ '\n' :: more), by simp, ?_⟩
      rw [solidLines_replicate, solidLines_newline, hsolid, solidLines_newline]

theorem solidLines_partComments (afterCode : Bool) (cs : List Char) :
    solidLines (partComments afterCode 0 cs) = solidLines cs := by
  induction cs using lines_induction generalizing afterCode with
  | last w h =>
    obtain ⟨after, hafter⟩ := partComments_line h afterCode []
    rw [List.append_nil] at hafter
    rw [hafter, partComments, List.replicate_zero, List.append_nil]
  | line w cs h ih =>
    obtain ⟨after, hafter⟩ := partComments_line h afterCode ('\n' :: cs)
    obtain ⟨more, hmore, hsolid⟩ := partComments_succ after 0 cs
    rw [hafter, partComments, if_pos rfl, hmore, solidLines_newline, hsolid, solidLines_newline]

theorem ne_newline {c : Char} (hc : isBlank c = false) : c ≠ '\n' := by
  rintro rfl
  exact absurd hc (by decide)

theorem exists_solidLines_cons {c : Char} (hc : c ≠ '\n') (cs : List Char) :
    ∃ l more, solidLines (c :: cs) = (c :: l) :: more := by
  by_cases h : '\n' ∈ cs
  · obtain ⟨w, rest, rfl, hw⟩ := List.eq_append_cons_of_mem h
    have hline : '\n' ∉ c :: w := by simp [hc.symm, hw]
    exact ⟨w, solidLines rest, solidLines_line hline rest⟩
  · have hline : '\n' ∉ c :: cs := by simp [hc.symm, h]
    exact ⟨cs, [], solidLines_of_not_mem hline⟩

theorem exists_solidLines_concat {c : Char} (hc : c ≠ '\n') (cs : List Char) :
    ∃ front l, solidLines (cs ++ [c]) = front ++ [l ++ [c]] := by
  induction cs using lines_induction with
  | last w h =>
    have hline : '\n' ∉ w ++ [c] := by simp [hc.symm, h]
    refine ⟨[], w, ?_⟩
    rw [solidLines_of_not_mem hline, solidLine, if_neg (by simp)]
    rfl
  | line w cs h ih =>
    obtain ⟨front, l, hlast⟩ := ih
    refine ⟨solidLines w ++ front, l, ?_⟩
    rw [List.append_assoc, List.cons_append, solidLines_newline, hlast, List.append_assoc]

theorem solidLines_trimStart {cs : List Char}
    (h : ∀ l ∈ (solidLines cs).head?, ∀ c ∈ l.head?, isBlank c = false) :
    solidLines (trimStart cs) = solidLines cs := by
  induction cs with
  | nil => rfl
  | cons c cs ih =>
    by_cases hc : c = '\n'
    · subst hc
      have hblank : isBlank '\n' = true := by decide
      rw [solidLines_newline_cons] at h ⊢
      rw [trimStart, List.dropWhile_cons_of_pos hblank]
      exact ih h
    · obtain ⟨l, more, hlines⟩ := exists_solidLines_cons hc cs
      have hblank : isBlank c = false := h (c :: l) (by rw [hlines]; rfl) c rfl
      rw [trimStart, List.dropWhile_cons_of_neg (by rw [hblank]; decide)]

theorem solidLines_trimEnd {cs : List Char}
    (h : ∀ l ∈ (solidLines cs).getLast?, ∀ c ∈ l.getLast?, isBlank c = false) :
    solidLines (trimEnd cs) = solidLines cs := by
  induction cs using List.reverseRecOn with
  | nil => rfl
  | append_singleton cs c ih =>
    rw [trimEnd, List.reverse_append, List.reverse_singleton, List.singleton_append]
    by_cases hc : c = '\n'
    · subst hc
      have hblank : isBlank '\n' = true := by decide
      have hlines : solidLines (cs ++ ['\n']) = solidLines cs := by
        rw [solidLines_newline]
        exact List.append_nil _
      rw [hlines] at h ⊢
      rw [List.dropWhile_cons_of_pos hblank]
      exact ih h
    · obtain ⟨front, l, hlines⟩ := exists_solidLines_concat hc cs
      have hblank : isBlank c = false :=
        h (l ++ [c]) (by rw [hlines, List.getLast?_concat]; rfl) c (List.getLast?_concat ..)
      rw [List.dropWhile_cons_of_neg (by rw [hblank]; decide), List.reverse_cons, List.reverse_reverse]

/-- Trimming takes empty lines off a text whose solid lines start and end without blanks. -/
theorem solidLines_trim {cs : List Char}
    (hhead : ∀ l ∈ (solidLines cs).head?, ∀ c ∈ l.head?, isBlank c = false)
    (hlast : ∀ l ∈ (solidLines cs).getLast?, ∀ c ∈ l.getLast?, isBlank c = false) :
    solidLines (trim cs) = solidLines cs := by
  have hstart := solidLines_trimStart hhead
  rw [trim, solidLines_trimEnd (by rwa [hstart]), hstart]

/-! ### Blocks without a signature -/

/-- A text without the arrow that ends the signature of a query. -/
def NoArrow (cs : List Char) : Prop := cs.IsChain fun c d => ¬ (c = '=' ∧ d = '>')

instance (cs : List Char) : Decidable (NoArrow cs) := inferInstanceAs (Decidable (List.IsChain _ _))

namespace NoArrow

variable {a b : List Char}

theorem append_iff : NoArrow (a ++ b) ↔
    NoArrow a ∧ NoArrow b ∧ ∀ c ∈ a.getLast?, ∀ d ∈ b.head?, ¬ (c = '=' ∧ d = '>') :=
  List.isChain_append

theorem of_not_mem (h : '=' ∉ a) : NoArrow a := by
  induction a with
  | nil => exact .nil
  | cons c a ih =>
    rw [List.mem_cons, not_or] at h
    exact List.isChain_cons.2 ⟨fun d _ heq => h.1 heq.1.symm, ih h.2⟩

theorem append_left (ha : '=' ∉ a) (hb : NoArrow b) : NoArrow (a ++ b) := by
  refine append_iff.2 ⟨of_not_mem ha, hb, fun c hc d _ heq => ha ?_⟩
  rw [← heq.1]
  exact List.mem_of_getLast? hc

theorem comma (h : NoArrow a) : NoArrow (a ++ [',']) := by
  refine append_iff.2 ⟨h, of_not_mem (by decide), fun c _ d hd heq => ?_⟩
  obtain rfl := Option.some.inj hd
  exact absurd heq.2 (by decide)

theorem splitFirst?_eq_none (h : NoArrow a) : splitFirst? ['=', '>'] a = none := by
  rw [Option.eq_none_iff_forall_not_mem]
  intro p hp
  rw [← splitFirst?_eq_some hp, List.append_assoc] at h
  obtain ⟨-, harrow, -⟩ := append_iff.1 h
  exact (List.isChain_cons.1 harrow).1 '>' rfl ⟨rfl, rfl⟩

theorem cons_iff {c : Char} : NoArrow (c :: a) ↔
    (∀ d ∈ a.head?, ¬ (c = '=' ∧ d = '>')) ∧ NoArrow a :=
  List.isChain_cons

/-- A run of blanks leaves a space, so no arrow comes together. -/
theorem squeeze (h : NoArrow a) (inRun : Bool) : NoArrow (squeeze inRun a) := by
  induction a generalizing inRun with
  | nil => exact .nil
  | cons c a ih =>
    obtain ⟨hfirst, ha⟩ := cons_iff.1 h
    rw [Layout.squeeze]
    split
    · split
      · exact ih ha true
      · exact cons_iff.2 ⟨fun d _ heq => absurd heq.1 (by decide), ih ha true⟩
    · refine cons_iff.2 ⟨fun d hd => ?_, ih ha false⟩
      cases a with
      | nil => cases hd
      | cons e a =>
        rw [Layout.squeeze] at hd
        split at hd
        · obtain rfl := Option.some.inj hd
          exact fun heq => absurd heq.2 (by decide)
        · obtain rfl := Option.some.inj hd
          exact hfirst e rfl

theorem oneLine {ls : List (List Char)} (h : ∀ l ∈ ls, NoArrow l) : NoArrow (oneLine ls) := by
  cases ls with
  | nil => exact .nil
  | cons l ls =>
    obtain ⟨hl, hls⟩ := List.forall_mem_cons.1 h
    rw [Layout.oneLine, intercalate_eq_flatMap]
    induction ls generalizing l with
    | nil => simpa using hl
    | cons m ls ih =>
      obtain ⟨hm, hls⟩ := List.forall_mem_cons.1 hls
      have hrest := ih m (List.forall_mem_cons.2 ⟨hm, hls⟩) hm hls
      rw [List.flatMap_cons, List.append_assoc, List.singleton_append]
      refine append_iff.2 ⟨hl, cons_iff.2 ⟨fun d _ heq => absurd heq.1 (by decide), hrest⟩, ?_⟩
      intro c _ d hd heq
      obtain rfl := Option.some.inj hd
      exact absurd heq.2 (by decide)

end NoArrow

theorem ofRuns?_eq_none {rs : List (List Char)} (h : NoArrow rs.flatten) :
    Block.ofRuns? rs = none := by
  induction rs with
  | nil => rfl
  | cons run rs ih =>
    rw [List.flatten_cons, NoArrow.append_iff] at h
    obtain ⟨-, hrs, -⟩ := h
    have hdrop : NoArrow (rs.flatten.drop 1) := by
      have hsplit : NoArrow (rs.flatten.take 1 ++ rs.flatten.drop 1) := by
        rwa [List.take_append_drop]
      exact (NoArrow.append_iff.1 hsplit).2.1
    rw [Block.ofRuns?, hdrop.splitFirst?_eq_none, ih hrs]
    split <;> rfl

/-- A block in which no signature ends keeps its lines. -/
theorem blockLines_eq_self {ls : List (List Char)} (h : ∀ l ∈ ls, NoArrow l) : blockLines ls = ls := by
  have hnone : Block.ofRuns? (runs (squeeze false ([' '].intercalate ls))) = none :=
    ofRuns?_eq_none (by rw [flatten_runs]; exact (NoArrow.oneLine h).squeeze false)
  rw [blockLines, hnone]

/-! ### Lines that are laid out one by one -/

theorem not_isBlank_head_trim (cs : List Char) : ∀ c ∈ (trim cs).head?, isBlank c = false := by
  intro c hc
  have hprefix : trim cs <+: trimStart cs := by
    have hsuffix := List.dropWhile_suffix (l := (trimStart cs).reverse) isBlank
    have hreverse := List.reverse_prefix.2 hsuffix
    rwa [List.reverse_reverse] at hreverse
  obtain ⟨more, hmore⟩ := hprefix
  obtain ⟨rest, hrest⟩ := List.head?_eq_some_iff.1 hc
  have hstart : (cs.dropWhile isBlank).head? = some c := by
    rw [← trimStart, ← hmore, hrest]
    rfl
  have hfirst := List.head?_dropWhile_not isBlank cs
  rw [hstart] at hfirst
  exact hfirst

theorem not_isBlank_getLast_trim (cs : List Char) : ∀ c ∈ (trim cs).getLast?, isBlank c = false := by
  intro c hc
  rw [trim, trimEnd, List.getLast?_reverse] at hc
  have hfirst := List.head?_dropWhile_not isBlank (trimStart cs).reverse
  rw [Option.mem_def] at hc
  rw [hc] at hfirst
  exact hfirst

/-- A line that its layout does not change but for its indentation. -/
structure IsEven (l : List Char) : Prop where
  indented : ∃ indent, (∀ c ∈ indent, c = ' ') ∧ l = indent ++ trim l
  solid : trim l ≠ []
  tidy : tidy (trim l) = trim l

namespace IsEven

variable {l : List Char}

theorem of_append {indent text : List Char} (hindent : ∀ c ∈ indent, c = ' ') (hne : text ≠ [])
    (hhead : ∀ c ∈ text.head?, isBlank c = false) (hlast : ∀ c ∈ text.getLast?, isBlank c = false)
    (htidy : Layout.tidy text = text) : IsEven (indent ++ text) := by
  have htrim : trim (indent ++ text) = text := by
    have hblank : ∀ c ∈ indent, isBlank c = true := by
      intro c hc
      rw [hindent c hc]
      decide
    have hbetween := trim_between (b := []) hblank (by simp) hhead hlast
    rwa [List.append_nil] at hbetween
  exact ⟨⟨indent, hindent, by rw [htrim]⟩, by rwa [htrim], by rw [htrim, htidy]⟩

theorem isBlankLine_eq (h : IsEven l) : isBlankLine l = false := by
  simpa [isBlankLine] using h.solid

theorem not_isEmpty (h : IsEven l) : (!l.isEmpty) = true := by
  have hne : l ≠ [] := by
    rintro rfl
    exact h.solid rfl
  simpa using hne

theorem not_isBlank_getLast (h : IsEven l) : ∀ c ∈ l.getLast?, isBlank c = false := by
  obtain ⟨indent, -, hl⟩ := h.indented
  intro c hc
  rw [hl, List.getLast?_append_of_ne_nil _ h.solid] at hc
  exact not_isBlank_getLast_trim l c hc

end IsEven

/-- Lines that are laid out one by one. -/
structure AreEven (ls : List (List Char)) : Prop where
  even : ∀ l ∈ ls, l = [] ∨ IsEven l
  blocks : (∀ l ∈ ls, startsBlock (trim l) = false) ∨ ∀ l ∈ ls, NoArrow l

/-- A line stays or loses its indentation. -/
def Evened (l l' : List Char) : Prop := IsEven l ∧ (l' = l ∨ l' = trim l)

/-- The solid lines of one text are those of another, but for indentation. -/
def SameLines (ls ls' : List (List Char)) : Prop :=
  List.Forall₂ Evened (ls.filter fun l => !l.isEmpty) (ls'.filter fun l => !l.isEmpty)

namespace SameLines

variable {ls ls' : List (List Char)}

theorem append {as as' bs bs' : List (List Char)} (ha : SameLines as as') (hb : SameLines bs bs') :
    SameLines (as ++ bs) (as' ++ bs') := by
  rw [SameLines, List.filter_append, List.filter_append]
  exact List.rel_append ha hb

theorem refl (h : ∀ l ∈ ls, l = [] ∨ IsEven l) : SameLines ls ls := by
  refine List.forall₂_same.2 fun l hl => ⟨?_, .inl rfl⟩
  obtain ⟨hmem, hfull⟩ := List.mem_filter.1 hl
  refine (h l hmem).resolve_left ?_
  rintro rfl
  cases hfull

theorem empty_left (h : SameLines ls ls') : SameLines ([] :: ls) ls' := h

theorem empty_right (h : SameLines ls ls') : SameLines ls ([] :: ls') := h

/-- A line outside blocks is laid out without its indentation. -/
theorem loose {l : List Char} (hl : IsEven l) (h : SameLines ls ls') :
    SameLines (l :: ls) (tidy (trim l) :: ls') := by
  have hfull : (!(tidy (trim l)).isEmpty) = true := by
    rw [hl.tidy]
    simpa using hl.solid
  rw [SameLines, List.filter_cons, if_pos hl.not_isEmpty, List.filter_cons, if_pos hfull]
  exact .cons ⟨hl, .inr hl.tidy⟩ h

end SameLines

theorem sameLines_loose {ls : List (List Char)} (h : ∀ l ∈ ls, l = [] ∨ IsEven l)
    (hblocks : ∀ l ∈ ls, startsBlock (trim l) = false) :
    SameLines ls ((segmentsOf none ls).flatMap Segment.lines) := by
  induction ls with
  | nil => exact .nil
  | cons l ls ih =>
    obtain ⟨hl, hls⟩ := List.forall_mem_cons.1 h
    obtain ⟨hstarts, hblocks⟩ := List.forall_mem_cons.1 hblocks
    have hrest := ih hls hblocks
    rw [segmentsOf]
    dsimp only
    rcases hl with rfl | hl
    · exact hrest.empty_left
    · rw [hl.isBlankLine_eq, if_neg (by decide), hstarts, if_neg (by decide), List.flatMap_cons]
      exact .loose hl hrest

/-- The lines of blocks without a signature stay. -/
theorem sameLines_blocks {ls : List (List Char)} (h : ∀ l ∈ ls, l = [] ∨ IsEven l)
    (harrows : ∀ l ∈ ls, NoArrow l) :
    SameLines ls ((segmentsOf none ls).flatMap Segment.lines) ∧
      ∀ block, (∀ l ∈ block, l = [] ∨ IsEven l) → (∀ l ∈ block, NoArrow l) → ls ≠ [] →
        SameLines (block ++ ls) ((segmentsOf (some block) ls).flatMap Segment.lines) := by
  induction ls with
  | nil => exact ⟨.nil, fun _ _ _ hne => absurd rfl hne⟩
  | cons l ls ih =>
    obtain ⟨hl, hls⟩ := List.forall_mem_cons.1 h
    obtain ⟨harrow, harrows⟩ := List.forall_mem_cons.1 harrows
    obtain ⟨hloose, hopen⟩ := ih hls harrows
    -- the block ends here or goes on
    have hextend (block : List (List Char)) (heven : ∀ l ∈ block, l = [] ∨ IsEven l)
        (hblock : ∀ l ∈ block, NoArrow l) :
        SameLines (block ++ ls) ((if endsBefore ls then .block block :: segmentsOf none ls
          else segmentsOf (some block) ls).flatMap Segment.lines) := by
      split
      · rw [List.flatMap_cons, Segment.lines, blockLines_eq_self hblock, List.append_assoc]
        exact (SameLines.refl heven).append hloose.empty_right
      · rename_i hends
        refine hopen block heven hblock ?_
        rintro rfl
        exact hends rfl
    have hfirst := hextend [l] (by simpa using hl) (by simpa using harrow)
    refine ⟨?_, fun block heven hblock _ => ?_⟩
    · rw [segmentsOf]
      dsimp only
      rcases hl with rfl | hl
      · exact hloose.empty_left
      · rw [hl.isBlankLine_eq, if_neg (by decide)]
        split
        · exact hfirst
        · exact .loose hl hloose
    · rw [segmentsOf]
      dsimp only
      split
      · rw [List.flatMap_cons, Segment.lines, blockLines_eq_self hblock]
        exact (SameLines.refl heven).append hfirst
      · have hmore := hextend (block ++ [l])
          (List.forall_mem_append.2 ⟨heven, by simpa using hl⟩)
          (List.forall_mem_append.2 ⟨hblock, by simpa using harrow⟩)
        rwa [List.append_assoc] at hmore

theorem sameLines_segments {ls : List (List Char)} (h : AreEven ls) :
    SameLines ls ((segmentsOf none ls).flatMap Segment.lines) := by
  rcases h.blocks with hblocks | harrows
  · exact sameLines_loose h.even hblocks
  · exact (sameLines_blocks h.even harrows).1

theorem lines_intercalate {ls : List (List Char)} (hne : ls ≠ [])
    (h : ∀ l ∈ ls, '\n' ∉ l ∧ l.getLast? ≠ some '\r') : lines (['\n'].intercalate ls) = ls := by
  induction ls with
  | nil => exact absurd rfl hne
  | cons l ls ih =>
    obtain ⟨⟨hl, hlast⟩, hls⟩ := List.forall_mem_cons.1 h
    cases ls with
    | nil => rw [List.intercalate_singleton, lines_of_not_mem hl]
    | cons m ls =>
      have htext : ['\n'].intercalate (l :: m :: ls) = l ++ '\n' :: ['\n'].intercalate (m :: ls) := by
        rw [List.intercalate_cons_cons, List.append_assoc, List.singleton_append]
      rw [htext, lines_append hlast, lines_of_not_mem hl, ih (List.cons_ne_nil m ls) hls]
      rfl

namespace SameLines

variable {ls ls' : List (List Char)} (h : SameLines ls ls')

include h

theorem mem {l' : List Char} (hl' : l' ∈ ls') : l' = [] ∨ ∃ l ∈ ls, Evened l l' := by
  by_cases hnil : l' = []
  · exact .inl hnil
  · have hmem : l' ∈ ls'.filter fun l => !l.isEmpty := List.mem_filter.2 ⟨hl', by simpa using hnil⟩
    have hright {as bs : List (List Char)} (hall : List.Forall₂ Evened as bs) :
        ∀ b ∈ bs, ∃ a ∈ as, Evened a b := by
      induction hall with
      | nil => simp
      | @cons a b as bs hab _ ih =>
        refine List.forall_mem_cons.2 ⟨⟨a, List.mem_cons_self .., hab⟩, fun c hc => ?_⟩
        obtain ⟨d, hd, hcd⟩ := ih c hc
        exact ⟨d, List.mem_cons_of_mem a hd, hcd⟩
    obtain ⟨l, hl, heven⟩ := hright h l' hmem
    exact .inr ⟨l, (List.mem_filter.1 hl).1, heven⟩

theorem head (hhead : ∀ l ∈ (ls.filter fun l => !l.isEmpty).head?, ∀ c ∈ l.head?, isBlank c = false) :
    ∀ l ∈ (ls'.filter fun l => !l.isEmpty).head?, ∀ c ∈ l.head?, isBlank c = false := by
  rw [SameLines] at h
  generalize ls.filter (fun l => !l.isEmpty) = as at h hhead
  generalize ls'.filter (fun l => !l.isEmpty) = bs at h
  cases h with
  | nil => simp
  | @cons a b as bs hab _ =>
    intro l hl
    obtain rfl := Option.some.inj hl
    rcases hab.2 with rfl | rfl
    · exact hhead b rfl
    · exact not_isBlank_head_trim a

theorem last : ∀ l ∈ (ls'.filter fun l => !l.isEmpty).getLast?, ∀ c ∈ l.getLast?, isBlank c = false := by
  intro l hl
  have hmem := (List.mem_filter.1 (List.mem_of_getLast? hl)).1
  rcases h.mem hmem with rfl | ⟨m, -, heven, rfl | rfl⟩
  · simp
  · exact heven.not_isBlank_getLast
  · exact not_isBlank_getLast_trim m

end SameLines

/-- A text whose lines are laid out one by one keeps its solid lines. -/
theorem forall₂_formatChars {c : Char} (hc : isBlank c = false) {cs : List Char}
    (h : AreEven ((c :: cs).splitOn '\n')) :
    List.Forall₂ Evened (solidLines (c :: cs)) (solidLines (formatChars (c :: cs))) := by
  have hlines := newline_not_mem_splitOn (c :: cs)
  have hcut : lines (c :: cs) = (c :: cs).splitOn '\n' := by
    have hsplit : lines (['\n'].intercalate ((c :: cs).splitOn '\n')) = (c :: cs).splitOn '\n' := by
      refine lines_intercalate (List.splitOn_ne_nil '\n' _) fun l hl => ⟨hlines l hl, fun hlast => ?_⟩
      rcases h.even l hl with rfl | heven
      · cases hlast
      · exact absurd (heven.not_isBlank_getLast _ hlast) (by decide)
    rwa [List.intercalate_splitOn] at hsplit
  -- the final trim takes nothing: the first solid line starts with the first character of the text,
  -- and an even line does not end in a blank
  have hhead : ∀ l ∈ (solidLines (c :: cs)).head?, ∀ d ∈ l.head?, isBlank d = false := by
    obtain ⟨first, more, hfirst⟩ := exists_solidLines_cons (ne_newline hc) cs
    intro l hl d hd
    rw [hfirst] at hl
    obtain rfl := Option.some.inj hl
    obtain rfl := Option.some.inj hd
    exact hc
  have hsame := sameLines_segments h
  have hlaid : ∀ l ∈ (segmentsOf none ((c :: cs).splitOn '\n')).flatMap Segment.lines, '\n' ∉ l := by
    intro l hl
    rcases hsame.mem hl with rfl | ⟨m, hm, -, rfl | rfl⟩
    · simp
    · exact hlines l hm
    · exact fun hmem => hlines m hm (mem_of_mem_trim hmem)
  have hsolid : solidLines (partComments false 0 (limitBreaks 0 (['\n'].intercalate
      ((segmentsOf none ((c :: cs).splitOn '\n')).flatMap Segment.lines)))) =
        ((segmentsOf none ((c :: cs).splitOn '\n')).flatMap Segment.lines).filter
          fun l => !l.isEmpty := by
    rw [solidLines_partComments, solidLines_limitBreaks, solidLines_intercalate hlaid]
  rw [formatChars, hcut,
    solidLines_trim (by rw [hsolid]; exact hsame.head hhead) (by rw [hsolid]; exact hsame.last),
    hsolid]
  exact hsame

/-- A text whose lines are laid out one by one starts as before. -/
theorem exists_formatChars {c : Char} (hc : isBlank c = false) {cs : List Char}
    (h : AreEven ((c :: cs).splitOn '\n')) : ∃ more, formatChars (c :: cs) = c :: more := by
  obtain ⟨first, rest, hfirst⟩ := exists_solidLines_cons (ne_newline hc) cs
  have hall := forall₂_formatChars hc h
  rw [hfirst] at hall
  obtain ⟨l', rest', ⟨heven, hl'⟩, -, hsolid⟩ := List.forall₂_cons_left_iff.1 hall
  have hl' : l' = c :: first := by
    obtain ⟨indent, hindent, hsplit⟩ := heven.indented
    cases indent with
    | nil => exact hl'.elim id fun htrim => htrim.trans hsplit.symm
    | cons d indent =>
      obtain rfl := (List.cons.inj hsplit).1
      rw [hindent c (List.mem_cons_self ..)] at hc
      exact absurd hc (by decide)
  cases hformat : formatChars (c :: cs) with
  | nil =>
    rw [hformat] at hsolid
    cases hsolid
  | cons d more =>
    have hd : isBlank d = false := not_isBlank_head_trim _ d (by
      rw [formatChars] at hformat
      rw [hformat]
      rfl)
    obtain ⟨first', rest'', hfirst'⟩ := exists_solidLines_cons (ne_newline hd) more
    rw [hformat, hfirst', hl'] at hsolid
    exact ⟨more, by rw [(List.cons.inj (List.cons.inj hsolid).1).1]⟩

end Hql.Layout
