import Hql.Proofs.Layout.Collapsed
import Hql.Proofs.Layout.Shape

/-!
What laying out leaves of a query. The parts of a query are cut, divided and put together again, and
up to blanks and case each step keeps its text if no element of a chain or list is empty. Main
statement: the layout keeps the text of a query if and only if the place that is taken for its last
`RETURN` is the place of a `RETURN`. It is so if no character before it becomes longer in upper case.
-/

namespace Hql.Layout

open Text

/-! ### Letters -/

theorem letters_of_atoms {a b : List Char} (h : atoms a = atoms b) : letters a = letters b := by
  rw [letters, letters, ← flatten_atoms, ← flatten_atoms, h]

@[simp] theorem letters_trim (cs : List Char) : letters (trim cs) = letters cs := by
  obtain ⟨a, b, hcs, ha, hb⟩ := exists_blanks_trim cs
  conv_rhs => rw [hcs]
  rw [letters_append, letters_append, letters_blanks ha, letters_blanks hb, List.nil_append,
    List.append_nil]

theorem isInfix_trim (cs : List Char) : trim cs <:+: cs := by
  obtain ⟨a, b, hcs, -, -⟩ := exists_blanks_trim cs
  exact ⟨a, b, hcs.symm⟩

theorem letters_collapsed (cs : List Char) : letters (collapsed cs) = letters cs := by
  rw [collapsed, letters_trim]
  exact letters_of_atoms (atoms_squeeze false cs)

theorem letters_flatten (pieces : List (List Char)) :
    letters pieces.flatten = pieces.flatMap letters := by
  induction pieces with
  | nil => rfl
  | cons p pieces ih => rw [List.flatten_cons, letters_append, ih, List.flatMap_cons]

theorem intercalate_cons_eq (separator p : List Char) (pieces : List (List Char)) :
    separator.intercalate (p :: pieces) = p ++ pieces.flatMap (separator ++ ·) := by
  induction pieces generalizing p with
  | nil => simp
  | cons q pieces ih =>
    rw [List.intercalate_cons_cons, ih, List.flatMap_cons, List.append_assoc, List.append_assoc]

theorem letters_intercalate (separator : List Char) (pieces : List (List Char)) :
    letters (separator.intercalate pieces) = (letters separator).intercalate (pieces.map letters) := by
  induction pieces with
  | nil => rfl
  | cons p pieces ih =>
    cases pieces with
    | nil => simp
    | cons q pieces =>
      rw [List.intercalate_cons_cons, letters_append, letters_append, ih]
      simp only [List.map_cons, List.intercalate_cons_cons]

/-- Blanks between pieces do not count. -/
theorem letters_intercalate_blanks {separator : List Char} (h : ∀ c ∈ separator, isBlank c = true)
    (pieces : List (List Char)) : letters (separator.intercalate pieces) = pieces.flatMap letters := by
  rw [letters_intercalate, letters_blanks h]
  cases pieces with
  | nil => rfl
  | cons p pieces =>
    rw [List.map_cons, intercalate_cons_eq, List.flatMap_map, List.flatMap_cons]
    simp only [List.nil_append]

@[simp] theorem letters_indent : letters indent = [] := letters_blanks (by decide +kernel)

@[simp] theorem letters_indentTwice : letters indentTwice = [] := letters_blanks (by decide +kernel)

/-- Pieces without blanks at their ends and without the empty ones are all that counts. -/
theorem flatMap_letters_trim (pieces : List (List Char)) :
    ((pieces.map trim).filter fun p => !p.isEmpty).flatMap letters = letters pieces.flatten := by
  rw [letters_flatten]
  induction pieces with
  | nil => rfl
  | cons p pieces ih =>
    rw [List.map_cons, List.filter_cons, List.flatMap_cons, ← ih]
    split
    · rw [List.flatMap_cons, letters_trim]
    · rename_i hempty
      have hnil : trim p = [] := by simpa using hempty
      rw [← letters_trim, hnil, letters_nil, List.nil_append]

theorem letters_limitBreaks (count : Nat) (cs : List Char) :
    letters (limitBreaks count cs) = letters cs := by
  induction cs generalizing count with
  | nil => rfl
  | cons c cs ih =>
    rw [limitBreaks]
    split
    · rename_i hc
      rw [hc, letters_blank (by decide)]
      split
      · rw [letters_blank (by decide), ih]
      · exact ih count
    · rw [letters_cons, ih, ← letters_cons]

theorem letters_partComments (afterCode : Bool) (count : Nat) (cs : List Char) :
    letters (partComments afterCode count cs) = letters cs := by
  have hbreaks (count : Nat) : letters (List.replicate count '\n') = [] :=
    letters_blanks fun c hc => by rw [List.eq_of_mem_replicate hc]; decide
  induction cs generalizing afterCode count with
  | nil => exact hbreaks count
  | cons c cs ih =>
    rw [partComments]
    split
    · rename_i hc
      rw [ih, hc, letters_blank (by decide)]
    · rw [letters_append, hbreaks, List.nil_append, letters_cons, ih, ← letters_cons]

/-- The words that start a block keep their letters in upper case. -/
theorem letters_upper_of_isBlockWord {w : List Char} (h : isBlockWord w = true) :
    letters (upper w) = letters w := by
  have hchars : ∀ c ∈ w, (foldChar c).isLower = true := by
    have hlower {lowered : List Char} (hall : ∀ c ∈ lowered, c.isLower = true)
        (heq : equalsFolded w lowered = true) : ∀ c ∈ w, (foldChar c).isLower = true := by
      rw [equalsFolded, beq_iff_eq] at heq
      exact fun c hc => hall _ (heq ▸ List.mem_map_of_mem hc)
    rcases Bool.or_eq_true_iff.1 h with hquery | hmigration
    · exact hlower (by decide) hquery
    · exact hlower (by decide) hmigration
  have hwords := (isSound_of_isBlockWord h).2
  clear h
  induction w with
  | nil => rfl
  | cons c w ih =>
    obtain ⟨hc, hw⟩ := List.forall_mem_cons.1 hchars
    obtain ⟨hword, hwords⟩ := List.forall_mem_cons.1 hwords
    rw [upper_cons, letters_append, ih hw hwords, letters_cons c w]
    congr 1
    by_cases hdotted : c = 'İ'
    · -- the dotted capital I equals an i when case is ignored, and is its own upper-case form
      rw [hdotted]
      decide +kernel
    · have hall : ∀ n < 128, (Char.ofNat n).isLower = true →
          letters [(Char.ofNat n).toUpper] = [(Char.ofNat n).toUpper] := by decide +kernel
      have halpha : (foldChar c).isAlpha = true := Bool.or_eq_true_iff.2 (.inr hc)
      have hascii : (foldChar c).toNat < 128 :=
        toNat_lt_of_isAlphanum (Bool.or_eq_true_iff.2 (.inl halpha))
      have hletters := hall _ hascii (by rwa [Char.ofNat_toNat])
      rw [Char.ofNat_toNat] at hletters
      have hself : letters [c] = upperChar c := by
        have hblank := not_isBlank_of_isWordChar hword
        rw [letters, withoutBlanks, List.filter_cons_of_pos (by simp [hblank])]
        exact List.append_nil _
      rw [hself, upperChar_of_foldChar hascii hdotted, hletters]

/-! ### Cutting -/

theorem flatten_cutWhere (cuts : Bool → List Char → Bool) (afterWord : Bool) (cs : List Char) :
    (cutWhere cuts afterWord cs).flatten = cs := by
  induction cs generalizing afterWord with
  | nil => rfl
  | cons c cs ih =>
    rw [cutWhere]
    split
    · rw [List.flatten_cons, List.nil_append, flatten_consFirst, ih]
    · rw [flatten_consFirst, ih]

theorem flatten_cutAtComments (cs : List Char) : (cutAtComments cs).flatten = cs := by
  have hflatten := flatten_cutWhere (fun _ rest => startsComment rest) false cs
  rw [cutAtComments]
  split
  · rename_i h
    rwa [h, List.flatten_cons, List.nil_append] at hflatten
  · exact hflatten

theorem cutAtComments_ne_nil (cs : List Char) : cutAtComments cs ≠ [] := by
  rw [cutAtComments]
  split
  · exact List.cons_ne_nil _ _
  · exact cutWhere_ne_nil _ _ _

/-- A text is not cut within a piece. -/
theorem exists_of_mem_cutWhere {cuts : Bool → List Char → Bool} {afterWord : Bool}
    {cs p a b : List Char} (hp : p ∈ cutWhere cuts afterWord cs) (hab : p = a ++ b) (ha : a ≠ [])
    (hb : b ≠ []) : ∃ before rest, cuts before (b ++ rest) = false := by
  induction cs generalizing afterWord p a with
  | nil =>
    obtain rfl := List.mem_singleton.1 hp
    exact absurd (List.append_eq_nil_iff.1 hab.symm).1 ha
  | cons c cs ih =>
    obtain ⟨q, qs, hq⟩ := List.exists_cons_of_ne_nil (cutWhere_ne_nil cuts (isWordChar c) cs)
    have hpiece : p = [] ∨ p = c :: q ∨ p ∈ qs := by
      rw [cutWhere, hq] at hp
      split at hp
      · simpa [consFirst] using hp
      · exact .inr (by simpa [consFirst] using hp)
    rcases hpiece with rfl | rfl | hmem
    · exact absurd (List.append_eq_nil_iff.1 hab.symm).1 ha
    · obtain ⟨d, a, rfl⟩ := List.exists_cons_of_ne_nil ha
      have htail : q = a ++ b := (List.cons.inj hab).2
      by_cases hnil : a = []
      · -- the rest is the first piece of what follows, so nothing is cut in front of it
        obtain rfl : q = b := by rw [htail, hnil, List.nil_append]
        have hflatten := flatten_cutWhere cuts (isWordChar c) cs
        rw [hq, List.flatten_cons] at hflatten
        refine ⟨isWordChar c, qs.flatten, ?_⟩
        rw [hflatten, ← Bool.not_eq_true]
        intro hcut
        cases cs with
        | nil => exact hb (List.append_eq_nil_iff.1 hflatten).1
        | cons e cs =>
          rw [cutWhere, if_pos hcut] at hq
          exact hb (List.cons.inj hq).1.symm
      · exact ih (by rw [hq]; exact List.mem_cons_self ..) htail hnil
    · exact ih (by rw [hq]; exact List.mem_cons_of_mem _ hmem) hab ha

@[simp] theorem letters_statements (cs : List Char) : (statements cs).flatMap letters = letters cs := by
  rw [statements, flatMap_letters_trim, flatten_cutWhere]

/-- No comment starts in a text. -/
def HasNoComment (cs : List Char) : Prop := ∀ b, b <:+ cs → startsComment b = false

theorem startsComment_append {b : List Char} (h : startsComment b = true) (more : List Char) :
    startsComment (b ++ more) = true := by
  have hmore {mark : List Char} (hmark : mark.isPrefixOf b = true) :
      mark.isPrefixOf (b ++ more) = true := by
    rw [List.isPrefixOf_iff_prefix] at hmark ⊢
    exact hmark.trans (List.prefix_append ..)
  simp only [startsComment, Bool.or_eq_true] at h ⊢
  exact h.imp (Or.imp hmore hmore) hmore

theorem HasNoComment.of_isInfix {cs e : List Char} (h : HasNoComment cs) (he : e <:+: cs) :
    HasNoComment e := by
  intro b hb
  obtain ⟨front, back, rfl⟩ := he
  obtain ⟨a, rfl⟩ := hb
  rw [← Bool.not_eq_true]
  intro hcomment
  have hsuffix : b ++ back <:+ front ++ (a ++ b) ++ back :=
    ⟨front ++ a, by simp only [List.append_assoc]⟩
  have hnone := h _ hsuffix
  rw [startsComment_append hcomment] at hnone
  cases hnone

/-- A statement that is no comment has none: a text is cut in front of its comments. -/
theorem hasNoComment_of_mem_statements {cs s : List Char} (hs : s ∈ statements cs)
    (h : startsComment s = false) : HasNoComment s := by
  obtain ⟨p, hp, rfl⟩ := List.mem_map.1 (List.mem_filter.1 hs).1
  obtain ⟨x, y, hxy, -, -⟩ := exists_blanks_trim p
  rintro b ⟨a, hab⟩
  by_cases ha : a = []
  · rwa [← hab, ha, List.nil_append] at h
  by_cases hb : b = []
  · rw [hb]
    rfl
  have hpiece : p = x ++ a ++ (b ++ y) := by
    rw [hxy, ← hab]
    simp only [List.append_assoc]
  -- the text was not cut in front of `b`, so no comment starts there
  obtain ⟨before, rest, hcut⟩ := exists_of_mem_cutWhere hp hpiece (by simp [ha]) (by simp [hb])
  rw [startsStatement, Bool.or_eq_false_iff, List.append_assoc] at hcut
  rw [← Bool.not_eq_true]
  intro hcomment
  rw [startsComment_append hcomment] at hcut
  cases hcut.2

theorem comment?_eq_none_of {cs : List Char} (h : startsComment cs = false) : comment? cs = none := by
  cases cs with
  | nil => rfl
  | cons c cs =>
    rw [comment?]
    split
    · rename_i hline
      simp only [Bool.or_eq_true, Bool.and_eq_true, decide_eq_true_eq, beq_iff_eq] at hline
      rcases hline with rfl | ⟨rfl, hhead⟩
      · simp [startsComment] at h
      · obtain ⟨cs, rfl⟩ := List.head?_eq_some_iff.1 hhead
        simp [startsComment] at h
    · split
      · rename_i hblock
        simp only [Bool.and_eq_true, decide_eq_true_eq, beq_iff_eq] at hblock
        obtain ⟨rfl, hhead⟩ := hblock
        obtain ⟨cs, rfl⟩ := List.head?_eq_some_iff.1 hhead
        simp [startsComment] at h
      · rfl

/-- Text without comments is tidied as code. -/
theorem HasNoComment.tidy_eq {cs : List Char} (h : HasNoComment cs) : tidy cs = tidyCode cs := by
  have hpieces (pending : List Char) : pieces pending cs = [.code (pending.reverse ++ cs)] := by
    induction cs generalizing pending with
    | nil => rw [pieces, List.append_nil]
    | cons c cs ih =>
      have hnone := comment?_eq_none_of (h _ List.suffix_rfl)
      rw [pieces_of_no_comment hnone, ih fun b hb => h b (hb.trans (List.suffix_cons ..)),
        List.reverse_cons, List.append_assoc, List.singleton_append]
  rw [tidy, hpieces]
  exact List.append_nil _

/-! ### Lists -/

/-- The elements of a list put together again are its text if none of them is empty. -/
theorem letters_intercalate_splitTopLevel {separator cs : List Char} (hseparator : separator ≠ [])
    (h : Filled separator cs) :
    letters (separator.intercalate (splitTopLevel separator cs)) = letters cs := by
  by_cases htwo : 2 ≤ (segments separator 0 0 cs).length
  · have hall : splitTopLevel separator cs = (segments separator 0 0 cs).map trim := by
      refine List.filter_eq_self.2 fun p hp => ?_
      obtain ⟨piece, hpiece, rfl⟩ := List.mem_map.1 hp
      simpa using h htwo piece hpiece
    have htrim : (segments separator 0 0 cs).map (letters ∘ trim) =
        (segments separator 0 0 cs).map letters := List.map_congr_left fun p _ => letters_trim p
    calc letters (separator.intercalate (splitTopLevel separator cs))
        = (letters separator).intercalate ((segments separator 0 0 cs).map letters) := by
          rw [hall, letters_intercalate, List.map_map, htrim]
      _ = letters (separator.intercalate (segments separator 0 0 cs)) := (letters_intercalate ..).symm
      _ = letters cs := by rw [intercalate_segments hseparator, List.drop_zero]
  · obtain ⟨p, ps, hp⟩ := List.exists_cons_of_ne_nil (segments_ne_nil separator 0 0 cs)
    obtain rfl : ps = [] := by
      rw [hp, List.length_cons] at htwo
      exact List.length_eq_zero_iff.1 (by omega)
    obtain rfl := segments_of_eq_singleton hseparator hp
    rw [splitTopLevel, hp, List.map_singleton, List.filter_cons, List.filter_nil]
    split
    · rw [List.intercalate_singleton, letters_trim]
    · rename_i hempty
      have hnil : trim p = [] := by simpa using hempty
      rw [← letters_trim p, hnil]
      rfl

theorem infix_intercalate_of_mem {separator p : List Char} {pieces : List (List Char)} (h : p ∈ pieces) :
    p <:+: separator.intercalate pieces := by
  induction pieces with
  | nil => cases h
  | cons q pieces ih =>
    cases pieces with
    | nil =>
      exact ⟨[], [], by simp [List.mem_singleton.1 h]⟩
    | cons r pieces =>
      rw [List.intercalate_cons_cons]
      rcases List.mem_cons.1 h with rfl | hmem
      · exact (List.prefix_append ..).isInfix.trans (List.prefix_append ..).isInfix
      · exact (ih hmem).trans (List.suffix_append ..).isInfix

theorem infix_of_mem_splitTopLevel {separator cs e : List Char} (hseparator : separator ≠ [])
    (h : e ∈ splitTopLevel separator cs) : e <:+: cs := by
  obtain ⟨p, hp, rfl⟩ := List.mem_map.1 (List.mem_filter.1 h).1
  have hpiece : p <:+: cs := by
    have hpieces := intercalate_segments hseparator 0 0 cs
    rw [List.drop_zero] at hpieces
    rw [← hpieces]
    exact infix_intercalate_of_mem hp
  exact (isInfix_trim p).trans hpiece

/-- Whether an element of a list is empty is told from the shape of the list. -/
theorem filled_of_shape {a b : List Char} (h : shape b = shape a) (hfilled : Filled [','] a) :
    Filled [','] b := by
  have hsegments : (segments [','] 0 0 b).map shape = (segments [','] 0 0 a).map shape := by
    rw [← segments_shape, ← segments_shape, h]
  have hlength := congrArg List.length hsegments
  rw [List.length_map, List.length_map] at hlength
  intro htwo p hp hnil
  -- a piece of the one text that is empty has no sign, nor has the piece of the other in its place
  have hmem : shape p ∈ (segments [','] 0 0 a).map shape := by
    rw [← hsegments]
    exact List.mem_map_of_mem hp
  obtain ⟨q, hq, hshape⟩ := List.mem_map.1 hmem
  rw [(shape_eq_nil_iff p).2 hnil] at hshape
  exact hfilled (hlength ▸ htwo) q hq ((shape_eq_nil_iff q).1 hshape)

/-- No list in the outermost braces of a text has an empty element. -/
def FilledBraces (cs : List Char) : Prop := ∀ content ∈ braced cs, Filled [','] content

instance (cs : List Char) : Decidable (FilledBraces cs) :=
  inferInstanceAs (Decidable (∀ content ∈ braced cs, _))

/-- Tidying code empties no element of a list. -/
theorem FilledBraces.tidyCode {cs : List Char} (h : FilledBraces cs) : FilledBraces (tidyCode cs) := by
  intro content hcontent
  have hmem : shape content ∈ (braced cs).map shape := by
    rw [← braced_shape, ← shape_tidyCode, braced_shape]
    exact List.mem_map_of_mem hcontent
  obtain ⟨original, horiginal, hshape⟩ := List.mem_map.1 hmem
  exact filled_of_shape hshape.symm (h original horiginal)

theorem letters_expandFields {content : List Char} (h : Filled [','] content) :
    letters (expandFields content) = letters ('\x7b' :: content ++ ['\x7d']) := by
  have hlist := letters_intercalate_splitTopLevel (by decide) h
  rw [expandFields]
  split
  · rename_i first second fields hfields
    have hseparator : letters (',' :: '\n' :: indentTwice) = letters [','] := by decide +kernel
    have hopen : letters ('\x7b' :: '\n' :: indentTwice) = letters ['\x7b'] := by decide +kernel
    have hclose : letters ('\n' :: indent) = [] := by decide +kernel
    have hfields' : letters ((',' :: '\n' :: indentTwice).intercalate (first :: second :: fields)) =
        letters content := by
      rw [letters_intercalate, hseparator, ← letters_intercalate, ← hfields, hlist]
    simp only [letters_append, hopen, hclose, hfields', List.append_nil]
    rw [letters_cons _ content]
  · rfl

theorem letters_expandBraces {cs : List Char} (h : FilledBraces cs) :
    letters (expandBraces cs) = letters cs := by
  fun_induction expandBraces cs with
  | case1 => rfl
  | case2 cs content rest huntil ih =>
    rw [FilledBraces, braced_of_until huntil] at h
    obtain ⟨hcontent, hrest⟩ := List.forall_mem_cons.1 h
    rw [letters_append, letters_expandFields hcontent, ih hrest, ← letters_append, List.append_assoc,
      List.cons_append, List.singleton_append, untilBrace?_eq_some huntil]
  | case3 cs huntil => rfl
  | case4 c cs hc ih =>
    rw [FilledBraces, braced_cons hc] at h
    rw [letters_cons, ih h, ← letters_cons]

theorem letters_expandElement {e : List Char} (h : FilledBraces e) :
    letters (expandElement e) = letters e := by
  rw [expandElement]
  split
  · exact letters_expandBraces h
  · rfl

/-! ### Statements -/

/-- No element of a chain is empty, and no element of a list in the braces of one. -/
def FilledChain (chain : List Char) : Prop :=
  Filled [':', ':'] chain ∧ ∀ e ∈ splitTopLevel [':', ':'] chain, FilledBraces e

instance (chain : List Char) : Decidable (FilledChain chain) := inferInstanceAs (Decidable (_ ∧ _))

theorem letters_chainLines (line : List Char) (steps : List (List Char)) :
    (chainLines line steps).flatMap letters = letters ([':', ':'].intercalate (line :: steps)) := by
  induction steps generalizing line with
  | nil => simp [chainLines]
  | cons step steps ih =>
    rw [chainLines]
    split
    · rw [ih]
      simp only [intercalate_cons_eq, List.flatMap_cons, List.append_assoc, List.cons_append,
        List.nil_append]
    · rw [List.flatMap_cons, ih, List.intercalate_cons_cons, intercalate_cons_eq, intercalate_cons_eq]
      simp only [letters_append, letters_indentTwice, List.nil_append, List.append_assoc,
        List.cons_append]

/-- The lines of an assignment hold its name, the arrow and its chain. -/
theorem letters_assignmentLines (name : List Char) {chain : List Char} (h : FilledChain chain)
    (hcomment : HasNoComment chain) : (assignmentLines name chain).flatMap letters =
      letters name ++ letters ['<', '-'] ++ letters chain := by
  obtain ⟨hfilled, hbraces⟩ := h
  have hstart : letters (indent ++ name ++ [' ', '<', '-', ' ']) =
      letters name ++ letters ['<', '-'] := by
    rw [letters_append, letters_append, letters_indent, List.nil_append]
    rfl
  have hexpanded : (((splitTopLevel [':', ':'] chain).map tidy).map expandElement).map letters =
      (splitTopLevel [':', ':'] chain).map letters := by
    rw [List.map_map, List.map_map]
    refine List.map_congr_left fun e he => ?_
    -- an element has no comment, so it is tidied as code, and its lists stay without empty elements
    have hnone : HasNoComment e := hcomment.of_isInfix (infix_of_mem_splitTopLevel (by decide) he)
    have htidied : FilledBraces (tidy e) := hnone.tidy_eq ▸ (hbraces e he).tidyCode
    rw [Function.comp_apply, Function.comp_apply, letters_expandElement htidied, letters_tidy]
  have hchain : letters ([':', ':'].intercalate
      (((splitTopLevel [':', ':'] chain).map tidy).map expandElement)) = letters chain :=
    calc _ = (letters [':', ':']).intercalate ((splitTopLevel [':', ':'] chain).map letters) := by
          rw [letters_intercalate, hexpanded]
      _ = letters ([':', ':'].intercalate (splitTopLevel [':', ':'] chain)) :=
          (letters_intercalate ..).symm
      _ = letters chain := letters_intercalate_splitTopLevel (by decide) hfilled
  rw [assignmentLines]
  generalize ((splitTopLevel [':', ':'] chain).map tidy).map expandElement = expanded at hchain
  split
  · rw [List.flatMap_singleton, letters_append, hstart, hchain]
  · split
    · rw [List.flatMap_singleton, hstart, ← hchain]
      exact (List.append_nil _).symm
    · rename_i first steps
      rw [letters_chainLines, intercalate_cons_eq, List.append_assoc, ← intercalate_cons_eq,
        letters_append, hstart, hchain]

/-- No element of a chain that a statement assigns, or of a list in its braces, is empty. -/
def FilledStatement (statement : List Char) : Prop :=
  startsComment statement = false → ∀ p ∈ splitFirst? ['<', '-'] statement, FilledChain (trim p.2)

instance (statement : List Char) : Decidable (FilledStatement statement) :=
  inferInstanceAs (Decidable (_ → ∀ p ∈ splitFirst? ['<', '-'] statement, FilledChain (trim p.2)))

/-- The lines of a statement hold its text. -/
theorem letters_statementLines {cs s : List Char} (hs : s ∈ statements cs) (h : FilledStatement s) :
    (statementLines s).flatMap letters = letters s := by
  have hindent (cs : List Char) : [indent ++ cs].flatMap letters = letters cs := by
    rw [List.flatMap_singleton, letters_append, letters_indent, List.nil_append]
  rw [statementLines]
  split
  · exact hindent s
  · rename_i hcomment
    have hcode : startsComment s = false := Bool.eq_false_iff.2 hcomment
    split
    · rename_i name chain hsplit
      have htext : name ++ ['<', '-'] ++ chain = s := splitFirst?_eq_some hsplit
      have hchain : HasNoComment (trim chain) := by
        have hsuffix : chain <:+ s := ⟨_, htext⟩
        exact (hasNoComment_of_mem_statements hs hcode).of_isInfix
          ((isInfix_trim chain).trans hsuffix.isInfix)
      rw [letters_assignmentLines (trim name) (h hcode _ hsplit) hchain, letters_trim, letters_trim,
        ← letters_append, ← letters_append, htext]
    · rw [hindent, letters_tidy]

/-- The lines of the returned value hold the word for it and its text. -/
theorem letters_returnLines (cs : List Char) :
    (returnLines cs).flatMap letters = "RETURN".toList ++ letters cs := by
  have hflatten := flatten_cutAtComments cs
  rw [returnLines]
  split
  · rename_i hnil
    exact absurd hnil (cutAtComments_ne_nil cs)
  · rename_i value comments hcut
    have hword : letters (indent ++ "RETURN ".toList) = "RETURN".toList := by decide +kernel
    have hcomments : (if comments.isEmpty then [] else [] :: comments.map trim).flatMap letters =
        letters comments.flatten := by
      rw [letters_flatten]
      split
      · rename_i hempty
        rw [List.isEmpty_iff.1 hempty]
      · rw [List.flatMap_cons, letters_nil, List.nil_append, List.flatMap_map]
        exact List.flatMap_congr fun c _ => letters_trim c
    have hvalue : letters cs = letters value ++ letters comments.flatten := by
      rw [← letters_append, ← List.flatten_cons, ← hcut, hflatten]
    rw [List.flatMap_cons, hcomments, letters_append, hword, letters_tidy, letters_trim,
      List.append_assoc, ← hvalue]

/-- No element of a chain or list in the statements of a body is empty. -/
def FilledBody (body : List Char) : Prop :=
  ∀ i ∈ lastIndex? returnWord (upper body), ∀ s ∈ statements (trim (body.take i)), FilledStatement s

instance (body : List Char) : Decidable (FilledBody body) :=
  inferInstanceAs (Decidable (∀ i ∈ lastIndex? returnWord (upper body),
    ∀ s ∈ statements (trim (body.take i)), FilledStatement s))

/-- What stands at the place that is taken for the last `RETURN` of a body is a `RETURN`. -/
def ReturnsInPlace (body : List Char) : Prop :=
  ∀ i ∈ lastIndex? returnWord (upper body),
    letters ((body.drop i).take returnWord.length) = "RETURN".toList

instance (body : List Char) : Decidable (ReturnsInPlace body) :=
  inferInstanceAs (Decidable (∀ i ∈ lastIndex? returnWord (upper body), _))

/-- The lines of a body hold its text if and only if its last `RETURN` is found in its place. -/
theorem letters_bodyLines_iff {body : List Char} (h : FilledBody body) :
    (bodyLines body).flatMap letters = letters body ↔ ReturnsInPlace body := by
  rw [bodyLines, ReturnsInPlace]
  cases hindex : lastIndex? returnWord (upper body) with
  | none =>
    refine iff_of_true ?_ fun i hi => by cases hi
    dsimp only
    split
    · rename_i hempty
      rw [List.isEmpty_iff.1 hempty]
      rfl
    · rw [List.flatMap_singleton, letters_append, letters_indent, List.nil_append, letters_tidy]
  | some i =>
    have hstatements : ((statements (trim (body.take i))).flatMap statementLines).flatMap letters =
        letters (body.take i) := by
      rw [List.flatMap_assoc, ← letters_trim (body.take i), ← letters_statements]
      refine List.flatMap_congr fun s hs => ?_
      exact letters_statementLines hs (h i hindex s hs)
    -- the body is what stands before the place, at the place and behind it
    have hbody : letters body = letters (body.take i) ++
        (letters ((body.drop i).take returnWord.length) ++
          letters (body.drop (i + returnWord.length))) := by
      rw [← letters_append, ← List.drop_drop, List.take_append_drop, ← letters_append,
        List.take_append_drop]
    dsimp only
    rw [List.flatMap_append, hstatements, letters_returnLines, letters_trim, hbody,
      List.append_right_inj, List.append_left_inj, eq_comm]
    simp only [Option.mem_def, Option.some.injEq, forall_eq']

/-! ### The place of the last `RETURN` -/

theorem exists_of_lastIndex? {sought cs : List Char} {i : Nat} (h : lastIndex? sought cs = some i) :
    ∃ rest, cs.drop i = sought ++ rest := by
  induction cs generalizing i with
  | nil =>
    rw [lastIndex?] at h
    split at h
    · rename_i hempty
      exact ⟨[], by simp [List.isEmpty_iff.1 hempty]⟩
    · cases h
  | cons c cs ih =>
    rw [lastIndex?] at h
    split at h
    · rename_i j hj
      obtain rfl := Option.some.inj h
      exact ih hj
    · split at h
      · rename_i hprefix
        obtain rfl := Option.some.inj h
        obtain ⟨rest, hrest⟩ := List.isPrefixOf_iff_prefix.1 hprefix
        exact ⟨rest, hrest.symm⟩
      · cases h

theorem length_upper {cs : List Char} (h : ∀ c ∈ cs, (upperChar c).length = 1) :
    (upper cs).length = cs.length := by
  induction cs with
  | nil => rfl
  | cons c cs ih =>
    obtain ⟨hc, hcs⟩ := List.forall_mem_cons.1 h
    rw [upper_cons, List.length_append, hc, ih hcs, List.length_cons, Nat.add_comm]

/-- The upper-case form of a body has its places where the body has them, as far as no character
becomes longer. -/
theorem returnsInPlace_of_length {body : List Char}
    (h : ∀ i ∈ lastIndex? returnWord (upper body), ∀ c ∈ body.take (i + returnWord.length),
      (upperChar c).length = 1) : ReturnsInPlace body := by
  intro i hi
  obtain ⟨rest, hrest⟩ := exists_of_lastIndex? hi
  have hsingle := h i hi
  -- the text before the place, the word at the place, and what is left
  have hfront : body.take (i + returnWord.length) =
      body.take i ++ (body.drop i).take returnWord.length := List.take_add
  have hbody : body = body.take i ++ ((body.drop i).take returnWord.length ++
      body.drop (i + returnWord.length)) := by
    rw [← List.append_assoc, ← hfront, List.take_append_drop]
  have hlong : i + returnWord.length ≤ body.length := by
    -- a shorter body would have an upper-case form that is as short
    have hlength := congrArg List.length hrest
    have hpos : 0 < returnWord.length := by decide
    rw [List.length_drop, List.length_append] at hlength
    by_contra hshort
    rw [List.take_of_length_le (by omega)] at hsingle
    rw [length_upper hsingle] at hlength
    omega
  rw [hfront] at hsingle
  obtain ⟨hbefore, hat⟩ := List.forall_mem_append.1 hsingle
  have hplace : (upper (body.take i)).length = i := by
    rw [length_upper hbefore, List.length_take]
    omega
  have hword : upper ((body.drop i).take returnWord.length) = returnWord := by
    rw [hbody, upper_append, upper_append, List.drop_left' hplace] at hrest
    refine List.append_inj_left hrest ?_
    rw [length_upper hat, List.length_take, List.length_drop]
    omega
  rw [← withoutBlanks_upper, hword]
  decide

/-! ### Queries -/

namespace IsQuery

variable {cs keyword signature body : List Char} (h : IsQuery cs keyword signature body)

include h

theorem letters_eq : letters cs =
    letters keyword ++ letters signature ++ letters ['=', '>'] ++ letters (trim body) := by
  rw [← letters_collapsed, h.text, letters_append, letters_blank (by decide)]
  simp only [letters_append, letters_trim, List.append_assoc]

/-- The layout of a query holds its header and its body. -/
theorem letters_formatChars : letters (formatChars cs) =
    letters keyword ++ letters signature ++ letters ['=', '>'] ++
      (bodyLines (trim body)).flatMap letters := by
  have hheader : letters (blockOf keyword signature body).header =
      letters keyword ++ letters signature ++ letters ['=', '>'] := by
    have hsignature : letters (closeBefore '(' (trim signature)) = letters signature := by
      rw [letters_of_atoms (atoms_closeBefore (by decide) (by decide) _), letters_trim]
    rw [Block.header, blockOf, letters_append, letters_blank (by decide), letters_append,
      letters_blank (by decide), letters_upper_of_isBlockWord h.keyword, hsignature, List.append_assoc]
  calc letters (formatChars cs)
      = (tidy (blockOf keyword signature body).header :: bodyLines (trim body) ++ [[]]).flatMap letters := by
        rw [h.formatChars_eq, letters_trim, letters_partComments, letters_limitBreaks,
          letters_intercalate_blanks (by decide)]
        rfl
    _ = letters (blockOf keyword signature body).header ++ (bodyLines (trim body)).flatMap letters := by
        rw [List.flatMap_append, List.flatMap_cons, letters_tidy]
        exact List.append_nil _
    _ = _ := by rw [hheader]

end IsQuery

/-- The layout of a query without empty elements in its chains and lists is its text, up to blanks and
case, if and only if the last `RETURN` of the body is found in its place. It is found there if no
character up to it becomes longer in upper case. -/
theorem letters_format_iff {code : String} {keyword signature body : List Char}
    (h : IsQuery code.toList keyword signature body) (hfilled : FilledBody (trim body)) :
    (letters (format code).toList = letters code.toList ↔ ReturnsInPlace (trim body)) ∧
      ((∀ i ∈ lastIndex? returnWord (upper (trim body)),
          ∀ c ∈ (trim body).take (i + returnWord.length), (upperChar c).length = 1) →
        letters (format code).toList = letters code.toList) := by
  have hiff : letters (format code).toList = letters code.toList ↔ ReturnsInPlace (trim body) := by
    rw [format, String.toList_ofList, h.letters_formatChars, h.letters_eq, List.append_right_inj]
    exact letters_bodyLines_iff hfilled
  exact ⟨hiff, fun hlength => hiff.2 (returnsInPlace_of_length hlength)⟩

/-- A query with a letter beyond ASCII and a projection that is broken into lines. -/
theorem letters_format_iff_projection :
    IsQuery "query Élu() => x <- N<User>::\x7bname: n, age\x7d DROP x return x".toList "query".toList
        "Élu() ".toList " x <- N<User>::\x7bname: n, age\x7d DROP x return x".toList ∧
      FilledBody (trim " x <- N<User>::\x7bname: n, age\x7d DROP x return x".toList) ∧
      letters (format "query Élu() => x <- N<User>::\x7bname: n, age\x7d DROP x return x").toList =
        letters "query Élu() => x <- N<User>::\x7bname: n, age\x7d DROP x return x".toList := by
  have h : IsQuery "query Élu() => x <- N<User>::\x7bname: n, age\x7d DROP x return x".toList
      "query".toList "Élu() ".toList " x <- N<User>::\x7bname: n, age\x7d DROP x return x".toList := by
    constructor <;> decide +kernel
  have hfilled : FilledBody (trim " x <- N<User>::\x7bname: n, age\x7d DROP x return x".toList) := by
    decide +kernel
  exact ⟨h, hfilled, (letters_format_iff h hfilled).2 (by decide +kernel)⟩

/-- The sharp s has two letters in upper case, so the last `RETURN` is taken to stand one character
behind its place, and the returned value is lost. -/
theorem not_letters_format : ¬ ∀ (code : String) (keyword signature body : List Char),
    IsQuery code.toList keyword signature body → (∀ c ∈ code.toList, c ≠ '/' ∧ c ≠ '#') →
      FilledBody (trim body) → letters (format code).toList = letters code.toList := by
  intro h
  have hquery : IsQuery "QUERY q() =>\n    x <- N<A>(\"ß\")\n    RETURN x".toList "QUERY".toList
      "q() ".toList " x <- N<A>(\"ß\") RETURN x".toList := by
    constructor <;> decide +kernel
  have hletters := h _ _ _ _ hquery (by decide +kernel) (by decide +kernel)
  have hlost : letters (format "QUERY q() =>\n    x <- N<A>(\"ß\")\n    RETURN x").toList ≠
      letters "QUERY q() =>\n    x <- N<A>(\"ß\")\n    RETURN x".toList := by decide +kernel
  exact hlost hletters

end Hql.Layout
