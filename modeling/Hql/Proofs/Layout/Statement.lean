import Hql.Proofs.Layout.Chain

/-!
Statements laid out. A body is cut where an assignment or a deletion starts, which its tokens tell, and
each statement is laid out by itself.
-/

namespace Hql

namespace Text

theorem splitFirst?_append {c : Char} {a : List Char} (ha : c ∉ a) (sought b : List Char) :
    splitFirst? (c :: sought) (a ++ (c :: sought) ++ b) = some (a, b) := by
  induction a with
  | nil =>
    have hstart : (c :: sought).isPrefixOf (c :: sought ++ b) = true :=
      List.isPrefixOf_iff_prefix.2 (List.prefix_append ..)
    rw [List.nil_append, List.cons_append, splitFirst?, ← List.cons_append, if_pos hstart,
      List.drop_left]
  | cons d a ih =>
    rw [List.mem_cons, not_or] at ha
    have hstart : ¬ (c :: sought).isPrefixOf (d :: a ++ (c :: sought) ++ b) = true := by
      rw [List.isPrefixOf_iff_prefix]
      exact fun h => ha.1 (List.cons_prefix_cons.1 h).1
    rw [List.cons_append, List.cons_append, splitFirst?, ← List.cons_append, ← List.cons_append,
      if_neg hstart, ih ha.2]
    rfl

theorem splitFirst?_eq_none {d : Char} {sought cs : List Char} (hd : d ∈ sought) (h : d ∉ cs) :
    splitFirst? sought cs = none := by
  cases hsplit : splitFirst? sought cs with
  | none => rfl
  | some p =>
    rw [← splitFirst?_eq_some hsplit] at h
    simp [hd] at h

end Text

namespace Layout

open Text

/-! ### Cutting a text into statements -/

/-- The tokens of the word that starts a deletion. -/
def dropWord : List Char := ['D', 'R', 'O', 'P']

/-- The arrow of an assignment comes first. -/
def startsArrow (ts : Tokens) : Bool :=
  (ts.map Prod.snd).head? == some (.mark '<') && ts.tail.head? == some (false, .mark '-')

/-- A statement starts with these tokens. -/
def startsClause : Tokens → Bool
  | (_, .word w) :: ts => w == dropWord || (isWord w && startsArrow ts)
  | _ => false

/-- Tokens cut where a statement starts. The gap before a statement belongs to none. -/
def cutTokens : Tokens → List Tokens
  | [] => [[]]
  | x :: ts =>
    if startsClause (x :: ts) then [] :: consHead (false, x.2) (cutTokens ts)
    else consHead x (cutTokens ts)

theorem startsComment_eq_false {c : Char} (hslash : c ≠ '/') (hhash : c ≠ '#') (cs : List Char) :
    startsComment (c :: cs) = false := by
  have hne {d : Char} (h : c ≠ d) : (d == c) = false := beq_eq_false_iff_ne.2 h.symm
  simp [startsComment, List.isPrefixOf, hne hslash, hne hhash]

theorem isIdentStart_eq_false {c : Char} (h : isWordChar c = false) : isIdentStart c = false := by
  rw [Bool.eq_false_iff]
  intro hstart
  rw [isWordChar_of_isIdentStart hstart] at h
  cases h

/-- No statement starts within a word or at a character that belongs to none. -/
theorem startsStatement_eq_false {afterWord : Bool} {c : Char} {cs : List Char} (hslash : c ≠ '/')
    (hhash : c ≠ '#') (h : afterWord = true ∨ isWordChar c = false) :
    startsStatement afterWord (c :: cs) = false := by
  rw [startsStatement, startsComment_eq_false hslash hhash, Bool.or_false]
  rcases h with rfl | h
  · rfl
  · rw [startsAssignment, isIdentStart_eq_false h, Bool.false_and, Bool.false_or,
      List.takeWhile_cons_of_neg (by rw [h]; decide)]
    exact Bool.and_false _

theorem cutWhere_ne_nil (cuts : Bool → List Char → Bool) (afterWord : Bool) (cs : List Char) :
    cutWhere cuts afterWord cs ≠ [] := by
  cases cs with
  | nil => simp [cutWhere]
  | cons c cs =>
    rw [cutWhere]
    split
    · simp
    · cases cutWhere cuts (isWordChar c) cs <;> simp [consFirst]

theorem cutWhere_cons {cuts : Bool → List Char → Bool} {afterWord : Bool} {c : Char}
    {cs : List Char} (h : cuts afterWord (c :: cs) = false) :
    cutWhere cuts afterWord (c :: cs) = prependFirst [c] (cutWhere cuts (isWordChar c) cs) := by
  rw [cutWhere, if_neg (by rw [h]; decide)]
  cases cutWhere cuts (isWordChar c) cs <;> rfl

theorem prependFirst_nil {pieces : List (List Char)} (h : pieces ≠ []) :
    prependFirst [] pieces = pieces := by
  cases pieces with
  | nil => exact absurd rfl h
  | cons p ps => rfl

/-- The rest of a word is cut nowhere. -/
theorem cutWhere_word {w : List Char} (hw : ∀ c ∈ w, isWordChar c = true) (cs : List Char) :
    cutWhere startsStatement true (w ++ cs) =
      prependFirst w (cutWhere startsStatement true cs) := by
  induction w with
  | nil => exact (prependFirst_nil (cutWhere_ne_nil _ _ _)).symm
  | cons c w ih =>
    obtain ⟨hc, hw⟩ := List.forall_mem_cons.1 hw
    have hne {d : Char} (hd : isWordChar d = false) : c ≠ d := by
      rintro rfl
      rw [hc] at hd
      cases hd
    rw [List.cons_append, cutWhere_cons (startsStatement_eq_false (hne (by decide))
      (hne (by decide)) (.inl rfl)), hc, ih hw, prependFirst_prependFirst]
    rfl

theorem isPrefixOf_arrow {ts : Tokens} (h : Fits ts) :
    ['<', '-'].isPrefixOf (written (flush ts)) = startsArrow ts := by
  cases ts with
  | nil => rfl
  | cons x ts =>
    obtain ⟨ht, -, hrest⟩ := Fits.cons_iff.1 h
    have hwritten : written (flush (x :: ts)) = x.2.chars ++ written ts := rfl
    have hhead : ((x.2.chars ++ written ts).head? == some '<') = (x.2 == .mark '<') := by
      rw [List.head?_append_of_ne_nil _ ht.chars_ne_nil, head_chars_eq (by decide) (by decide) ht]
    have hright : startsArrow (x :: ts) =
        (x.2 == .mark '<' && ts.head? == some (false, .mark '-')) := rfl
    rw [hwritten, hright]
    -- both characters are marks by themselves, and the second one has no gap before it
    by_cases hx : x.2 = .mark '<'
    · rw [hx, beq_self_eq_true, Bool.true_and, Token.chars, List.singleton_append]
      have hstart : ['<', '-'].isPrefixOf ('<' :: written ts) = ((written ts).head? == some '-') := by
        cases written ts with
        | nil => rfl
        | cons d cs => simp [List.isPrefixOf, eq_comm]
      rw [hstart]
      cases ts with
      | nil => rfl
      | cons y ts =>
        obtain ⟨g, t⟩ := y
        have hty := (Fits.cons_iff.1 hrest).1
        cases g with
        | true => simp [written, gapChars]
        | false =>
          have hhead : (t.chars.head? == some '-') = (t == .mark '-') :=
            head_chars_eq (by decide) (by decide) hty
          have hwritten : written ((false, t) :: ts) = t.chars ++ written ts := rfl
          rw [hwritten, List.head?_append_of_ne_nil _ hty.chars_ne_nil, hhead]
          rw [Bool.eq_iff_iff]
          simp
    · rw [beq_eq_false_iff_ne.2 hx, Bool.false_and, Bool.eq_false_iff]
      rw [beq_eq_false_iff_ne.2 hx, beq_eq_false_iff_ne] at hhead
      intro hstart
      obtain ⟨rest, hrest⟩ := List.isPrefixOf_iff_prefix.1 hstart
      exact hhead (by rw [← hrest]; rfl)

/-- A word starts a statement if its tokens do. -/
theorem startsStatement_word {w : List Char} {ts : Tokens} (h : Fits ((false, .word w) :: ts)) :
    startsStatement false (w ++ written ts) = startsClause ((false, .word w) :: ts) := by
  obtain ⟨⟨hne, hw⟩, hfirst, hrest⟩ := Fits.cons_iff.1 h
  have hhead := not_isWordChar_head_written hrest hfirst
  obtain ⟨c, w, rfl⟩ := List.exists_cons_of_ne_nil hne
  obtain ⟨hc, hw'⟩ := List.forall_mem_cons.1 hw
  have hne {d : Char} (hd : isWordChar d = false) : c ≠ d := by
    rintro rfl
    rw [hc] at hd
    cases hd
  -- the characters of the word end with its token, and the next token stands behind its gap
  have htake : (c :: w ++ written ts).takeWhile isWordChar = c :: w := by
    rw [List.takeWhile_append_of_pos hw]
    cases hts : written ts with
    | nil => simp
    | cons d cs => rw [List.takeWhile_cons_of_neg (by rw [hhead d (by rw [hts]; rfl)]; decide), List.append_nil]
  have hdrop : (w ++ written ts).dropWhile isWordChar = written ts := by
    rw [List.dropWhile_append_of_pos hw']
    exact dropWhile_of_head hhead
  have hblank : (written ts).dropWhile isBlank = written (flush ts) := by
    rw [written_eq_gapChars, List.dropWhile_append_of_pos isBlank_of_mem_gapChars]
    exact dropWhile_of_head (not_isBlank_of_head_written hrest)
  rw [startsStatement, startsClause, List.cons_append,
    startsComment_eq_false (hne (by decide)) (hne (by decide)), Bool.or_false, startsAssignment,
    ← List.cons_append, htake, hdrop, hblank, isPrefixOf_arrow hrest, Bool.not_false, Bool.true_and,
    Bool.or_comm]
  rfl

theorem cutWhere_gapChars (gap afterWord : Bool) (cs : List Char) :
    cutWhere startsStatement afterWord (gapChars gap ++ cs) =
      prependFirst (gapChars gap) (cutWhere startsStatement (!gap && afterWord) cs) := by
  cases gap with
  | false => exact (prependFirst_nil (cutWhere_ne_nil _ _ _)).symm
  | true => exact cutWhere_cons (startsStatement_eq_false (by decide) (by decide) (.inr (by decide)))

theorem cutWhere_mark {c : Char} (hword : isWordChar c = false) (hslash : c ≠ '/') (hhash : c ≠ '#')
    (afterWord : Bool) (cs : List Char) : cutWhere startsStatement afterWord (c :: cs) =
      prependFirst [c] (cutWhere startsStatement false cs) := by
  rw [cutWhere_cons (startsStatement_eq_false hslash hhash (.inr hword)), hword]

/-- A text is cut where its tokens are. -/
theorem cutWhere_written {ts : Tokens} (h : Fits ts)
    (hmarks : .mark '/' ∉ ts.map Prod.snd ∧ .mark '#' ∉ ts.map Prod.snd) (afterWord : Bool)
    (hafter : afterWord = true → ∀ w, (false, .word w) ∉ ts.head?) :
    List.Forall₂ Writes (cutWhere startsStatement afterWord (written ts)) (cutTokens ts) := by
  -- `afterWord` holds only right behind a word, where a word cannot stand without a gap: the
  -- induction needs both values of it
  induction ts generalizing afterWord with
  | nil => exact .cons ⟨false, rfl⟩ .nil
  | cons x ts ih =>
    obtain ⟨gap, t⟩ := x
    obtain ⟨ht, hfirst, hrest⟩ := Fits.cons_iff.1 h
    simp only [List.map_cons, List.mem_cons, not_or] at hmarks
    have hnext := ih hrest ⟨hmarks.1.2, hmarks.2.2⟩
    have hstart : startsClause ((gap, t) :: ts) = startsClause ((false, t) :: ts) := by
      cases t <;> rfl
    rw [written, List.append_assoc, cutWhere_gapChars, cutTokens, hstart]
    cases t with
    | colons =>
      rw [Token.chars, List.cons_append, List.singleton_append,
        cutWhere_mark (by decide) (by decide) (by decide),
        cutWhere_mark (by decide) (by decide) (by decide), prependFirst_prependFirst,
        prependFirst_prependFirst, List.append_assoc]
      exact forall₂_writes_cons gap .colons (hnext false fun hfalse => absurd hfalse (by decide))
    | mark c =>
      have hslash : c ≠ '/' := fun heq => hmarks.1.1 (heq ▸ rfl)
      have hhash : c ≠ '#' := fun heq => hmarks.2.1 (heq ▸ rfl)
      rw [Token.chars, List.singleton_append, cutWhere_mark ht.2 hslash hhash,
        prependFirst_prependFirst]
      exact forall₂_writes_cons gap (.mark c) (hnext false fun hfalse => absurd hfalse (by decide))
    | word w =>
      have hbegin : (!gap && afterWord) = false := by
        rw [Bool.and_eq_false_imp, Bool.not_eq_true']
        rintro rfl
        rw [Bool.eq_false_iff]
        exact fun htrue => hafter htrue w rfl
      have hrestWord := hnext true fun _ v hv =>
        absurd (hfirst (false, .word v) hv rfl) Bool.false_ne_true
      have hcut : startsStatement false (w ++ written ts) = startsClause ((false, .word w) :: ts) :=
        startsStatement_word (Fits.cons_iff.2 ⟨ht, hfirst, hrest⟩)
      obtain ⟨c, w, rfl⟩ := List.exists_cons_of_ne_nil ht.1
      obtain ⟨hc, hw⟩ := List.forall_mem_cons.1 ht.2
      have hword : consFirst c (cutWhere startsStatement (isWordChar c) (w ++ written ts)) =
          prependFirst (c :: w) (cutWhere startsStatement true (written ts)) := by
        rw [hc, cutWhere_word hw]
        cases cutWhere startsStatement true (written ts) <;> rfl
      rw [hbegin, Token.chars, List.cons_append, cutWhere, ← List.cons_append, hcut, hword]
      split
      · refine .cons ⟨gap, List.append_nil _⟩ ?_
        exact forall₂_writes_cons false (.word (c :: w)) hrestWord
      · rw [prependFirst_prependFirst]
        exact forall₂_writes_cons gap (.word (c :: w)) hrestWord

/-! ### Statements -/

/-- The tokens with other blanks before the first. -/
def lead (blanks : List Char) : List (List Char × Token) → List (List Char × Token)
  | [] => []
  | x :: xs => (blanks, x.2) :: xs

/-- A statement of a query: a chain that is assigned to a name, or a deletion. The steps of a chain
are given with the gaps before their double colons. -/
inductive Clause where
  | assign (name : List Char) (first : Tokens) (steps : List (Bool × Tokens))
  | drop (target : Tokens)

namespace Clause

/-- The tokens of a statement, which stands after a gap. -/
def tokens : Clause → Tokens
  | assign name first steps =>
    (true, .word name) :: (true, .mark '<') :: (false, .mark '-') :: (first ++ chained steps)
  | drop target => (true, .word dropWord) :: target

/-- A statement whose parts can be told apart. -/
def IsSound : Clause → Prop
  | assign name first steps => isWord name = true ∧
    ∀ e ∈ first :: steps.map Prod.snd, IsElement (e.map Prod.snd) ∧ .word dropWord ∉ e.map Prod.snd
  | drop target => Tidy (.word dropWord :: target.map Prod.snd) ∧
    .mark '-' ∉ target.map Prod.snd ∧ .word dropWord ∉ target.map Prod.snd

/-- A statement laid out on lines of its own. -/
def lay : Clause → List (List Char × Token)
  | assign name first steps =>
    ('\n' :: indent, .word name) :: ([' '], .mark '<') :: ([], .mark '-') ::
      (lead [' '] (layElement (flush first)) ++
        layChain (onOneLine first (steps.map Prod.snd)) (steps.map Prod.snd))
  | drop target =>
    ('\n' :: indent, .word dropWord) ::
      singleSpaced (regap tightGap (some (.word dropWord)) target)

end Clause

theorem cutTokens_mark (gap : Bool) (c : Char) (ts : Tokens) :
    cutTokens ((gap, .mark c) :: ts) = consHead (gap, .mark c) (cutTokens ts) := rfl

/-- Tokens of one statement, after the word that starts it, are cut nowhere. -/
theorem cutTokens_append {ts rest : Tokens} (hminus : .mark '-' ∉ ts.map Prod.snd)
    (hdrop : .word dropWord ∉ ts.map Prod.snd)
    (hrest : ∀ x ∈ rest.head?, ∃ w, x.2 = .word w) {pieces : List Tokens}
    (hpieces : cutTokens rest = [] :: pieces) : cutTokens (ts ++ rest) = ts :: pieces := by
  induction ts with
  | nil => exact hpieces
  | cons x ts ih =>
    simp only [List.map_cons, List.mem_cons, not_or] at hminus hdrop
    -- an arrow has a minus sign, which is neither one of these tokens nor the word behind them
    have harrow : startsArrow (ts ++ rest) = false := by
      rw [Bool.eq_false_iff, startsArrow, Ne, Bool.and_eq_true_iff, beq_iff_eq, beq_iff_eq]
      rintro ⟨hfirst, hsecond⟩
      cases ts with
      | nil =>
        rw [List.nil_append, List.head?_map] at hfirst
        obtain ⟨y, hy, hmark⟩ := Option.map_eq_some_iff.1 hfirst
        obtain ⟨w, hw⟩ := hrest y hy
        rw [hw] at hmark
        cases hmark
      | cons y ts =>
        have hsecond : (ts ++ rest).head? = some (false, .mark '-') := hsecond
        cases ts with
        | nil =>
          obtain ⟨w, hw⟩ := hrest _ hsecond
          cases hw
        | cons z ts =>
          obtain rfl := Option.some.inj hsecond
          simp at hminus
    have hstart : startsClause (x :: (ts ++ rest)) = false := by
      obtain ⟨g, t⟩ := x
      cases t with
      | colons => rfl
      | mark c => rfl
      | word w =>
        have hne : (w == dropWord) = false := by
          rw [beq_eq_false_iff_ne]
          rintro rfl
          exact hdrop.1 rfl
        rw [startsClause, hne, harrow, Bool.and_false, Bool.false_or]
    rw [List.cons_append, cutTokens, hstart, if_neg (by decide), ih hminus.2 hdrop.2, consHead]

theorem Clause.IsSound.starts {c : Clause} (h : c.IsSound) (rest : Tokens) :
    startsClause (c.tokens ++ rest) = true := by
  cases c with
  | drop target => rfl
  | assign name first steps =>
    rw [tokens, List.cons_append, startsClause, h.1]
    exact Bool.or_true _

theorem cutTokens_of_starts {x : Bool × Token} {ts : Tokens} (h : startsClause (x :: ts) = true) :
    cutTokens (x :: ts) = [] :: consHead (false, x.2) (cutTokens ts) := by
  rw [cutTokens, if_pos h]

theorem cutTokens_flush {ts : Tokens} (h : startsClause ts = true) :
    cutTokens (flush ts) = cutTokens ts := by
  cases ts with
  | nil => rfl
  | cons x ts =>
    obtain ⟨g, t⟩ := x
    have hflush : startsClause ((false, t) :: ts) = true := by cases t <;> exact h
    rw [cutTokens_of_starts h, flush, cutTokens_of_starts hflush]

theorem Clause.IsSound.cutTokens {c : Clause} (h : c.IsSound) {rest : Tokens}
    (hrest : ∀ x ∈ rest.head?, ∃ w, x.2 = .word w) {pieces : List Tokens}
    (hpieces : cutTokens rest = [] :: pieces) :
    cutTokens (c.tokens ++ rest) = [] :: flush c.tokens :: pieces := by
  have hstart := h.starts rest
  cases c with
  | drop target =>
    have htarget := cutTokens_append h.2.1 h.2.2 hrest hpieces
    rw [tokens, List.cons_append, cutTokens_of_starts rfl, htarget]
    rfl
  | assign name first steps =>
    obtain ⟨hname, helements⟩ := h
    rw [List.forall_mem_cons, List.forall_mem_map] at helements
    have hnot {t : Token} (ht : ∀ e ∈ first :: steps.map Prod.snd, t ∉ e.map Prod.snd)
        (hcolons : t ≠ .colons) : t ∉ (first ++ chained steps).map Prod.snd := by
      rw [List.forall_mem_cons, List.forall_mem_map] at ht
      simp only [List.map_append, List.mem_append, not_or, chained, List.map_flatMap,
        List.mem_flatMap, not_exists, not_and, List.map_cons, List.mem_cons]
      exact ⟨ht.1, fun s hs => ⟨hcolons, ht.2 s hs⟩⟩
    have hexpression : Layout.cutTokens (first ++ chained steps ++ rest) =
        (first ++ chained steps) :: pieces := by
      refine cutTokens_append (hnot ?_ (by simp)) (hnot ?_ (by simp)) hrest hpieces
      · rw [List.forall_mem_cons, List.forall_mem_map]
        exact ⟨helements.1.1.minus, fun s hs => (helements.2 s hs).1.minus⟩
      · rw [List.forall_mem_cons, List.forall_mem_map]
        exact ⟨helements.1.2, fun s hs => (helements.2 s hs).2⟩
    have hcut := cutTokens_of_starts hstart
    rw [List.append_eq, List.cons_append, List.cons_append, cutTokens_mark, cutTokens_mark,
      hexpression] at hcut
    exact hcut

theorem Clause.tokens_head (c : Clause) : ∃ w more, c.tokens = (true, .word w) :: more := by
  cases c with
  | assign name first steps => exact ⟨_, _, rfl⟩
  | drop target => exact ⟨_, _, rfl⟩

theorem cutTokens_flatMap {cs : List Clause} (h : ∀ c ∈ cs, c.IsSound) :
    cutTokens (cs.flatMap Clause.tokens) = [] :: cs.map fun c => flush c.tokens := by
  induction cs with
  | nil => rfl
  | cons c cs ih =>
    obtain ⟨hc, hcs⟩ := List.forall_mem_cons.1 h
    rw [List.flatMap_cons, hc.cutTokens ?_ (ih hcs), List.map_cons]
    cases cs with
    | nil => simp
    | cons d cs =>
      obtain ⟨w, more, hmore⟩ := d.tokens_head
      rw [List.flatMap_cons, hmore]
      intro x hx
      obtain rfl := Option.some.inj hx
      exact ⟨w, rfl⟩

/-- The statements of a body. -/
theorem statements_written {cs : List Clause} (h : ∀ c ∈ cs, c.IsSound)
    (hfits : Fits (cs.flatMap Clause.tokens))
    (hmarks : .mark '/' ∉ (cs.flatMap Clause.tokens).map Prod.snd ∧
      .mark '#' ∉ (cs.flatMap Clause.tokens).map Prod.snd) :
    statements (written (flush (cs.flatMap Clause.tokens))) =
      cs.map fun c => written (flush c.tokens) := by
  have hcut : cutTokens (flush (cs.flatMap Clause.tokens)) = [] :: cs.map fun c => flush c.tokens := by
    cases cs with
    | nil => rfl
    | cons c cs =>
      have hstart := (h c (List.mem_cons_self ..)).starts (cs.flatMap Clause.tokens)
      rw [← cutTokens_flatMap h]
      exact cutTokens_flush hstart
  -- the text is cut where its tokens are, with an empty piece before the first statement
  have hpieces := cutWhere_written hfits.flush (by rwa [map_snd_flush]) false (by simp)
  rw [hcut] at hpieces
  have hfitsEach : ∀ c ∈ cs, Fits (flush c.tokens) := by
    intro c hc
    obtain ⟨before, after, rfl⟩ := List.append_of_mem hc
    refine Fits.flush (hfits.of_isInfix ⟨before.flatMap Clause.tokens, after.flatMap Clause.tokens, ?_⟩)
    simp
  have htrim := map_trim_of_writes hpieces <| by
    rw [List.forall_mem_cons, List.forall_mem_map]
    exact ⟨.nil, hfitsEach⟩
  rw [statements, htrim, List.map_cons, List.filter_cons_of_neg (by decide), List.map_map,
    List.filter_eq_self.2]
  · refine List.map_congr_left fun c _ => ?_
    rw [Function.comp_apply, flush_flush]
  · intro piece hpiece
    obtain ⟨c, hc, rfl⟩ := List.mem_map.1 hpiece
    have hc' : Fits (flush c.tokens) := hfitsEach c hc
    obtain ⟨w, more, hmore⟩ := c.tokens_head
    rw [Function.comp_apply, isEmpty_written_flush hc', hmore]
    rfl

theorem spaced_lead {blanks : List Char} {e : Tokens} (h : e ≠ []) (more : List (List Char × Token)) :
    spaced (lead blanks (layElement (flush e)) ++ more) = blanks ++ elementText e ++ spaced more := by
  obtain ⟨x, ts, rfl⟩ := List.exists_cons_of_ne_nil h
  obtain ⟨rest, hrest⟩ := layElement_flush_cons x ts
  rw [elementText, hrest, lead, spaced_append, spaced, spaced]
  simp only [List.nil_append, List.append_assoc]

theorem not_startsComment_word {c : Char} (hc : isWordChar c = true) (cs : List Char) :
    startsComment (c :: cs) = false := by
  apply startsComment_eq_false
  · rintro rfl
    exact absurd hc (by decide)
  · rintro rfl
    exact absurd hc (by decide)

theorem Clause.fits_assign {name : List Char} {first : Tokens} {steps : List (Bool × Tokens)}
    (h : Fits (assign name first steps).tokens) :
    (Token.word name).IsSound ∧ Fits (first ++ chained steps) := by
  obtain ⟨hname, -, hrest⟩ := Fits.cons_iff.1 h
  exact ⟨hname, hrest.tail.tail⟩

theorem Clause.ended_statementLines_drop {target : Tokens} (h : (drop target).IsSound)
    (hfits : Fits (drop target).tokens) :
    ended (statementLines (written (flush (drop target).tokens))) = spaced (drop target).lay := by
  obtain ⟨htidy, hminus, -⟩ := h
  -- without a minus the statement has no arrow, so it is tidied as a whole
  have hminus' : '-' ∉ written (flush (drop target).tokens) := by
    refine mt (mark_mem_of_mem_written hfits.flush.sound (by decide) (by decide) (by decide)) ?_
    rw [map_snd_flush, tokens, List.map_cons, List.mem_cons, not_or]
    exact ⟨by simp, hminus⟩
  have htight : tidy (written (flush (drop target).tokens)) =
      dropWord ++ written (regap tightGap (some (.word dropWord)) target) := by
    rw [tidy_written hfits.flush]
    · rfl
    · rw [map_snd_flush]
      exact htidy
  have hcomment : startsComment (written (flush (drop target).tokens)) = false :=
    not_startsComment_word (by decide) _
  rw [statementLines, hcomment, if_neg (by decide),
    splitFirst?_eq_none (List.mem_cons_of_mem _ (List.mem_singleton_self '-')) hminus']
  dsimp only
  rw [htight, ended_cons, ended_nil, lay, spaced, spaced_singleSpaced, Token.chars]
  simp only [List.append_assoc, List.cons_append, List.append_nil]

theorem trim_word {w : List Char} (h : (Token.word w).IsSound) : trim (w ++ [' ']) = w := by
  have hblank : ∀ c ∈ w, isBlank c = false := fun c hc => not_isBlank_of_isWordChar (h.2 c hc)
  refine trim_between (a := []) (by simp) (by decide) ?_ ?_
  · exact fun c hc => hblank c (List.mem_of_mem_head? hc)
  · exact fun c hc => hblank c (List.mem_of_getLast? hc)

theorem Clause.ended_statementLines_assign {name : List Char} {first : Tokens}
    {steps : List (Bool × Tokens)} (h : (assign name first steps).IsSound)
    (hfits : Fits (assign name first steps).tokens) :
    ended (statementLines (written (flush (assign name first steps).tokens))) =
      spaced (assign name first steps).lay := by
  obtain ⟨-, helements⟩ := h
  rw [List.forall_mem_cons, List.forall_mem_map] at helements
  obtain ⟨hsound, hexpression⟩ := Clause.fits_assign hfits
  obtain ⟨c, w, rfl⟩ := List.exists_cons_of_ne_nil hsound.1
  have hwordChar := hsound.2
  have hnot : '<' ∉ c :: w ++ [' '] := by
    rw [List.mem_append, not_or]
    exact ⟨fun hmem => absurd (hwordChar '<' hmem) (by decide), by decide⟩
  have htext : written (flush (assign (c :: w) first steps).tokens) =
      c :: w ++ [' '] ++ ['<', '-'] ++ written (first ++ chained steps) := by
    simp only [tokens, flush, written, Token.chars, gapChars, List.append_assoc]
    rfl
  have hcomment : startsComment (written (flush (assign (c :: w) first steps).tokens)) = false :=
    not_startsComment_word (hwordChar c (List.mem_cons_self ..)) _
  have htrim : trim (written (first ++ chained steps)) = written (flush (first ++ chained steps)) := by
    have hwritten := trim_written hexpression false
    rwa [gapChars, if_neg (by decide), List.append_nil] at hwritten
  -- the text is cut at the arrow, and each side of it is trimmed
  rw [statementLines, hcomment, if_neg (by decide), htext, splitFirst?_append hnot]
  dsimp only
  rw [trim_word hsound, htrim, ended_assignmentLines hexpression helements.1.1
    (fun s hs => (helements.2 s hs).1), lay, spaced, spaced, spaced,
    spaced_lead helements.1.1.ne_nil_tokens]
  simp only [Token.chars, List.append_assoc, List.cons_append, List.nil_append]

/-- A statement laid out. -/
theorem Clause.ended_statementLines {c : Clause} (h : c.IsSound) (hfits : Fits c.tokens) :
    ended (statementLines (written (flush c.tokens))) = spaced c.lay := by
  cases c with
  | drop target => exact ended_statementLines_drop h hfits
  | assign name first steps => exact ended_statementLines_assign h hfits

/-! ### Statements that are laid out already -/

namespace Clause

/-- A statement as it stands when it is laid out. -/
def relaid : Clause → Clause
  | assign name first steps => assign name (withGap true (relay first))
      (steps.map fun s => relayStep (onOneLine first (steps.map Prod.snd)) s.2)
  | drop target => drop (regap tightGap (some (.word dropWord)) target)

/-- A statement keeps its lines when it is laid out again. -/
def Firm : Clause → Prop
  | assign _ first steps => onOneLine (relay first) ((steps.map Prod.snd).map relay) =
      onOneLine first (steps.map Prod.snd)
  | drop _ => True

theorem map_snd_relaid_steps (steps : List (Bool × Tokens)) (single : Bool) :
    (steps.map fun s => relayStep single s.2).map Prod.snd = (steps.map Prod.snd).map relay := by
  rw [List.map_map, List.map_map]
  rfl

theorem map_snd_chained (steps : List (Bool × Tokens)) : (chained steps).map Prod.snd =
    (steps.map Prod.snd).flatMap fun e => .colons :: e.map Prod.snd := by
  rw [chained, List.map_flatMap, List.flatMap_map]
  rfl

@[simp] theorem map_snd_relaid (c : Clause) :
    c.relaid.tokens.map Prod.snd = c.tokens.map Prod.snd := by
  cases c with
  | assign name first steps =>
    simp only [relaid, tokens, List.map_cons, List.map_append, map_snd_withGap, map_snd_relay,
      map_snd_chained, map_snd_relaid_steps]
    rw [List.flatMap_map]
    simp only [map_snd_relay]
  | drop target => simp only [relaid, tokens, List.map_cons, map_snd_regap]

theorem IsSound.relaid {c : Clause} (h : c.IsSound) : c.relaid.IsSound := by
  cases c with
  | assign name first steps =>
    obtain ⟨hname, helements⟩ := h
    refine ⟨hname, ?_⟩
    rw [map_snd_relaid_steps]
    rw [List.forall_mem_cons] at helements ⊢
    rw [map_snd_withGap, map_snd_relay, List.forall_mem_map]
    simpa only [map_snd_relay] using helements
  | drop target => simpa only [Clause.relaid, IsSound, map_snd_regap] using h

theorem noted_lead {blanks : List Char} (h : blanks ≠ []) (e : Tokens) :
    noted (lead blanks (layElement (flush e))) = withGap true (relay e) := by
  rw [relay]
  cases layElement (flush e) with
  | nil => rfl
  | cons x xs =>
    have hne : (!blanks.isEmpty) = true := by simpa using h
    rw [lead, noted, List.map_cons, hne]
    rfl

theorem noted_lay (c : Clause) : noted c.lay = c.relaid.tokens := by
  cases c with
  | assign name first steps =>
    have hchain := noted_layChain (onOneLine first (steps.map Prod.snd)) (steps.map Prod.snd)
    rw [List.map_map] at hchain
    rw [lay, relaid, tokens, noted, List.map_cons, List.map_cons, List.map_cons, ← noted,
      noted_append, noted_lead (by simp), hchain]
    rfl
  | drop target =>
    rw [lay, relaid, tokens, noted, List.map_cons, ← noted, noted_singleSpaced]
    rfl

theorem layChain_relay (single : Bool) (steps : List Tokens) :
    layChain single (steps.map relay) = layChain single steps := by
  rw [layChain, layChain, List.flatMap_map]
  simp only [elementText_relay, flush_relay, layElement_relay]

theorem onOneLine_withGap (gap : Bool) (first : Tokens) (steps : List Tokens) :
    onOneLine (withGap gap first) steps = onOneLine first steps := by
  rw [onOneLine, onOneLine, List.all_cons, List.all_cons, map_snd_withGap]

theorem lay_relaid_assign (name : List Char) (first : Tokens) (steps : List (Bool × Tokens)) :
    (assign name first steps).relaid.lay =
      ('\n' :: indent, .word name) :: ([' '], .mark '<') :: ([], .mark '-') ::
        (lead [' '] (layElement (flush first)) ++
          layChain (onOneLine (relay first) ((steps.map Prod.snd).map relay))
            (steps.map Prod.snd)) := by
  rw [relaid, lay, map_snd_relaid_steps, layChain_relay, onOneLine_withGap, flush_withGap,
    flush_relay, layElement_relay]

/-- A statement that keeps its lines stays as it is. -/
theorem Firm.lay_relaid {c : Clause} (h : c.Firm) : c.relaid.lay = c.lay := by
  cases c with
  | assign name first steps =>
    have hlines : onOneLine (relay first) ((steps.map Prod.snd).map relay) =
        onOneLine first (steps.map Prod.snd) := h
    rw [lay_relaid_assign, hlines, lay]
  | drop target =>
    rw [relaid, lay, lay, regap_regap]
    simp only [Bool.and_self]

theorem broken_lead {blanks : List Char} (h : blanks ∈ breaks) {xs : List (List Char × Token)}
    (hxs : Broken xs) : Broken (lead blanks xs) := by
  cases xs with
  | nil => exact hxs
  | cons y ys =>
    exact List.forall_mem_cons.2 ⟨h, fun x hx => hxs x (List.mem_cons_of_mem _ hx)⟩

theorem broken_lay (c : Clause) : Broken c.lay := by
  have hspace : [' '] ∈ breaks := by decide
  have hindent : '\n' :: indent ∈ breaks := by decide
  cases c with
  | assign name first steps =>
    have hfirst : Broken (lead [' '] (layElement (flush first))) :=
      broken_lead hspace (broken_layFrom _ _ _)
    exact List.forall_mem_cons.2 ⟨hindent, List.forall_mem_cons.2 ⟨hspace,
      List.forall_mem_cons.2 ⟨by decide, List.forall_mem_append.2
        ⟨hfirst, broken_layChain _ _⟩⟩⟩⟩
  | drop target => exact List.forall_mem_cons.2 ⟨hindent, broken_singleSpaced _⟩

theorem fits_relaid {c : Clause} (h : c.IsSound) (hfits : Fits c.tokens) : Fits c.relaid.tokens := by
  cases c with
  | assign name first steps =>
    obtain ⟨hname, helements⟩ := h
    rw [List.forall_mem_cons, List.forall_mem_map] at helements
    obtain ⟨hsound, hexpression⟩ := Clause.fits_assign hfits
    have hfirst : Fits first := hexpression.of_isInfix (List.prefix_append ..).isInfix
    have hsteps : ∀ s ∈ steps, Fits s.2 := fun s hs => fits_of_mem_chained hexpression hs
    have hrelaid : Fits (withGap true (relay first) ++ chained
        (steps.map fun s => relayStep (onOneLine first (steps.map Prod.snd)) s.2)) := by
      refine fits_chained ((hfirst.relay helements.1.1).withGap true) ?_ ?_
      · rw [map_snd_withGap, map_snd_relay]
        exact helements.1.1.last
      · rw [List.forall_mem_map]
        intro s hs
        have helement := (helements.2 s hs).1
        refine ⟨(hsteps s hs).relay helement, ?_, ?_⟩
        · rw [relayStep, map_snd_relay]
          exact helement.last
        · intro hnil
          exact helement.ne_nil (by rw [← map_snd_relay]; exact congrArg (List.map Prod.snd) hnil)
    exact Fits.cons_iff.2 ⟨hsound, by simp, (hrelaid.mark_cons (by decide) _).mark_cons (by decide) _⟩
  | drop target =>
    obtain ⟨htidy, -, -⟩ := h
    have htight := hfits.flush.tight (by simpa [tokens] using htidy.colons)
    exact htight.withGap true

end Clause

end Layout

end Hql
