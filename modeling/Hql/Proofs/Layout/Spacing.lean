import Hql.Layout.Spacing
import Hql.Text.Search
import Hql.Proofs.Layout.Token

/-!
Spacing as a function of tokens: it takes gaps away and leaves the tokens as they are, so it does
nothing when it is done again.
-/

namespace Hql.Layout

open Text

/-- The tokens with only those of their gaps that `keeps` allows between a token and the next. -/
def regap (keeps : Option Token → Token → Bool) (before : Option Token) : Tokens → Tokens
  | [] => []
  | (gap, t) :: ts => (gap && keeps before t, t) :: regap keeps (some t) ts

@[simp] theorem map_snd_regap (keeps : Option Token → Token → Bool) (before : Option Token)
    (ts : Tokens) : (regap keeps before ts).map Prod.snd = ts.map Prod.snd := by
  induction ts generalizing before with
  | nil => rfl
  | cons x ts ih => rw [regap, List.map_cons, List.map_cons, ih]

theorem regap_regap (keeps keeps' : Option Token → Token → Bool) (before : Option Token)
    (ts : Tokens) : regap keeps before (regap keeps' before ts) =
      regap (fun b t => keeps' b t && keeps b t) before ts := by
  induction ts generalizing before with
  | nil => rfl
  | cons x ts ih => rw [regap, regap, regap, ih, Bool.and_assoc]

theorem sound_regap (keeps : Option Token → Token → Bool) (before : Option Token) {ts : Tokens}
    (h : ∀ x ∈ ts, x.2.IsSound) : ∀ x ∈ regap keeps before ts, x.2.IsSound := by
  intro x hx
  have hmem : x.2 ∈ (regap keeps before ts).map Prod.snd := List.mem_map_of_mem hx
  rw [map_snd_regap] at hmem
  obtain ⟨y, hy, heq⟩ := List.mem_map.1 hmem
  exact heq ▸ h y hy

/-! ### Double colons -/

/-- No gap stands around a double colon. -/
def chainGap (before : Option Token) (t : Token) : Bool := before != some .colons && t != .colons

theorem chainGap_of_ne {t : Token} (h : t ≠ .colons) (before : Option Token) :
    chainGap before t = !(before == some .colons) := by
  rw [chainGap, bne_iff_ne.2 h, Bool.and_true, bne]

theorem joinChains_cons {pending : List Char} {after : Bool} {c : Char} {cs : List Char}
    (h : ¬ (c = ':' ∧ cs.head? = some ':')) : joinChains pending after (c :: cs) =
      if isBlank c then joinChains (if after then pending else c :: pending) after cs
      else pending.reverse ++ c :: joinChains [] false cs := by
  rw [joinChains]
  rintro rest rfl rfl
  exact h ⟨rfl, rfl⟩

theorem joinChains_word {w : List Char} (hw : ∀ c ∈ w, isWordChar c = true) (cs : List Char) :
    joinChains [] false (w ++ cs) = w ++ joinChains [] false cs := by
  induction w with
  | nil => rfl
  | cons c w ih =>
    obtain ⟨hc, hw⟩ := List.forall_mem_cons.1 hw
    rw [List.cons_append, joinChains_cons, not_isBlank_of_isWordChar hc, if_neg (by decide), ih hw]
    · rfl
    · rintro ⟨rfl, -⟩
      exact absurd hc (by decide)

theorem joinChains_gapChars (gap after : Bool) (cs : List Char) :
    joinChains [] after (gapChars gap ++ cs) = joinChains (gapChars (gap && !after)) after cs := by
  cases gap with
  | false => rfl
  | true =>
    have hspace : ¬ (' ' = ':' ∧ cs.head? = some ':') := fun h => absurd h.1 (by decide)
    rw [gapChars, if_pos rfl, List.singleton_append, joinChains_cons hspace, if_pos (by decide)]
    cases after <;> rfl

theorem joinChains_written {ts : Tokens} (h : Fits ts) (before : Option Token) :
    joinChains [] (before == some .colons) (written ts) = written (regap chainGap before ts) := by
  induction ts generalizing before with
  | nil => rfl
  | cons x ts ih =>
    obtain ⟨gap, t⟩ := x
    obtain ⟨ht, hfirst, hrest⟩ := Fits.cons_iff.1 h
    have hpending (b : Bool) : (gapChars b).reverse = gapChars b := by cases b <;> rfl
    rw [written, List.append_assoc, joinChains_gapChars, regap, written, ← ih hrest (some t)]
    cases t with
    | colons =>
      have hnone : chainGap before .colons = false := Bool.and_false _
      rw [hnone, Bool.and_false, Token.chars, List.cons_append, List.singleton_append, joinChains]
      rfl
    | mark c =>
      rw [Token.chars, List.singleton_append, joinChains_cons h.single_colon, ht.1,
        if_neg (by decide), hpending, List.append_assoc, chainGap_of_ne (by simp)]
      rfl
    | word w =>
      obtain ⟨c, w, rfl⟩ := List.exists_cons_of_ne_nil ht.1
      obtain ⟨hc, hw⟩ := List.forall_mem_cons.1 ht.2
      have hcolon : ¬ (c = ':' ∧ (w ++ written ts).head? = some ':') := by
        rintro ⟨rfl, -⟩
        exact absurd hc (by decide)
      rw [Token.chars, List.cons_append, joinChains_cons hcolon, not_isBlank_of_isWordChar hc,
        if_neg (by decide), joinChains_word hw, hpending, List.append_assoc,
        chainGap_of_ne (by simp)]
      rfl

/-! ### Runs of blanks -/

theorem written_joinWord (gap : Bool) (c : Char) (ts : Tokens) :
    written (joinWord gap c ts) = gapChars gap ++ c :: written ts := by
  unfold joinWord
  split <;> simp [written, Token.chars, gapChars]

/-- Any text is squeezed to what is written from its tokens, up to a space at its end. -/
theorem squeeze_eq_written (gap : Bool) (cs : List Char) : gapChars gap ++ squeeze gap cs =
    written (tokens gap cs) ++ gapChars (gapAfter gap cs) := by
  have hstep {c : Char} {cs : List Char} (hc : isBlank c = false)
      (hrest : squeeze false cs = written (tokens false cs) ++ gapChars (gapAfter false cs))
      (gap : Bool) : gapChars gap ++ squeeze gap (c :: cs) =
        gapChars gap ++ c :: written (tokens false cs) ++ gapChars (gapAfter gap (c :: cs)) := by
    rw [squeeze, hc, if_neg (by decide), hrest, gapAfter, hc, List.append_assoc, List.cons_append]
  induction cs using tokens_induction generalizing gap with
  | nil => rw [squeeze, tokens, written, gapAfter, List.append_nil, List.nil_append]
  | colons cs ih =>
    have hcolon : isBlank ':' = false := by decide
    have hrest : squeeze false cs = written (tokens false cs) ++ gapChars (gapAfter false cs) :=
      ih false
    rw [squeeze, hcolon, if_neg (by decide), squeeze, hcolon, if_neg (by decide), hrest, tokens,
      written, gapAfter, gapAfter, hcolon, Token.chars]
    simp only [List.append_assoc, List.cons_append, List.nil_append]
  | blank c cs hc ih =>
    rw [tokens_blank hc, gapAfter, hc, ← ih true, squeeze, hc, if_pos rfl]
    cases gap <;> rfl
  | word c cs hc ih =>
    rw [hstep (not_isBlank_of_isWordChar hc) (ih false), tokens_wordChar hc, written_joinWord]
  | mark c cs hblank hword hcolons ih =>
    rw [hstep hblank (ih false), tokens_mark hblank hword hcolons, written, Token.chars]
    simp only [List.append_assoc, List.cons_append, List.nil_append]

theorem squeeze_append {a : List Char} (hne : a ≠ []) (ha : ∀ c ∈ a, isBlank c = false)
    (gap : Bool) (b : List Char) : squeeze gap (a ++ b) = a ++ squeeze false b := by
  induction a generalizing gap with
  | nil => exact absurd rfl hne
  | cons c a ih =>
    obtain ⟨hc, ha⟩ := List.forall_mem_cons.1 ha
    rw [List.cons_append, squeeze, hc, if_neg (by decide), List.cons_append]
    cases a with
    | nil => rfl
    | cons d a => rw [ih (by simp) ha]

theorem squeeze_written {ts : Tokens} (h : ∀ x ∈ ts, x.2.IsSound) :
    squeeze false (written ts) = written ts := by
  induction ts with
  | nil => rfl
  | cons x ts ih =>
    obtain ⟨gap, t⟩ := x
    obtain ⟨ht, hrest⟩ := List.forall_mem_cons.1 h
    have hchars (g : Bool) : squeeze g (t.chars ++ written ts) = t.chars ++ written ts := by
      rw [squeeze_append ht.chars_ne_nil ht.not_isBlank, ih hrest]
    rw [written, List.append_assoc]
    cases gap with
    | false => exact hchars false
    | true => exact congrArg (' ' :: ·) (hchars true)

/-! ### Brackets -/

theorem closeAfter_append {bracket : Char} {a : List Char} (hne : a ≠ [])
    (ha : ∀ c ∈ a, isBlank c = false) (skip : Bool) (b : List Char) :
    closeAfter bracket skip (a ++ b) =
      a ++ closeAfter bracket (a.getLast? == some bracket) b := by
  induction a generalizing skip with
  | nil => exact absurd rfl hne
  | cons c a ih =>
    obtain ⟨hc, ha⟩ := List.forall_mem_cons.1 ha
    rw [List.cons_append, closeAfter, hc, Bool.false_and, if_neg (by decide), List.cons_append]
    cases a with
    | nil => rfl
    | cons d a => rw [ih (by simp) ha, List.getLast?_cons_cons]

/-- Only a mark itself ends with its character. -/
theorem getLast_chars_eq {bracket : Char} (hword : isWordChar bracket = false)
    (hcolon : bracket ≠ ':') {t : Token} (ht : t.IsSound) :
    (t.chars.getLast? == some bracket) = (some t == some (.mark bracket)) := by
  rw [Bool.eq_iff_iff, beq_iff_eq, beq_iff_eq, Option.some_inj]
  constructor
  · intro hlast
    cases t with
    | word w =>
      rw [ht.2 bracket (List.mem_of_getLast? hlast)] at hword
      cases hword
    | colons => exact absurd (Option.some.inj hlast).symm hcolon
    | mark c => exact congrArg Token.mark (Option.some.inj hlast)
  · rintro rfl
    rfl

theorem head_chars_eq {bracket : Char} (hword : isWordChar bracket = false)
    (hcolon : bracket ≠ ':') {t : Token} (ht : t.IsSound) :
    (t.chars.head? == some bracket) = (t == .mark bracket) := by
  rw [Bool.eq_iff_iff, beq_iff_eq, beq_iff_eq]
  constructor
  · intro hhead
    cases t with
    | word w =>
      rw [ht.2 bracket (List.mem_of_mem_head? hhead)] at hword
      cases hword
    | colons => exact absurd (Option.some.inj hhead).symm hcolon
    | mark c => exact congrArg Token.mark (Option.some.inj hhead)
  · rintro rfl
    rfl

theorem closeAfter_gapChars {bracket : Char} (gap skip : Bool) {cs out : List Char} (h : ∀ skip, closeAfter bracket skip cs = out) :
    closeAfter bracket skip (gapChars gap ++ cs) = gapChars (gap && !skip) ++ out := by
  cases gap with
  | false => exact h skip
  | true =>
    have hblank : isBlank ' ' = true := by decide
    rw [gapChars, if_pos rfl, List.singleton_append, closeAfter, hblank, h, h]
    cases skip <;> rfl

theorem closeAfter_written {bracket : Char} (hword : isWordChar bracket = false)
    (hcolon : bracket ≠ ':') {ts : Tokens} (h : ∀ x ∈ ts, x.2.IsSound) (before : Option Token) :
    closeAfter bracket (before == some (.mark bracket)) (written ts) =
      written (regap (fun b _ => b != some (.mark bracket)) before ts) := by
  induction ts generalizing before with
  | nil => rfl
  | cons x ts ih =>
    obtain ⟨gap, t⟩ := x
    obtain ⟨ht, hrest⟩ := List.forall_mem_cons.1 h
    have hchars (skip : Bool) : closeAfter bracket skip (t.chars ++ written ts) =
        t.chars ++ written (regap (fun b _ => b != some (.mark bracket)) (some t) ts) := by
      rw [closeAfter_append ht.chars_ne_nil ht.not_isBlank, getLast_chars_eq hword hcolon ht,
        ih hrest]
    rw [written, List.append_assoc, closeAfter_gapChars gap _ hchars, regap, written,
      List.append_assoc]
    rfl

/-- One more character at the end of a text. -/
theorem closeAfter_concat (bracket : Char) (skip : Bool) (cs : List Char) (c : Char) :
    closeAfter bracket skip (cs ++ [c]) = closeAfter bracket skip cs ++
      if isBlank c && ((closeAfter bracket skip cs).getLast?.map (· == bracket)).getD skip
      then [] else [c] := by
  induction cs generalizing skip with
  | nil => rw [List.nil_append, closeAfter, closeAfter]; rfl
  | cons d cs ih =>
    rw [List.cons_append, closeAfter, closeAfter]
    split
    · rename_i hskip
      obtain ⟨-, rfl⟩ := Bool.and_eq_true_iff.1 hskip
      exact ih true
    · rw [ih, List.getLast?_cons, List.cons_append]
      cases (closeAfter bracket (d == bracket) cs).getLast? <;> rfl

theorem closeBefore_cons (bracket c : Char) (cs : List Char) :
    closeBefore bracket (c :: cs) =
      if isBlank c && (closeBefore bracket cs).head? == some bracket then closeBefore bracket cs
      else c :: closeBefore bracket cs := by
  rw [closeBefore, List.reverse_cons, closeAfter_concat, List.reverse_append, closeBefore,
    List.head?_reverse]
  cases (closeAfter bracket false cs.reverse).getLast? with
  | none => cases isBlank c <;> rfl
  | some d => cases isBlank c <;> cases h : d == bracket <;> simp [h]

theorem closeBefore_append {a : List Char} (ha : ∀ c ∈ a, isBlank c = false) (bracket : Char)
    (b : List Char) : closeBefore bracket (a ++ b) = a ++ closeBefore bracket b := by
  induction a with
  | nil => rfl
  | cons c a ih =>
    obtain ⟨hc, ha⟩ := List.forall_mem_cons.1 ha
    rw [List.cons_append, closeBefore_cons, hc, Bool.false_and, if_neg (by decide), ih ha,
      List.cons_append]

theorem closeBefore_written {bracket : Char} (hword : isWordChar bracket = false)
    (hcolon : bracket ≠ ':') {ts : Tokens} (h : ∀ x ∈ ts, x.2.IsSound) (before : Option Token) :
    closeBefore bracket (written ts) =
      written (regap (fun _ t => t != .mark bracket) before ts) := by
  induction ts generalizing before with
  | nil => rfl
  | cons x ts ih =>
    obtain ⟨gap, t⟩ := x
    obtain ⟨ht, hrest⟩ := List.forall_mem_cons.1 h
    rw [regap, written, written, List.append_assoc, List.append_assoc, ← ih hrest (some t)]
    have hchars : closeBefore bracket (t.chars ++ written ts) =
        t.chars ++ closeBefore bracket (written ts) := closeBefore_append ht.not_isBlank _ _
    have hhead : ((t.chars ++ closeBefore bracket (written ts)).head? == some bracket) =
        (t == .mark bracket) := by
      rw [List.head?_append_of_ne_nil _ ht.chars_ne_nil, head_chars_eq hword hcolon ht]
    cases gap with
    | false => exact hchars
    | true =>
      have hblank : isBlank ' ' = true := by decide
      rw [gapChars, if_pos rfl, List.singleton_append, closeBefore_cons, hblank, hchars, hhead,
        bne]
      cases t == .mark bracket <;> rfl

/-! ### All spacing -/

/-- A gap stands neither around a double colon nor inside round brackets or braces at their ends. -/
def tightGap (before : Option Token) (t : Token) : Bool :=
  chainGap before t && (before != some (.mark '(') && (t != .mark ')' &&
    (before != some (.mark '\x7b') && t != .mark '\x7d')))

/-- The tokens with their spacing in order. -/
def tight (ts : Tokens) : Tokens := regap tightGap none ts

@[simp] theorem map_snd_tight (ts : Tokens) : (tight ts).map Prod.snd = ts.map Prod.snd :=
  map_snd_regap _ _ _

theorem tight_tight (ts : Tokens) : tight (tight ts) = tight ts := by
  rw [tight, tight, regap_regap]
  simp only [Bool.and_self]

theorem space_written {ts : Tokens} (h : Fits ts) : space (written ts) = written (tight ts) := by
  have hjoin : joinChains [] false (written ts) = written (regap chainGap none ts) :=
    joinChains_written h none
  have hopen {bracket : Char} (hword : isWordChar bracket = false) (hcolon : bracket ≠ ':')
      {ts : Tokens} (h : ∀ x ∈ ts, x.2.IsSound) : closeAfter bracket false (written ts) =
        written (regap (fun b _ => b != some (.mark bracket)) none ts) :=
    closeAfter_written hword hcolon h none
  have hjoined := sound_regap chainGap none h.sound
  have hround := sound_regap (fun b _ => b != some (.mark '(')) none hjoined
  have hround' := sound_regap (fun _ t => t != .mark ')') none hround
  have hbrace := sound_regap (fun b _ => b != some (.mark '\x7b')) none hround'
  rw [space, hjoin, squeeze_written hjoined, hopen (by decide) (by decide) hjoined,
    closeBefore_written (by decide) (by decide) hround none,
    hopen (by decide) (by decide) hround',
    closeBefore_written (by decide) (by decide) hbrace none,
    regap_regap, regap_regap, regap_regap, regap_regap]
  rfl

/-- Tokens of which none is a single colon before a double one. -/
def NoLooseColon (ts : List Token) : Prop :=
  ts.IsChain fun t u => ¬ (t = .mark ':' ∧ u = .colons)

theorem tightGap_of_clings {t u : Token} (h : t.clings u = true)
    (hcolon : ¬ (t = .mark ':' ∧ u = .colons)) : tightGap (some t) u = true := by
  cases t with
  | word w =>
    cases u with
    | word v => simp [tightGap, chainGap]
    | colons => cases h
    | mark d => cases h
  | colons => cases u <;> cases h
  | mark c =>
    cases u with
    | word v => cases h
    | colons =>
      rw [Token.clings, beq_iff_eq] at h
      exact absurd ⟨congrArg Token.mark h, rfl⟩ hcolon
    | mark d =>
      obtain ⟨hc, hd⟩ := Bool.and_eq_true_iff.1 h
      rw [beq_iff_eq] at hc hd
      subst hc hd
      decide

/-- Gaps taken away do not run tokens together if those that matter are kept. -/
theorem Fits.regap_of_keeps {keeps : Option Token → Token → Bool} {ts : Tokens} (h : Fits ts)
    (hkeeps : (ts.map Prod.snd).IsChain fun t u => t.clings u = true → keeps (some t) u = true)
    (before : Option Token) : Fits (regap keeps before ts) := by
  induction ts generalizing before with
  | nil => exact .nil
  | cons x ts ih =>
    obtain ⟨gap, t⟩ := x
    obtain ⟨ht, hfirst, hrest⟩ := cons_iff.1 h
    obtain ⟨hkeepsFirst, hkeepsRest⟩ := List.isChain_cons.1 hkeeps
    refine cons_iff.2 ⟨ht, ?_, ih hrest hkeepsRest (some t)⟩
    cases ts with
    | nil => simp [regap]
    | cons y ts =>
      rintro z hz hclings
      obtain rfl := Option.some.inj hz
      exact Bool.and_eq_true_iff.2 ⟨hfirst y rfl hclings, hkeepsFirst y.2 rfl hclings⟩

theorem Fits.regap_tightGap {ts : Tokens} (h : Fits ts) (hcolon : NoLooseColon (ts.map Prod.snd))
    (before : Option Token) : Fits (regap tightGap before ts) :=
  h.regap_of_keeps (hcolon.imp fun _ _ hloose hclings => tightGap_of_clings hclings hloose) before

/-- Spacing in order does not run tokens together. -/
theorem Fits.tight {ts : Tokens} (h : Fits ts) (hcolon : NoLooseColon (ts.map Prod.snd)) :
    Fits (tight ts) :=
  h.regap_tightGap hcolon none

/-! ### Lines -/

theorem lines_ne_nil (cs : List Char) : lines cs ≠ [] := by
  induction cs with
  | nil => simp [lines]
  | cons c cs ih =>
    rw [lines]
    split
    · simp
    · split
      · exact ih
      · cases lines cs <;> simp [consFirst]

theorem intercalate_consFirst (c : Char) {pieces : List (List Char)} (h : pieces ≠ []) :
    [' '].intercalate (consFirst c pieces) = c :: [' '].intercalate pieces := by
  cases pieces with
  | nil => exact absurd rfl h
  | cons p pieces => cases pieces <;> simp [consFirst, List.intercalate]

/-- The lines of a text on one line. -/
def oneLine (ls : List (List Char)) : List Char := [' '].intercalate ls

theorem oneLine_lines_cons {c : Char} {cs : List Char} (hn : c ≠ '\n')
    (hr : ¬ (c = '\r' ∧ cs.head? = some '\n')) :
    oneLine (lines (c :: cs)) = c :: oneLine (lines cs) := by
  have hreturn : (decide (c = '\r') && cs.head? == some '\n') = false := by
    rw [Bool.eq_false_iff]
    simpa using hr
  rw [lines, if_neg hn, hreturn, if_neg (by decide)]
  exact intercalate_consFirst c (lines_ne_nil cs)

theorem oneLine_nil_cons {ls : List (List Char)} (h : ls ≠ []) :
    oneLine ([] :: ls) = ' ' :: oneLine ls := by
  obtain ⟨l, ls, rfl⟩ := List.exists_cons_of_ne_nil h
  simp [oneLine, List.intercalate]

theorem head_of_oneLine_lines {cs : List Char} (h : (oneLine (lines cs)).head? = some ':') :
    cs.head? = some ':' := by
  have hnewline (cs : List Char) : (oneLine (lines ('\n' :: cs))).head? = some ' ' := by
    rw [lines, if_pos rfl, oneLine_nil_cons (lines_ne_nil cs)]
    rfl
  cases cs with
  | nil => cases h
  | cons c cs =>
    by_cases hn : c = '\n'
    · rw [hn, hnewline] at h
      cases h
    · by_cases hr : c = '\r' ∧ cs.head? = some '\n'
      · obtain ⟨rfl, hhead⟩ := hr
        obtain ⟨cs, rfl⟩ := List.head?_eq_some_iff.1 hhead
        have hskip : lines ('\r' :: '\n' :: cs) = lines ('\n' :: cs) := rfl
        rw [hskip, hnewline] at h
        cases h
      · rw [oneLine_lines_cons hn hr] at h
        exact h

/-- Line ends are blanks like any other. -/
theorem tokens_oneLine_lines (gap : Bool) (cs : List Char) :
    tokens gap (oneLine (lines cs)) = tokens gap cs := by
  have hplain {c : Char} (hc : isBlank c = false) (cs : List Char) :
      oneLine (lines (c :: cs)) = c :: oneLine (lines cs) := by
    apply oneLine_lines_cons
    · rintro rfl
      exact absurd hc (by decide)
    · rintro ⟨rfl, -⟩
      exact absurd hc (by decide)
  induction cs using tokens_induction generalizing gap with
  | nil => rfl
  | colons cs ih => rw [hplain (by decide), hplain (by decide), tokens, tokens, ih]
  | word c cs hc ih =>
    rw [hplain (not_isBlank_of_isWordChar hc), tokens_wordChar hc, tokens_wordChar hc, ih]
  | mark c cs hblank hword hcolons ih =>
    have hcolons' : ¬ (c = ':' ∧ (oneLine (lines cs)).head? = some ':') :=
      fun h => hcolons ⟨h.1, head_of_oneLine_lines h.2⟩
    rw [hplain hblank, tokens_mark hblank hword hcolons', tokens_mark hblank hword hcolons, ih]
  | blank c cs hc ih =>
    rw [tokens_blank hc]
    by_cases hn : c = '\n'
    · rw [lines, if_pos hn, oneLine_nil_cons (lines_ne_nil cs), tokens_blank (by decide), ih]
    · by_cases hr : c = '\r' ∧ cs.head? = some '\n'
      · obtain ⟨rfl, hhead⟩ := hr
        obtain ⟨cs, rfl⟩ := List.head?_eq_some_iff.1 hhead
        have hskip : lines ('\r' :: '\n' :: cs) = lines ('\n' :: cs) := rfl
        rw [hskip, ih, tokens_blank (by decide), tokens_blank (by decide)]
      · rw [oneLine_lines_cons hn hr, tokens_blank hc, ih]

end Hql.Layout
