import Hql.Proofs.Layout.Element

/-!
Chains laid out. A chain is divided into its elements at the double colons outside brackets, and each
element is laid out by itself; what stands between two of them is decided on their texts. So a chain
that is laid out already keeps its lines if its steps are measured as before.
-/

namespace Hql.Layout

open Text

/-! ### One element -/

/-- The tokens of an element of a chain. -/
structure IsElement (ts : List Token) : Prop where
  ne_nil : ts ≠ []
  tidy : Tidy ts
  minus : .mark '-' ∉ ts
  fielded : Fielded ts
  whole : Whole .colons 0 ts
  closed : depthOver 0 ts = 0
  last : ts.getLast? ≠ some (.mark ':')

/-- The text of an element laid out. -/
def elementText (e : Tokens) : List Char := spaced (layElement (flush e))

/-- The tokens of an element laid out. -/
def relay (e : Tokens) : Tokens := noted (layElement (flush e))

@[simp] theorem map_snd_flush (ts : Tokens) : (flush ts).map Prod.snd = ts.map Prod.snd := by
  cases ts <;> rfl

@[simp] theorem flush_flush (ts : Tokens) : flush (flush ts) = flush ts := by cases ts <;> rfl

@[simp] theorem flush_withGap (gap : Bool) (ts : Tokens) : flush (withGap gap ts) = flush ts := by
  cases ts <;> rfl

@[simp] theorem map_snd_withGap (gap : Bool) (ts : Tokens) :
    (withGap gap ts).map Prod.snd = ts.map Prod.snd := by cases ts <;> rfl

@[simp] theorem map_snd_relay (e : Tokens) : (relay e).map Prod.snd = e.map Prod.snd := by
  rw [relay, layElement, map_snd_noted_layFrom, map_snd_flush]

/-- Nothing stands before an element laid out. -/
theorem layElement_flush_cons (x : Bool × Token) (ts : Tokens) :
    ∃ more, layElement (flush (x :: ts)) = ([], x.2) :: more := by
  rw [layElement, flush, layFrom, zoneOf]
  split
  · exact ⟨_, rfl⟩
  · exact ⟨_, rfl⟩

theorem flush_relay (e : Tokens) : flush (relay e) = relay e := by
  cases e with
  | nil => rfl
  | cons x ts =>
    obtain ⟨more, hmore⟩ := layElement_flush_cons x ts
    rw [relay, hmore]
    rfl

theorem layElement_relay (e : Tokens) : layElement (relay e) = layElement (flush e) := by
  have hzone : zoneOf ((relay e).map Prod.snd) = zoneOf ((flush e).map Prod.snd) := by
    rw [map_snd_relay, map_snd_flush]
  rw [layElement, hzone, relay, layElement, layFrom_noted]

/-- An element laid out is laid out as it stands. -/
@[simp] theorem elementText_relay (e : Tokens) : elementText (relay e) = elementText e := by
  rw [elementText, flush_relay, layElement_relay, elementText]

/-- An element that is not spread is written on one line, with its spacing in order. -/
theorem elementText_of_not_spreads {e : Tokens} (h : spreads (e.map Prod.snd) = false) :
    elementText e = written (tight (flush e)) := by
  rw [elementText, layElement, map_snd_flush, zoneOf, h, if_neg (by decide), layFrom_after, tight]

theorem not_mem_newline_written {ts : Tokens} (h : Fits ts) : '\n' ∉ written ts := by
  intro hmem
  induction ts with
  | nil => cases hmem
  | cons x ts ih =>
    rw [written, List.mem_append, List.mem_append] at hmem
    rcases hmem with (hgap | hchars) | hrest
    · revert hgap
      cases x.1 <;> decide
    · exact absurd ((Fits.cons_iff.1 h).1.not_isBlank '\n' hchars) (by decide)
    · exact ih h.tail hrest

/-- An element that is spread takes several lines. -/
theorem mem_newline_elementText {e : Tokens} (hfielded : Fielded (e.map Prod.snd))
    (h : spreads (e.map Prod.snd) = true) : '\n' ∈ elementText e := by
  have hbrace : .mark '\x7b' ∈ e.map Prod.snd := by
    by_contra hnot
    rw [spreads_eq_false (.inl hnot)] at h
    cases h
  obtain ⟨a, b, hsplit, ha, -⟩ := hfielded.resolve_left (not_not.2 hbrace)
  rw [elementText, layElement, map_snd_flush, zoneOf, h, if_pos rfl]
  rw [← map_snd_flush, List.append_assoc, List.cons_append] at hsplit
  obtain ⟨A, R, hflush, rfl, hR⟩ := List.map_eq_append_iff.1 hsplit
  obtain ⟨x, R, rfl, hx, hR⟩ := List.map_eq_cons_iff.1 hR
  obtain ⟨y, R, rfl⟩ : ∃ y R', R = y :: R' := by
    cases R with
    | nil => simp at hR
    | cons y R => exact ⟨y, R, rfl⟩
  have hblanks : (Zone.fresh).blanks (some x.2) y = '\n' :: indentTwice := rfl
  rw [hflush, layFrom_append_before ha, layFrom, layFrom, Zone.next, if_pos hx, spaced, spaced,
    hblanks]
  simp

theorem IsElement.ne_nil_tokens {e : Tokens} (h : IsElement (e.map Prod.snd)) : e ≠ [] := by
  rintro rfl
  exact h.ne_nil rfl

/-- An element is spread if laying out its fields changes it. -/
theorem expandElement_eq_tidy_iff {e : Tokens} (h : Fits e) (he : IsElement (e.map Prod.snd)) :
    expandElement (tidy (written (flush e))) = tidy (written (flush e)) ↔
      spreads (e.map Prod.snd) = false := by
  have htidy : Tidy ((flush e).map Prod.snd) := by
    rw [map_snd_flush]
    exact he.tidy
  have hexpand : expandElement (tidy (written (flush e))) = elementText e := by
    refine expandElement_written h.flush htidy ?_ ?_
    · rw [map_snd_flush]
      exact he.minus
    · rw [map_snd_flush]
      exact he.fielded
  rw [hexpand, tidy_written h.flush htidy]
  constructor
  · intro heq
    rw [Bool.eq_false_iff]
    intro hspreads
    have hmem := mem_newline_elementText he.fielded hspreads
    rw [heq] at hmem
    exact not_mem_newline_written (h.flush.tight htidy.colons) hmem
  · exact elementText_of_not_spreads

/-! ### The elements of a chain -/

/-- The steps of a chain, each after its double colon and the gap before that. -/
def chained (steps : List (Bool × Tokens)) : Tokens :=
  steps.flatMap fun s => (s.1, .colons) :: s.2

theorem splitTokens_chained {e : Tokens} {steps : List (Bool × Tokens)}
    (he : IsElement (e.map Prod.snd)) (hsteps : ∀ s ∈ steps, IsElement (s.2.map Prod.snd)) :
    splitTokens Prod.snd .colons 0 (e ++ chained steps) = e :: steps.map Prod.snd := by
  induction steps generalizing e with
  | nil =>
    rw [chained, List.flatMap_nil, List.append_nil]
    exact splitTokens_of_whole he.whole
  | cons s steps ih =>
    obtain ⟨hs, hsteps⟩ := List.forall_mem_cons.1 hsteps
    have hchained : chained (s :: steps) = (s.1, .colons) :: (s.2 ++ chained steps) := rfl
    rw [hchained, splitTokens_append (.inl rfl) he.whole he.closed rfl, ih hs hsteps, List.map_cons]

theorem flush_append {a : Tokens} (h : a ≠ []) (b : Tokens) : flush (a ++ b) = flush a ++ b := by
  cases a with
  | nil => exact absurd rfl h
  | cons x a => rfl

/-- A chain is divided into its elements. -/
theorem splitTopLevel_chain {e : Tokens} {steps : List (Bool × Tokens)}
    (h : Fits (e ++ chained steps)) (he : IsElement (e.map Prod.snd))
    (hsteps : ∀ s ∈ steps, IsElement (s.2.map Prod.snd)) :
    splitTopLevel [':', ':'] (written (flush (e ++ chained steps))) =
      (e :: steps.map Prod.snd).map fun e => written (flush e) := by
  have hminus : .mark '-' ∉ (flush (e ++ chained steps)).map Prod.snd := by
    simp only [map_snd_flush, List.map_append, List.mem_append, not_or, chained, List.map_flatMap]
    refine ⟨he.minus, ?_⟩
    simp only [List.mem_flatMap, not_exists, not_and, List.map_cons, List.mem_cons, not_or]
    exact fun s hs => ⟨by simp, (hsteps s hs).minus⟩
  have hflush : IsElement ((flush e).map Prod.snd) := by
    rw [map_snd_flush]
    exact he
  have hsplit := splitTokens_chained hflush hsteps
  rw [← flush_append he.ne_nil_tokens] at hsplit
  have hkeep : (flush e :: steps.map Prod.snd).filter (fun piece => !piece.isEmpty) =
      flush e :: steps.map Prod.snd := by
    rw [List.filter_eq_self, List.forall_mem_cons]
    refine ⟨by simpa using hflush.ne_nil_tokens, fun piece hpiece => ?_⟩
    obtain ⟨s, hs, rfl⟩ := List.mem_map.1 hpiece
    simpa using (hsteps s hs).ne_nil_tokens
  have hwritten := splitTopLevel_written (.inl rfl) h.flush hminus
  rw [hsplit, hkeep, List.map_cons, flush_flush] at hwritten
  exact hwritten

/-! ### Lines -/

/-- The lines of a text, each after a line end. -/
def ended (ls : List (List Char)) : List Char := ls.flatMap ('\n' :: ·)

@[simp] theorem ended_nil : ended [] = [] := rfl

@[simp] theorem ended_cons (l : List Char) (ls : List (List Char)) :
    ended (l :: ls) = '\n' :: l ++ ended ls := rfl

@[simp] theorem ended_append (a b : List (List Char)) : ended (a ++ b) = ended a ++ ended b :=
  List.flatMap_append

theorem intercalate_newline (l : List Char) (ls : List (List Char)) :
    ['\n'].intercalate (l :: ls) = l ++ ended ls := intercalate_eq_flatMap ['\n'] l ls

/-- What stands before the double colon of a step, given by its text. -/
def stepBreak (single : Bool) (step : List Char) : List Char :=
  if single || staysAttached step then [] else '\n' :: indentTwice

theorem ended_chainLines (line : List Char) (steps : List (List Char)) :
    ended (chainLines line steps) =
      '\n' :: line ++ steps.flatMap fun s => stepBreak false s ++ ':' :: ':' :: s := by
  induction steps generalizing line with
  | nil => simp [chainLines]
  | cons s steps ih =>
    rw [chainLines, List.flatMap_cons, stepBreak, Bool.false_or]
    split
    · rw [ih]
      simp
    · rw [ended_cons, ih]
      simp

/-- A chain of these elements stands on one line. -/
def onOneLine (first : Tokens) (steps : List Tokens) : Bool :=
  steps.length ≤ 1 || ((first :: steps).all (fun e => !spreads (e.map Prod.snd)) &&
    steps.all fun e => isShortStep (written (flush e)))

/-- The steps of a chain laid out. -/
def layChain (single : Bool) (steps : List Tokens) : List (List Char × Token) :=
  steps.flatMap fun e => (stepBreak single (elementText e), .colons) :: layElement (flush e)

theorem layChain_cons (single : Bool) (e : Tokens) (steps : List Tokens) :
    layChain single (e :: steps) = (stepBreak single (elementText e), .colons) ::
      (layElement (flush e) ++ layChain single steps) := rfl

theorem spaced_append (a b : List (List Char × Token)) : spaced (a ++ b) = spaced a ++ spaced b := by
  induction a with
  | nil => rfl
  | cons x a ih => simp only [List.cons_append, spaced, ih, List.append_assoc]

theorem spaced_layChain (single : Bool) (steps : List Tokens) :
    spaced (layChain single steps) =
      (steps.map elementText).flatMap fun s => stepBreak single s ++ ':' :: ':' :: s := by
  induction steps with
  | nil => rfl
  | cons e steps ih =>
    rw [layChain_cons, spaced, spaced_append, ih, List.map_cons, List.flatMap_cons, Token.chars, elementText]
    simp only [List.append_assoc, List.cons_append, List.nil_append]

theorem intercalate_colons (first : List Char) (steps : List (List Char)) :
    [':', ':'].intercalate (first :: steps) =
      first ++ steps.flatMap fun s => stepBreak true s ++ ':' :: ':' :: s :=
  intercalate_eq_flatMap [':', ':'] first steps

theorem fits_of_mem_chained {e : Tokens} {steps : List (Bool × Tokens)}
    (h : Fits (e ++ chained steps)) {s : Bool × Tokens} (hs : s ∈ steps) : Fits s.2 := by
  obtain ⟨before, after, rfl⟩ := List.append_of_mem hs
  refine h.of_isInfix ⟨e ++ chained before ++ [(s.1, .colons)], chained after, ?_⟩
  simp [chained]

/-- An assignment laid out. -/
theorem ended_assignmentLines {name : List Char} {e : Tokens} {steps : List (Bool × Tokens)}
    (h : Fits (e ++ chained steps)) (he : IsElement (e.map Prod.snd))
    (hsteps : ∀ s ∈ steps, IsElement (s.2.map Prod.snd)) :
    ended (assignmentLines name (written (flush (e ++ chained steps)))) =
      '\n' :: indent ++ name ++ ' ' :: '<' :: '-' :: ' ' :: elementText e ++
        spaced (layChain (onOneLine e (steps.map Prod.snd)) (steps.map Prod.snd)) := by
  have hfits : ∀ x ∈ e :: steps.map Prod.snd, Fits x ∧ IsElement (x.map Prod.snd) := by
    rw [List.forall_mem_cons, List.forall_mem_map]
    exact ⟨⟨h.of_isInfix (List.prefix_append ..).isInfix, he⟩,
      fun s hs => ⟨fits_of_mem_chained h hs, hsteps s hs⟩⟩
  set es := steps.map Prod.snd with hes
  -- the pieces that the text is split into are those of the tokens, each expanded as an element
  have hexpand : (((e :: es).map fun e => written (flush e)).map tidy).map expandElement =
      (e :: es).map elementText := by
    rw [List.map_map, List.map_map]
    refine List.map_congr_left fun x hx => ?_
    obtain ⟨hx, helement⟩ := hfits x hx
    rw [Function.comp_apply, Function.comp_apply, elementText]
    refine expandElement_written hx.flush ?_ ?_ ?_ <;> rw [map_snd_flush]
    exacts [helement.tidy, helement.minus, helement.fielded]
  have hsame : ((((e :: es).map fun e => written (flush e)).map tidy).map expandElement ==
      ((e :: es).map fun e => written (flush e)).map tidy) =
        (e :: es).all fun e => !spreads (e.map Prod.snd) := by
    rw [Bool.eq_iff_iff, beq_iff_eq, List.map_map, List.map_map, List.map_map, List.map_inj_left,
      List.all_eq_true]
    refine forall₂_congr fun x hx => ?_
    obtain ⟨hx, helement⟩ := hfits x hx
    rw [Bool.not_eq_true', ← expandElement_eq_tidy_iff hx helement]
    rfl
  have hshort : (((e :: es).map fun e => written (flush e)).drop 1).all isShortStep =
      es.all fun e => isShortStep (written (flush e)) := by
    rw [List.map_cons, List.drop_succ_cons, List.drop_zero, List.all_map]
    rfl
  have hone : (decide (((e :: es).map fun e => written (flush e)).length ≤ 2) ||
      ((e :: es).all fun e => !spreads (e.map Prod.snd)) &&
        es.all fun e => isShortStep (written (flush e))) = onOneLine e es := by
    rw [onOneLine, List.length_map, List.length_cons]
    simp only [Nat.reduceLeDiff]
  rw [assignmentLines, splitTopLevel_chain h he hsteps, ← hes]
  rw [hsame, hshort, hone, hexpand, List.map_cons, spaced_layChain]
  cases onOneLine e es with
  | true =>
    rw [if_pos rfl, ended_cons, intercalate_colons, ended_nil]
    simp only [List.append_assoc, List.cons_append, List.nil_append, List.append_nil]
  | false =>
    rw [if_neg (by decide)]
    dsimp only
    rw [ended_chainLines]
    simp only [List.append_assoc, List.cons_append, List.nil_append]

/-! ### Chains that are laid out already -/

/-- A step after a double colon, as it stands when it is laid out. -/
def relayStep (single : Bool) (e : Tokens) : Bool × Tokens :=
  (!(stepBreak single (elementText e)).isEmpty, relay e)

theorem noted_append (a b : List (List Char × Token)) : noted (a ++ b) = noted a ++ noted b :=
  List.map_append

theorem noted_layChain (single : Bool) (steps : List Tokens) :
    noted (layChain single steps) = chained (steps.map (relayStep single)) := by
  induction steps with
  | nil => rfl
  | cons e steps ih =>
    rw [layChain_cons, noted, List.map_cons, ← noted, noted_append, ih]
    rfl

theorem broken_layChain (single : Bool) (steps : List Tokens) : Broken (layChain single steps) := by
  intro x hx
  obtain ⟨e, -, hx⟩ := List.mem_flatMap.1 hx
  rcases List.mem_cons.1 hx with rfl | hx
  · rw [stepBreak]
    split <;> decide
  · exact broken_layFrom _ _ _ x hx

/-- Texts that fit together, with a gap between them or with a seam at which no token is run into
another. -/
theorem Fits.append {a b : Tokens} (ha : Fits a) (hb : Fits b)
    (h : ∀ x ∈ a.getLast?, ∀ y ∈ b.head?, x.2.clings y.2 = true → y.1 = true) : Fits (a ++ b) where
  sound x hx := (List.mem_append.1 hx).elim (ha.sound x) (hb.sound x)
  apart := List.isChain_append.2 ⟨ha.apart, hb.apart, h⟩

/-- Any mark but a colon may stand directly before other tokens. -/
theorem Fits.mark_cons {ts : Tokens} (h : Fits ts) {c : Char}
    (hc : isBlank c = false ∧ isWordChar c = false ∧ c ≠ ':') (gap : Bool) :
    Fits ((gap, .mark c) :: ts) := by
  refine cons_iff.2 ⟨⟨hc.1, hc.2.1⟩, fun y _ hclings => ?_, h⟩
  exact absurd (head_of_clings hclings).1 hc.2.2

theorem Fits.withGap {ts : Tokens} (h : Fits ts) (gap : Bool) : Fits (withGap gap ts) := by
  cases ts with
  | nil => exact h
  | cons x ts =>
    obtain ⟨hx, hfirst, hrest⟩ := cons_iff.1 h
    refine cons_iff.2 ⟨hx, hfirst, hrest⟩

theorem Fits.relay {e : Tokens} (h : Fits e) (he : IsElement (e.map Prod.snd)) : Fits (relay e) := by
  refine h.flush.noted_layFrom ?_ _ _
  rw [map_snd_flush]
  exact he.tidy.colons

/-- Only a single colon could be run into the double colon of a step. -/
theorem not_clings_colons {ts : Tokens} (h : (ts.map Prod.snd).getLast? ≠ some (.mark ':')) :
    ∀ x ∈ ts.getLast?, x.2.clings .colons = false := by
  intro x hx
  obtain ⟨g, t⟩ := x
  cases t with
  | word w => rfl
  | colons => rfl
  | mark c =>
    rw [Token.clings, beq_eq_false_iff_ne]
    rintro rfl
    rw [List.getLast?_map, hx] at h
    exact h rfl

theorem fits_chained {e : Tokens} {steps : List (Bool × Tokens)} (he : Fits e)
    (hlast : (e.map Prod.snd).getLast? ≠ some (.mark ':'))
    (hsteps : ∀ s ∈ steps, Fits s.2 ∧ (s.2.map Prod.snd).getLast? ≠ some (.mark ':') ∧ s.2 ≠ []) :
    Fits (e ++ chained steps) := by
  induction steps generalizing e with
  | nil =>
    rw [chained, List.flatMap_nil, List.append_nil]
    exact he
  | cons s steps ih =>
    obtain ⟨⟨hs, hslast, hsne⟩, hsteps⟩ := List.forall_mem_cons.1 hsteps
    have hchained : chained (s :: steps) = (s.1, .colons) :: (s.2 ++ chained steps) := rfl
    refine he.append ?_ fun x hx y hy hclings => ?_
    · rw [hchained]
      refine Fits.cons_iff.2 ⟨trivial, fun y _ hclings => ?_, ih hs hslast hsteps⟩
      have hnever : Token.colons.clings y.2 = false := by cases y.2 <;> rfl
      rw [hnever] at hclings
      cases hclings
    · rw [hchained] at hy
      obtain rfl := Option.some.inj hy
      rw [not_clings_colons hlast x hx] at hclings
      cases hclings

theorem noted_layFrom_after (previous : Option Token) (ts : Tokens) :
    noted (layFrom .after previous ts) = regap tightGap previous ts := by
  induction ts generalizing previous with
  | nil => rfl
  | cons x ts ih =>
    have hgap : (!(gapChars (x.1 && tightGap previous x.2)).isEmpty) =
        (x.1 && tightGap previous x.2) := by rw [isEmpty_gapChars, Bool.not_not]
    rw [regap, ← ih, layFrom, noted, List.map_cons, ← hgap]
    rfl

theorem relay_of_not_spreads {e : Tokens} (h : spreads (e.map Prod.snd) = false) :
    relay e = tight (flush e) := by
  rw [relay, layElement, map_snd_flush, zoneOf, h, if_neg (by decide), noted_layFrom_after, tight]

/-- Laying out a step makes no difference to how it is measured. -/
def Steady (e : Tokens) : Prop :=
  isShortStep (written (tight (flush e))) = isShortStep (written (flush e))

/-- A chain whose steps are measured as before keeps its lines. -/
theorem onOneLine_relay {first : Tokens} {steps : List Tokens}
    (h : ∀ e ∈ steps, spreads (e.map Prod.snd) = true ∨ Steady e) :
    onOneLine (relay first) (steps.map relay) = onOneLine first steps := by
  have hspreads : ((relay first :: steps.map relay).all fun e => !spreads (e.map Prod.snd)) =
      (first :: steps).all fun e => !spreads (e.map Prod.snd) := by
    rw [← List.map_cons, List.all_map]
    refine congrArg (List.all (first :: steps)) (funext fun e => ?_)
    rw [Function.comp_apply, map_snd_relay]
  rw [onOneLine, onOneLine, hspreads, List.length_map]
  cases hall : (first :: steps).all fun e => !spreads (e.map Prod.snd) with
  | false => rfl
  | true =>
    rw [Bool.true_and, Bool.true_and, List.all_map]
    congr 1
    rw [Bool.eq_iff_iff, List.all_eq_true, List.all_eq_true]
    refine forall₂_congr fun e he => ?_
    have hnot : spreads (e.map Prod.snd) = false := by
      simpa using List.all_eq_true.1 hall e (List.mem_cons_of_mem _ he)
    have hsteady : Steady e := (h e he).resolve_left (by rw [hnot]; decide)
    rw [Function.comp_apply, flush_relay, relay_of_not_spreads hnot, hsteady]

end Hql.Layout
