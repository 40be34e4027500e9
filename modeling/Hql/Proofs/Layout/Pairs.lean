import Hql.Proofs.Layout.Division

/-!
Brackets in pairs. In a nested text every closer closes the bracket that was opened last, by an opener
of its kind, and none is left open; the arrows `<-`, `->` and `=>` are no brackets. The scan for value
blocks passes over a nested text. The count that divides a text takes the heads of arrows for closers.
Main statement: the pieces of a nested text are nested unless those closers make up for all brackets
that are open at a separator, which they never do when no head of an arrow stands within brackets.
-/

namespace Hql.Layout

open Text

/-- The closer of the bracket that an opener opens. -/
def closerOf (opener : Char) : Char :=
  if opener == '(' then ')' else if opener == '<' then '>' else if opener == '\x7b' then '\x7d' else ']'

/-- A character opens a bracket, unless it is the start of the arrow `<-`. -/
def opensBracket (c : Char) (after : Option Char) : Bool :=
  isOpener c && !(c == '<' && after == some '-')

/-- The character before a head makes an arrow of it. -/
def isShaft (before : Option Char) : Bool := before == some '=' || before == some '-'

/-- A character closes a bracket, unless it is the head of the arrow `=>` or `->`. -/
def closesBracket (before : Option Char) (c : Char) : Bool := isCloser c && !(c == '>' && isShaft before)

/-- The closers that are awaited behind a text, the next one first, when `expected` are awaited in front
of it. There are none to tell if a closer stands where another one is awaited. -/
def awaited (after : Option Char) :
    (expected : List Char) → (before : Option Char) → List Char → Option (List Char)
  | expected, _, [] => some expected
  | expected, before, c :: cs =>
    if opensBracket c (cs.head?.or after) then awaited after (closerOf c :: expected) (some c) cs
    else if closesBracket before c then
      if expected.head? = some c then awaited after expected.tail (some c) cs else none
    else awaited after expected (some c) cs

/-- Every closer of a text closes the bracket that was opened last, and none is left open. -/
def IsNested (cs : List Char) : Prop := awaited none [] none cs = some []

instance (cs : List Char) : Decidable (IsNested cs) := inferInstanceAs (Decidable (_ = _))

/-- The number of brackets that a text opens. -/
def openings : List Char → Nat
  | [] => 0
  | c :: cs => (if opensBracket c cs.head? then 1 else 0) + openings cs

/-- Behind a text no bracket is taken for an open one: every stretch of text that ends there has as many
closers, the heads of arrows among them, as it opens brackets. -/
def IsSpent (cs : List Char) : Prop := ∀ stretch, stretch <:+ cs → openings stretch ≤ stretch.countP isCloser

/-! ### One bracket -/

variable {c : Char} {before after : Option Char}

theorem isOpener_of_opensBracket (h : opensBracket c after = true) : isOpener c = true :=
  (Bool.and_eq_true_iff.1 h).1

theorem isCloser_of_closesBracket (h : closesBracket before c = true) : isCloser c = true :=
  (Bool.and_eq_true_iff.1 h).1

/-- A closer that closes no bracket is the head of an arrow. -/
theorem arrow_of_not_closesBracket (hclose : isCloser c = true) (h : closesBracket before c = false) :
    c = '>' ∧ isShaft before = true := by
  rw [closesBracket, hclose, Bool.true_and, Bool.not_eq_false', Bool.and_eq_true_iff, beq_iff_eq] at h
  exact h

/-- The count of a split goes up at an opening bracket and down at every closer. -/
theorem depthAfter_eq (depth : Nat) (c : Char) (cs : List Char) : depthAfter depth c cs =
    if opensBracket c cs.head? then depth + 1 else if isCloser c then depth - 1 else depth := by
  rw [depthAfter, opensBracket]
  by_cases hopen : isOpener c = true
  · rw [hopen, not_isCloser_of_isOpener hopen, Bool.true_and]
    cases c == '<' && cs.head? == some '-' <;> rfl
  · rw [Bool.not_eq_true] at hopen
    rw [hopen]
    rfl

section

variable {depth : Nat} {cs : List Char}

/-- The scan for value blocks meets the same brackets from behind. -/
theorem inValueBlock_of_closesBracket (h : closesBracket cs.head? c = true) :
    inValueBlock depth after (c :: cs) = inValueBlock (depth + 1) (some c) cs := by
  obtain ⟨hclose, harrow⟩ := Bool.and_eq_true_iff.1 h
  rw [Bool.not_eq_true', isShaft] at harrow
  rw [inValueBlock, if_pos hclose, harrow, if_neg Bool.false_ne_true]

theorem inValueBlock_of_opensBracket (h : opensBracket c after = true) :
    inValueBlock (depth + 1) after (c :: cs) = inValueBlock depth (some c) cs := by
  have hclose := not_isCloser_of_isOpener (isOpener_of_opensBracket h)
  rw [opensBracket] at h
  rw [inValueBlock, hclose, if_neg Bool.false_ne_true, h, if_pos rfl, if_pos (Nat.succ_pos depth),
    Nat.add_sub_cancel]

theorem inValueBlock_of_not_bracket (hopen : opensBracket c after = false)
    (hclose : closesBracket cs.head? c = false) :
    inValueBlock depth after (c :: cs) = inValueBlock depth (some c) cs := by
  rw [inValueBlock]
  by_cases hcloser : isCloser c = true
  · obtain ⟨rfl, hshaft⟩ := arrow_of_not_closesBracket hcloser hclose
    rw [isShaft] at hshaft
    rw [if_pos hcloser, hshaft]
    rfl
  · rw [opensBracket] at hopen
    rw [if_neg hcloser, hopen, if_neg Bool.false_ne_true]

end

/-! ### Closers that are awaited -/

variable {expected : List Char} {a b : List Char}

theorem awaited_append (expected : List Char) (before : Option Char) (a b : List Char) :
    awaited after expected before (a ++ b) =
      (awaited (b.head?.or after) expected before a).bind fun t =>
        awaited after t (a.getLast?.or before) b := by
  induction a generalizing expected before with
  | nil => rfl
  | cons c a ih =>
    have hnext : (a ++ b).head?.or after = a.head?.or (b.head?.or after) := by
      rw [List.head?_append, Option.or_assoc]
    have hlast : (c :: a).getLast?.or before = a.getLast?.or (some c) := by
      rw [List.getLast?_cons]
      cases a.getLast? <;> rfl
    rw [List.cons_append, awaited, awaited, hnext, hlast]
    split
    · exact ih ..
    split
    · split
      · exact ih ..
      · rfl
    · exact ih ..

/-- Of what stands around a text only the rest of an arrow matters. -/
theorem awaited_congr {after' before' : Option Char} (hafter : (after == some '-') = (after' == some '-'))
    (hbefore : isShaft before = isShaft before') (expected cs : List Char) :
    awaited after expected before cs = awaited after' expected before' cs := by
  induction cs generalizing expected before before' with
  | nil => rfl
  | cons c cs ih =>
    have hopen : opensBracket c (cs.head?.or after) = opensBracket c (cs.head?.or after') := by
      cases cs with
      | nil => simp only [opensBracket, List.head?_nil, Option.none_or, hafter]
      | cons d cs => rfl
    have hclose : closesBracket before c = closesBracket before' c := by
      rw [closesBracket, closesBracket, hbefore]
    rw [awaited, awaited, hopen, hclose, ih rfl, ih rfl, ih rfl]

/-- A text without brackets and without the shaft of an arrow. -/
def IsDivider (w : List Char) : Prop :=
  ∀ c ∈ w, (isOpener c = false ∧ isCloser c = false) ∧ isShaft (some c) = false

instance (w : List Char) : Decidable (IsDivider w) :=
  inferInstanceAs (Decidable (∀ c ∈ w, _ ∧ _))

theorem isDivider_blanks {w : List Char} (h : ∀ c ∈ w, isBlank c = true) : IsDivider w := by
  intro c hc
  refine ⟨not_bracket_of_isBlank (h c hc), ?_⟩
  rw [← Bool.not_eq_true, isShaft, Bool.or_eq_true, beq_iff_eq, beq_iff_eq]
  rintro (heq | heq) <;> cases heq <;> exact absurd (h _ hc) (by decide)

theorem awaited_of_not_bracket {w : List Char} (h : ∀ c ∈ w, isOpener c = false ∧ isCloser c = false)
    (expected : List Char) : awaited after expected before w = some expected := by
  induction w generalizing before with
  | nil => rfl
  | cons c w ih =>
    obtain ⟨⟨hopen, hclose⟩, hw⟩ := List.forall_mem_cons.1 h
    rw [awaited, opensBracket, hopen, closesBracket, hclose, Bool.false_and, Bool.false_and,
      if_neg Bool.false_ne_true, if_neg Bool.false_ne_true, ih hw]

section

variable {w : List Char} (hw : IsDivider w)

include hw

theorem IsDivider.head_eq (hne : w ≠ []) (b : List Char) :
    ((w ++ b).head? == some '-') = (([] : List Char).head? == some '-') := by
  obtain ⟨c, w, rfl⟩ := List.exists_cons_of_ne_nil hne
  exact (Bool.or_eq_false_iff.1 (hw c List.mem_cons_self).2).2

/-- What stands on either side of a divider is read as if it stood alone. -/
theorem awaited_divider (hne : w ≠ []) (expected a b : List Char) :
    awaited after expected before (a ++ (w ++ b)) =
      (awaited none expected before a).bind fun t => awaited after t none b := by
  have hlast (first : Option Char) : isShaft (w.getLast?.or first) = isShaft none := by
    rw [List.getLast?_eq_some_getLast hne]
    exact (hw _ (List.getLast_mem hne)).2
  have hfront : awaited ((w ++ b).head?.or after) expected before a = awaited none expected before a := by
    have hhead : (w ++ b).head?.or after = (w ++ b).head? := by
      obtain ⟨c, w, rfl⟩ := List.exists_cons_of_ne_nil hne
      rfl
    rw [hhead]
    exact awaited_congr (hw.head_eq hne b) rfl expected a
  rw [awaited_append, hfront]
  congr 1
  funext t
  rw [awaited_append, awaited_of_not_bracket fun c hc => (hw c hc).1, Option.bind_some]
  exact awaited_congr rfl (hlast _) t b

theorem depthBehind_divider (hne : w ≠ []) (depth : Nat) (a b : List Char) :
    depthBehind depth [] (a ++ (w ++ b)) = depthBehind (depthBehind depth [] a) [] b := by
  rw [depthBehind_append, List.append_nil, depthBehind_congr (hw.head_eq hne b), depthBehind_append,
    depthBehind_of_not_bracket fun c hc => (hw c hc).1]

/-! ### Nested texts -/

theorem isNested_divider_iff (hne : w ≠ []) (ha : IsNested a) : IsNested (a ++ (w ++ b)) ↔ IsNested b := by
  rw [IsNested, awaited_divider hw hne, ha]
  rfl

theorem isNested_append_divider_iff : IsNested (a ++ w) ↔ IsNested a := by
  by_cases hne : w = []
  · rw [hne, List.append_nil]
  · have hread : awaited none [] none (a ++ (w ++ [])) =
        (awaited none [] none a).bind fun t => awaited none t none [] := awaited_divider hw hne [] a []
    have hself : ((awaited none [] none a).bind fun t => awaited none t none []) =
        awaited none [] none a := by
      cases awaited none [] none a <;> rfl
    rw [List.append_nil, hself] at hread
    rw [IsNested, hread, IsNested]

end

theorem isNested_trim_iff (s : List Char) : IsNested (trim s) ↔ IsNested s := by
  obtain ⟨a, b, hs, ha, hb⟩ := exists_blanks_trim s
  have hfront : IsNested (a ++ trim s) ↔ IsNested (trim s) := by
    by_cases hne : a = []
    · rw [hne, List.nil_append]
    · exact isNested_divider_iff (a := []) (isDivider_blanks ha) hne rfl
  have hback : IsNested (a ++ trim s ++ b) ↔ IsNested (a ++ trim s) :=
    isNested_append_divider_iff (isDivider_blanks hb)
  rw [← hs] at hback
  exact (hback.trans hfront).symm

/-- Trimming pieces and dropping empty ones is nothing to their brackets. -/
theorem isNested_pieces_iff (separator cs : List Char) :
    (∀ p ∈ splitTopLevel separator cs, IsNested p) ↔
      ∀ s ∈ segments separator 0 0 cs, IsNested s := by
  constructor
  · intro h s hs
    rw [← isNested_trim_iff]
    by_cases hempty : trim s = []
    · rw [hempty]
      rfl
    · exact h _ (List.mem_filter.2 ⟨List.mem_map_of_mem hs, by simpa using hempty⟩)
  · intro h p hp
    obtain ⟨s, hs, rfl⟩ := List.mem_map.1 (List.mem_of_mem_filter hp)
    exact (isNested_trim_iff s).2 (h s hs)

/-! ### The count of a split -/

theorem forall_suffix_cons {P : List Char → Prop} {s : List Char} :
    (∀ y, y <:+ c :: s → P y) ↔ P (c :: s) ∧ ∀ y, y <:+ s → P y := by
  simp only [List.suffix_cons_iff, forall_eq_or_imp]

/-- The count goes down to zero and no further, so what is counted at a place is what the stretch with
the most brackets in excess leaves open. -/
theorem depthBehind_le_iff (depth bound : Nat) (s : List Char) : depthBehind depth [] s ≤ bound ↔
    depth + openings s ≤ bound + s.countP isCloser ∧
      ∀ y, y <:+ s → openings y ≤ bound + y.countP isCloser := by
  induction s generalizing depth with
  | nil =>
    constructor
    · intro h
      refine ⟨h, fun y hy => ?_⟩
      rw [List.suffix_nil.1 hy]
      exact Nat.zero_le _
    · exact fun h => h.1
  | cons c s ih =>
    rw [depthBehind, List.append_nil, ih, depthAfter_eq, forall_suffix_cons, List.countP_cons, openings,
      ← and_assoc]
    refine and_congr_left fun hmore => ?_
    -- a closer too many is one in the text from there on, which is a stretch itself
    have hrest := hmore s (List.suffix_refl s)
    by_cases hopen : opensBracket c s.head? = true
    · rw [if_pos hopen, if_pos hopen, if_neg]
      · omega
      · rw [not_isCloser_of_isOpener (isOpener_of_opensBracket hopen)]
        exact Bool.false_ne_true
    · rw [if_neg hopen, if_neg hopen]
      by_cases hclose : isCloser c = true
      · rw [if_pos hclose, if_pos hclose]
        omega
      · rw [if_neg hclose, if_neg hclose]
        omega

theorem isSpent_iff (s : List Char) : IsSpent s ↔ depthBehind 0 [] s = 0 := by
  rw [← Nat.le_zero, depthBehind_le_iff, IsSpent]
  simp only [Nat.zero_add]
  exact ⟨fun h => ⟨h s (List.suffix_refl s), h⟩, fun h => h.2⟩

/-- One character on, the count stays the number of closers that are awaited, unless it is the head of
an arrow within brackets. -/
theorem depthAfter_eq_length {u t y : List Char} (h : awaited y.head? u before [c] = some t)
    (hhead : c = '>' → isShaft before = true → u = []) : depthAfter u.length c y = t.length := by
  rw [awaited, List.head?_nil, Option.none_or] at h
  rw [depthAfter_eq]
  split at h
  · next hopen =>
    obtain rfl := Option.some.inj h
    rw [if_pos hopen]
    rfl
  next hopen =>
  rw [if_neg hopen]
  split at h
  · next hclose =>
    split at h
    · obtain rfl := Option.some.inj h
      rw [if_pos (isCloser_of_closesBracket hclose), List.length_tail]
    · cases h
  · next hclose =>
    obtain rfl := Option.some.inj h
    split
    · next hcloser =>
      rw [Bool.not_eq_true] at hclose
      obtain ⟨hc, hshaft⟩ := arrow_of_not_closesBracket hcloser hclose
      rw [hhead hc hshaft]
      rfl
    · rfl

/-- When no head of an arrow stands within brackets, the count is the number of closers that are
awaited. -/
theorem depthBehind_eq_length {cs : List Char}
    (hheads : ∀ x y, cs = x ++ '>' :: y → isShaft x.getLast? = true → IsNested x) {a y t : List Char}
    (hcs : cs = a ++ y) (h : awaited y.head? [] none a = some t) : depthBehind 0 y a = t.length := by
  induction a using List.reverseRecOn generalizing y t with
  | nil =>
    obtain rfl := Option.some.inj h
    rfl
  | append_singleton a c ih =>
    have hcs' : cs = a ++ c :: y := by rw [hcs, List.append_assoc, List.singleton_append]
    rw [awaited_append, Option.or_none] at h
    obtain ⟨u, hu, hc⟩ := Option.bind_eq_some_iff.1 h
    have hdepth : depthBehind 0 ([c] ++ y) a = u.length := ih hcs' hu
    rw [depthBehind_append, hdepth, depthBehind, List.nil_append, depthBehind]
    refine depthAfter_eq_length hc ?_
    rintro rfl hshaft
    -- the text before the head is nested, so no closer is awaited there
    have hnested : awaited none [] none a = some [] := hheads a y hcs' hshaft
    have hsame : awaited (some '>') [] none a = awaited none [] none a :=
      awaited_congr (by decide) rfl [] a
    exact Option.some.inj (hu.symm.trans (hsame.trans hnested))

/-! ### Divisions -/

section

variable {separator cs : List Char} (hdivider : IsDivider separator) (hseparator : separator ≠ [])

include hdivider hseparator

theorem separatesAt_divider_iff (a b : List Char) :
    SeparatesAt separator 0 a (separator ++ b) ↔ depthBehind 0 [] a = 0 := by
  obtain ⟨c, more, rfl⟩ := List.exists_cons_of_ne_nil hseparator
  have hplain := (hdivider c List.mem_cons_self).1
  have hnext : (([c] ++ (more ++ b)).head? == some '-') = (([] : List Char).head? == some '-') :=
    hdivider.head_eq hseparator b
  have hcount : depthBehind 0 ((c :: more ++ b).drop 1) (a ++ (c :: more ++ b).take 1) =
      depthBehind 0 [] a := by
    change depthBehind 0 (more ++ b) (a ++ [c]) = _
    rw [depthBehind_append, depthBehind_congr hnext, depthBehind_of_not_bracket (by simpa using hplain)]
  rw [SeparatesAt, hcount]
  exact and_iff_right (List.prefix_append (c :: more) b)

/-- If every segment is nested, a separator within brackets is one that the count does not reach. -/
theorem isNested_of_segments {segs : List (List Char)} (hdivision : IsDivision separator cs segs)
    (hsegs : ∀ s ∈ segs, IsNested s) {a b : List Char} (hcs : cs = a ++ (separator ++ b))
    (hspent : depthBehind 0 [] a = 0) : IsNested a := by
  induction segs generalizing cs a with
  | nil => exact absurd rfl hdivision.ne_nil
  | cons s segs ih =>
    obtain ⟨hs, hmore⟩ := List.forall_mem_cons.1 hsegs
    have hplace := (separatesAt_divider_iff hdivider hseparator a b).2 hspent
    cases segs with
    | nil =>
      obtain ⟨rfl, hwhole⟩ := isDivision_singleton.1 hdivision
      refine absurd hplace ?_
      have hnot := hwhole a (separator ++ b) hcs (by simp [hseparator])
      rwa [List.append_nil] at hnot
    | cons t segs =>
      obtain ⟨rest, rfl, hfirst, hjoin, htail⟩ := isDivision_cons.1 hdivision
      have hzero := (separatesAt_divider_iff hdivider hseparator s rest).1 hjoin
      rcases List.append_eq_append_iff.1 hcs with ⟨c, rfl, hc⟩ | ⟨c, rfl, hc⟩
      · -- the place lies behind the first segment: in the separator there, or behind that
        rcases List.append_eq_append_iff.1 hc with ⟨d, rfl, hd⟩ | ⟨d, hd, -⟩
        · rw [isNested_divider_iff hdivider hseparator hs]
          rw [depthBehind_divider hdivider hseparator, hzero] at hspent
          exact ih htail hmore hd hspent
        · have hpart : IsDivider c := fun x hx => hdivider x (hd ▸ List.mem_append_left d hx)
          exact (isNested_append_divider_iff hpart).2 hs
      · by_cases hne : c = []
        · rw [hne, List.append_nil] at hs
          exact hs
        · refine absurd hplace ?_
          have hnot := hfirst a c rfl hne
          rwa [← hc] at hnot

/-- If every separator within brackets is one that the count does not reach, every segment is nested. -/
theorem isNested_of_mem_segments {segs : List (List Char)} (hdivision : IsDivision separator cs segs)
    (hcs : IsNested cs)
    (hplaces : ∀ a b, cs = a ++ (separator ++ b) → depthBehind 0 [] a = 0 → IsNested a) :
    ∀ s ∈ segs, IsNested s := by
  induction segs generalizing cs with
  | nil => exact absurd rfl hdivision.ne_nil
  | cons s segs ih =>
    cases segs with
    | nil =>
      obtain ⟨rfl, -⟩ := isDivision_singleton.1 hdivision
      exact List.forall_mem_singleton.2 hcs
    | cons t segs =>
      obtain ⟨rest, rfl, -, hjoin, htail⟩ := isDivision_cons.1 hdivision
      have hzero := (separatesAt_divider_iff hdivider hseparator s rest).1 hjoin
      have hs : IsNested s := hplaces s rest rfl hzero
      refine List.forall_mem_cons.2 ⟨hs, ih htail ((isNested_divider_iff hdivider hseparator hs).1 hcs) ?_⟩
      -- counted from the start of the text a place in the rest is the same
      rintro a b rfl hspent
      have hwhole : IsNested (s ++ (separator ++ a)) := by
        refine hplaces _ b (by simp only [List.append_assoc]) ?_
        rw [depthBehind_divider hdivider hseparator, hzero, hspent]
      exact (isNested_divider_iff hdivider hseparator hs).1 hwhole

/-- The pieces of a nested text are nested exactly if the count is above zero at every separator within
brackets. -/
theorem isNested_pieces_iff_count (hcs : IsNested cs) :
    (∀ p ∈ splitTopLevel separator cs, IsNested p) ↔
      ∀ a b, cs = a ++ (separator ++ b) → IsSpent a → IsNested a := by
  have hdivision := (isDivision_iff hseparator).2 (rfl : segments separator 0 0 cs = _)
  rw [isNested_pieces_iff]
  simp only [isSpent_iff]
  exact ⟨fun h a b => isNested_of_segments hdivider hseparator hdivision h,
    isNested_of_mem_segments hdivider hseparator hdivision hcs⟩

theorem isNested_of_isSpent (hcs : IsNested cs)
    (hheads : ∀ x y, cs = x ++ '>' :: y → isShaft x.getLast? = true → IsNested x) {a b : List Char}
    (hab : cs = a ++ (separator ++ b)) (hspent : IsSpent a) : IsNested a := by
  rw [hab, IsNested, awaited_divider hdivider hseparator] at hcs
  obtain ⟨t, ht, -⟩ := Option.bind_eq_some_iff.1 hcs
  have hnext := hdivider.head_eq hseparator b
  have hread : awaited (separator ++ b).head? [] none a = some t :=
    (awaited_congr hnext rfl [] a).trans ht
  -- the count is zero, so no closer is awaited
  have hzero : t.length = 0 := by
    rw [← depthBehind_eq_length hheads hab hread, depthBehind_congr hnext, (isSpent_iff a).1 hspent]
  rw [IsNested, ht, List.length_eq_zero_iff.1 hzero]

end

/-- The scan for value blocks passes over a nested text. -/
theorem inValueBlock_reverse {cs front expected : List Char}
    (h : awaited after expected front.head? cs = some []) (depth : Nat) :
    inValueBlock depth after (cs.reverse ++ front) =
      inValueBlock (depth + expected.length) (cs.head?.or after) front := by
  induction cs generalizing expected front with
  | nil =>
    obtain rfl := Option.some.inj h
    rfl
  | cons c cs ih =>
    have hreverse : (c :: cs).reverse ++ front = cs.reverse ++ (c :: front) := by simp
    have hnext {awaits : List Char} (hrest : awaited after awaits (some c) cs = some []) :
        inValueBlock depth after (cs.reverse ++ (c :: front)) =
          inValueBlock (depth + awaits.length) (cs.head?.or after) (c :: front) := ih hrest
    rw [hreverse]
    rw [awaited] at h
    split at h
    · next hopen =>
      rw [hnext h, List.length_cons, ← Nat.add_assoc, inValueBlock_of_opensBracket hopen]
      rfl
    · next hopen =>
      rw [Bool.not_eq_true] at hopen
      split at h
      · next hclose =>
        split at h
        · next hawaited =>
          obtain ⟨expected, rfl⟩ := List.head?_eq_some_iff.1 hawaited
          rw [hnext h, inValueBlock_of_closesBracket hclose, List.tail_cons, List.length_cons,
            Nat.add_assoc]
          rfl
        · cases h
      · next hclose =>
        rw [Bool.not_eq_true] at hclose
        rw [hnext h, inValueBlock_of_not_bracket hopen hclose]
        rfl

/-! ### The two scans -/

/-- A nested text, and the pieces that it is split into at commas or double colons. The scan for value
blocks passes over the text, for which the arrows are no brackets. The pieces are nested exactly if at
every separator within brackets some stretch of the text before it opens more brackets than it has
closers and heads of arrows; so they are nested if no head of an arrow stands within brackets. -/
theorem isNested_splitTopLevel_iff {separator cs : List Char}
    (hseparator : separator = [','] ∨ separator = [':', ':']) (hcs : IsNested cs) :
    (∀ depth after front, after ≠ some '-' → isShaft front.head? = false →
      inValueBlock depth after (cs.reverse ++ front) = inValueBlock depth (cs.head?.or after) front) ∧
    ((∀ p ∈ splitTopLevel separator cs, IsNested p) ↔
      ∀ a b, cs = a ++ (separator ++ b) → IsSpent a → IsNested a) ∧
    ((∀ a b, cs = a ++ '>' :: b → isShaft a.getLast? = true → IsNested a) →
      ∀ p ∈ splitTopLevel separator cs, IsNested p) := by
  have hdivider : IsDivider separator := by rcases hseparator with rfl | rfl <;> decide
  have hne : separator ≠ [] := by rcases hseparator with rfl | rfl <;> decide
  have hpieces := isNested_pieces_iff_count hdivider hne hcs
  refine ⟨fun depth after front hafter hfront => ?_, hpieces, fun hheads => ?_⟩
  · have hnext : (after == some '-') = ((none : Option Char) == some '-') := by simpa using hafter
    have hsame : awaited after [] front.head? cs = awaited none [] none cs :=
      awaited_congr hnext hfront [] cs
    exact inValueBlock_reverse (hsame.trans hcs) depth
  · exact hpieces.2 fun a b hab hspent => isNested_of_isSpent hdivider hne hcs hheads hab hspent

/-- Heads of arrows outside brackets, and an arrow without a head within them. -/
theorem isNested_splitTopLevel_iff_arrows :
    IsNested "x -> f<A, B>(c <- {d: e}), => [g]".toList ∧
    (∀ p ∈ splitTopLevel [','] "x -> f<A, B>(c <- {d: e}), => [g]".toList, IsNested p) ∧
    ∀ a b, "x -> f<A, B>(c <- {d: e}), => [g]".toList = a ++ ([','] ++ b) → IsSpent a → IsNested a := by
  have hcs : IsNested "x -> f<A, B>(c <- {d: e}), => [g]".toList := by decide
  obtain ⟨-, hpieces, -⟩ := isNested_splitTopLevel_iff (.inl rfl) hcs
  have hsplit : ∀ p ∈ splitTopLevel [','] "x -> f<A, B>(c <- {d: e}), => [g]".toList, IsNested p := by
    decide
  exact ⟨hcs, hsplit, hpieces.1 hsplit⟩

/-- The head of an arrow closes the parentheses around it, and the comma behind it divides the call. -/
theorem not_isNested_splitTopLevel : ¬ ∀ separator cs, separator = [','] ∨ separator = [':', ':'] →
    IsNested cs → ∀ p ∈ splitTopLevel separator cs, IsNested p := by
  intro h
  have hpiece := h [','] "f(a => b, c)".toList (.inl rfl) (by decide) "f(a => b".toList (by decide)
  exact absurd hpiece (by decide)

end Hql.Layout
