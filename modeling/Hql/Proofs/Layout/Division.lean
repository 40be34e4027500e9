import Hql.Proofs.Layout.Lines
import Hql.Proofs.Layout.Shape

/-!
Texts divided outside brackets. A separator divides a text where no bracket is open; the brackets are
counted from the last division on, and the first character of the separator is counted with them. Main
statement: a text can be divided in one way only, which is the one that is taken, and for a separator
that is a plain character what is put together again from the pieces is divided into the same pieces.
-/

namespace Hql.Layout

open Text

/-- The number of open brackets behind a text that `rest` follows. -/
def depthBehind (depth : Nat) (rest : List Char) : List Char → Nat
  | [] => depth
  | c :: cs => depthBehind (depthAfter depth c (cs ++ rest)) rest cs

/-- The separator stands behind `before`, at the start of `after`, and no bracket is open there. Its
first character is counted already. -/
def SeparatesAt (separator : List Char) (depth : Nat) (before after : List Char) : Prop :=
  separator <+: after ∧ depthBehind depth (after.drop 1) (before ++ after.take 1) = 0

/-- No place in a text that `rest` follows is one to divide at. -/
def Undivided (separator : List Char) (depth : Nat) (s rest : List Char) : Prop :=
  ∀ a b, s = a ++ b → b ≠ [] → ¬ SeparatesAt separator depth a (b ++ rest)

/-- What follows a segment in a text: the segments behind it, a separator in front of each. -/
def following (separator : List Char) (back : List (List Char)) : List Char :=
  back.flatMap fun s => separator ++ s

/-- A text as segments with the separator between them. Where two of them join no bracket is open, and
no other place in a segment, up to the join, would have been one to divide at. -/
structure IsDivision (separator cs : List Char) (segs : List (List Char)) : Prop where
  ne_nil : segs ≠ []
  text : separator.intercalate segs = cs
  joins : ∀ front s back, segs = front ++ s :: back → back ≠ [] →
    SeparatesAt separator 0 s (following separator back)
  first : ∀ front s back, segs = front ++ s :: back →
    Undivided separator 0 s (following separator back)

/-! ### Counting brackets -/

theorem depthBehind_append (depth : Nat) (rest a b : List Char) :
    depthBehind depth rest (a ++ b) = depthBehind (depthBehind depth (b ++ rest) a) rest b := by
  induction a generalizing depth with
  | nil => rfl
  | cons c a ih =>
    rw [List.cons_append, depthBehind, ih, depthBehind, List.append_assoc]

/-- A character that is no bracket leaves the count as it is. -/
theorem depthAfter_of_not_bracket {c : Char} (h : isOpener c = false ∧ isCloser c = false)
    (depth : Nat) (after : List Char) : depthAfter depth c after = depth := by
  rw [depthAfter, h.1, h.2]
  rfl

theorem depthBehind_of_not_bracket {a : List Char}
    (h : ∀ c ∈ a, isOpener c = false ∧ isCloser c = false) (depth : Nat) (rest : List Char) :
    depthBehind depth rest a = depth := by
  induction a with
  | nil => rfl
  | cons c a ih =>
    rw [depthBehind, depthAfter_of_not_bracket (h c List.mem_cons_self),
      ih fun d hd => h d (List.mem_cons_of_mem _ hd)]

/-- Of what follows a text the count sees whether it starts with the minus of an arrow. -/
theorem depthBehind_congr {rest rest' : List Char}
    (h : (rest.head? == some '-') = (rest'.head? == some '-')) (depth : Nat) (s : List Char) :
    depthBehind depth rest s = depthBehind depth rest' s := by
  induction s generalizing depth with
  | nil => rfl
  | cons c s ih =>
    have hafter : depthAfter depth c (s ++ rest) = depthAfter depth c (s ++ rest') := by
      cases s with
      | nil => rw [depthAfter, depthAfter, List.nil_append, List.nil_append, h]
      | cons d s => rfl
    rw [depthBehind, depthBehind, hafter, ih]

/-! ### Places to divide at -/

variable {separator : List Char}

theorem separatesAt_append {depth : Nat} {a b after : List Char} :
    SeparatesAt separator depth (a ++ b) after ↔
      SeparatesAt separator (depthBehind depth (b ++ after) a) b after := by
  rw [SeparatesAt, SeparatesAt, List.append_assoc, depthBehind_append, List.append_assoc,
    List.take_append_drop]

theorem separatesAt_cons {depth : Nat} {c : Char} {a b : List Char} :
    SeparatesAt separator depth (c :: a) b ↔
      SeparatesAt separator (depthAfter depth c (a ++ b)) a b :=
  separatesAt_append (a := [c])

theorem undivided_nil (depth : Nat) (rest : List Char) : Undivided separator depth [] rest := by
  intro a b hab hb
  exact absurd (List.append_eq_nil_iff.1 hab.symm).2 hb

theorem undivided_cons {depth : Nat} {c : Char} {s rest : List Char} :
    Undivided separator depth (c :: s) rest ↔
      ¬ SeparatesAt separator depth [] (c :: (s ++ rest)) ∧
        Undivided separator (depthAfter depth c (s ++ rest)) s rest := by
  constructor
  · intro h
    refine ⟨h [] (c :: s) rfl (by simp), fun a b hab hb hseparates => ?_⟩
    refine h (c :: a) b (by rw [hab, List.cons_append]) hb (separatesAt_cons.2 ?_)
    rwa [← List.append_assoc, ← hab]
  · rintro ⟨hhere, hmore⟩ a b hab hb hseparates
    cases a with
    | nil =>
      obtain rfl : b = c :: s := hab.symm
      exact hhere hseparates
    | cons d a =>
      rw [List.cons_append, List.cons.injEq] at hab
      obtain ⟨rfl, rfl⟩ := hab
      refine hmore a b rfl hb ?_
      rw [List.append_assoc]
      exact separatesAt_cons.1 hseparates

/-- A text has no place to divide at, or a first one. -/
theorem undivided_or_separatesAt (separator : List Char) (depth : Nat) (cs : List Char) :
    Undivided separator depth cs [] ∨
      ∃ a b, cs = a ++ b ∧ b ≠ [] ∧ Undivided separator depth a b ∧
        SeparatesAt separator depth a b := by
  induction cs generalizing depth with
  | nil => exact .inl (undivided_nil depth [])
  | cons c cs ih =>
    by_cases hhere : SeparatesAt separator depth [] (c :: cs)
    · exact .inr ⟨[], c :: cs, rfl, by simp, undivided_nil depth _, hhere⟩
    rcases ih (depthAfter depth c cs) with hwhole | ⟨a, b, rfl, hb, hbefore, hthere⟩
    · refine .inl (undivided_cons.2 ?_)
      rw [List.append_nil]
      exact ⟨hhere, hwhole⟩
    · exact .inr ⟨c :: a, b, rfl, hb, undivided_cons.2 ⟨hhere, hbefore⟩, separatesAt_cons.2 hthere⟩

/-! ### Divisions, a segment at a time -/

theorem following_cons (s : List Char) (back : List (List Char)) :
    following separator (s :: back) = separator ++ separator.intercalate (s :: back) := by
  rw [intercalate_eq_flatMap, following, List.flatMap_cons, List.append_assoc]

theorem isDivision_singleton {cs s : List Char} :
    IsDivision separator cs [s] ↔ s = cs ∧ Undivided separator 0 s [] := by
  constructor
  · intro h
    exact ⟨by rw [← h.text, List.intercalate_singleton], h.first [] s [] rfl⟩
  · rintro ⟨rfl, hwhole⟩
    have honly : ∀ front p back, [s] = front ++ p :: back → p = s ∧ back = [] := by
      intro front p back hparts
      cases front with
      | nil => exact ⟨(List.cons.inj hparts).1.symm, (List.cons.inj hparts).2.symm⟩
      | cons q front => exact absurd (List.cons.inj hparts).2 (by simp)
    refine ⟨by simp, List.intercalate_singleton .., fun front p back hparts hback => ?_,
      fun front p back hparts => ?_⟩
    · exact absurd (honly front p back hparts).2 hback
    · obtain ⟨rfl, rfl⟩ := honly front p back hparts
      exact hwhole

theorem isDivision_cons {cs s t : List Char} {segs : List (List Char)} :
    IsDivision separator cs (s :: t :: segs) ↔
      ∃ rest, cs = s ++ (separator ++ rest) ∧ Undivided separator 0 s (separator ++ rest) ∧
        SeparatesAt separator 0 s (separator ++ rest) ∧ IsDivision separator rest (t :: segs) := by
  constructor
  · intro h
    refine ⟨separator.intercalate (t :: segs), ?_, ?_, ?_, by simp, rfl, ?_, ?_⟩
    · rw [← h.text, intercalate_eq_flatMap]
      exact congrArg (s ++ ·) (following_cons t segs)
    · rw [← following_cons]
      exact h.first [] s (t :: segs) rfl
    · rw [← following_cons]
      exact h.joins [] s (t :: segs) rfl (by simp)
    · exact fun front p back hparts => h.joins (s :: front) p back (congrArg (s :: ·) hparts)
    · exact fun front p back hparts => h.first (s :: front) p back (congrArg (s :: ·) hparts)
  · rintro ⟨rest, rfl, hfirst, hjoin, h⟩
    have hfollowing : following separator (t :: segs) = separator ++ rest := by
      rw [following_cons, h.text]
    refine ⟨by simp, ?_, fun front p back hparts hback => ?_, fun front p back hparts => ?_⟩
    · rw [intercalate_eq_flatMap]
      exact congrArg (s ++ ·) hfollowing
    · cases front with
      | nil =>
        obtain ⟨rfl, rfl⟩ := List.cons.inj hparts
        rwa [hfollowing]
      | cons q front => exact h.joins front p back (List.cons.inj hparts).2 hback
    · cases front with
      | nil =>
        obtain ⟨rfl, rfl⟩ := List.cons.inj hparts
        rwa [hfollowing]
      | cons q front => exact h.first front p back (List.cons.inj hparts).2

/-! ### There is one division -/

/-- A text in which nothing separates stays whole, and the brackets that it leaves open are counted
behind it. -/
theorem segments_of_undivided {depth : Nat} {s rest : List Char}
    (h : Undivided separator depth s rest) : segments separator depth 0 (s ++ rest) =
      prependFirst s (segments separator (depthBehind depth rest s) 0 rest) := by
  induction s generalizing depth with
  | nil =>
    obtain ⟨p, ps, hp⟩ := List.exists_cons_of_ne_nil (segments_ne_nil separator depth 0 rest)
    rw [List.nil_append, depthBehind, hp]
    rfl
  | cons c s ih =>
    obtain ⟨hhere, hmore⟩ := undivided_cons.1 h
    -- nothing is cut off in front of the first character
    have hcut : depthAfter depth c (s ++ rest) = 0 →
        ¬ separator.isPrefixOf (c :: (s ++ rest)) = true :=
      fun hdepth hstarts => hhere ⟨List.isPrefixOf_iff_prefix.1 hstarts, hdepth⟩
    rw [List.cons_append, segments_cons rfl hcut, ih hmore, prependFirst_prependFirst]
    rfl

theorem segments_skip (depth skip : Nat) (cs : List Char) :
    segments separator depth skip cs = segments separator depth 0 (cs.drop skip) := by
  induction cs generalizing skip with
  | nil => cases skip <;> rfl
  | cons c cs ih =>
    cases skip with
    | zero => rfl
    | succ skip => rw [segments, ih, List.drop_succ_cons]

/-- Behind a join the brackets are counted anew. -/
theorem segments_of_separatesAt (hseparator : separator ≠ []) {depth : Nat} {s rest : List Char}
    (h : SeparatesAt separator depth s (separator ++ rest)) :
    segments separator (depthBehind depth (separator ++ rest) s) 0 (separator ++ rest) =
      [] :: segments separator 0 0 rest := by
  obtain ⟨c, more, rfl⟩ := List.exists_cons_of_ne_nil hseparator
  have hdepth : depthAfter (depthBehind depth (c :: more ++ rest) s) c (more ++ rest) = 0 := by
    have hbehind := h.2
    rw [depthBehind_append] at hbehind
    exact hbehind
  have hstarts : (c :: more).isPrefixOf (c :: (more ++ rest)) = true :=
    List.isPrefixOf_iff_prefix.2 (List.prefix_append (c :: more) rest)
  rw [List.cons_append, segments, ← List.cons_append, hdepth, List.cons_append, hstarts]
  simp only [decide_true, Bool.and_self, if_true, List.length_cons, Nat.add_sub_cancel]
  rw [segments_skip, List.drop_left]

theorem IsDivision.eq_segments (hseparator : separator ≠ []) {cs : List Char}
    {segs : List (List Char)} (h : IsDivision separator cs segs) :
    segs = segments separator 0 0 cs := by
  induction segs generalizing cs with
  | nil => exact absurd rfl h.ne_nil
  | cons s segs ih =>
    cases segs with
    | nil =>
      obtain ⟨rfl, hwhole⟩ := isDivision_singleton.1 h
      have hsegments := segments_of_undivided hwhole
      rw [List.append_nil] at hsegments
      rw [hsegments, segments, prependFirst, List.append_nil]
    | cons t segs =>
      obtain ⟨rest, rfl, hfirst, hjoin, hmore⟩ := isDivision_cons.1 h
      rw [segments_of_undivided hfirst, segments_of_separatesAt hseparator hjoin, prependFirst,
        List.append_nil, ← ih hmore]

/-- Every text can be divided: at its first place to divide at, and behind it as the rest is. -/
theorem exists_isDivision (hseparator : separator ≠ []) (cs : List Char) :
    ∃ segs, IsDivision separator cs segs := by
  rcases undivided_or_separatesAt separator 0 cs with
    hwhole | ⟨a, b, rfl, -, hfirst, hjoin⟩
  · exact ⟨[cs], isDivision_singleton.2 ⟨rfl, hwhole⟩⟩
  · obtain ⟨rest, rfl⟩ := hjoin.1
    have hshorter : rest.length < (a ++ (separator ++ rest)).length := by
      have := List.length_pos_iff.2 hseparator
      simp only [List.length_append]
      omega
    obtain ⟨segs, hmore⟩ := exists_isDivision hseparator rest
    obtain ⟨t, segs, rfl⟩ := List.exists_cons_of_ne_nil hmore.ne_nil
    exact ⟨a :: t :: segs, isDivision_cons.2 ⟨rest, rfl, hfirst, hjoin, hmore⟩⟩
termination_by cs.length

theorem isDivision_iff (hseparator : separator ≠ []) {cs : List Char} {segs : List (List Char)} :
    IsDivision separator cs segs ↔ segs = segments separator 0 0 cs := by
  refine ⟨IsDivision.eq_segments hseparator, ?_⟩
  rintro rfl
  obtain ⟨segs, h⟩ := exists_isDivision hseparator cs
  rwa [h.eq_segments hseparator] at h

/-! ### The count over the whole text -/

theorem intercalate_append_cons (front : List (List Char)) (s : List Char) (back : List (List Char)) :
    separator.intercalate (front ++ s :: back) =
      front.flatMap (fun p => p ++ separator) ++ s ++ following separator back := by
  induction front with
  | nil => exact intercalate_eq_flatMap separator s back
  | cons p front ih =>
    obtain ⟨t, more, hmore⟩ := List.exists_cons_of_ne_nil (l := front ++ s :: back) (by simp)
    rw [List.cons_append, hmore, intercalate_eq_flatMap, ← following, following_cons, ← hmore, ih,
      List.flatMap_cons]
    simp only [List.append_assoc]

/-- If the separator brings no bracket behind its first character, then no bracket is open at a join
when the brackets are counted from the start of the text. -/
theorem IsDivision.separatesAt (hseparator : separator ≠ [])
    (hplain : ∀ c ∈ separator.tail, isOpener c = false ∧ isCloser c = false)
    {cs : List Char} {segs : List (List Char)} (h : IsDivision separator cs segs)
    {front back : List (List Char)} {s : List Char} (hparts : segs = front ++ s :: back)
    (hback : back ≠ []) : SeparatesAt separator 0
      (front.flatMap (fun p => p ++ separator) ++ s) (following separator back) := by
  induction front generalizing cs segs with
  | nil => exact h.joins [] s back hparts hback
  | cons p front ih =>
    obtain ⟨t, more, hmore⟩ := List.exists_cons_of_ne_nil (l := front ++ s :: back) (by simp)
    rw [List.cons_append, hmore] at hparts
    subst hparts
    obtain ⟨rest, rfl, -, hjoin, htail⟩ := isDivision_cons.1 h
    have hrest : front.flatMap (fun p => p ++ separator) ++ s ++ following separator back = rest := by
      rw [← intercalate_append_cons, hmore, htail.text]
    -- the join closes all brackets, and the rest of the separator opens none
    have hzero : depthBehind 0 rest (p ++ separator) = 0 := by
      obtain ⟨d, tail, rfl⟩ := List.exists_cons_of_ne_nil hseparator
      have hcount : p ++ d :: tail = p ++ [d] ++ tail := by simp
      rw [hcount, depthBehind_append, depthBehind_of_not_bracket (a := tail) hplain]
      exact hjoin.2
    rw [List.flatMap_cons, List.append_assoc, separatesAt_append, hrest, hzero]
    exact ih htail hmore.symm

/-! ### Plain separators -/

/-- A character that is neither a bracket nor a part of an arrow nor blank. -/
structure IsPlain (c : Char) : Prop where
  not_bracket : isOpener c = false ∧ isCloser c = false
  ne_minus : c ≠ '-'
  not_blank : isBlank c = false

/-- No bracket is open where a character of a text stands. -/
def Apart (c : Char) (s : List Char) : Prop := ∀ a b, s = a ++ c :: b → depthBehind 0 [] a ≠ 0

namespace IsPlain

variable {c : Char} (hc : IsPlain c)

include hc

theorem depthBehind_eq (depth : Nat) (rest s : List Char) :
    depthBehind depth (c :: rest) s = depthBehind depth [] s := by
  apply depthBehind_congr
  simp [hc.ne_minus]

theorem separatesAt_iff {a b : List Char} :
    SeparatesAt [c] 0 a b ↔ b.head? = some c ∧ depthBehind 0 [] a = 0 := by
  rw [SeparatesAt]
  cases b with
  | nil => simp
  | cons d b =>
    rw [List.drop_one, List.tail_cons, List.take_one, List.head?_cons, Option.toList_some,
      depthBehind_append]
    constructor
    · rintro ⟨hstarts, hdepth⟩
      obtain rfl := (List.cons_prefix_cons.1 hstarts).1
      rw [depthBehind_of_not_bracket (by simpa using hc.not_bracket), List.cons_append,
        hc.depthBehind_eq] at hdepth
      exact ⟨rfl, hdepth⟩
    · rintro ⟨hd, hdepth⟩
      obtain rfl := Option.some.inj hd
      rw [depthBehind_of_not_bracket (by simpa using hc.not_bracket), List.cons_append,
        hc.depthBehind_eq]
      exact ⟨by simp, hdepth⟩

theorem undivided_iff {s rest : List Char} : Undivided [c] 0 s rest ↔ Apart c s := by
  constructor
  · intro h a b hab hdepth
    exact h a (c :: b) hab (by simp) (hc.separatesAt_iff.2 ⟨rfl, hdepth⟩)
  · intro h a b hab hb hseparates
    obtain ⟨hhead, hdepth⟩ := hc.separatesAt_iff.1 hseparates
    rw [List.head?_append_of_ne_nil _ hb] at hhead
    obtain ⟨more, rfl⟩ := List.head?_eq_some_iff.1 hhead
    exact h a more hab hdepth

/-- Around a plain character a text is divided by what its segments hold, each for itself. -/
theorem isDivision_iff {cs : List Char} {segs : List (List Char)} (hne : segs ≠ [])
    (htext : [c].intercalate segs = cs) : IsDivision [c] cs segs ↔
      (∀ s ∈ segs, Apart c s) ∧ ∀ s ∈ segs.dropLast, depthBehind 0 [] s = 0 := by
  have hlast : ∀ front s back, back ≠ [] → (front ++ s :: back : List (List Char)).dropLast =
      front ++ s :: back.dropLast := by
    intro front s back hback
    rw [List.dropLast_append_of_ne_nil (by simp), List.dropLast_cons_of_ne_nil hback]
  constructor
  · intro h
    refine ⟨fun s hs => ?_, fun s hs => ?_⟩
    · obtain ⟨front, back, hparts⟩ := List.append_of_mem hs
      exact hc.undivided_iff.1 (h.first front s back hparts)
    · obtain ⟨front, back, hparts⟩ := List.append_of_mem hs
      have hsegs : segs = front ++ s :: (back ++ [segs.getLast hne]) := by
        rw [← List.cons_append, ← List.append_assoc, ← hparts, List.dropLast_concat_getLast]
      exact (hc.separatesAt_iff.1 (h.joins front s _ hsegs (by simp))).2
  · rintro ⟨hapart, hdepth⟩
    refine ⟨hne, htext, fun front s back hparts hback => hc.separatesAt_iff.2 ⟨?_, ?_⟩,
      fun front s back hparts => hc.undivided_iff.2 (hapart s (by simp [hparts]))⟩
    · obtain ⟨t, back, rfl⟩ := List.exists_cons_of_ne_nil hback
      rw [following_cons]
      rfl
    · refine hdepth s ?_
      rw [hparts, hlast front s back hback]
      simp

end IsPlain

/-! ### Pieces put together again -/

theorem depthBehind_append_blanks {b : List Char} (hb : ∀ c ∈ b, isBlank c = true) (depth : Nat)
    (s : List Char) : depthBehind depth [] (s ++ b) = depthBehind depth [] s := by
  have hnext : ((b ++ []).head? == some '-') = (([] : List Char).head? == some '-') := by
    cases b with
    | nil => rfl
    | cons d b =>
      have hd : d ≠ '-' := by
        rintro rfl
        exact absurd (hb '-' List.mem_cons_self) (by decide)
      simpa using hd
  rw [depthBehind_append, depthBehind_of_not_bracket fun c hc => not_bracket_of_isBlank (hb c hc),
    depthBehind_congr hnext]

theorem depthBehind_blanks_append {a : List Char} (ha : ∀ c ∈ a, isBlank c = true) (depth : Nat)
    (rest s : List Char) : depthBehind depth rest (a ++ s) = depthBehind depth rest s := by
  rw [depthBehind_append, depthBehind_of_not_bracket fun c hc => not_bracket_of_isBlank (ha c hc)]

theorem depthBehind_trim (s : List Char) : depthBehind 0 [] (trim s) = depthBehind 0 [] s := by
  obtain ⟨a, b, hs, ha, hb⟩ := exists_blanks_trim s
  calc depthBehind 0 [] (trim s) = depthBehind 0 [] (a ++ trim s ++ b) := by
        rw [depthBehind_append_blanks hb, depthBehind_blanks_append ha]
    _ = depthBehind 0 [] s := by rw [← hs]

theorem Apart.trim {c : Char} {s : List Char} (h : Apart c s) : Apart c (trim s) := by
  obtain ⟨a, b, hs, ha, -⟩ := exists_blanks_trim s
  intro x y hxy hdepth
  refine h (a ++ x) (y ++ b) ?_ ?_
  · rw [hs, hxy]
    simp only [List.append_assoc, List.cons_append]
  · rwa [depthBehind_blanks_append ha]

theorem trim_trim (s : List Char) : trim (trim s) = trim s :=
  trim_eq_self (not_isBlank_head_trim s) (not_isBlank_getLast_trim s)

/-- Nothing is left to trim or to drop in the pieces of a text. -/
theorem trim_of_mem_splitTopLevel {cs p : List Char} (h : p ∈ splitTopLevel separator cs) :
    trim p = p ∧ p ≠ [] := by
  obtain ⟨hmem, hfull⟩ := List.mem_filter.1 h
  obtain ⟨s, -, rfl⟩ := List.mem_map.1 hmem
  exact ⟨trim_trim s, by simpa using hfull⟩

/-- What is not the last of some items in a list is not the last of the list. -/
theorem dropLast_sublist_dropLast {α : Type} {l l' : List α} (h : l.Sublist l') :
    l.dropLast.Sublist l'.dropLast := by
  have hreverse := h.reverse.tail.reverse
  rwa [List.tail_reverse, List.tail_reverse, List.reverse_reverse, List.reverse_reverse] at hreverse

/-- Pieces put together again around a plain character are divided into the same pieces: but for the
last, each of them closes its brackets, since trimming and dropping pieces opens none. -/
theorem IsPlain.splitTopLevel_intercalate {c : Char} (hc : IsPlain c) (cs : List Char) :
    splitTopLevel [c] ([c].intercalate (splitTopLevel [c] cs)) = splitTopLevel [c] cs := by
  have hdivision : IsDivision [c] cs (segments [c] 0 0 cs) :=
    (Layout.isDivision_iff (List.cons_ne_nil c [])).2 rfl
  obtain ⟨hapart, hdepth⟩ := (hc.isDivision_iff hdivision.ne_nil hdivision.text).1 hdivision
  by_cases hnone : splitTopLevel [c] cs = []
  · rw [hnone]
    rfl
  -- the pieces are a division of their own text, and there is only one
  have hpieces : IsDivision [c] ([c].intercalate (splitTopLevel [c] cs)) (splitTopLevel [c] cs) := by
    refine (hc.isDivision_iff hnone rfl).2 ⟨fun p hp => ?_, fun p hp => ?_⟩
    · obtain ⟨s, hs, rfl⟩ := List.mem_map.1 (List.mem_of_mem_filter hp)
      exact (hapart s hs).trim
    · have hp' := (dropLast_sublist_dropLast List.filter_sublist).subset hp
      rw [← List.map_dropLast] at hp'
      obtain ⟨s, hs, rfl⟩ := List.mem_map.1 hp'
      rw [depthBehind_trim]
      exact hdepth s hs
  have htrim : (splitTopLevel [c] cs).map trim = splitTopLevel [c] cs :=
    (List.map_congr_left fun p hp => (trim_of_mem_splitTopLevel hp).1).trans (List.map_id _)
  have hfull : (splitTopLevel [c] cs).filter (fun p => !p.isEmpty) = splitTopLevel [c] cs :=
    List.filter_eq_self.2 fun p hp => by simpa using (trim_of_mem_splitTopLevel hp).2
  calc splitTopLevel [c] ([c].intercalate (splitTopLevel [c] cs))
      = ((splitTopLevel [c] cs).map trim).filter fun p => !p.isEmpty := by
        rw [splitTopLevel, ← hpieces.eq_segments (List.cons_ne_nil c [])]
    _ = splitTopLevel [c] cs := by rw [htrim, hfull]

/-- A text can be divided by a separator in exactly one way, and the pieces that it is split into are
those segments, trimmed, without the empty ones. Unless the separator has a bracket behind its first
character, the brackets may as well be counted from the start of the text. Around a plain character
pieces that are put together again are split into the same pieces. -/
theorem exists_division (separator cs : List Char) (hseparator : separator ≠ []) :
    ∃ segs, (∀ other, IsDivision separator cs other ↔ other = segs) ∧
      splitTopLevel separator cs = (segs.map trim).filter (fun piece => !piece.isEmpty) ∧
      ((∀ c ∈ separator.tail, isOpener c = false ∧ isCloser c = false) →
        ∀ front s back, segs = front ++ s :: back → back ≠ [] →
          SeparatesAt separator 0 (front.flatMap (fun p => p ++ separator) ++ s)
            (following separator back)) ∧
      ∀ c, separator = [c] → isOpener c = false → isCloser c = false → c ≠ '-' → isBlank c = false →
        splitTopLevel separator (separator.intercalate (splitTopLevel separator cs)) =
          splitTopLevel separator cs := by
  refine ⟨segments separator 0 0 cs, fun other => isDivision_iff hseparator, rfl,
    fun hplain front s back hparts hback => ?_, ?_⟩
  · exact IsDivision.separatesAt hseparator hplain ((isDivision_iff hseparator).2 rfl) hparts hback
  · rintro c rfl hopener hcloser hminus hblank
    exact IsPlain.splitTopLevel_intercalate ⟨⟨hopener, hcloser⟩, hminus, hblank⟩ cs

/-- A separator of two colons, and the comma. -/
theorem exists_division_colons : "::".toList ≠ [] ∧ (∃ segs, (∀ other,
      IsDivision "::".toList "N<A::B>::Add(x)::".toList other ↔ other = segs) ∧
      splitTopLevel "::".toList "N<A::B>::Add(x)::".toList =
        (segs.map trim).filter (fun piece => !piece.isEmpty)) ∧
    splitTopLevel [','] ([','].intercalate (splitTopLevel [','] "a, (b, c),, ]d".toList)) =
      splitTopLevel [','] "a, (b, c),, ]d".toList := by
  obtain ⟨segs, hdivision, hsplit, -, -⟩ :=
    exists_division "::".toList "N<A::B>::Add(x)::".toList (by decide)
  obtain ⟨-, -, -, -, hagain⟩ := exists_division [','] "a, (b, c),, ]d".toList (by decide)
  exact ⟨by decide, ⟨segs, hdivision, hsplit⟩, hagain ',' rfl rfl rfl (by decide) rfl⟩

end Hql.Layout
