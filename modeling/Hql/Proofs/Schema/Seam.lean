import Hql.Proofs.Schema.State

/-!
Reading in pieces. No token runs over a line feed, and none that starts among names and blanks runs
over a colon: what stands before such a seam is read without regard to what stands after it.
-/

namespace Hql.Schema

open Text

/-- A character that no token which starts in the text before it runs over. -/
def Seam (before : List Char) (c : Char) : Prop :=
  c = '\n' ∨ c = ':' ∧ ∀ x ∈ before, isIdentChar x = true ∨ isLayoutChar x = true

theorem Seam.of_suffix {a a' : List Char} {c : Char} (h : Seam a c) (hs : a' <:+ a) : Seam a' c :=
  h.imp_right fun h => ⟨h.1, fun x hx => h.2 x (hs.subset hx)⟩

theorem Seam.apart {a : List Char} {c : Char} (h : Seam a c) (b : List Char) :
    Apart (c :: b) := by
  intro d hd
  obtain rfl : c = d := by simpa using hd
  rcases h with rfl | ⟨rfl, -⟩ <;> decide

theorem Seam.quoted? {a : List Char} {c : Char} (h : Seam a c) (hne : a ≠ []) (b : List Char) :
    quoted? (a ++ c :: b) = (quoted? a).map fun x => (x.1, x.2 ++ c :: b) := by
  rcases h with rfl | ⟨rfl, h⟩
  · exact quoted?_newline a b
  · obtain ⟨x, a, rfl⟩ := List.exists_cons_of_ne_nil hne
    have hx : x ≠ '"' := by
      rintro rfl
      exact absurd (h '"' (by simp)) (by decide)
    have hhead (s : List Char) : '"' ∉ (x :: s).head? := by
      intro hq
      exact hx (by simpa using hq)
    rw [quoted?_eq_none (hhead a), List.cons_append, quoted?_eq_none (hhead _), Option.map_none]

theorem Mark.newline_not_mem (m : Mark) : '\n' ∉ m.text.toList := by cases m <;> decide

theorem Mark.head_of_colon_mem {m : Mark} (h : ':' ∈ m.text.toList) :
    m.text.toList.head? = some ':' := by
  revert h
  cases m <;> decide

theorem Seam.isPrefixOf {a : List Char} {c : Char} (h : Seam a c) (hne : a ≠ []) (b : List Char)
    (m : Mark) : m.text.toList.isPrefixOf (a ++ c :: b) = m.text.toList.isPrefixOf a := by
  rw [Bool.eq_iff_iff, List.isPrefixOf_iff_prefix, List.isPrefixOf_iff_prefix]
  constructor
  · intro hp
    by_contra hnot
    -- a mark that is no prefix of the text before the seam holds the seam
    have hlong : (a ++ [c]).length ≤ m.text.toList.length := by
      by_contra hlt
      apply hnot
      apply List.prefix_of_prefix_length_le hp (List.prefix_append a _)
      rw [List.length_append, List.length_singleton] at hlt
      omega
    have hseam : a ++ [c] <+: m.text.toList := by
      refine List.prefix_of_prefix_length_le ?_ hp hlong
      exact ⟨b, by simp⟩
    have hc : c ∈ m.text.toList := hseam.subset (by simp)
    rcases h with rfl | ⟨rfl, h⟩
    · exact m.newline_not_mem hc
    · obtain ⟨x, a, rfl⟩ := List.exists_cons_of_ne_nil hne
      obtain ⟨more, hmore⟩ := hseam
      have hx : x = ':' := by
        have hhead := Mark.head_of_colon_mem hc
        rw [← hmore] at hhead
        simpa using hhead
      exact absurd (h x (by simp)) (by rw [hx]; decide)
  · exact fun hp => hp.trans (List.prefix_append a _)

/-- The same token with more text after it. -/
def Found.extend (f : Found) (more : List Char) : Found := { f with rest := f.rest ++ more }

theorem Place.take_extend (p : Place) (t : Terminal) (x : List Char × List Char)
    (more : List Char) : p.take t (x.1, x.2 ++ more) = (p.take t x).map (·.extend more) := by
  simp only [Place.take, Option.map_map]
  rfl

theorem Place.find_seam {a : List Char} {c : Char} (h : Seam a c) (hne : a ≠ []) (b : List Char)
    (p : Place) : p.find (a ++ c :: b) = (p.find a).map (·.extend (c :: b)) := by
  -- none of the four ways to find a token looks past the seam
  have hname : p.findName (a ++ c :: b) = (p.findName a).map (·.extend (c :: b)) := by
    rw [Place.findName, Place.findName, name?_append a (h.apart b).endsName]
    cases name? a with
    | none => rfl
    | some x =>
      simp only [Option.map_some, Option.bind_eq_bind, Option.bind_some]
      cases p.markOf? x.1 with
      | none => exact p.take_extend .name x _
      | some m => exact p.take_extend (.mark m) x _
  have hquoted : p.findQuoted (a ++ c :: b) = (p.findQuoted a).map (·.extend (c :: b)) := by
    rw [Place.findQuoted, Place.findQuoted, h.quoted? hne b]
    cases Schema.quoted? a with
    | none => rfl
    | some x => exact p.take_extend .quoted x _
  have hnumber : p.findNumber (a ++ c :: b) = (p.findNumber a).map (·.extend (c :: b)) := by
    rw [Place.findNumber, Place.findNumber, number?_append a (h.apart b)]
    cases number? a with
    | none => rfl
    | some x => exact p.take_extend .number x _
  have hmark : p.findMark (a ++ c :: b) = (p.findMark a).map (·.extend (c :: b)) := by
    simp only [Place.findMark, Place.leadingMark?, h.isPrefixOf hne b]
    cases hm : Mark.all.find? fun m => p.accepts (.mark m) && m.text.toList.isPrefixOf a with
    | none => rfl
    | some m =>
      obtain ⟨hfound, -⟩ := List.find?_eq_some_iff_append.1 hm
      have hp := (Bool.and_eq_true_iff.1 hfound).2
      have hlen := (List.isPrefixOf_iff_prefix.1 hp).length_le
      simp only [fixed?, h.isPrefixOf hne b, hp, if_true, Option.bind_eq_bind, Option.bind_some,
        List.drop_append_of_le_length hlen]
      exact p.take_extend (.mark m) (m.text.toList, a.drop m.text.toList.length) _
  rw [Place.find, Place.find, hname, hquoted, hnumber, hmark]
  split
  · cases p.findName a <;> cases p.findQuoted a <;> cases p.findNumber a <;> rfl
  · cases p.findQuoted a <;> cases p.findNumber a <;> rfl

/-! ### Layout at a seam -/

theorem skipLayout_newline (inComment : Bool) (a b : List Char) :
    skipLayout inComment (a ++ '\n' :: b) =
      if skipLayout inComment a = [] then skipLayout false b
      else skipLayout inComment a ++ '\n' :: b := by
  induction a generalizing inComment with
  | nil => cases inComment <;> simp [skipLayout, isLayoutChar]
  | cons c a ih =>
    have hhead : ((a ++ '\n' :: b).head? == some '/') = (a.head? == some '/') := by
      cases a <;> rfl
    rw [List.cons_append, skipLayout, skipLayout, hhead]
    split
    · exact ih _
    · split
      · exact ih _
      · split
        · exact ih _
        · simp

theorem skipLayout_colon {a : List Char}
    (h : ∀ x ∈ a, isIdentChar x = true ∨ isLayoutChar x = true) (b : List Char) :
    skipLayout false (a ++ ':' :: b) =
      if skipLayout false a = [] then ':' :: b else skipLayout false a ++ ':' :: b := by
  induction a with
  | nil => simp [skipLayout, isLayoutChar]
  | cons c a ih =>
    have hc : c ≠ '/' := by
      rintro rfl
      exact absurd (h '/' (by simp)) (by decide)
    have hslash : (c == '/') = false := beq_eq_false_iff_ne.2 hc
    rw [List.cons_append, skipLayout, skipLayout, hslash]
    simp only [Bool.false_eq_true, if_false, Bool.false_and]
    split
    · exact ih fun x hx => h x (List.mem_cons_of_mem c hx)
    · simp

theorem Seam.skipLayout {a : List Char} {c : Char} (h : Seam a c) (b : List Char) :
    skipLayout false (a ++ c :: b) =
      if skipLayout false a = [] then skipLayout false (c :: b)
      else skipLayout false a ++ c :: b := by
  rcases h with rfl | ⟨rfl, h⟩
  · rw [skipLayout_newline]
    rfl
  · rw [skipLayout_colon h]
    rfl

/-! ### Reading up to a seam -/

namespace State

theorem advance_congr {s : State} {cs cs' : List Char}
    (h : skipLayout false cs = skipLayout false cs') : s.advance cs = s.advance cs' := by
  by_cases hnil : skipLayout false cs = []
  · rw [advance_of_layout hnil, advance_of_layout (h ▸ hnil)]
  · cases hf : s.place.find (skipLayout false cs) with
    | none => rw [advance_of_find_none hnil hf, advance_of_find_none (h ▸ hnil) (h ▸ hf)]
    | some f => rw [advance_of_find hf, advance_of_find (h ▸ hf)]

theorem advance_seam (s : State) {a : List Char} {c : Char} (h : Seam a c) (b : List Char) :
    s.advance (a ++ c :: b) = (s.advance a).bind fun t => t.advance (c :: b) := by
  -- token by token, and what is left before the seam is a suffix, so the seam stays one
  induction hn : a.length using Nat.strong_induction_on generalizing s a with
  | _ n ih =>
    have hskip := h.skipLayout b
    by_cases hnil : Schema.skipLayout false a = []
    · rw [if_pos hnil] at hskip
      rw [advance_of_layout hnil, advance_congr hskip, Option.bind_some]
    · rw [if_neg hnil] at hskip
      have hbody : Seam (Schema.skipLayout false a) c := h.of_suffix (skipLayout_suffix false a)
      have hfind := Place.find_seam hbody hnil b s.place
      rw [← hskip] at hfind
      cases hf : s.place.find (Schema.skipLayout false a) with
      | none =>
        have hne : Schema.skipLayout false (a ++ c :: b) ≠ [] := by simp [hskip]
        rw [hf] at hfind
        rw [advance_of_find_none hnil hf, advance_of_find_none hne hfind, Option.bind_none]
      | some f =>
        have hrest : f.rest <:+ a := (rest_suffix hf).trans (skipLayout_suffix false a)
        have hlen : f.rest.length < n := hn ▸ Place.find_skipLayout_rest_length hf
        rw [hf] at hfind
        have haccept : s.accept (f.extend (c :: b)) = s.accept f := rfl
        rw [advance_of_find hf, advance_of_find hfind, haccept, Option.bind_assoc]
        congr 1
        funext next
        exact ih f.rest.length hlen next (h.of_suffix hrest) rfl

/-- Lines are read one after another. -/
theorem advance_newline (s : State) (a b : List Char) :
    s.advance (a ++ '\n' :: b) = (s.advance a).bind fun t => t.advance b := by
  rw [advance_seam s (.inl rfl)]
  exact congrArg (s.advance a).bind (funext fun t => advance_congr rfl)

end State

end Hql.Schema
