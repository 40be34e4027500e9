import Hql.Proofs.Layout.Respelling
import Hql.Proofs.Layout.Collapsed

/-!
The shape of code: one sign for each word, arrow and mark. Which brackets are open, where braces close
and where commas divide is told from the shape, so tidying leaves all of it as it is.
-/

namespace Hql.Layout

open Text

/-! ### Pieces of a text -/

/-- The pieces of a text, with the separators between them, are the text. -/
theorem intercalate_segments {separator : List Char} (hseparator : separator ≠ [])
    (depth skip : Nat) (cs : List Char) :
    separator.intercalate (segments separator depth skip cs) = cs.drop skip := by
  induction cs generalizing depth skip with
  | nil => cases skip <;> simp [segments]
  | cons c cs ih =>
    cases skip with
    | succ skip => rw [segments, ih, List.drop_succ_cons]
    | zero =>
      rw [segments, List.drop_zero]
      obtain ⟨p, ps, hp⟩ := List.exists_cons_of_ne_nil
        (segments_ne_nil separator (depthAfter depth c cs) (separator.length - 1) cs)
      split
      · rename_i hcut
        obtain ⟨rest, hrest⟩ := List.isPrefixOf_iff_prefix.1 (Bool.and_eq_true_iff.1 hcut).2
        -- the rest of the separator is skipped
        have hlen : separator.length - 1 + 1 = separator.length := by
          have := List.length_pos_iff.2 hseparator
          omega
        have hmore : rest = cs.drop (separator.length - 1) := by
          have hdrop := congrArg (List.drop separator.length) hrest
          rwa [List.drop_left, ← hlen, List.drop_succ_cons] at hdrop
        have hpieces := ih (depthAfter depth c cs) (separator.length - 1)
        rw [hp] at hpieces ⊢
        rw [List.intercalate_cons_cons, hpieces, List.nil_append, ← hmore, hrest]
      · have hpieces := ih (depthAfter depth c cs) 0
        obtain ⟨q, qs, hq⟩ := List.exists_cons_of_ne_nil
          (segments_ne_nil separator (depthAfter depth c cs) 0 cs)
        rw [hq, List.drop_zero] at hpieces
        rw [hq, consFirst, ← hpieces]
        cases qs <;> simp [List.intercalate]

theorem segments_of_eq_singleton {separator cs p : List Char} (hseparator : separator ≠ [])
    (h : segments separator 0 0 cs = [p]) : p = cs := by
  have hpieces := intercalate_segments hseparator 0 0 cs
  rw [h] at hpieces
  simpa using hpieces

/-- No element of a list is empty. A text without a separator is no list. -/
def Filled (separator cs : List Char) : Prop :=
  2 ≤ (segments separator 0 0 cs).length → ∀ piece ∈ segments separator 0 0 cs, trim piece ≠ []

instance (separator cs : List Char) : Decidable (Filled separator cs) :=
  inferInstanceAs (Decidable (_ → _))

/-- The contents of the outermost braces of a text, up to a brace that is not closed. -/
def braced (cs : List Char) : List (List Char) :=
  match cs with
  | [] => []
  | c :: cs =>
    if c = '\x7b' then
      match _h : untilBrace? 0 cs with
      | some (content, rest) => content :: braced rest
      | none => []
    else braced cs
termination_by cs.length
decreasing_by
  · have := congrArg List.length (untilBrace?_eq_some _h)
    simp only [List.length_append, List.length_cons] at this ⊢
    omega
  · exact Nat.lt_succ_self _

theorem braced_of_until {cs content rest : List Char} (h : untilBrace? 0 cs = some (content, rest)) :
    braced ('\x7b' :: cs) = content :: braced rest := by
  rw [braced, if_pos rfl]
  split
  · rename_i h'
    obtain ⟨rfl, rfl⟩ := Prod.mk.inj (Option.some.inj (h'.symm.trans h))
    rfl
  · rename_i h'
    rw [h] at h'
    cases h'

theorem braced_of_not_until {cs : List Char} (h : untilBrace? 0 cs = none) :
    braced ('\x7b' :: cs) = [] := by
  rw [braced, if_pos rfl]
  split
  · rename_i h'
    rw [h] at h'
    cases h'
  · rfl

theorem braced_cons {c : Char} (hc : c ≠ '\x7b') (cs : List Char) : braced (c :: cs) = braced cs := by
  rw [braced, if_neg hc]

/-! ### Signs -/

/-- The sign of a word, arrow or mark. Words have one sign, the arrow `<-` has that of no bracket, and
any other `<` has that of a bracket which opens whatever follows it. -/
def sign : List Char → Char
  | [] => ' '
  | [c] => if isWordChar c then 'w' else if c = '<' then '(' else c
  | c :: _ :: _ => if c = '<' then '-' else 'w'

/-- The signs of the words, arrows and marks of a text. -/
def shape (cs : List Char) : List Char := (atoms cs).map sign

theorem sign_word {w : List Char} (hw : isWord w = true) : sign w = 'w' := by
  match w with
  | [] => cases hw
  | [c] => rw [sign, if_pos (isWordChar_of_isIdentStart hw)]
  | c :: _ :: _ =>
    have hless : c ≠ '<' := by
      rintro rfl
      have hstart : isIdentStart '<' = true := hw
      exact absurd hstart (by decide)
    rw [sign, if_neg hless]

/-- Tidying code keeps its shape. -/
theorem shape_tidyCode (cs : List Char) : shape (tidyCode cs) = shape cs := by
  have hsigns {as bs : List (List Char)} (h : List.Forall₂ Respelled as bs) :
      bs.map sign = as.map sign := by
    induction h with
    | nil => rfl
    | cons h _ ih =>
      rw [List.map_cons, List.map_cons, ih]
      rcases h with rfl | h
      · rfl
      · rw [sign_word h.starts, sign_word h.starts']
  exact hsigns (atoms_tidyCode cs)

theorem exists_atoms_cons {c : Char} (hc : isBlank c = false) (cs : List Char) :
    ∃ a more, atoms (c :: cs) = (c :: a) :: more := by
  rw [atoms, hc, if_neg (by decide)]
  split
  · cases atoms cs with
    | nil => exact ⟨[], [], rfl⟩
    | cons a more => exact ⟨a, more, rfl⟩
  · exact ⟨[], atoms cs, rfl⟩

/-- A character adds a sign unless it is blank or belongs together with the next one. -/
theorem shape_cons (c : Char) (cs : List Char) : shape (c :: cs) =
    if isBlank c || cs.head?.any (holds c) then shape cs else sign [c] :: shape cs := by
  rw [shape, shape, atoms]
  cases isBlank c with
  | true => rfl
  | false =>
    rw [if_neg (by decide), Bool.false_or]
    split
    · rename_i hholds
      cases cs with
      | nil => cases hholds
      | cons d cs =>
        -- a character in front of the rest of its word, and the head of an arrow
        rcases Bool.or_eq_true_iff.1 hholds with hwords | harrow
        · obtain ⟨hc, hd⟩ := Bool.and_eq_true_iff.1 hwords
          obtain ⟨a, more, hatoms⟩ := exists_atoms_cons (not_isBlank_of_isWordChar hd) cs
          have hless {x : Char} (hx : isWordChar x = true) : x ≠ '<' := by
            rintro rfl
            exact absurd hx (by decide)
          have hsign : sign (d :: a) = 'w' := by
            cases a with
            | nil => rw [sign, if_pos hd]
            | cons e a => rw [sign, if_neg (hless hd)]
          rw [hatoms, consFirst, List.map_cons, List.map_cons, hsign, sign, if_neg (hless hc)]
        · obtain ⟨hc, hd⟩ := Bool.and_eq_true_iff.1 harrow
          obtain rfl := beq_iff_eq.1 hc
          obtain rfl := beq_iff_eq.1 hd
          have hminus : atoms ('-' :: cs) = ['-'] :: atoms cs :=
            atoms_mark (by decide) (by decide) fun heq => absurd heq.1 (by decide)
          rw [hminus]
          rfl
    · rfl

theorem shape_eq_nil_iff (cs : List Char) : shape cs = [] ↔ trim cs = [] := by
  have hatoms : atoms cs = [] ↔ ∀ c ∈ cs, isBlank c = true := by
    induction cs with
    | nil => simp [atoms]
    | cons c cs ih =>
      cases hc : isBlank c with
      | true => rw [atoms_blank hc, ih, List.forall_mem_cons, hc, eq_self, true_and]
      | false =>
        obtain ⟨a, more, hmore⟩ := exists_atoms_cons hc cs
        simp [hmore, hc]
  rw [shape, List.map_eq_nil_iff, hatoms]
  refine ⟨trim_eq_nil, fun hnil c hc => ?_⟩
  have hline : isBlankLine cs = true := by rw [isBlankLine, hnil]; rfl
  by_contra hblank
  rw [isBlankLine_eq_false hc (Bool.eq_false_iff.2 hblank)] at hline
  cases hline

/-! ### What the shape tells -/

/-- What stands at the start of a text stands at the start of its front, if what follows the front
belongs together with nothing before it. -/
theorem any_holds_front {d : Char} (hd : ∀ c, holds c d = false) (front rest : List Char) (c : Char) :
    (front ++ d :: rest).head?.any (holds c) = front.head?.any (holds c) := by
  cases front with
  | nil => exact hd c
  | cons e front => rfl

theorem not_brace_of_holds {c : Char} {cs : List Char}
    (h : (isBlank c || cs.head?.any (holds c)) = true) :
    c ≠ '\x7b' ∧ c ≠ '\x7d' ∧ c ≠ ',' := by
  have hne {x : Char} (hblank : isBlank x = false) (hx : ∀ d, holds x d = false) : c ≠ x := by
    rintro rfl
    rw [hblank, Bool.false_or] at h
    cases cs with
    | nil => cases h
    | cons d cs =>
      have hd : holds c d = true := h
      rw [hx d] at hd
      cases hd
  have hmark {x : Char} (hword : isWordChar x = false) (hless : x ≠ '<') (d : Char) :
      holds x d = false := holds_mark hword hless d
  exact ⟨hne (by decide) (hmark (by decide) (by decide)),
    hne (by decide) (hmark (by decide) (by decide)), hne (by decide) (hmark (by decide) (by decide))⟩

/-- The sign of a character is a brace or a comma if the character is. -/
theorem sign_eq_iff {c d : Char} (hword : isWordChar d = false) (hd : d ≠ '(') (hless : d ≠ '<') :
    sign [c] = d ↔ c = d := by
  have hw : 'w' ≠ d := by
    rintro rfl
    exact absurd hword (by decide)
  rw [sign]
  split
  · rename_i hc
    refine iff_of_false hw ?_
    rintro rfl
    rw [hword] at hc
    cases hc
  · split
    · rename_i heq
      subst heq
      exact iff_of_false hd.symm hless.symm
    · rfl

/-- Braces close at the same places in a text and in its shape. -/
theorem untilBrace?_shape (depth : Nat) (cs : List Char) : untilBrace? depth (shape cs) =
    (untilBrace? depth cs).map fun p => (shape p.1, shape p.2) := by
  induction cs generalizing depth with
  | nil => rfl
  | cons c cs ih =>
    -- a character put in front of a text up to its brace adds the sign that it adds to the whole text
    have hfront {depth : Nat} {p : List Char × List Char} (hp : untilBrace? depth cs = some p) :
        p.1.head?.any (holds c) = cs.head?.any (holds c) := by
      rw [← untilBrace?_eq_some hp, any_holds_front (mark_holds (by decide) (by decide))]
    rw [shape_cons]
    split
    · rename_i hskip
      obtain ⟨hopen, hclose, -⟩ := not_brace_of_holds hskip
      rw [ih, untilBrace?, if_neg hopen, if_neg hclose, Option.map_map]
      refine Option.map_congr fun p hp => ?_
      rw [Function.comp_apply, shape_cons c p.1, hfront hp, if_pos hskip]
    · rename_i hsign
      have hcons {depth : Nat} : (untilBrace? depth (shape cs)).map (fun p => (sign [c] :: p.1, p.2)) =
          ((untilBrace? depth cs).map fun p => (c :: p.1, p.2)).map fun p => (shape p.1, shape p.2) := by
        rw [ih, Option.map_map, Option.map_map]
        refine Option.map_congr fun p hp => ?_
        rw [Function.comp_apply, Function.comp_apply, shape_cons c p.1, hfront hp, if_neg hsign]
      have hopen : sign [c] = '\x7b' ↔ c = '\x7b' := sign_eq_iff (by decide) (by decide) (by decide)
      have hclose : sign [c] = '\x7d' ↔ c = '\x7d' := sign_eq_iff (by decide) (by decide) (by decide)
      simp only [untilBrace?, hopen, hclose]
      split
      · exact hcons
      · split
        · split
          · rfl
          · exact hcons
        · exact hcons

theorem shape_brace (cs : List Char) : shape ('\x7b' :: cs) = '\x7b' :: shape cs := by
  have hsign : ¬ (isBlank '\x7b' || cs.head?.any (holds '\x7b')) = true :=
    fun hskip => (not_brace_of_holds hskip).1 rfl
  rw [shape_cons, if_neg hsign]
  rfl

/-- Outermost braces enclose the same in a text and in its shape. -/
theorem braced_shape (cs : List Char) : braced (shape cs) = (braced cs).map shape := by
  fun_induction braced cs with
  | case1 => simp [shape, atoms, braced]
  | case2 cs content rest h ih =>
    have huntil : untilBrace? 0 (shape cs) = some (shape content, shape rest) := by
      rw [untilBrace?_shape, h]
      rfl
    rw [shape_brace, braced_of_until huntil, ih, List.map_cons]
  | case3 cs h =>
    have huntil : untilBrace? 0 (shape cs) = none := by
      rw [untilBrace?_shape, h]
      rfl
    rw [shape_brace, braced_of_not_until huntil]
    rfl
  | case4 c cs hc ih =>
    rw [shape_cons]
    split
    · exact ih
    · have hsign : sign [c] ≠ '\x7b' := mt (sign_eq_iff (by decide) (by decide) (by decide)).1 hc
      rw [braced_cons hsign, ih]

/-- Brackets are open at the same places in a text and in its shape. -/
theorem depthAfter_shape {c : Char} {cs : List Char} (h : ¬ (isBlank c || cs.head?.any (holds c)) = true)
    (depth : Nat) : depthAfter depth (sign [c]) (shape cs) = depthAfter depth c cs := by
  by_cases hword : isWordChar c = true
  · obtain ⟨hopen, hclose⟩ := not_bracket_of_isWordChar hword
    have hsign : sign [c] = 'w' := by rw [sign, if_pos hword]
    rw [hsign, depthAfter, depthAfter, hopen, hclose]
    rfl
  · rw [sign, if_neg hword]
    split
    · rename_i hless
      subst hless
      have harrow : (cs.head? == some '-') = false := by
        rw [beq_eq_false_iff_ne]
        intro hhead
        rw [hhead] at h
        exact h rfl
      rw [depthAfter, depthAfter, harrow]
      rfl
    · rename_i hless
      rw [depthAfter, depthAfter, beq_eq_false_iff_ne.2 hless, Bool.false_and, Bool.false_and]

/-- No bracket opens or closes at a character that adds no sign. -/
theorem depthAfter_of_holds {c : Char} {cs : List Char}
    (h : (isBlank c || cs.head?.any (holds c)) = true) (depth : Nat) : depthAfter depth c cs = depth := by
  rcases Bool.or_eq_true_iff.1 h with hblank | hholds
  · obtain ⟨hopen, hclose⟩ := not_bracket_of_isBlank hblank
    rw [depthAfter, hopen, hclose]
    rfl
  · cases cs with
    | nil => cases hholds
    | cons d cs =>
      rcases Bool.or_eq_true_iff.1 hholds with hwords | harrow
      · obtain ⟨hopen, hclose⟩ := not_bracket_of_isWordChar (Bool.and_eq_true_iff.1 hwords).1
        rw [depthAfter, hopen, hclose]
        rfl
      · obtain ⟨hc, hd⟩ := Bool.and_eq_true_iff.1 harrow
        obtain rfl := beq_iff_eq.1 hc
        obtain rfl := beq_iff_eq.1 hd
        rfl

theorem isPrefixOf_comma (c : Char) (cs : List Char) : [','].isPrefixOf (c :: cs) = (c == ',') := by
  rw [List.isPrefixOf, List.isPrefixOf, Bool.and_true, Bool.beq_comm]

/-- Commas divide at the same places in a text and in its shape. -/
theorem segments_shape (depth : Nat) (cs : List Char) :
    segments [','] depth 0 (shape cs) = (segments [','] depth 0 cs).map shape := by
  induction cs generalizing depth with
  | nil => rfl
  | cons c cs ih =>
    -- what stands behind a character stands at the start of the first piece of the rest
    have hfront (depth : Nat) : ∃ p ps, segments [','] depth 0 cs = p :: ps ∧
        p.head?.any (holds c) = cs.head?.any (holds c) := by
      obtain ⟨p, ps, hp⟩ := List.exists_cons_of_ne_nil (segments_ne_nil [','] depth 0 cs)
      refine ⟨p, ps, hp, ?_⟩
      have hpieces : [','].intercalate (segments [','] depth 0 cs) = cs.drop 0 :=
        intercalate_segments (by decide) depth 0 cs
      rw [hp, List.drop_zero] at hpieces
      rw [← hpieces]
      cases ps with
      | nil => rw [List.intercalate_singleton]
      | cons q ps =>
        rw [List.intercalate_cons_cons, List.append_assoc, List.singleton_append,
          any_holds_front (mark_holds (by decide) (by decide))]
    rw [shape_cons]
    split
    · -- without a sign of its own a character is no bracket and no comma
      rename_i hskip
      obtain ⟨-, -, hc⟩ := not_brace_of_holds hskip
      have hdepth : depthAfter depth c cs = depth := depthAfter_of_holds hskip depth
      obtain ⟨p, ps, hp, hhead⟩ := hfront depth
      have hcut : depth = 0 → ¬ [','].isPrefixOf (c :: cs) = true := fun _ => by
        rw [isPrefixOf_comma, beq_iff_eq]
        exact hc
      rw [ih, segments_cons hdepth hcut, hp, prependFirst, List.map_cons, List.map_cons,
        List.singleton_append, shape_cons c p, hhead, if_pos hskip]
    · rename_i hsign
      obtain ⟨p, ps, hp, hhead⟩ := hfront (depthAfter depth c cs)
      have hcomma : sign [c] = ',' ↔ c = ',' := sign_eq_iff (by decide) (by decide) (by decide)
      have hdepth : depthAfter depth (sign [c]) (shape cs) = depthAfter depth c cs :=
        depthAfter_shape hsign depth
      rw [segments, segments, hdepth, isPrefixOf_comma, isPrefixOf_comma]
      by_cases hcut : depthAfter depth c cs = 0 ∧ c = ','
      · have hc : (sign [c] == ',') = true := beq_iff_eq.2 (hcomma.2 hcut.2)
        rw [hc, hcut.1, beq_iff_eq.2 hcut.2]
        exact congrArg ([] :: ·) (ih 0)
      · have hno {b : Bool} (hb : b = true ↔ c = ',') :
            ¬ (decide (depthAfter depth c cs = 0) && b) = true := by
          rw [Bool.and_eq_true_iff, decide_eq_true_eq, hb]
          exact hcut
        rw [if_neg (hno (beq_iff_eq.trans hcomma)), if_neg (hno beq_iff_eq), ih, hp, consFirst,
          List.map_cons, List.map_cons, shape_cons c p, hhead, if_neg hsign]
        rfl

end Hql.Layout
