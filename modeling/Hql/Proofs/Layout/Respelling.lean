import Hql.Proofs.Layout.Literal
import Hql.Proofs.Text.Case
import Mathlib.Data.List.Forall2
import Mathlib.Data.Option.Basic

/-!
What tidying leaves of a text. Code is read as its words, arrows and single marks: spacing keeps them
all, and spelling changes reserved words only, each into another spelling of itself. Main statement:
up to blanks and case a tidied text is the text as it was, comments stay as they are, and so does
every word that is not reserved.
-/

namespace Hql.Layout

open Text

/-- The characters of a text in upper case, without its blanks. -/
def letters (cs : List Char) : List Char := upper (withoutBlanks cs)

@[simp] theorem letters_nil : letters [] = [] := rfl

@[simp] theorem letters_append (a b : List Char) : letters (a ++ b) = letters a ++ letters b := by
  simp [letters, withoutBlanks]

theorem letters_cons (c : Char) (cs : List Char) : letters (c :: cs) = letters [c] ++ letters cs :=
  letters_append [c] cs

theorem letters_blanks {cs : List Char} (h : ∀ c ∈ cs, isBlank c = true) : letters cs = [] := by
  have hnone : withoutBlanks cs = [] := List.filter_eq_nil_iff.2 fun c hc => by simp [h c hc]
  rw [letters, hnone]
  rfl

theorem letters_blank {c : Char} (hc : isBlank c = true) (cs : List Char) :
    letters (c :: cs) = letters cs := by
  rw [letters_cons, letters_blanks (by simpa using hc), List.nil_append]

/-- The letters of a text are its upper-case form without blanks. -/
theorem withoutBlanks_upper (cs : List Char) : withoutBlanks (upper cs) = letters cs := by
  induction cs with
  | nil => rfl
  | cons c cs ih =>
    rw [upper_cons, letters_cons, ← ih, withoutBlanks, List.filter_append]
    congr 1
    cases hc : isBlank c with
    | true =>
      rw [(case_of_isBlank hc).1, letters_blanks (by simpa using hc), List.filter_cons_of_neg (by simp [hc]),
        List.filter_nil]
    | false =>
      have hkept : (upperChar c).filter (fun d => !isBlank d) = upperChar c :=
        List.filter_eq_self.2 fun d hd => by rw [not_isBlank_of_mem_upperChar hc hd]; rfl
      rw [hkept, letters, withoutBlanks, List.filter_cons_of_pos (by simp [hc])]
      exact (List.append_nil _).symm

/-! ### Words, arrows and marks -/

/-- Two characters that belong together: within a word, or as the arrow `<-`. -/
def holds (c d : Char) : Bool := (isWordChar c && isWordChar d) || (c == '<' && d == '-')

/-- The words, arrows and other marks of a text, without the blanks between them. -/
def atoms : List Char → List (List Char)
  | [] => []
  | c :: cs =>
    if isBlank c then atoms cs
    else if cs.head?.any (holds c) then consFirst c (atoms cs)
    else [c] :: atoms cs

theorem holds_blank {d : Char} (h : isBlank d = true) (c : Char) : holds c d = false := by
  have hminus : (d == '-') = false := by
    rw [beq_eq_false_iff_ne]
    rintro rfl
    exact absurd h (by decide)
  rw [holds, isWordChar_of_isBlank h, hminus, Bool.and_false, Bool.and_false]
  rfl

theorem holds_mark {c : Char} (hword : isWordChar c = false) (hless : c ≠ '<') (d : Char) :
    holds c d = false := by
  rw [holds, hword, beq_eq_false_iff_ne.2 hless]
  rfl

theorem mark_holds {d : Char} (hword : isWordChar d = false) (hminus : d ≠ '-') (c : Char) :
    holds c d = false := by
  rw [holds, hword, beq_eq_false_iff_ne.2 hminus, Bool.and_false, Bool.and_false]
  rfl

theorem atoms_blank {c : Char} (h : isBlank c = true) (cs : List Char) : atoms (c :: cs) = atoms cs := by
  rw [atoms, if_pos h]

theorem atoms_blanks {blanks : List Char} (h : ∀ c ∈ blanks, isBlank c = true) (cs : List Char) :
    atoms (blanks ++ cs) = atoms cs := by
  induction blanks with
  | nil => rfl
  | cons c blanks ih =>
    obtain ⟨hc, hblanks⟩ := List.forall_mem_cons.1 h
    rw [List.cons_append, atoms_blank hc, ih hblanks]

theorem atoms_cons {c : Char} {a b : List Char} (hatoms : atoms a = atoms b)
    (hfirst : a.head?.any (holds c) = b.head?.any (holds c)) : atoms (c :: a) = atoms (c :: b) := by
  rw [atoms, atoms, hatoms, hfirst]

theorem flatten_atoms (cs : List Char) : (atoms cs).flatten = withoutBlanks cs := by
  induction cs with
  | nil => rfl
  | cons c cs ih =>
    rw [atoms, withoutBlanks]
    split
    · rename_i hc
      rw [ih, List.filter_cons_of_neg (by simp [hc]), withoutBlanks]
    · rename_i hc
      rw [List.filter_cons_of_pos (by simp [hc]), ← withoutBlanks, ← ih]
      split
      · rw [flatten_consFirst]
      · rfl

theorem atoms_arrow (cs : List Char) : atoms ('<' :: '-' :: cs) = ['<', '-'] :: atoms cs := by
  have hminus : atoms ('-' :: cs) = ['-'] :: atoms cs := by
    have hfirst : cs.head?.any (holds '-') = false := by
      cases cs with
      | nil => rfl
      | cons d cs => exact holds_mark (by decide) (by decide) d
    rw [atoms, if_neg (by decide), hfirst, if_neg (by decide)]
  have hfirst : ('-' :: cs).head?.any (holds '<') = true := rfl
  rw [atoms, if_neg (by decide), hfirst, if_pos rfl, hminus]
  rfl

theorem atoms_mark {c : Char} {cs : List Char} (hblank : isBlank c = false)
    (hword : isWordChar c = false) (harrow : ¬ (c = '<' ∧ cs.head? = some '-')) :
    atoms (c :: cs) = [c] :: atoms cs := by
  have hfirst : cs.head?.any (holds c) = false := by
    cases cs with
    | nil => rfl
    | cons d cs =>
      simp only [List.head?_cons, Option.some.injEq] at harrow
      simp [holds, hword]
      exact fun heq => fun hd => harrow ⟨heq, hd⟩
  rw [atoms, hblank, if_neg (by decide), hfirst, if_neg (by decide)]

theorem atoms_word {w cs : List Char} (hne : w ≠ []) (hw : ∀ c ∈ w, isWordChar c = true)
    (hcs : ∀ d ∈ cs.head?, isWordChar d = false) : atoms (w ++ cs) = w :: atoms cs := by
  induction w with
  | nil => exact absurd rfl hne
  | cons c w ih =>
    obtain ⟨hc, hw⟩ := List.forall_mem_cons.1 hw
    have hblank := not_isBlank_of_isWordChar hc
    have hless : (c == '<') = false := by
      rw [beq_eq_false_iff_ne]
      rintro rfl
      exact absurd hc (by decide)
    rw [List.cons_append, atoms, hblank, if_neg (by decide)]
    cases w with
    | nil =>
      have hfirst : cs.head?.any (holds c) = false := by
        cases cs with
        | nil => rfl
        | cons d cs =>
          have hd : isWordChar d = false := hcs d rfl
          simp [holds, hd, hless]
      rw [List.nil_append, hfirst, if_neg (by decide)]
    | cons d w =>
      have hfirst : (d :: w ++ cs).head?.any (holds c) = true := by
        have hd : isWordChar d = true := hw d (List.mem_cons_self ..)
        simp [holds, hc, hd]
      rw [hfirst, if_pos rfl, ih (by simp) hw]
      rfl

/-- Induction over a text along its blanks, words, arrows and other marks. -/
@[elab_as_elim]
theorem atoms_induction {motive : List Char → Prop} (cs : List Char) (nil : motive [])
    (blank : ∀ c cs, isBlank c = true → motive cs → motive (c :: cs))
    (arrow : ∀ cs, motive cs → motive ('<' :: '-' :: cs))
    (mark : ∀ c cs, isBlank c = false → isWordChar c = false →
      ¬ (c = '<' ∧ cs.head? = some '-') → motive cs → motive (c :: cs))
    (word : ∀ w cs, w ≠ [] → (∀ c ∈ w, isWordChar c = true) →
      (∀ d ∈ cs.head?, isWordChar d = false) → motive cs → motive (w ++ cs)) : motive cs := by
  -- an arrow is two characters, so the text behind its first one is covered too
  have hboth : motive cs ∧ ∀ more, cs = '-' :: more → motive more := by
    induction cs using words_induction with
    | nil => exact ⟨nil, fun more h => by cases h⟩
    | mark c cs hc ih =>
      refine ⟨?_, fun more h => (List.cons.inj h).2 ▸ ih.1⟩
      cases hblank : isBlank c with
      | true => exact blank c cs hblank ih.1
      | false =>
        by_cases harrow : c = '<' ∧ cs.head? = some '-'
        · obtain ⟨rfl, hhead⟩ := harrow
          obtain ⟨more, rfl⟩ := List.head?_eq_some_iff.1 hhead
          exact arrow more (ih.2 more rfl)
        · exact mark c cs hblank hc harrow ih.1
    | word w cs hne hw hcs ih =>
      refine ⟨word w cs hne hw hcs ih.1, fun more h => ?_⟩
      obtain ⟨c, w, rfl⟩ := List.exists_cons_of_ne_nil hne
      obtain ⟨rfl, -⟩ := List.cons.inj h
      exact absurd (hw '-' (List.mem_cons_self ..)) (by decide)
  exact hboth.1

/-! ### Spacing -/

/-- Blanks that wait in front of a text are no part of a word or arrow, whatever becomes of them. -/
theorem any_holds_joinChains {pending : List Char} (hne : pending ≠ [])
    (hpending : ∀ c ∈ pending, isBlank c = true) (c : Char) (cs : List Char) :
    (joinChains pending false cs).head?.any (holds c) = false := by
  have hfront {blanks : List Char} (hne : blanks ≠ []) (hblanks : ∀ c ∈ blanks, isBlank c = true)
      (rest : List Char) : (blanks.reverse ++ rest).head?.any (holds c) = false := by
    obtain ⟨d, front, hd⟩ := List.exists_cons_of_ne_nil (List.reverse_ne_nil_iff.2 hne)
    have hblank : isBlank d = true := hblanks d (List.mem_reverse.1 (by rw [hd]; simp))
    rw [hd]
    exact holds_blank hblank c
  induction cs generalizing pending with
  | nil => simpa [joinChains] using hfront hne hpending []
  | cons d cs ih =>
    by_cases hcolons : d = ':' ∧ cs.head? = some ':'
    · obtain ⟨rfl, hhead⟩ := hcolons
      obtain ⟨cs, rfl⟩ := List.head?_eq_some_iff.1 hhead
      rw [joinChains]
      exact mark_holds (by decide) (by decide) c
    · rw [joinChains_cons hcolons]
      split
      · rename_i hd
        exact ih (by simp) (List.forall_mem_cons.2 ⟨hd, hpending⟩)
      · exact hfront hne hpending _

theorem head_joinChains (c : Char) (cs : List Char) :
    (joinChains [] false cs).head?.any (holds c) = cs.head?.any (holds c) := by
  cases cs with
  | nil => rfl
  | cons d cs =>
    by_cases hcolons : d = ':' ∧ cs.head? = some ':'
    · obtain ⟨rfl, hhead⟩ := hcolons
      obtain ⟨cs, rfl⟩ := List.head?_eq_some_iff.1 hhead
      rw [joinChains]
      rfl
    · rw [joinChains_cons hcolons]
      split
      · rename_i hd
        exact (any_holds_joinChains (by simp) (by simpa using hd) c cs).trans (holds_blank hd c).symm
      · rfl

theorem atoms_joinChains {pending : List Char} (hpending : ∀ c ∈ pending, isBlank c = true)
    (after : Bool) (cs : List Char) : atoms (joinChains pending after cs) = atoms cs := by
  fun_induction joinChains pending after cs with
  | case1 pending after =>
    have hreverse : ∀ c ∈ pending.reverse, isBlank c = true := by simpa using hpending
    have hblanks := atoms_blanks hreverse []
    rwa [List.append_nil] at hblanks
  | case2 pending after cs ih =>
    have hcolon : ∀ cs : List Char, cs.head?.any (holds ':') = false := by
      rintro (_ | ⟨d, cs⟩)
      · rfl
      · exact holds_mark (by decide) (by decide) d
    refine atoms_cons (atoms_cons (ih (by simp)) ?_) rfl
    rw [hcolon, hcolon]
  | case3 pending after c cs hcolons hc ih =>
    rw [atoms_blank hc]
    refine ih ?_
    split
    · exact hpending
    · exact List.forall_mem_cons.2 ⟨hc, hpending⟩
  | case4 pending after c cs hcolons hc ih =>
    rw [atoms_blanks (by simpa using hpending)]
    exact atoms_cons (ih (by simp)) (head_joinChains c cs)

theorem head_squeeze (c : Char) (cs : List Char) :
    (squeeze false cs).head?.any (holds c) = cs.head?.any (holds c) := by
  cases cs with
  | nil => rfl
  | cons d cs =>
    rw [squeeze]
    split
    · rename_i hd
      exact (holds_blank (by decide) c).trans (holds_blank hd c).symm
    · rfl

theorem atoms_squeeze (inRun : Bool) (cs : List Char) : atoms (squeeze inRun cs) = atoms cs := by
  induction cs generalizing inRun with
  | nil => rfl
  | cons c cs ih =>
    rw [squeeze]
    split
    · rename_i hc
      rw [atoms_blank hc]
      split
      · exact ih true
      · rw [atoms_blank (by decide), ih]
    · exact atoms_cons (ih false) (head_squeeze c cs)

theorem atoms_closeAfter {bracket : Char} (hword : isWordChar bracket = false) (hless : bracket ≠ '<')
    (skip : Bool) (cs : List Char) : atoms (closeAfter bracket skip cs) = atoms cs := by
  induction cs generalizing skip with
  | nil => rfl
  | cons c cs ih =>
    rw [closeAfter]
    split
    · rename_i hskip
      rw [ih, atoms_blank (Bool.and_eq_true_iff.1 hskip).1]
    · refine atoms_cons (ih _) ?_
      by_cases hc : c = bracket
      · -- nothing belongs together with a bracket before it
        have hnone : ∀ cs : List Char, cs.head?.any (holds c) = false := by
          rintro (_ | ⟨d, cs⟩)
          · rfl
          · exact holds_mark (hc ▸ hword) (hc ▸ hless) d
        rw [hnone, hnone]
      · rw [beq_eq_false_iff_ne.2 hc]
        cases cs with
        | nil => rfl
        | cons d cs => rw [closeAfter, Bool.and_false, if_neg (by decide)]; rfl

theorem atoms_closeBefore {bracket : Char} (hword : isWordChar bracket = false)
    (hminus : bracket ≠ '-') (cs : List Char) : atoms (closeBefore bracket cs) = atoms cs := by
  induction cs with
  | nil => rfl
  | cons c cs ih =>
    rw [closeBefore_cons]
    split
    · rename_i hskip
      rw [ih, atoms_blank (Bool.and_eq_true_iff.1 hskip).1]
    · refine atoms_cons ih ?_
      cases cs with
      | nil => rfl
      | cons d cs =>
        rw [closeBefore_cons]
        split
        · -- blanks go, and the bracket behind them does not belong to what stands before
          rename_i hskip
          obtain ⟨hd, hhead⟩ := Bool.and_eq_true_iff.1 hskip
          rw [beq_iff_eq.1 hhead]
          exact (mark_holds hword hminus c).trans (holds_blank hd c).symm
        · rfl

/-- Spacing keeps all words, arrows and marks. -/
theorem atoms_space (cs : List Char) : atoms (space cs) = atoms cs := by
  rw [space, atoms_closeBefore (by decide) (by decide), atoms_closeAfter (by decide) (by decide),
    atoms_closeBefore (by decide) (by decide), atoms_closeAfter (by decide) (by decide),
    atoms_squeeze, atoms_joinChains (by simp)]

/-! ### Spelling -/

/-- A reserved word in another spelling. -/
structure Respells (w w' : List Char) : Prop where
  starts : isWord w = true
  reserved : Keyword.isReserved (String.ofList w) = true
  upper_eq : upper w' = upper w
  starts' : isWord w' = true
  chars : ∀ c ∈ w', isWordChar c = true

/-- What stands in the place of a word or mark: the same, or for a reserved word another spelling. -/
def Respelled (a b : List Char) : Prop := b = a ∨ Respells a b

theorem Respelled.refl (a : List Char) : Respelled a a := .inl rfl

theorem Respelled.upper_eq {a b : List Char} (h : Respelled a b) : upper b = upper a := by
  rcases h with rfl | h
  · rfl
  · exact h.upper_eq

theorem Respelled.trans {a b c : List Char} (hab : Respelled a b) (hbc : Respelled b c) :
    Respelled a c := by
  rcases hab with rfl | hab
  · exact hbc
  rcases hbc with rfl | hbc
  · exact .inr hab
  · exact .inr ⟨hab.starts, hab.reserved, hbc.upper_eq.trans hab.upper_eq, hbc.starts', hbc.chars⟩

theorem Respelled.isWord_iff {a b : List Char} (h : Respelled a b) : isWord a ↔ isWord b := by
  rcases h with rfl | h
  · rfl
  · exact iff_of_true h.starts h.starts'

theorem Respelled.forall₂_trans {as bs cs : List (List Char)} (hab : List.Forall₂ Respelled as bs)
    (hbc : List.Forall₂ Respelled bs cs) : List.Forall₂ Respelled as cs := by
  induction hab generalizing cs with
  | nil =>
    cases hbc
    exact .nil
  | cons h _ ih =>
    cases hbc with
    | cons h' hrest => exact .cons (h.trans h') (ih hrest)

theorem Respelled.isWordRun {w w' : List Char} (h : Respelled w w') (hne : w ≠ [])
    (hw : ∀ c ∈ w, isWordChar c = true) : w' ≠ [] ∧ ∀ c ∈ w', isWordChar c = true := by
  rcases h with rfl | h
  · exact ⟨hne, hw⟩
  · refine ⟨?_, h.chars⟩
    rintro rfl
    exact absurd h.starts' (by decide)

/-- Texts of which the second one has reserved words in other spellings. -/
inductive Reworded : List Char → List Char → Prop
  | nil : Reworded [] []
  | mark {c : Char} {cs ds : List Char} : isWordChar c = false → Reworded cs ds →
      Reworded (c :: cs) (c :: ds)
  | word {w w' cs ds : List Char} : w ≠ [] → (∀ c ∈ w, isWordChar c = true) →
      (∀ d ∈ cs.head?, isWordChar d = false) → Respelled w w' → Reworded cs ds →
        Reworded (w ++ cs) (w' ++ ds)

/-- Words stand where words stood, and other characters are the same. -/
theorem Reworded.head {cs ds : List Char} (h : Reworded cs ds) :
    (cs.head? = ds.head? ∧ ∀ c ∈ cs.head?, isWordChar c = false) ∨
      ((∃ c ∈ cs.head?, isWordChar c = true) ∧ ∃ d ∈ ds.head?, isWordChar d = true) := by
  cases h with
  | nil => exact .inl ⟨rfl, by simp⟩
  | mark hc hcs => exact .inl ⟨rfl, by simpa using hc⟩
  | @word w w' cs ds hne hw hcs hrespelled hmore =>
    obtain ⟨hne', hw'⟩ := hrespelled.isWordRun hne hw
    obtain ⟨c, w, rfl⟩ := List.exists_cons_of_ne_nil hne
    obtain ⟨c', w', rfl⟩ := List.exists_cons_of_ne_nil hne'
    exact .inr ⟨⟨c, rfl, hw c (List.mem_cons_self ..)⟩, c', rfl, hw' c' (List.mem_cons_self ..)⟩

theorem Reworded.not_isWordChar_head {cs ds : List Char} (h : Reworded cs ds)
    (hcs : ∀ d ∈ cs.head?, isWordChar d = false) : ∀ d ∈ ds.head?, isWordChar d = false := by
  rcases h.head with ⟨heq, -⟩ | ⟨⟨d, hd, hword⟩, -⟩
  · rwa [← heq]
  · rw [hcs d hd] at hword
    cases hword

/-- Other spellings of reserved words are all that changes in the words, arrows and marks. -/
theorem Reworded.atoms {cs ds : List Char} (h : Reworded cs ds) :
    List.Forall₂ Respelled (atoms cs) (atoms ds) := by
  induction h with
  | nil => exact .nil
  | @mark c cs ds hc hcs ih =>
    cases hblank : isBlank c with
    | true => rwa [atoms_blank hblank, atoms_blank hblank]
    | false =>
      -- a spelling starts with a character of a word, so arrows stay and none arises
      have hhead : cs.head? = some '-' ↔ ds.head? = some '-' := by
        rcases hcs.head with ⟨heq, -⟩ | ⟨⟨d, hd, hword⟩, e, he, hword'⟩
        · rw [heq]
        · rw [Option.mem_def] at hd he
          have hne {x : Char} (hx : isWordChar x = true) : x ≠ '-' := by
            rintro rfl
            exact absurd hx (by decide)
          simp [hd, he, hne hword, hne hword']
      by_cases harrow : c = '<' ∧ cs.head? = some '-'
      · obtain ⟨rfl, hminus⟩ := harrow
        obtain ⟨cs, rfl⟩ := List.head?_eq_some_iff.1 hminus
        obtain ⟨ds, rfl⟩ := List.head?_eq_some_iff.1 (hhead.1 hminus)
        have hstep (xs : List Char) : Layout.atoms ('-' :: xs) = ['-'] :: Layout.atoms xs :=
          atoms_mark (by decide) (by decide) fun heq => absurd heq.1 (by decide)
        rw [hstep, hstep] at ih
        rw [atoms_arrow, atoms_arrow]
        exact .cons (.refl _) (List.forall₂_cons.1 ih).2
      · have harrow' : ¬ (c = '<' ∧ ds.head? = some '-') := fun heq => harrow ⟨heq.1, hhead.2 heq.2⟩
        rw [atoms_mark hblank hc harrow, atoms_mark hblank hc harrow']
        exact .cons (.refl _) ih
  | @word w w' cs ds hne hw hcs hrespelled hmore ih =>
    obtain ⟨hne', hw'⟩ := hrespelled.isWordRun hne hw
    rw [atoms_word hne hw hcs, atoms_word hne' hw' (hmore.not_isWordChar_head hcs)]
    exact .cons hrespelled ih

/-- Sort directions are reserved words. -/
theorem respelled_directed (w : List Char) : Respelled w (directed w) := by
  -- no letter beyond ASCII folds to the first letter of a sort direction
  have hstarts {w lowered : List Char} {first : Char} (hfirst : first = 'a' ∨ first = 'd')
      (h : equalsFolded w (first :: lowered) = true) : isWord w = true := by
    cases w with
    | nil => cases h
    | cons c w =>
      rw [equalsFolded, beq_iff_eq, List.map_cons] at h
      have hc : foldChar c = first := (List.cons.inj h).1
      have hascii : (foldChar c).toNat < 128 := by rcases hfirst with rfl | rfl <;> rw [hc] <;> decide
      rcases ascii_of_foldChar hascii with hsmall | rfl | rfl | rfl
      · have hall : ∀ n < 128, foldChar (Char.ofNat n) = 'a' ∨ foldChar (Char.ofNat n) = 'd' →
            isIdentStart (Char.ofNat n) = true := by decide +kernel
        have hstart := hall c.toNat hsmall
        rw [Char.ofNat_toNat, hc] at hstart
        exact hstart hfirst
      all_goals
        subst hc
        exact absurd hfirst (by decide)
  have hrespells {w lowered spelled : List Char} {first : Char} (hfirst : first = 'a' ∨ first = 'd')
      (h : equalsFolded w (first :: lowered) = true)
      (hascii : ∀ c ∈ first :: lowered, c.toNat < 128 ∧ c ≠ 'i')
      (hspelled : upper spelled = (first :: lowered).map Char.toUpper)
      (hreserved : Keyword.reserved.contains (String.ofList (upper spelled)) = true)
      (hstart : isWord spelled = true) (hchars : ∀ c ∈ spelled, isWordChar c = true) :
      Respells w spelled := by
    have hupper : upper spelled = upper w := by rw [hspelled, upper_eq_of_equalsFolded h hascii]
    refine ⟨hstarts hfirst h, ?_, hupper, hstart, hchars⟩
    rw [Keyword.isReserved, uppercase, String.toList_ofList, ← hupper]
    exact hreserved
  rw [directed]
  split
  · rename_i h
    exact .inr (hrespells (.inl rfl) h (by decide) (by decide) (by decide +kernel) (by decide) (by decide))
  · split
    · rename_i h
      exact .inr (hrespells (.inr rfl) h (by decide) (by decide) (by decide +kernel) (by decide)
        (by decide))
    · exact .refl w

theorem reworded_spellDirections (cs : List Char) : Reworded cs (spellDirections cs) := by
  induction cs using words_induction with
  | nil => exact .nil
  | mark c cs hc ih =>
    rw [spellDirections_mark hc]
    exact .mark hc ih
  | word w cs hne hw hcs ih =>
    rw [spellDirections_word hne hw hcs]
    exact .word hne hw hcs (respelled_directed w) ih

theorem spelling?_eq_some {words : List String} {upperCase s : String}
    (h : Keyword.spelling? words upperCase = some s) : s ∈ words ∧ uppercase s = upperCase := by
  have hfound := List.find?_some h
  exact ⟨List.mem_of_find?_eq_some h, of_decide_eq_true hfound⟩

/-- The spelling that is found for a word is a step or function, a structural word or a type. -/
theorem of_spelling?_eq_some {called typed : Bool} {w : List Char} {s : String}
    (h : spelling? called typed w = some s) :
    s ∈ Keyword.structural ++ Keyword.steps ++ Keyword.types ++ Keyword.functions ∧
      uppercase s = uppercase (String.ofList w) := by
  rcases (Option.orElse_eq_some ..).1 h with hcalled | ⟨-, h⟩
  · split at hcalled
    · obtain ⟨hs, hupper⟩ := spelling?_eq_some hcalled
      refine ⟨?_, hupper⟩
      rcases List.mem_append.1 hs with hstep | hfunction
      · exact List.mem_append_left _ (List.mem_append_left _ (List.mem_append_right _ hstep))
      · exact List.mem_append_right _ hfunction
    · cases hcalled
  · rcases (Option.orElse_eq_some ..).1 h with hstructural | ⟨-, htyped⟩
    · obtain ⟨hs, hupper⟩ := spelling?_eq_some hstructural
      exact ⟨List.mem_append_left _ (List.mem_append_left _ (List.mem_append_left _ hs)), hupper⟩
    · split at htyped
      · obtain ⟨hs, hupper⟩ := spelling?_eq_some htyped
        exact ⟨List.mem_append_left _ (List.mem_append_right _ hs), hupper⟩
      · cases htyped

/-- A word is spelled as it is, or as it is found in the vocabulary and not alone in braces. -/
theorem spelling_eq_or (before after w : List Char) : spelling before after w = w ∨
    ∃ s, spelling? (inCallPosition (before.dropWhile (· == ' ')) (after.dropWhile (· == ' ')))
        (inTypePosition (before.dropWhile (· == ' ')) (after.dropWhile (· == ' '))) w = some s ∧
      ((before.dropWhile (· == ' ')).head? == some '\x7b' &&
        (after.dropWhile (· == ' ')).head? == some '\x7d') = false ∧
      spelling before after w = s.toList := by
  rw [spelling]
  split
  · exact .inl rfl
  · split
    · exact .inl rfl
    · rename_i hbraces
      dsimp only
      split
      · rename_i s hs
        exact .inr ⟨s, hs, Bool.eq_false_iff.2 hbraces, rfl⟩
      · exact .inl rfl

/-- The spelling of a word in the vocabulary is a reserved word with the same upper-case form. -/
theorem respelled_spelling {w : List Char} (hw : isWord w = true) (before after : List Char) :
    Respelled w (spelling before after w) := by
  have hvocabulary : ∀ s ∈ Keyword.structural ++ Keyword.steps ++ Keyword.types ++ Keyword.functions,
      isWord s.toList = true ∧ ∀ c ∈ s.toList, isWordChar c = true := by decide +kernel
  rcases spelling_eq_or before after w with hsame | ⟨s, hs, -, hspelled⟩
  · exact .inl hsame
  · obtain ⟨hmem, hupper⟩ := of_spelling?_eq_some hs
    obtain ⟨hstart, hchars⟩ := hvocabulary s hmem
    rw [hspelled]
    refine .inr ⟨hw, ?_, ?_, hstart, hchars⟩
    · rw [Keyword.isReserved, ← hupper, Keyword.reserved]
      exact List.contains_iff_mem.2 (List.mem_map_of_mem hmem)
    · rw [uppercase, uppercase, String.toList_ofList, String.ofList_inj] at hupper
      exact hupper

/-- What stands in the place of a run of word characters. -/
theorem respelled_run (before after w : List Char) :
    Respelled w (if isWord w then spelling before after w else w) := by
  split
  · rename_i hstart
    exact respelled_spelling hstart before after
  · exact .refl w

theorem reworded_spellWords (before cs : List Char) :
    Reworded cs (spellWords before (runs cs)) := by
  induction cs using words_induction generalizing before with
  | nil => exact .nil
  | mark c cs hc ih =>
    rw [spellWords_mark hc]
    exact .mark hc (ih _)
  | word w cs hne hw hcs ih =>
    rw [spellWords_word hne hw hcs]
    exact .word hne hw hcs (respelled_run before cs w) (ih _)

/-- Tidied code has the words, arrows and marks of the code, with reserved words in other spellings. -/
theorem atoms_tidyCode (cs : List Char) : List.Forall₂ Respelled (atoms cs) (atoms (tidyCode cs)) := by
  have hdirections := (reworded_spellDirections (space cs)).atoms
  have hwords := (reworded_spellWords [] (spellDirections (space cs))).atoms
  rw [atoms_space] at hdirections
  exact Respelled.forall₂_trans hdirections hwords

/-! ### Code -/

/-- The words of code: the runs of word characters that start with a letter of ASCII or an
underscore. -/
def codeWords (cs : List Char) : List (List Char) := (runs cs).filter isWord

theorem codeWords_mark {c : Char} (hc : isWordChar c = false) (cs : List Char) :
    codeWords (c :: cs) = codeWords cs := by
  have hrun (run : List Char) : ¬ isWord (c :: run) = true := by
    rw [isWord_of_not_isWordChar hc]
    decide
  rw [codeWords, codeWords, runs]
  split
  · rename_i d run more h
    rw [h]
    split
    · rename_i heq
      rw [hc, beq_iff_eq] at heq
      have hd : ¬ isWord (d :: run) = true := by
        rw [isWord_of_not_isWordChar heq.symm]
        decide
      rw [List.filter_cons_of_neg (hrun _), List.filter_cons_of_neg hd]
    · rw [List.filter_cons_of_neg (hrun _)]
  · rw [List.filter_cons_of_neg (hrun _)]

/-- The words of code stand among its words, arrows and marks. -/
theorem filter_atoms (cs : List Char) : (atoms cs).filter isWord = codeWords cs := by
  induction cs using atoms_induction with
  | nil => rfl
  | blank c cs hc ih => rw [atoms_blank hc, codeWords_mark (isWordChar_of_isBlank hc), ih]
  | arrow cs ih =>
    rw [atoms_arrow, codeWords_mark (by decide), codeWords_mark (by decide), ← ih]
    rfl
  | mark c cs hblank hc harrow ih =>
    have hmark : ¬ isWord [c] = true := by
      rw [isWord_of_not_isWordChar hc]
      decide
    rw [atoms_mark hblank hc harrow, codeWords_mark hc, List.filter_cons_of_neg hmark, ih]
  | word w cs hne hw hcs ih =>
    rw [atoms_word hne hw hcs, codeWords, runs_word hne hw hcs, List.filter_cons, List.filter_cons, ih]
    rfl

/-- A word laid out: it keeps its upper-case form, and if it is not reserved it stays as it is. -/
def KeepsWord (w w' : List Char) : Prop :=
  upper w' = upper w ∧ (Keyword.isReserved (String.ofList w) = false → w' = w)

theorem Respelled.keepsWord {w w' : List Char} (h : Respelled w w') : KeepsWord w w' := by
  refine ⟨h.upper_eq, fun hfree => ?_⟩
  rcases h with rfl | h
  · rfl
  · rw [h.reserved] at hfree
    cases hfree

theorem upper_flatten_of_respelled {as bs : List (List Char)} (h : List.Forall₂ Respelled as bs) :
    upper bs.flatten = upper as.flatten := by
  induction h with
  | nil => rfl
  | cons h _ ih => rw [List.flatten_cons, List.flatten_cons, upper_append, upper_append, h.upper_eq, ih]

theorem letters_tidyCode (cs : List Char) : letters (tidyCode cs) = letters cs := by
  rw [letters, letters, ← flatten_atoms, ← flatten_atoms]
  exact upper_flatten_of_respelled (atoms_tidyCode cs)

theorem codeWords_tidyCode (cs : List Char) :
    List.Forall₂ KeepsWord (codeWords cs) (codeWords (tidyCode cs)) := by
  have hwords : List.Forall₂ Respelled (codeWords cs) (codeWords (tidyCode cs)) := by
    rw [← filter_atoms, ← filter_atoms]
    exact List.rel_filter (fun _ _ h => h.isWord_iff) (atoms_tidyCode cs)
  exact hwords.imp fun _ _ h => h.keepsWord

/-! ### Code and comments -/

/-- The text of a piece. -/
def Piece.chars : Piece → List Char
  | code cs => cs
  | comment cs => cs

/-- The text of several pieces. -/
def piecesText (ps : List Piece) : List Char := ps.flatMap Piece.chars

/-- Pieces that are told apart where comments start: a comment is the one that stands at its place,
and none stands within code. -/
def CutAtComments : List Piece → Prop
  | [] => True
  | .code cs :: ps =>
    (∀ a b, cs = a ++ b → b ≠ [] → comment? (b ++ piecesText ps) = none) ∧ CutAtComments ps
  | .comment cs :: ps =>
    comment? (cs ++ piecesText ps) = some (cs, piecesText ps) ∧ CutAtComments ps

theorem piecesText_pieces (pending cs : List Char) :
    piecesText (pieces pending cs) = pending.reverse ++ cs := by
  fun_induction pieces pending cs with
  | case1 pending => simp [piecesText, Piece.chars]
  | case2 pending c cs comment rest h ih =>
    rw [piecesText] at ih ⊢
    rw [List.flatMap_cons, List.flatMap_cons, ih, ← comment?_append h]
    rfl
  | case3 pending c cs h ih => rw [ih, List.reverse_cons, List.append_assoc]; rfl

/-- A text is cut where comments start, provided that none starts within the code before it. -/
theorem cutAtComments_pieces {pending cs : List Char}
    (hpending : ∀ a b, pending.reverse = a ++ b → b ≠ [] → comment? (b ++ cs) = none) :
    CutAtComments (pieces pending cs) := by
  fun_induction pieces pending cs with
  | case1 pending =>
    refine ⟨fun a b hab hb => ?_, trivial⟩
    exact hpending a b hab hb
  | case2 pending c cs comment rest h ih =>
    have hrest : piecesText (pieces [] rest) = rest := piecesText_pieces [] rest
    have hall : piecesText (.comment comment :: pieces [] rest) = c :: cs := by
      rw [piecesText, List.flatMap_cons, ← piecesText, hrest]
      exact comment?_append h
    have hcut := comment?_append h
    refine ⟨fun a b hab hb => ?_, ?_, ih fun a b hab hb => ?_⟩
    · rw [hall]
      exact hpending a b hab hb
    · rw [hrest, hcut]
      exact h
    · exact absurd (List.append_eq_nil_iff.1 hab.symm).2 hb
  | case3 pending c cs h ih =>
    refine ih fun a b hab hb => ?_
    -- the last character of `b` is `c`, and before it stands code that is known already
    obtain ⟨front, d, rfl⟩ := List.eq_nil_or_concat b |>.resolve_left hb
    rw [List.reverse_cons, List.concat_eq_append, ← List.append_assoc] at hab
    obtain ⟨hfront, hd⟩ := List.append_inj' hab rfl
    obtain rfl : c = d := List.head_eq_of_cons_eq hd
    rw [List.concat_eq_append, List.append_assoc]
    by_cases hnil : front = []
    · rw [hnil]
      exact h
    · exact hpending a front hfront hnil

/-- A piece laid out. A comment is copied; code keeps its characters up to blanks and case, and its
words one by one. -/
inductive KeepsPiece : Piece → List Char → Prop
  | comment (cs : List Char) : KeepsPiece (.comment cs) cs
  | code {cs ds : List Char} : letters ds = letters cs →
      List.Forall₂ KeepsWord (codeWords cs) (codeWords ds) → KeepsPiece (.code cs) ds

theorem keepsPiece_tidy (p : Piece) : KeepsPiece p p.tidy := by
  cases p with
  | code cs => exact .code (letters_tidyCode cs) (codeWords_tidyCode cs)
  | comment cs => exact .comment cs

theorem letters_tidy (cs : List Char) : letters (tidy cs) = letters cs := by
  have hpieces (ps : List Piece) : letters (ps.flatMap Piece.tidy) = letters (piecesText ps) := by
    induction ps with
    | nil => rfl
    | cons p ps ih =>
      have hp : letters p.tidy = letters p.chars := by
        cases p with
        | code cs => exact letters_tidyCode cs
        | comment cs => rfl
      rw [List.flatMap_cons, letters_append, hp, ih, piecesText, piecesText, List.flatMap_cons,
        letters_append]
  rw [tidy, hpieces, piecesText_pieces]
  rfl

/-- Tidying changes spacing and the case of reserved words only. The text is cut into code and comments;
all of it stays the same up to blanks and case, every comment is copied, and of the words of each piece
of code, taken in order, those that are not reserved are copied too. -/
theorem tidy_keeps (cs : List Char) : letters (tidy cs) = letters cs ∧
    ∃ (ps : List Piece) (laid : List (List Char)), piecesText ps = cs ∧ CutAtComments ps ∧
      tidy cs = laid.flatten ∧ List.Forall₂ KeepsPiece ps laid := by
  refine ⟨letters_tidy cs, pieces [] cs, (pieces [] cs).map Piece.tidy, piecesText_pieces [] cs,
    cutAtComments_pieces fun a b hab hb => ?_, ?_, ?_⟩
  · exact absurd (List.append_eq_nil_iff.1 hab.symm).2 hb
  · rw [tidy, List.flatMap_def]
  · rw [List.forall₂_map_right_iff, List.forall₂_same]
    exact fun p _ => keepsPiece_tidy p

end Hql.Layout
