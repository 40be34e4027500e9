import Hql.Proofs.Library.Phrases
import Hql.Proofs.Schema.Lexeme
import Hql.Proofs.Text.Case
import Hql.Proofs.Validation.ErrorFree

/-!
The names of a model in the texts of its library. An entity name that the checks accept is a word which
the vocabulary does not hold, so no spelling changes it. The checks know nothing of the words among
property names, and of what the names of queries are put together from.
-/

namespace Hql

open Text Layout

/-! ### Words beyond the vocabulary -/

namespace Text

theorem toNat_lt_of_isIdentChar {c : Char} (h : isIdentChar c = true) : c.toNat < 128 := by
  rcases Bool.or_eq_true_iff.1 h with halnum | hunderscore
  · exact toNat_lt_of_isAlphanum halnum
  · obtain rfl := beq_iff_eq.1 hunderscore
    decide

theorem isWordChar_of_isIdentChar {c : Char} (h : isIdentChar c = true) : isWordChar c = true := by
  rcases Bool.or_eq_true_iff.1 h with halnum | hunderscore
  · exact isWordChar_of_isAlphanum halnum
  · obtain rfl := beq_iff_eq.1 hunderscore
    decide

theorem not_isBlank_of_isIdentChar {c : Char} (h : isIdentChar c = true) : isBlank c = false :=
  not_isBlank_of_isWordChar (isWordChar_of_isIdentChar h)

/-- A word that equals another one when case is ignored has its upper-case form. -/
theorem upper_of_equalsFolded {w lowered : List Char} (hascii : ∀ c ∈ w, c.toNat < 128)
    (h : equalsFolded w lowered = true) : upper w = lowered.map Char.toUpper := by
  have hfold : ∀ n < 128, (foldChar (Char.ofNat n)).toUpper = (Char.ofNat n).toUpper := by decide +kernel
  rw [equalsFolded, beq_iff_eq] at h
  rw [upper_of_ascii hascii, ← h, List.map_map]
  refine List.map_congr_left fun c hc => ?_
  rw [← Char.ofNat_toNat c]
  exact (hfold _ (hascii c hc)).symm

/-! ### Identifiers and case -/

theorem isIdentChar_toUpper {c : Char} (h : isIdentChar c = true) :
    isIdentChar c.toUpper = true ∧ isIdentChar c.toLower = true := by
  have hall : ∀ n < 128, isIdentChar (Char.ofNat n) = true →
      isIdentChar (Char.ofNat n).toUpper = true ∧ isIdentChar (Char.ofNat n).toLower = true := by
    decide +kernel
  rw [← Char.ofNat_toNat c] at h ⊢
  exact hall _ (toNat_lt_of_isIdentChar (by rwa [Char.ofNat_toNat] at h)) h

end Text

/-- What upper case keeps of characters, Pascal case keeps of names. -/
theorem Naming.forall_mem_pascalFrom {P : Char → Prop} (hupper : ∀ c, P c → ∀ d ∈ upperChar c, P d)
    {cs : List Char} (h : ∀ c ∈ cs, P c) (atStart : Bool) : ∀ c ∈ pascalFrom atStart cs, P c := by
  induction cs generalizing atStart with
  | nil => simp [pascalFrom]
  | cons c cs ih =>
    obtain ⟨hc, hcs⟩ := List.forall_mem_cons.1 h
    rw [pascalFrom]
    split
    · exact ih hcs true
    · refine List.forall_mem_append.2 ⟨?_, ih hcs false⟩
      split
      · exact hupper c hc
      · exact List.forall_mem_singleton.2 hc

namespace Library

/-! ### Compounds -/

/-- A text of identifiers with blanks between. -/
def IsCompound (cs : List Char) : Prop := ∀ c ∈ cs, isIdentChar c = true ∨ isBlank c = true

theorem IsCompound.append {a b : List Char} (ha : IsCompound a) (hb : IsCompound b) :
    IsCompound (a ++ b) := List.forall_mem_append.2 ⟨ha, hb⟩

theorem IsCompound.upperChar {c : Char} (h : isIdentChar c = true ∨ isBlank c = true) :
    IsCompound (upperChar c) := by
  rcases h with hident | hblank
  · rw [Text.upperChar, if_pos (toNat_lt_of_isIdentChar hident)]
    exact List.forall_mem_singleton.2 (.inl (isIdentChar_toUpper hident).1)
  · rw [(case_of_isBlank hblank).1]
    exact List.forall_mem_singleton.2 (.inr hblank)

theorem IsCompound.pascalFrom {cs : List Char} (h : IsCompound cs) (atStart : Bool) :
    IsCompound (Naming.pascalFrom atStart cs) :=
  Naming.forall_mem_pascalFrom (fun _ hc => IsCompound.upperChar hc) h atStart

theorem IsCompound.pascalCase {name : String} (h : IsCompound name.toList) :
    IsCompound (Naming.pascalCase name).toList := by
  rw [Naming.pascalCase, String.toList_ofList]
  exact h.pascalFrom true

theorem eq_map_words {ts : List Token} (h : ∀ t ∈ ts, ∃ w, t = .word w) : ts = (words ts).map .word := by
  induction ts with
  | nil => rfl
  | cons t ts ih =>
    obtain ⟨⟨w, rfl⟩, hts⟩ := List.forall_mem_cons.1 h
    exact congrArg (Token.word w :: ·) (ih hts)

/-- A compound is read as words. -/
theorem IsCompound.lexemes_eq {cs : List Char} (h : IsCompound cs) :
    lexemes cs = (words (lexemes cs)).map .word ∧
      ∀ w ∈ words (lexemes cs), ∀ c ∈ w, isIdentChar c = true := by
  have hchars : ∀ t ∈ lexemes cs, ∀ c ∈ t.chars, isIdentChar c = true := by
    intro t ht c hc
    have hmem : c ∈ withoutBlanks cs := by
      rw [← flatMap_chars_lexemes]
      exact List.mem_flatMap.2 ⟨t, ht, hc⟩
    obtain ⟨hmem, hblank⟩ := List.mem_filter.1 hmem
    exact (h c hmem).resolve_right (by simpa using hblank)
  have hwords : ∀ t ∈ lexemes cs, ∃ w, t = .word w := by
    intro t ht
    have hsound : t.IsSound := by
      obtain ⟨x, hx, rfl⟩ := List.mem_map.1 ht
      exact (fits_tokens false cs).sound x hx
    cases t with
    | word w => exact ⟨w, rfl⟩
    | colons => exact absurd (hchars _ ht ':' (List.mem_cons_self ..)) (by decide)
    | mark c =>
      have hc := isWordChar_of_isIdentChar (hchars _ ht c (List.mem_singleton_self c))
      rw [hsound.2] at hc
      cases hc
  refine ⟨eq_map_words hwords, fun w hw => ?_⟩
  obtain ⟨t, ht, heq⟩ := List.mem_filterMap.1 hw
  cases t with
  | word v =>
    obtain rfl := Option.some.inj heq
    exact hchars _ ht
  | _ => cases heq

/-! ### The names of queries -/

/-- The words in the name of a query keep their spelling, the last one as what is called, and none of
them starts a query. -/
structure KeepsTitle (name : String) : Prop where
  kept : ∀ w ∈ words (lexemes name.toList), isBlockWord w = false ∧ Keeps false false w
  last : ∀ w ∈ (words (lexemes name.toList)).getLast?, Keeps true false w

instance (name : String) : Decidable (KeepsTitle name) :=
  decidable_of_iff ((∀ w ∈ words (lexemes name.toList), isBlockWord w = false ∧ Keeps false false w) ∧
      ∀ w ∈ (words (lexemes name.toList)).getLast?, Keeps true false w)
    ⟨fun ⟨hkept, hlast⟩ => ⟨hkept, hlast⟩, fun h => ⟨h.kept, h.last⟩⟩

theorem KeepsTitle.isTitle {name : String} (h : KeepsTitle name) (hcompound : IsCompound name.toList)
    (hblank : ∃ c ∈ name.toList, isBlank c = false) :
    IsTitle name (words (lexemes name.toList)) := by
  obtain ⟨hlexemes, hchars⟩ := hcompound.lexemes_eq
  refine ⟨hlexemes, ?_, fun w hw => ?_, h.last⟩
  · intro hnil
    rw [hnil] at hlexemes
    obtain ⟨c, hc, hplain⟩ := hblank
    have hmem : c ∈ withoutBlanks name.toList := List.mem_filter.2 ⟨hc, by rw [hplain]; rfl⟩
    rw [← flatMap_chars_lexemes, hlexemes] at hmem
    cases hmem
  · obtain ⟨hblock, hkeeps⟩ := h.kept w hw
    exact ⟨⟨fun c hc => toNat_lt_of_isIdentChar (hchars w hw c hc), hblock⟩, hkeeps⟩

/-! ### Names of entities and properties -/

theorem lexemes_of_isIdentifier {w : List Char} (h : isIdentifier w = true) :
    lexemes w = [.word w] :=
  congrArg (List.map Prod.snd) (tokens_chars (t := .word w) ⟨Schema.isIdentifier_ne_nil h, fun c hc =>
    isWordChar_of_isIdentChar (Schema.isIdentChar_of_mem h c hc)⟩ false)

theorem isCompound_of_isIdentifier {w : List Char} (h : isIdentifier w = true) : IsCompound w :=
  fun c hc => .inl (Schema.isIdentChar_of_mem h c hc)

section Reserved

variable {w : List Char}

/-- A word beyond the vocabulary has the upper-case form of none of its words. -/
theorem ne_of_not_isReserved (h : Keyword.isReserved (String.ofList w) = false) :
    ∀ s ∈ Keyword.reserved, uppercase (String.ofList w) ≠ s := by
  intro s hs heq
  rw [Keyword.isReserved, heq, List.contains_iff_mem.2 hs] at h
  cases h

theorem spelling?_eq_none {words : List String} {upperCase : String}
    (h : ∀ s ∈ words, uppercase s ≠ upperCase) : Keyword.spelling? words upperCase = none := by
  rw [Keyword.spelling?, List.find?_eq_none]
  simpa using h

/-- A word beyond the vocabulary may stand anywhere. -/
theorem isNeutral_of_not_isReserved (hw : ∀ c ∈ w, isIdentChar c = true)
    (h : Keyword.isReserved (String.ofList w) = false) : IsNeutral w := by
  have hascii : ∀ c ∈ w, c.toNat < 128 := fun c hc => toNat_lt_of_isIdentChar (hw c hc)
  have hne := ne_of_not_isReserved h
  have hfolded {lowered : List Char}
      (hlowered : String.ofList (lowered.map Char.toUpper) ∈ Keyword.reserved) :
      equalsFolded w lowered = false := by
    rw [Bool.eq_false_iff]
    intro heq
    refine hne _ hlowered ?_
    rw [uppercase, String.toList_ofList, upper_of_equalsFolded hascii heq]
  have hnone {words : List String} (hwords : ∀ s ∈ words.map uppercase, s ∈ Keyword.reserved) :
      Keyword.spelling? words (uppercase (String.ofList w)) = none :=
    spelling?_eq_none fun s hs heq => hne _ (hwords _ (List.mem_map_of_mem hs)) heq.symm
  -- the reserved words are those of the four lists, so the word is in none of them
  have hreserved : ∀ s ∈ (Keyword.structural ++ Keyword.steps ++ Keyword.types ++
      Keyword.functions).map uppercase, s ∈ Keyword.reserved := fun s hs => hs
  simp only [List.map_append, List.forall_mem_append] at hreserved
  obtain ⟨⟨⟨hstructural, hsteps⟩, htypes⟩, hfunctions⟩ := hreserved
  have hstep : Keyword.step? (String.ofList w) = none :=
    hnone (by rw [List.map_append]; exact List.forall_mem_append.2 ⟨hsteps, hfunctions⟩)
  have hstructural : Keyword.structural? (String.ofList w) = none := hnone hstructural
  have htype : Keyword.type? (String.ofList w) = none := hnone htypes
  refine ⟨⟨⟨hascii, ?_⟩, ?_⟩, fun called typed => ⟨?_, ?_⟩⟩
  · rw [isBlockWord, hfolded (by decide +kernel), hfolded (by decide +kernel)]
    rfl
  · rintro rfl
    exact absurd h (by decide +kernel)
  · rw [directed, hfolded (by decide +kernel), hfolded (by decide +kernel), if_neg (by decide),
      if_neg (by decide)]
  · rw [hstep, hstructural, htype]
    intro s hs
    cases called <;> cases typed <;> cases hs

/-- A word with an underscore is no structural one. -/
theorem isPlainWord_of_underscore (hw : ∀ c ∈ w, isIdentChar c = true) (h : '_' ∈ w) :
    IsPlainWord w := by
  have hascii : ∀ c ∈ w, c.toNat < 128 := fun c hc => toNat_lt_of_isIdentChar (hw c hc)
  have hfolded {lowered : List Char} (hlowered : '_' ∉ lowered) : equalsFolded w lowered = false := by
    rw [equalsFolded, beq_eq_false_iff_ne]
    rintro rfl
    exact hlowered (List.mem_map.2 ⟨'_', h, rfl⟩)
  have hstructural : Keyword.structural? (String.ofList w) = none := by
    refine spelling?_eq_none fun s hs heq => ?_
    have hall : ∀ s ∈ Keyword.structural, '_' ∉ upper s.toList := by decide +kernel
    have hmem : '_' ∈ upper w := List.mem_flatMap.2 ⟨'_', h, List.mem_singleton_self _⟩
    rw [uppercase, uppercase, String.toList_ofList, String.ofList_inj] at heq
    rw [← heq] at hmem
    exact hall s hs hmem
  refine ⟨⟨⟨hascii, ?_⟩, ?_⟩, ?_, ?_⟩
  · rw [isBlockWord, hfolded (by decide), hfolded (by decide)]
    rfl
  · rintro rfl
    exact absurd h (by decide)
  · rw [directed, hfolded (by decide), hfolded (by decide), if_neg (by decide), if_neg (by decide)]
  · rw [hstructural]
    intro s hs
    cases hs

end Reserved

/-! ### Names between blanks -/

section Trimmed

variable {cs : List Char}

theorem lexemes_of_isIdentifier_trim (h : isIdentifier (trim cs) = true) :
    lexemes cs = [.word (trim cs)] := by
  rw [← lexemes_trim]
  exact lexemes_of_isIdentifier h

theorem isCompound_of_isIdentifier_trim (h : isIdentifier (trim cs) = true) : IsCompound cs := by
  obtain ⟨a, b, hcs, ha, hb⟩ := exists_blanks_trim cs
  rw [hcs]
  exact ((IsCompound.append fun c hc => .inr (ha c hc)) (isCompound_of_isIdentifier h)).append
    fun c hc => .inr (hb c hc)

/-- The name of a property is an identifier, after which one line end may stand. -/
theorem exists_of_isStoredPropertyName (h : Validation.isStoredPropertyName cs = true) :
    ∃ w b, cs = w ++ b ∧ isIdentifier w = true ∧ (b = [] ∨ b = ['\n']) := by
  rcases Bool.or_eq_true_iff.1 h with h | h
  · exact ⟨cs, [], by simp, Validation.isIdentifier_of_isPropertyName h, .inl rfl⟩
  · obtain ⟨hlast, hname⟩ := Bool.and_eq_true_iff.1 h
    obtain ⟨front, rfl⟩ := List.getLast?_eq_some_iff.1 (beq_iff_eq.1 hlast)
    rw [List.dropLast_concat] at hname
    exact ⟨front, ['\n'], rfl, Validation.isIdentifier_of_isPropertyName hname, .inr rfl⟩

theorem not_isBlank_of_isIdentifier {w : List Char} (h : isIdentifier w = true) :
    ∀ c ∈ w, isBlank c = false := fun _ hc =>
  not_isBlank_of_isIdentChar (Schema.isIdentChar_of_mem h _ hc)

theorem shut_of_isIdentifier {w : List Char} (hw : isIdentifier w = true) : Shut w := by
  cases hlast : w.getLast? with
  | none => exact absurd (List.getLast?_eq_none_iff.1 hlast) (Schema.isIdentifier_ne_nil hw)
  | some c =>
    have hc := Schema.isIdentChar_of_mem hw c (List.mem_of_getLast? hlast)
    refine ⟨c, hlast, not_isBlank_of_isIdentChar hc, ?_⟩
    rintro rfl
    exact absurd hc (by decide)

/-- An identifier is what is left of it and the blanks after it. -/
theorem trim_identifier_append {w b : List Char} (hw : isIdentifier w = true)
    (hb : ∀ c ∈ b, isBlank c = true) : trim (w ++ b) = w := by
  have hchars := not_isBlank_of_isIdentifier hw
  have hbetween := trim_between (a := []) (by simp) hb
    (fun c hc => hchars c (List.mem_of_head? hc)) fun c hc => hchars c (List.mem_of_getLast? hc)
  rwa [List.nil_append] at hbetween

/-- An identifier has no blanks around it. -/
theorem trimmed_of_isIdentifier {s : String} (h : isIdentifier s.toList = true) : trimmed s = s := by
  have htrim := trim_identifier_append (b := []) h (List.forall_mem_nil _)
  rw [List.append_nil] at htrim
  rw [trimmed, htrim, String.ofList_toList]

/-- The name of a property starts with an identifier. -/
theorem isIdentifier_trim_of_isStoredPropertyName (h : Validation.isStoredPropertyName cs = true) :
    isIdentifier (trim cs) = true ∧ ∀ c ∈ cs.head?, isBlank c = false := by
  obtain ⟨w, b, rfl, hw, hb⟩ := exists_of_isStoredPropertyName h
  have hblank : ∀ c ∈ b, isBlank c = true := by
    rcases hb with rfl | rfl <;> decide
  refine ⟨by rwa [trim_identifier_append hw hblank], fun c hc => not_isBlank_of_isIdentifier hw c ?_⟩
  rw [List.head?_append_of_ne_nil _ (Schema.isIdentifier_ne_nil hw)] at hc
  exact List.mem_of_head? hc

end Trimmed

/-! ### Counts -/

theorem lowerAfter_eq_flatMap {cs : List Char} (h : 'Σ' ∉ cs) (before : List Char) :
    lowerAfter before cs = cs.flatMap lowerChar := by
  induction cs generalizing before with
  | nil => rfl
  | cons c cs ih =>
    obtain ⟨hc, hcs⟩ := not_or.1 (List.mem_cons.not.1 h)
    have hne : decide (c = 'Σ') = false := decide_eq_false (Ne.symm hc)
    rw [lowerAfter, ih hcs, hne, Bool.false_and, Bool.false_and, if_neg (by decide), List.flatMap_cons]

theorem flatMap_lowerChar_blanks {cs : List Char} (h : ∀ c ∈ cs, isBlank c = true) :
    cs.flatMap lowerChar = cs := by
  induction cs with
  | nil => rfl
  | cons c cs ih =>
    obtain ⟨hc, hcs⟩ := List.forall_mem_cons.1 h
    rw [List.flatMap_cons, ih hcs, (case_of_isBlank hc).2]
    rfl

theorem flatMap_lowerChar_word {cs : List Char} (h : ∀ c ∈ cs, isIdentChar c = true) :
    cs.flatMap lowerChar = cs.map Char.toLower := by
  induction cs with
  | nil => rfl
  | cons c cs ih =>
    obtain ⟨hc, hcs⟩ := List.forall_mem_cons.1 h
    rw [List.flatMap_cons, ih hcs, lowerChar, if_pos (toNat_lt_of_isIdentChar hc)]
    rfl

/-- The lower-case form of a name between blanks. -/
theorem lower_name {a w b : List Char} (ha : ∀ c ∈ a, isBlank c = true)
    (hw : ∀ c ∈ w, isIdentChar c = true) (hb : ∀ c ∈ b, isBlank c = true) :
    lower (a ++ w ++ b) = a ++ w.map Char.toLower ++ b := by
  have hsigma : 'Σ' ∉ a ++ w ++ b := by
    simp only [List.mem_append, not_or]
    exact ⟨⟨fun hmem => absurd (ha _ hmem) (by decide), fun hmem => absurd (hw _ hmem) (by decide)⟩,
      fun hmem => absurd (hb _ hmem) (by decide)⟩
  rw [lower, lowerAfter_eq_flatMap hsigma, List.flatMap_append, List.flatMap_append,
    flatMap_lowerChar_blanks ha, flatMap_lowerChar_word hw, flatMap_lowerChar_blanks hb]

/-- A word beyond the vocabulary is beyond it in lower case. -/
theorem not_isReserved_lower {w : List Char} (hw : ∀ c ∈ w, isIdentChar c = true)
    (h : Keyword.isReserved (String.ofList w) = false) :
    Keyword.isReserved (String.ofList (w.map Char.toLower)) = false := by
  have hcase : ∀ n < 128, (Char.ofNat n).toLower.toUpper = (Char.ofNat n).toUpper := by decide +kernel
  have hlower : ∀ c ∈ w.map Char.toLower, c.toNat < 128 :=
    List.forall_mem_map.2 fun c hc => toNat_lt_of_isIdentChar (isIdentChar_toUpper (hw c hc)).2
  have hupper : upper (w.map Char.toLower) = upper w := by
    rw [upper_of_ascii hlower, upper_of_ascii fun c hc => toNat_lt_of_isIdentChar (hw c hc),
      List.map_map]
    refine List.map_congr_left fun c hc => ?_
    rw [← Char.ofNat_toNat c]
    exact hcase _ (toNat_lt_of_isIdentChar (hw c hc))
  rw [← h, Keyword.isReserved, Keyword.isReserved, uppercase, uppercase, String.toList_ofList,
    String.toList_ofList, hupper]

/-- The field that counts edges of a type is one word, or two if blanks stand after the name. -/
theorem exists_words_count {name : String} (h : isIdentifier (trim name.toList) = true)
    (hreserved : Keyword.isReserved (trimmed name) = false) : ∃ ws,
      lexemes (lowercase name ++ "_count").toList = ws.map .word ∧ (∀ w ∈ ws, IsPlainWord w) ∧
        ws ≠ [] := by
  obtain ⟨a, b, hname, ha, hb⟩ := exists_blanks_trim name.toList
  have hw : ∀ c ∈ trim name.toList, isIdentChar c = true := fun c hc => Schema.isIdentChar_of_mem h c hc
  have hlower : ∀ c ∈ (trim name.toList).map Char.toLower, isIdentChar c = true :=
    List.forall_mem_map.2 fun c hc => (isIdentChar_toUpper (hw c hc)).2
  have hne : (trim name.toList).map Char.toLower ≠ [] := by
    simpa using Schema.isIdentifier_ne_nil h
  have htext : (lowercase name ++ "_count").toList =
      a ++ ((trim name.toList).map Char.toLower ++ (b ++ "_count".toList)) := by
    rw [String.toList_append, lowercase, String.toList_ofList, hname, lower_name ha hw hb, ← hname]
    simp only [List.append_assoc]
  have hword {w : List Char} (hne : w ≠ []) (hw : ∀ c ∈ w, isIdentChar c = true) :
      lexemes w = [.word w] :=
    congrArg (List.map Prod.snd) (tokens_chars (t := .word w)
      ⟨hne, fun c hc => isWordChar_of_isIdentChar (hw c hc)⟩ false)
  rw [htext, lexemes_blanks ha]
  -- blanks behind the name part it from the suffix
  cases b with
  | nil =>
    have hall : ∀ c ∈ (trim name.toList).map Char.toLower ++ "_count".toList, isIdentChar c = true :=
      List.forall_mem_append.2 ⟨hlower, by decide⟩
    refine ⟨[(trim name.toList).map Char.toLower ++ "_count".toList], ?_, ?_, by simp⟩
    · exact hword (by simp) hall
    · rw [List.forall_mem_singleton]
      exact isPlainWord_of_underscore hall (List.mem_append_right _ (by decide))
  | cons c b =>
    obtain ⟨hc, -⟩ := List.forall_mem_cons.1 hb
    refine ⟨[(trim name.toList).map Char.toLower, "_count".toList], ?_, ?_, by simp⟩
    · have hcolon : c ≠ ':' := by
        rintro rfl
        exact absurd hc (by decide)
      have hseam : Seam ((trim name.toList).map Char.toLower) (c :: b ++ "_count".toList) :=
        seam_of_not_glues (isWordChar_of_isBlank hc) hcolon _
      rw [lexemes_append hseam, lexemes_blanks hb, hword hne hlower, hword (by decide) (by decide)]
      rfl
    · simp only [List.forall_mem_cons, List.not_mem_nil, false_imp_iff, implies_true, and_true]
      exact ⟨(isNeutral_of_not_isReserved hlower (not_isReserved_lower hw hreserved)).isPlainWord,
        isPlainWord_of_underscore (by decide) (by decide)⟩

end Library

end Hql
