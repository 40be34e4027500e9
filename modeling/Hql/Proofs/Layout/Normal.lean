import Hql.Proofs.Layout.Chain
import Hql.Proofs.Layout.Respelling

/-!
Code that is tidied again. Its spacing is in order the second time, and every word stands between the
same marks as before; so the spelling found for it is the one that it has. Only where a gap parts a
colon from a double colon would closing the gap give other tokens. Main statement: tidied code without
such a colon stays as it is.
-/

namespace Hql.Layout

open Text

/-- A colon, blanks and a double colon: without the blanks, the double colon is another one. -/
def HasLooseColon (cs : List Char) : Prop :=
  ∃ front blanks back, cs = front ++ ':' :: (blanks ++ ':' :: ':' :: back) ∧ blanks ≠ [] ∧
    ∀ c ∈ blanks, isBlank c = true

/-! ### Loose colons -/

theorem HasLooseColon.of_isInfix {a cs : List Char} (h : HasLooseColon a) (ha : a <:+: cs) :
    HasLooseColon cs := by
  obtain ⟨x, y, rfl⟩ := ha
  obtain ⟨front, blanks, back, rfl, hne, hblanks⟩ := h
  exact ⟨x ++ front, blanks, back ++ y, by simp, hne, hblanks⟩

theorem hasLooseColon_cons {c : Char} {cs : List Char} : HasLooseColon (c :: cs) ↔
    (c = ':' ∧ cs.head?.any isBlank = true ∧ [':', ':'] <+: cs.dropWhile isBlank) ∨
      HasLooseColon cs := by
  constructor
  · rintro ⟨front, blanks, back, hcs, hne, hblanks⟩
    cases front with
    | nil =>
      obtain ⟨rfl, rfl⟩ := List.cons.inj hcs
      obtain ⟨d, blanks, rfl⟩ := List.exists_cons_of_ne_nil hne
      refine .inl ⟨rfl, hblanks d List.mem_cons_self, ?_⟩
      rw [List.dropWhile_append_of_pos hblanks]
      exact ⟨back, rfl⟩
    | cons d front =>
      exact .inr ⟨front, blanks, back, (List.cons.inj hcs).2, hne, hblanks⟩
  · rintro (⟨rfl, hhead, back, hback⟩ | hmore)
    · have hsplit : cs.takeWhile isBlank ++ cs.dropWhile isBlank = cs :=
        List.takeWhile_append_dropWhile
      refine ⟨[], cs.takeWhile isBlank, back, ?_, ?_, fun d hd => List.mem_takeWhile_imp hd⟩
      · rw [← hback] at hsplit
        exact congrArg (':' :: ·) hsplit.symm
      · obtain ⟨d, cs, rfl⟩ : ∃ d ds, cs = d :: ds := by
          cases cs with
          | nil => cases hhead
          | cons d ds => exact ⟨d, ds, rfl⟩
        have hd : isBlank d = true := hhead
        rw [List.takeWhile_cons, if_pos hd]
        simp
    · exact hmore.of_isInfix (List.suffix_cons c cs).isInfix

theorem HasLooseColon.cons {c : Char} {cs : List Char} (h : HasLooseColon cs) :
    HasLooseColon (c :: cs) :=
  hasLooseColon_cons.2 (.inr h)

instance decidableHasLooseColon : (cs : List Char) → Decidable (HasLooseColon cs)
  | [] => .isFalse (by rintro ⟨front, blanks, back, hcs, -⟩; simp at hcs)
  | _ :: cs =>
    have := decidableHasLooseColon cs
    decidable_of_iff' _ hasLooseColon_cons

/-- Only blanks stand before the first token of a text. -/
theorem exists_blanks_of_colons {cs : List Char} (h : (lexemes cs).head? = some .colons) :
    ∃ blanks back, cs = blanks ++ ':' :: ':' :: back ∧ ∀ c ∈ blanks, isBlank c = true := by
  induction cs using tokens_induction with
  | nil => cases h
  | colons cs => exact ⟨[], cs, rfl, by simp⟩
  | blank c cs hc ih =>
    rw [lexemes, tokens_blank hc, map_snd_tokens] at h
    obtain ⟨blanks, back, rfl, hblanks⟩ := ih h
    exact ⟨c :: blanks, back, rfl, List.forall_mem_cons.2 ⟨hc, hblanks⟩⟩
  | word c cs hc =>
    obtain ⟨w, ts, hjoin⟩ := exists_joinWord false c (tokens false cs)
    rw [lexemes, tokens_wordChar hc, hjoin] at h
    cases h
  | mark c cs hblank hword hcolons =>
    rw [lexemes, tokens_mark hblank hword hcolons] at h
    cases h

theorem noLooseColon_lexemes {cs : List Char} (h : ¬ HasLooseColon cs) : NoLooseColon (lexemes cs) := by
  induction cs using tokens_induction with
  | nil => exact .nil
  | colons cs ih =>
    have hrest := ih fun hloose => h hloose.cons.cons
    rw [lexemes, tokens, List.map_cons, map_snd_tokens]
    exact List.isChain_cons.2 ⟨fun t _ hcolon => absurd hcolon.1 (by decide), hrest⟩
  | blank c cs hc ih =>
    rw [lexemes, tokens_blank hc, map_snd_tokens]
    exact ih fun hloose => h hloose.cons
  | word c cs hc ih =>
    have hrest := ih fun hloose => h hloose.cons
    have hword {w : List Char} {ts : List Token} (hts : NoLooseColon ts) :
        NoLooseColon (.word w :: ts) :=
      List.isChain_cons.2 ⟨fun t _ hcolon => absurd hcolon.1 (by simp), hts⟩
    rw [lexemes, tokens_wordChar hc]
    -- the character goes into the word behind it, if there is one
    unfold joinWord
    split
    · rename_i w ts htokens
      rw [lexemes, htokens] at hrest
      exact hword (List.isChain_cons.1 hrest).2
    · rw [List.map_cons, map_snd_tokens]
      exact hword hrest
  | mark c cs hblank hword hcolons ih =>
    have hrest := ih fun hloose => h hloose.cons
    rw [lexemes, tokens_mark hblank hword hcolons, List.map_cons, map_snd_tokens]
    refine List.isChain_cons.2 ⟨fun t ht hcolon => ?_, hrest⟩
    obtain ⟨hc, rfl⟩ := hcolon
    obtain rfl := Token.mark.inj hc
    obtain ⟨blanks, back, rfl, hblanks⟩ := exists_blanks_of_colons ht
    refine h ⟨[], blanks, back, rfl, ?_, hblanks⟩
    rintro rfl
    exact hcolons ⟨rfl, rfl⟩

/-! ### Spacing -/

theorem squeeze_blanks {blanks : List Char} (h : ∀ c ∈ blanks, isBlank c = true) (inRun : Bool)
    (cs : List Char) : squeeze inRun (blanks ++ cs) =
      gapChars (!blanks.isEmpty && !inRun) ++ squeeze (inRun || !blanks.isEmpty) cs := by
  induction blanks generalizing inRun with
  | nil => simp [gapChars]
  | cons c blanks ih =>
    obtain ⟨hc, hblanks⟩ := List.forall_mem_cons.1 h
    have hrest : squeeze true (blanks ++ cs) = squeeze true cs := by
      rw [ih hblanks, Bool.not_true, Bool.and_false, Bool.true_or]
      rfl
    rw [List.cons_append, squeeze, if_pos hc, hrest]
    cases inRun <;> rfl

theorem head_squeeze_eq {c : Char} (hc : isBlank c = false) (cs : List Char) :
    (squeeze false cs).head? = some c ↔ cs.head? = some c := by
  cases cs with
  | nil => rfl
  | cons d cs =>
    rw [squeeze]
    split
    · rename_i hd
      rw [if_neg (by decide), List.head?_cons, List.head?_cons, Option.some_inj, Option.some_inj]
      constructor
      · rintro rfl
        exact absurd hc (by decide)
      · rintro rfl
        rw [hc] at hd
        cases hd
    · rfl

/-- Blanks around double colons may go before runs of blanks are squeezed or after. -/
theorem squeeze_joinChains {pending : List Char} {after : Bool} (inRun : Bool) (cs : List Char)
    (hpending : ∀ c ∈ pending, isBlank c = true) (hafter : after = true → pending = [])
    (hrun : after = false → inRun = !pending.isEmpty) :
    squeeze false (joinChains pending after cs) =
      joinChains (gapChars (!pending.isEmpty)) after (squeeze inRun cs) := by
  have hwaiting (pending rest : List Char) (hpending : ∀ c ∈ pending, isBlank c = true) :
      squeeze false (pending.reverse ++ rest) =
        (gapChars (!pending.isEmpty)).reverse ++ squeeze (!pending.isEmpty) rest := by
    rw [squeeze_blanks (by simpa using hpending), List.isEmpty_reverse]
    cases pending <;> rfl
  fun_induction joinChains pending after cs generalizing inRun with
  | case1 pending after =>
    have hend := hwaiting pending [] hpending
    rw [List.append_nil] at hend
    rw [hend]
    cases pending <;> simp [squeeze, joinChains]
  | case2 pending after cs ih =>
    have hcolon : isBlank ':' = false := by decide
    simp only [squeeze, hcolon, Bool.false_eq_true, if_false, joinChains]
    rw [ih false (by simp) (fun _ => rfl) (by simp)]
    rfl
  | case3 pending after c cs hcolons hc ih =>
    have hspace (gap : Bool) (cs : List Char) : joinChains [] gap (' ' :: cs) =
        joinChains (gapChars (!gap)) gap cs := by
      rw [joinChains_cons fun h => absurd h.1 (by decide), if_pos (by decide)]
      cases gap <;> rfl
    rw [squeeze, if_pos hc]
    cases after with
    | true =>
      obtain rfl := hafter rfl
      rw [if_pos rfl] at ih ⊢
      rw [ih true (by simp) (fun _ => rfl) (by simp)]
      cases inRun with
      | true => rfl
      | false => exact (hspace true _).symm
    | false =>
      obtain rfl := hrun rfl
      rw [if_neg (by decide)] at ih ⊢
      rw [ih true (List.forall_mem_cons.2 ⟨hc, hpending⟩) (by simp) (by simp)]
      cases pending with
      | nil => exact (hspace false _).symm
      | cons d pending => rfl
  | case4 pending after c cs hcolons hc ih =>
    -- squeezing brings no second colon next to this character
    have hsingle : ¬ (c = ':' ∧ (squeeze false cs).head? = some ':') := by
      rintro ⟨rfl, hhead⟩
      obtain ⟨more, rfl⟩ := List.head?_eq_some_iff.1 ((head_squeeze_eq (by decide) cs).1 hhead)
      exact hcolons more rfl rfl
    rw [hwaiting pending _ hpending, squeeze, if_neg hc, squeeze, if_neg hc, joinChains_cons hsingle,
      if_neg hc, ih false (by simp) (by simp) (by simp)]
    rfl

/-- What spacing leaves of a text is written from its tokens. The comma at the end takes a gap there
for a gap between tokens. -/
theorem space_comma_eq_written (cs : List Char) :
    space (cs ++ [',']) = written (tight (tokens false (cs ++ [',']))) := by
  have hsqueeze : squeeze false (cs ++ [',']) = written (tokens false (cs ++ [','])) := by
    have hend : gapAfter false (cs ++ [',']) = false := by
      rw [gapAfter_append]
      rfl
    have hwritten := squeeze_eq_written false (cs ++ [','])
    rw [hend] at hwritten
    simpa [gapChars] using hwritten
  have hagain : squeeze false (written (tokens false (cs ++ [',']))) =
      written (tokens false (cs ++ [','])) := squeeze_written (fits_tokens false _).sound
  have hjoin (text : List Char) : squeeze false (joinChains [] false text) =
      joinChains [] false (squeeze false text) :=
    squeeze_joinChains false text (by simp) (by simp) (by simp)
  calc space (cs ++ [','])
      = space (written (tokens false (cs ++ [',']))) := by
        rw [space, space, hjoin, hjoin, hsqueeze, hagain]
    _ = written (tight (tokens false (cs ++ [',']))) := space_written (fits_tokens false _)

/-! ### Tokens in other spellings -/

/-- The same token, or another word in the place of a word. -/
inductive Token.Resembles : Token → Token → Prop
  | refl (t : Token) : Resembles t t
  | word {w v : List Char} : (Token.word v).IsSound → Resembles (.word w) (.word v)

/-- The same tokens with the same gaps, but for words in the place of words. -/
def Resemble (ts us : Tokens) : Prop :=
  List.Forall₂ (fun x y => y.1 = x.1 ∧ x.2.Resembles y.2) ts us

namespace Token.Resembles

variable {t t' u u' : Token}

theorem isSound (h : t.Resembles t') (ht : t.IsSound) : t'.IsSound := by
  cases h with
  | refl => exact ht
  | word hv => exact hv

theorem clings_eq (ht : t.Resembles t') (hu : u.Resembles u') : t'.clings u' = t.clings u := by
  cases ht with
  | refl =>
    cases hu with
    | refl => rfl
    | word => cases t <;> rfl
  | word =>
    cases hu with
    | refl => cases u <;> rfl
    | word => rfl

theorem tightGap_eq (ht : t.Resembles t') (hu : u.Resembles u') :
    tightGap (some t') u' = tightGap (some t) u := by
  cases ht <;> cases hu <;> rfl

end Token.Resembles

namespace Resemble

variable {ts us : Tokens}

theorem fits (h : Resemble ts us) (hts : Fits ts) : Fits us := by
  induction h with
  | nil => exact .nil
  | @cons x y ts us hxy hrest ih =>
    obtain ⟨hx, hfirst, hmore⟩ := Fits.cons_iff.1 hts
    refine Fits.cons_iff.2 ⟨hxy.2.isSound hx, fun z hz hclings => ?_, ih hmore⟩
    cases hrest with
    | nil => cases hz
    | @cons x' _ ts us hxz _ =>
      obtain rfl := Option.some.inj hz
      rw [hxy.2.clings_eq hxz.2] at hclings
      rw [hxz.1]
      exact hfirst x' rfl hclings

/-- Which gaps are kept does not depend on the words. -/
theorem regap_eq (h : Resemble ts us) {before before' : Option Token}
    (hbefore : ∀ t t', t.Resembles t' → tightGap before' t' = tightGap before t)
    (hts : regap tightGap before ts = ts) : regap tightGap before' us = us := by
  induction h generalizing before before' with
  | nil => rfl
  | @cons x y ts us hxy hrest ih =>
    obtain ⟨gap, t⟩ := x
    obtain ⟨gap', t'⟩ := y
    obtain ⟨rfl, hresembles⟩ : gap' = gap ∧ t.Resembles t' := hxy
    rw [regap, List.cons.injEq, Prod.mk.injEq] at hts
    obtain ⟨⟨hgap, -⟩, hmore⟩ := hts
    rw [regap, hbefore t t' hresembles, hgap, ih (fun u u' hu => hresembles.tightGap_eq hu) hmore]

theorem tight_eq (h : Resemble ts us) (hts : tight ts = ts) : tight us = us := by
  refine h.regap_eq (fun t t' hresembles => ?_) hts
  cases hresembles <;> rfl

end Resemble

theorem Reworded.eq_nil {d : List Char} (h : Reworded [] d) : d = [] := by
  generalize hx : [] = x at h
  cases h with
  | nil => rfl
  | mark => cases hx
  | word hne => exact absurd (List.append_eq_nil_iff.1 hx.symm).1 hne

theorem Reworded.of_mark {c : Char} (hc : isWordChar c = false) {cs d : List Char}
    (h : Reworded (c :: cs) d) : ∃ ds, d = c :: ds ∧ Reworded cs ds := by
  generalize hx : c :: cs = x at h
  cases h with
  | nil => cases hx
  | mark _ hmore =>
    obtain ⟨rfl, rfl⟩ := List.cons.inj hx
    exact ⟨_, rfl, hmore⟩
  | word hne hw =>
    obtain ⟨d, w, rfl⟩ := List.exists_cons_of_ne_nil hne
    obtain ⟨rfl, -⟩ := List.cons.inj hx
    rw [hw c List.mem_cons_self] at hc
    cases hc

theorem Reworded.of_word {w cs d : List Char} (hne : w ≠ []) (hw : ∀ c ∈ w, isWordChar c = true)
    (hcs : ∀ d ∈ cs.head?, isWordChar d = false) (h : Reworded (w ++ cs) d) :
    ∃ w' ds, d = w' ++ ds ∧ Respelled w w' ∧ Reworded cs ds := by
  -- a word at the start of a text is all its word characters there
  have hfront {w cs : List Char} (hw : ∀ c ∈ w, isWordChar c = true)
      (hcs : ∀ d ∈ cs.head?, isWordChar d = false) : (w ++ cs).takeWhile isWordChar = w := by
    rw [List.takeWhile_append_of_pos hw]
    cases cs with
    | nil => simp
    | cons d cs => simp [hcs d rfl]
  generalize hx : w ++ cs = x at h
  cases h with
  | nil => exact absurd (List.append_eq_nil_iff.1 hx).1 hne
  | mark hc =>
    obtain ⟨d, w, rfl⟩ := List.exists_cons_of_ne_nil hne
    obtain ⟨rfl, -⟩ := List.cons.inj hx
    rw [hw d List.mem_cons_self] at hc
    cases hc
  | @word v v' cs' ds _ hv hcs' hrespelled hmore =>
    have hwords := hfront hw hcs
    rw [hx, hfront hv hcs'] at hwords
    subst hwords
    rw [List.append_cancel_left hx]
    exact ⟨v', ds, rfl, hrespelled, hmore⟩

theorem Reworded.of_gapChars {gap : Bool} {cs d : List Char} (h : Reworded (gapChars gap ++ cs) d) :
    ∃ ds, d = gapChars gap ++ ds ∧ Reworded cs ds := by
  cases gap with
  | false => exact ⟨d, rfl, h⟩
  | true => exact h.of_mark (by decide)

/-- A text with reserved words in other spellings is written from the same tokens, but for those
words. -/
theorem Reworded.exists_written {ts : Tokens} (h : Fits ts) {d : List Char}
    (hd : Reworded (written ts) d) : ∃ us, Resemble ts us ∧ d = written us := by
  induction ts generalizing d with
  | nil => exact ⟨[], .nil, hd.eq_nil⟩
  | cons x ts ih =>
    obtain ⟨gap, t⟩ := x
    obtain ⟨ht, hfirst, hrest⟩ := Fits.cons_iff.1 h
    rw [written, List.append_assoc] at hd
    obtain ⟨d, rfl, htoken⟩ := hd.of_gapChars
    cases t with
    | colons =>
      obtain ⟨d', rfl, hsecond⟩ := htoken.of_mark (by decide)
      obtain ⟨d, rfl, hmore⟩ := hsecond.of_mark (by decide)
      obtain ⟨us, hus, rfl⟩ := ih hrest hmore
      exact ⟨(gap, .colons) :: us, .cons ⟨rfl, .refl _⟩ hus, by simp [written, Token.chars]⟩
    | mark c =>
      obtain ⟨d, rfl, hmore⟩ := htoken.of_mark ht.2
      obtain ⟨us, hus, rfl⟩ := ih hrest hmore
      exact ⟨(gap, .mark c) :: us, .cons ⟨rfl, .refl _⟩ hus, by simp [written, Token.chars]⟩
    | word w =>
      obtain ⟨w', d, rfl, hw', hmore⟩ :=
        htoken.of_word ht.1 ht.2 (not_isWordChar_head_written hrest hfirst)
      obtain ⟨us, hus, rfl⟩ := ih hrest hmore
      exact ⟨(gap, .word w') :: us, .cons ⟨rfl, .word (hw'.isWordRun ht.1 ht.2)⟩ hus,
        by simp [written, Token.chars]⟩

/-- Tidied code is written from tokens with their spacing in order. -/
theorem exists_tidyCode_eq_written {cs : List Char} (h : ¬ HasLooseColon cs) :
    ∃ us, Fits us ∧ tight us = us ∧ tidyCode (cs ++ [',']) = written us := by
  have hcolon : NoLooseColon ((tokens false (cs ++ [','])).map Prod.snd) := by
    have hseam : Seam cs [','] := by
      intro c _ d hd
      obtain rfl := Option.some.inj hd
      cases hc : c == ':' <;> cases hword : isWordChar c <;> simp [glues, hc, hword] <;> decide
    rw [map_snd_tokens, lexemes_append hseam]
    refine List.isChain_append.2 ⟨noLooseColon_lexemes h, .singleton _, fun t _ u hu hloose => ?_⟩
    rw [hloose.2] at hu
    exact absurd hu (by decide)
  have htight := (fits_tokens false (cs ++ [','])).tight hcolon
  -- both passes over words keep the tokens, up to the words themselves
  obtain ⟨us, hus, hdirections⟩ := (reworded_spellDirections _).exists_written htight
  obtain ⟨vs, hvs, hwords⟩ := (reworded_spellWords [] _).exists_written (hus.fits htight)
  refine ⟨vs, hvs.fits (hus.fits htight), hvs.tight_eq (hus.tight_eq (tight_tight _)), ?_⟩
  rw [tidyCode, space_comma_eq_written, hdirections, hwords]

/-! ### Words between the same marks -/

/-- Texts with the same characters outside words, and words in the place of words. -/
inductive SameMarks : List Char → List Char → Prop
  | nil : SameMarks [] []
  | mark {c : Char} {cs ds : List Char} : isWordChar c = false → SameMarks cs ds →
      SameMarks (c :: cs) (c :: ds)
  | word {w v cs ds : List Char} : w ≠ [] → (∀ c ∈ w, isWordChar c = true) → v ≠ [] →
      (∀ c ∈ v, isWordChar c = true) → SameMarks cs ds → SameMarks (w ++ cs) (v ++ ds)

theorem Reworded.sameMarks {cs ds : List Char} (h : Reworded cs ds) : SameMarks cs ds := by
  induction h with
  | nil => exact .nil
  | mark hc _ ih => exact .mark hc ih
  | word hne hw _ hrespelled _ ih =>
    obtain ⟨hne', hw'⟩ := hrespelled.isWordRun hne hw
    exact .word hne hw hne' hw' ih

theorem ne_of_isWordChar {c d : Char} (hc : isWordChar c = true) (hd : isWordChar d = false) :
    c ≠ d := by
  rintro rfl
  rw [hd] at hc
  cases hc

theorem exists_cons_of_word {w : List Char} (hne : w ≠ []) (hw : ∀ c ∈ w, isWordChar c = true)
    (cs : List Char) : ∃ c more, w ++ cs = c :: more ∧ isWordChar c = true := by
  obtain ⟨c, w, rfl⟩ := List.exists_cons_of_ne_nil hne
  exact ⟨c, w ++ cs, rfl, hw c List.mem_cons_self⟩

namespace SameMarks

variable {a b : List Char}

theorem head_eq (h : SameMarks a b) {d : Char} (hd : isWordChar d = false) :
    (a.head? == some d) = (b.head? == some d) := by
  have hword {w : List Char} (hne : w ≠ []) (hw : ∀ c ∈ w, isWordChar c = true) (cs : List Char) :
      ((w ++ cs).head? == some d) = false := by
    obtain ⟨c, more, hcons, hc⟩ := exists_cons_of_word hne hw cs
    rw [hcons]
    exact beq_false_of_ne fun hhead => ne_of_isWordChar hc hd (Option.some.inj hhead)
  cases h with
  | nil => rfl
  | mark => rfl
  | word hne hw hne' hw' => rw [hword hne hw, hword hne' hw']

theorem isPrefixOf_colons_eq (h : SameMarks a b) :
    [':', ':'].isPrefixOf a = [':', ':'].isPrefixOf b := by
  have hword {w : List Char} (hne : w ≠ []) (hw : ∀ c ∈ w, isWordChar c = true) (cs : List Char) :
      [':', ':'].isPrefixOf (w ++ cs) = false := by
    obtain ⟨c, more, hcons, hc⟩ := exists_cons_of_word hne hw cs
    have hcolon : (':' == c) = false := beq_false_of_ne (ne_of_isWordChar hc (by decide)).symm
    rw [hcons, List.isPrefixOf, hcolon, Bool.false_and]
  have hhead (cs : List Char) : [':'].isPrefixOf cs = (cs.head? == some ':') := by
    cases cs with
    | nil => rfl
    | cons c cs =>
      have hsymm : (':' == c) = (c == ':') := Bool.beq_comm ..
      simpa [List.isPrefixOf] using hsymm
  cases h with
  | nil => rfl
  | mark _ h => rw [List.isPrefixOf, hhead, h.head_eq (by decide), ← hhead, ← List.isPrefixOf]
  | word hne hw hne' hw' => rw [hword hne hw, hword hne' hw']

theorem isEmpty_eq (h : SameMarks a b) : a.isEmpty = b.isEmpty := by
  cases h with
  | nil => rfl
  | mark => rfl
  | word hne _ hne' =>
    obtain ⟨c, w, rfl⟩ := List.exists_cons_of_ne_nil hne
    obtain ⟨d, v, rfl⟩ := List.exists_cons_of_ne_nil hne'
    rfl

/-- What no word starts with can be dropped. -/
theorem dropWhile (h : SameMarks a b) {p : Char → Bool}
    (hp : ∀ c, isWordChar c = true → p c = false) :
    SameMarks (a.dropWhile p) (b.dropWhile p) := by
  have hword {w : List Char} (hne : w ≠ []) (hw : ∀ c ∈ w, isWordChar c = true) (cs : List Char) :
      (w ++ cs).dropWhile p = w ++ cs := by
    obtain ⟨c, more, hcons, hc⟩ := exists_cons_of_word hne hw cs
    rw [hcons, List.dropWhile_cons_of_neg (by simp [hp c hc])]
  induction h with
  | nil => exact .nil
  | @mark c cs ds hc h ih =>
    rw [List.dropWhile_cons, List.dropWhile_cons]
    split
    · exact ih
    · exact .mark hc h
  | word hne hw hne' hw' h =>
    rw [hword hne hw, hword hne' hw']
    exact .word hne hw hne' hw' h

/-- The brackets that are open before a place are told from the characters outside words. -/
theorem inValueBlock_eq (h : SameMarks a b) (depth : Nat) {after after' : Option Char}
    (hafter : (after == some '-') = (after' == some '-')) :
    inValueBlock depth after a = inValueBlock depth after' b := by
  have hword {w : List Char} (hne : w ≠ []) (hw : ∀ c ∈ w, isWordChar c = true) (depth : Nat)
      (after : Option Char) (cs : List Char) : ∃ d, d ≠ '-' ∧
        inValueBlock depth after (w ++ cs) = inValueBlock depth (some d) cs := by
    induction w generalizing after with
    | nil => exact absurd rfl hne
    | cons c w ih =>
      obtain ⟨hc, hw⟩ := List.forall_mem_cons.1 hw
      obtain ⟨hopen, hclose⟩ := not_bracket_of_isWordChar hc
      have hstep : inValueBlock depth after (c :: (w ++ cs)) =
          inValueBlock depth (some c) (w ++ cs) := by
        rw [inValueBlock, hclose, if_neg (by decide), hopen, Bool.false_and, if_neg (by decide)]
      rw [List.cons_append, hstep]
      by_cases hnil : w = []
      · exact ⟨c, ne_of_isWordChar hc (by decide), by rw [hnil, List.nil_append]⟩
      · exact ih hnil hw (some c)
  induction h generalizing depth after after' with
  | nil => rfl
  -- what the scan asks of the text behind a mark is the same in both texts
  | @mark c cs ds hc h ih =>
    have hcontext := h.dropWhile (p := isBlank) fun c => not_isBlank_of_isWordChar
    simp only [inValueBlock, hafter, h.head_eq (d := '=') (by decide),
      h.head_eq (d := '-') (by decide), hcontext.isEmpty_eq, hcontext.head_eq (d := '(') (by decide),
      hcontext.head_eq (d := ',') (by decide), hcontext.isPrefixOf_colons_eq]
    simp only [ih depth rfl, ih (depth + 1) rfl, ih (depth - 1) rfl]
  | word hne hw hne' hw' h ih =>
    obtain ⟨d, hd, hleft⟩ := hword hne hw depth after _
    obtain ⟨e, he, hright⟩ := hword hne' hw' depth after' _
    rw [hleft, hright]
    exact ih depth (by simp [hd, he])

/-- The spelling of a word is told from the characters outside words. -/
theorem spelling_eq {before before' after after' : List Char} (hbefore : SameMarks before before')
    (hafter : SameMarks after after') (w : List Char) :
    spelling before after w = spelling before' after' w := by
  have hspace : ∀ c, isWordChar c = true → (c == ' ') = false :=
    fun c hc => beq_false_of_ne (ne_of_isWordChar hc (by decide))
  have hb := hbefore.dropWhile hspace
  have ha := hafter.dropWhile hspace
  apply spelling_congr
  · rw [hb.head_eq (by decide), ha.head_eq (by decide)]
  · rw [inCallPosition, inCallPosition, hb.isPrefixOf_colons_eq, ha.isPrefixOf_colons_eq,
      ha.head_eq (by decide), ha.head_eq (by decide)]
  · rw [inTypePosition, inTypePosition, hb.head_eq (by decide), hb.head_eq (by decide),
      hb.head_eq (by decide), hb.isPrefixOf_colons_eq, hb.inValueBlock_eq 0 rfl,
      ha.head_eq (by decide)]

end SameMarks

/-! ### Words spelled again -/

/-- A spelling is found by the upper-case form of a word alone. -/
theorem spelling?_congr (called typed : Bool) {w v : List Char}
    (h : uppercase (String.ofList v) = uppercase (String.ofList w)) :
    spelling? called typed v = spelling? called typed w := by
  rw [spelling?, spelling?, Keyword.step?, Keyword.structural?, Keyword.type?, h]
  rfl

/-- A word is spelled as it is the second time. -/
theorem spelling_spelling (before after w : List Char) :
    spelling before after (spelling before after w) = spelling before after w := by
  rcases spelling_eq_or before after w with hsame | ⟨s, hs, hbraces, hspelled⟩
  · rw [hsame, hsame]
  · obtain ⟨-, hupper⟩ := of_spelling?_eq_some hs
    have hfound := (spelling?_congr _ _ (by rw [String.ofList_toList, hupper])).trans hs
    rw [spelling?] at hfound
    rw [hspelled, spelling, hbraces]
    split
    · rfl
    · rw [if_neg (by decide)]
      dsimp only
      rw [hfound]

theorem directed_directed (w : List Char) : directed (directed w) = directed w := by
  have hcases : directed w = ['A', 's', 'c'] ∨ directed w = ['D', 'e', 's', 'c'] ∨ directed w = w := by
    rw [directed]
    split
    · exact .inl rfl
    · split
      · exact .inr (.inl rfl)
      · exact .inr (.inr rfl)
  rcases hcases with hasc | hdesc | hsame
  · rw [hasc]
    decide
  · rw [hdesc]
    decide
  · rw [hsame, hsame]

/-- No word of the vocabulary is a sort direction in another spelling. -/
theorem directed_spelling {w : List Char} (h : directed w = w) (before after : List Char) :
    directed (spelling before after w) = spelling before after w := by
  have hvocabulary : ∀ s ∈ Keyword.structural ++ Keyword.steps ++ Keyword.types ++ Keyword.functions,
      directed s.toList = s.toList := by decide +kernel
  rcases spelling_eq_or before after w with hsame | ⟨s, hs, -, hspelled⟩
  · rw [hsame, h]
  · rw [hspelled]
    exact hvocabulary s (of_spelling?_eq_some hs).1

/-- Spelling the words of a text leaves no sort direction in another spelling. -/
theorem spellDirections_spellWords (before cs : List Char) :
    spellDirections (spellWords before (runs (spellDirections cs))) =
      spellWords before (runs (spellDirections cs)) := by
  induction cs using words_induction generalizing before with
  | nil => rfl
  | mark c cs hc ih => rw [spellDirections_mark hc, spellWords_mark hc, spellDirections_mark hc, ih]
  | word w cs hne hw hcs ih =>
    have hrest : ∀ d ∈ (spellDirections cs).head?, isWordChar d = false :=
      (reworded_spellDirections cs).not_isWordChar_head hcs
    obtain ⟨hne', hw'⟩ := (respelled_directed w).isWordRun hne hw
    obtain ⟨hne'', hw''⟩ :=
      (respelled_run before (spellDirections cs) (directed w)).isWordRun hne' hw'
    rw [spellDirections_word hne hw hcs, spellWords_word hne' hw' hrest,
      spellDirections_word hne'' hw'' ((reworded_spellWords _ _).not_isWordChar_head hrest), ih]
    split
    · rw [directed_spelling (directed_directed w)]
    · rw [directed_directed]

/-- Spelling the words of a text again, behind the same marks, changes nothing. -/
theorem spellWords_spellWords {before before' : List Char} (hbefore : SameMarks before before')
    (cs : List Char) : spellWords before' (runs (spellWords before (runs cs))) =
      spellWords before (runs cs) := by
  induction cs using words_induction generalizing before before' with
  | nil => rfl
  | mark c cs hc ih => rw [spellWords_mark hc, spellWords_mark hc, ih (.mark hc hbefore)]
  | word w cs hne hw hcs ih =>
    have hrest := reworded_spellWords (w.reverse ++ before) cs
    obtain ⟨hne', hw'⟩ := (respelled_run before cs w).isWordRun hne hw
    rw [spellWords_word hne hw hcs, spellWords_word hne' hw' (hrest.not_isWordChar_head hcs),
      ← hbefore.spelling_eq hrest.sameMarks]
    have hnext : SameMarks (w.reverse ++ before)
        ((if isWord w then spelling before cs w else w).reverse ++ before') :=
      .word (by simpa using hne) (by simpa using hw) (by simpa using hne')
        (fun c hc => hw' c (List.mem_reverse.1 hc)) hbefore
    rw [ih hnext]
    congr 1
    by_cases hstart : isWord w = true
    · rw [if_pos hstart, spelling_spelling, ite_self]
    · rw [if_neg hstart, if_neg hstart]

/-- Tidied code stays as it is. -/
theorem tidyCode_tidyCode {cs : List Char} (h : ¬ HasLooseColon cs) :
    tidyCode (tidyCode cs) = tidyCode cs := by
  obtain ⟨us, hus, htight, hwritten⟩ := exists_tidyCode_eq_written h
  -- a comma behind the code makes its last gap one between tokens, and is taken away in the end
  have hspace : space (tidyCode (cs ++ [','])) = tidyCode (cs ++ [',']) := by
    rw [hwritten, space_written hus, htight]
  have hcomma : tidyCode (tidyCode (cs ++ [','])) = tidyCode (cs ++ [',']) := by
    rw [tidyCode, hspace, tidyCode, spellDirections_spellWords, spellWords_spellWords .nil]
  rw [tidyCode_comma, tidyCode_comma] at hcomma
  exact List.append_cancel_right hcomma

/-! ### Line feeds -/

theorem eq_space_of_mem_squeeze {c : Char} (hc : isBlank c = true) (inRun : Bool) {cs : List Char}
    (h : c ∈ squeeze inRun cs) : c = ' ' := by
  induction cs generalizing inRun with
  | nil => cases h
  | cons d cs ih =>
    rw [squeeze] at h
    split at h
    · split at h
      · exact ih true h
      · exact (List.mem_cons.1 h).elim id (ih true)
    · rename_i hd
      rcases List.mem_cons.1 h with rfl | h
      · exact absurd hc hd
      · exact ih false h

theorem closeAfter_sublist (bracket : Char) (skip : Bool) (cs : List Char) :
    (closeAfter bracket skip cs).Sublist cs := by
  induction cs generalizing skip with
  | nil => exact .slnil
  | cons c cs ih =>
    rw [closeAfter]
    split
    · exact (ih true).cons c
    · exact (ih _).cons_cons c

theorem closeBefore_sublist (bracket : Char) (cs : List Char) :
    (closeBefore bracket cs).Sublist cs := by
  have h := (closeAfter_sublist bracket false cs.reverse).reverse
  rwa [List.reverse_reverse] at h

theorem space_sublist (cs : List Char) :
    (space cs).Sublist (squeeze false (joinChains [] false cs)) :=
  (closeBefore_sublist _ _).trans <| (closeAfter_sublist _ _ _).trans <|
    (closeBefore_sublist _ _).trans <| closeAfter_sublist _ _ _

theorem Reworded.mem {cs ds : List Char} (h : Reworded cs ds) {c : Char} (hc : isWordChar c = false)
    (hmem : c ∈ ds) : c ∈ cs := by
  induction h with
  | nil => cases hmem
  | mark _ _ ih => exact (List.mem_cons.1 hmem).elim (fun heq => by simp [heq]) fun h => by simp [ih h]
  | word hne hw _ hrespelled _ ih =>
    rcases List.mem_append.1 hmem with hmem | hmem
    · rw [(hrespelled.isWordRun hne hw).2 c hmem] at hc
      cases hc
    · exact List.mem_append_right _ (ih hmem)

/-- Tidied code stands on one line. -/
theorem not_mem_newline_tidyCode (cs : List Char) : '\n' ∉ tidyCode cs := by
  intro hmem
  have hdirections := (reworded_spellWords [] _).mem (by decide) hmem
  have hspace := (reworded_spellDirections _).mem (by decide) hdirections
  have hsqueeze := (space_sublist cs).subset hspace
  exact absurd (eq_space_of_mem_squeeze (by decide) false hsqueeze) (by decide)

end Hql.Layout
