import Hql.Text.Blank
import Hql.Text.Word
import Mathlib.Data.List.Chain
import Mathlib.Data.List.TakeWhile
import Mathlib.Tactic.Common

/-!
The tokens of query text: words, double colons, and marks of one character. Blanks divide tokens and
are kept only as a note whether one stands before a token, so that texts which differ in their
layout can be compared. What is written from tokens has one space for each run of blanks.
-/

namespace Hql

namespace Text

theorem isWordChar_of_isBlank {c : Char} (h : isBlank c = true) : isWordChar c = false := by
  have hapart : (blankRanges.all fun r => wordRanges.all fun w => r.2 < w.1 || w.2 < r.1) = true := by
    decide +kernel
  obtain ⟨r, hr, hlow, hhigh⟩ := (inRanges_iff _ _).1 h
  rw [isWordChar]
  split
  · -- the blanks of ASCII come before all letters
    have hsmall : ∀ n < 128, inRanges blankRanges n = true →
        ((Char.ofNat n).isAlphanum || Char.ofNat n == '_') = false := by decide
    rw [← Char.ofNat_toNat c]
    exact hsmall _ ‹_› h
  · rw [Bool.eq_false_iff]
    intro hword
    obtain ⟨w, hw, hlow', hhigh'⟩ := (inRanges_iff _ _).1 hword
    have := List.all_eq_true.1 (List.all_eq_true.1 hapart r hr) w hw
    simp only [Bool.or_eq_true, decide_eq_true_eq] at this
    omega

theorem dropWhile_of_head {p : Char → Bool} {cs : List Char} (h : ∀ c ∈ cs.head?, p c = false) :
    cs.dropWhile p = cs := by
  cases cs with
  | nil => rfl
  | cons c cs => rw [List.dropWhile_cons_of_neg (by rw [h c rfl]; decide)]

theorem not_isBlank_of_isWordChar {c : Char} (h : isWordChar c = true) : isBlank c = false := by
  rw [Bool.eq_false_iff]
  intro hblank
  rw [isWordChar_of_isBlank hblank] at h
  cases h

end Text

namespace Layout

open Text

/-- A token of query text. -/
inductive Token where
  | word (cs : List Char)
  | colons
  | mark (c : Char)
  deriving DecidableEq

/-- Tokens in order, each with a note whether a blank stands before it. -/
abbrev Tokens := List (Bool × Token)

def Token.chars : Token → List Char
  | word cs => cs
  | colons => [':', ':']
  | mark c => [c]

/-- A space if there is a gap. -/
def gapChars (gap : Bool) : List Char := if gap then [' '] else []

/-- The text of tokens with single spaces. -/
def written : Tokens → List Char
  | [] => []
  | (gap, t) :: ts => gapChars gap ++ t.chars ++ written ts

/-- The text of tokens that stand after the blanks given with them. -/
def spaced : List (List Char × Token) → List Char
  | [] => []
  | (blanks, t) :: ts => blanks ++ t.chars ++ spaced ts

/-- The tokens with a note only of the blanks before them. -/
def noted (ts : List (List Char × Token)) : Tokens := ts.map fun x => (!x.1.isEmpty, x.2)

/-- The tokens with one more word character before them. -/
def joinWord (gap : Bool) (c : Char) : Tokens → Tokens
  | (false, .word cs) :: ts => (gap, .word (c :: cs)) :: ts
  | ts => (gap, .word [c]) :: ts

/-- The tokens of a text. `gap` says that a blank stands before it. -/
def tokens (gap : Bool) : List Char → Tokens
  | [] => []
  | ':' :: ':' :: cs => (gap, .colons) :: tokens false cs
  | c :: cs =>
    if isBlank c then tokens true cs
    else if isWordChar c then joinWord gap c (tokens false cs)
    else (gap, .mark c) :: tokens false cs

/-- The tokens of a text without their gaps. -/
def lexemes (cs : List Char) : List Token := (tokens false cs).map Prod.snd

/-! ### Reading -/

theorem tokens_cons {gap : Bool} {c : Char} {cs : List Char}
    (h : ¬ (c = ':' ∧ cs.head? = some ':')) : tokens gap (c :: cs) =
      if isBlank c then tokens true cs
      else if isWordChar c then joinWord gap c (tokens false cs)
      else (gap, .mark c) :: tokens false cs := by
  rw [tokens]
  rintro rest rfl rfl
  exact h ⟨rfl, rfl⟩

theorem tokens_blank {c : Char} (h : isBlank c = true) (gap : Bool) (cs : List Char) :
    tokens gap (c :: cs) = tokens true cs := by
  rw [tokens_cons, if_pos h]
  rintro ⟨rfl, -⟩
  exact absurd h (by decide)

theorem tokens_wordChar {c : Char} (h : isWordChar c = true) (gap : Bool) (cs : List Char) :
    tokens gap (c :: cs) = joinWord gap c (tokens false cs) := by
  rw [tokens_cons, if_neg (by rw [not_isBlank_of_isWordChar h]; decide), if_pos h]
  rintro ⟨rfl, -⟩
  exact absurd h (by decide)

theorem tokens_mark {c : Char} {cs : List Char} (hblank : isBlank c = false)
    (hword : isWordChar c = false) (hcolons : ¬ (c = ':' ∧ cs.head? = some ':')) (gap : Bool) :
    tokens gap (c :: cs) = (gap, .mark c) :: tokens false cs := by
  rw [tokens_cons hcolons, if_neg (by rw [hblank]; decide), if_neg (by rw [hword]; decide)]

/-- Induction along the reading of a text: it starts with a double colon, a blank, a word character or
a mark. -/
@[elab_as_elim]
theorem tokens_induction {motive : List Char → Prop} (cs : List Char) (nil : motive [])
    (colons : ∀ cs, motive cs → motive (':' :: ':' :: cs))
    (blank : ∀ c cs, isBlank c = true → motive cs → motive (c :: cs))
    (word : ∀ c cs, isWordChar c = true → motive cs → motive (c :: cs))
    (mark : ∀ c cs, isBlank c = false → isWordChar c = false → ¬ (c = ':' ∧ cs.head? = some ':') →
      motive cs → motive (c :: cs)) : motive cs := by
  induction false, cs using tokens.induct with
  | case1 => exact nil
  | case2 _ cs ih => exact colons cs ih
  | case3 _ c cs _ hblank ih => exact blank c cs hblank ih
  | case4 _ c cs _ _ hword ih => exact word c cs hword ih
  | case5 _ c cs hcolons hblank hword ih =>
    refine mark c cs (Bool.not_eq_true _ ▸ hblank) (Bool.not_eq_true _ ▸ hword) ?_ ih
    rintro ⟨rfl, hhead⟩
    obtain ⟨cs, rfl⟩ := List.head?_eq_some_iff.1 hhead
    exact hcolons cs rfl rfl

theorem map_snd_joinWord (gap gap' : Bool) (c : Char) (ts : Tokens) :
    (joinWord gap c ts).map Prod.snd = (joinWord gap' c ts).map Prod.snd := by
  unfold joinWord
  split <;> rfl

/-- What stands before a text makes no difference to its tokens. -/
@[simp] theorem map_snd_tokens (gap : Bool) (cs : List Char) :
    (tokens gap cs).map Prod.snd = lexemes cs := by
  rw [lexemes]
  induction cs using tokens_induction with
  | nil => rfl
  | colons => rfl
  | blank c cs hc => rw [tokens_blank hc, tokens_blank hc]
  | word c cs hc => rw [tokens_wordChar hc, tokens_wordChar hc, map_snd_joinWord]
  | mark c cs hblank hword hcolons =>
    rw [tokens_mark hblank hword hcolons, tokens_mark hblank hword hcolons]
    rfl

theorem exists_joinWord (gap : Bool) (c : Char) (ts : Tokens) :
    ∃ w ts', joinWord gap c ts = (gap, .word (c :: w)) :: ts' := by
  unfold joinWord
  split
  · exact ⟨_, _, rfl⟩
  · exact ⟨_, _, rfl⟩

theorem gap_of_tokens_true {cs : List Char} {x : Bool × Token} {ts : Tokens}
    (h : tokens true cs = x :: ts) : x.1 = true := by
  induction cs using tokens_induction with
  | nil => cases h
  | colons cs =>
    obtain ⟨rfl, -⟩ := List.cons.inj h
    rfl
  | blank c cs hc ih =>
    rw [tokens_blank hc] at h
    exact ih h
  | word c cs hc =>
    obtain ⟨w, ts', hjoin⟩ := exists_joinWord true c (tokens false cs)
    rw [tokens_wordChar hc, hjoin] at h
    obtain ⟨rfl, -⟩ := List.cons.inj h
    rfl
  | mark c cs hblank hword hcolons =>
    rw [tokens_mark hblank hword hcolons] at h
    obtain ⟨rfl, -⟩ := List.cons.inj h
    rfl

/-- A text starts as its first token does, unless there is a gap. -/
theorem head_of_tokens {gap : Bool} {cs : List Char} {t : Token} {ts : Tokens}
    (h : tokens gap cs = (false, t) :: ts) : cs.head? = t.chars.head? := by
  cases cs using tokens_induction with
  | nil => cases h
  | colons =>
    obtain ⟨heq, -⟩ := List.cons.inj h
    obtain ⟨-, rfl⟩ := Prod.mk.inj heq
    rfl
  | blank c cs hc =>
    rw [tokens_blank hc] at h
    exact absurd (gap_of_tokens_true h) Bool.false_ne_true
  | word c cs hc =>
    obtain ⟨w, ts', hjoin⟩ := exists_joinWord gap c (tokens false cs)
    rw [tokens_wordChar hc, hjoin] at h
    obtain ⟨heq, -⟩ := List.cons.inj h
    obtain ⟨-, rfl⟩ := Prod.mk.inj heq
    rfl
  | mark c cs hblank hword hcolons =>
    rw [tokens_mark hblank hword hcolons] at h
    obtain ⟨heq, -⟩ := List.cons.inj h
    obtain ⟨-, rfl⟩ := Prod.mk.inj heq
    rfl

/-! ### Tokens that fit together -/

/-- A word of word characters, or a mark that is neither a word character nor a blank. -/
def Token.IsSound : Token → Prop
  | word cs => cs ≠ [] ∧ ∀ c ∈ cs, isWordChar c = true
  | colons => True
  | mark c => isBlank c = false ∧ isWordChar c = false

/-- Without a gap between them, two tokens would be read as something else. -/
def Token.clings : Token → Token → Bool
  | word _, word _ => true
  | mark c, mark d => c == ':' && d == ':'
  | mark c, colons => c == ':'
  | _, _ => false

/-- Tokens that are read again when they are written. -/
structure Fits (ts : Tokens) : Prop where
  sound : ∀ x ∈ ts, x.2.IsSound
  apart : ts.IsChain fun x y => x.2.clings y.2 = true → y.1 = true

namespace Fits

theorem nil : Fits [] := ⟨by simp, .nil⟩

theorem cons_iff {x : Bool × Token} {ts : Tokens} : Fits (x :: ts) ↔
    x.2.IsSound ∧ (∀ y ∈ ts.head?, x.2.clings y.2 = true → y.1 = true) ∧ Fits ts := by
  constructor
  · intro h
    obtain ⟨hfirst, hapart⟩ := List.isChain_cons.1 h.apart
    exact ⟨h.sound x (List.mem_cons_self ..), hfirst,
      fun y hy => h.sound y (List.mem_cons_of_mem _ hy), hapart⟩
  · rintro ⟨hx, hfirst, h⟩
    exact ⟨List.forall_mem_cons.2 ⟨hx, h.sound⟩, List.isChain_cons.2 ⟨hfirst, h.apart⟩⟩

theorem of_isInfix {ts us : Tokens} (h : Fits ts) (hus : us <:+: ts) : Fits us :=
  ⟨fun x hx => h.sound x (hus.subset hx), h.apart.infix hus⟩

theorem tail {x : Bool × Token} {ts : Tokens} (h : Fits (x :: ts)) : Fits ts := (cons_iff.1 h).2.2

theorem joinWord {c : Char} {ts : Tokens} (hc : isWordChar c = true) (h : Fits ts) (gap : Bool) :
    Fits (joinWord gap c ts) := by
  unfold Layout.joinWord
  split
  · rename_i w ts
    obtain ⟨⟨-, hw⟩, hfirst, hrest⟩ := cons_iff.1 h
    refine cons_iff.2 ⟨⟨by simp, List.forall_mem_cons.2 ⟨hc, hw⟩⟩, ?_, hrest⟩
    rintro ⟨f, t⟩ hy hcling
    refine hfirst (f, t) hy ?_
    cases t <;> exact hcling
  · rename_i ts hts
    refine cons_iff.2 ⟨⟨by simp, by simpa using hc⟩, ?_, h⟩
    rintro ⟨_ | _, t⟩ hx hcling
    · obtain ⟨ts, rfl⟩ := List.head?_eq_some_iff.1 hx
      cases t with
      | word w => exact absurd rfl (hts w ts)
      | colons => cases hcling
      | mark d => cases hcling
    · rfl

end Fits

theorem head_of_clings {c : Char} {t : Token} (h : (Token.mark c).clings t = true) :
    c = ':' ∧ t.chars.head? = some ':' := by
  cases t with
  | word w => cases h
  | colons => exact ⟨beq_iff_eq.1 h, rfl⟩
  | mark d =>
    obtain ⟨hc, hd⟩ := Bool.and_eq_true_iff.1 h
    exact ⟨beq_iff_eq.1 hc, congrArg some (beq_iff_eq.1 hd)⟩

theorem fits_tokens (gap : Bool) (cs : List Char) : Fits (tokens gap cs) := by
  induction cs using tokens_induction generalizing gap with
  | nil => exact .nil
  | colons cs ih =>
    refine Fits.cons_iff.2 ⟨trivial, ?_, ih false⟩
    rintro ⟨f, t⟩ _ hcling
    cases t <;> cases hcling
  | blank c cs hc ih =>
    rw [tokens_blank hc]
    exact ih true
  | word c cs hc ih =>
    rw [tokens_wordChar hc]
    exact (ih false).joinWord hc gap
  | mark c cs hblank hword hcolons ih =>
    rw [tokens_mark hblank hword hcolons]
    refine Fits.cons_iff.2 ⟨⟨hblank, hword⟩, ?_, ih false⟩
    rintro ⟨_ | _, t⟩ hx hcling
    · obtain ⟨ts, hts⟩ := List.head?_eq_some_iff.1 hx
      obtain ⟨hc, ht⟩ := head_of_clings hcling
      exact absurd ⟨hc, (head_of_tokens hts).trans ht⟩ hcolons
    · rfl

/-! ### Reading in pieces -/

/-- Two characters that belong to one token when the second follows the first. -/
def glues (c d : Char) : Bool := (isWordChar c && isWordChar d) || (c == ':' && d == ':')

/-- No token runs from the first text into the second. -/
def Seam (a b : List Char) : Prop := ∀ c ∈ a.getLast?, ∀ d ∈ b.head?, glues c d = false

/-- A blank stands at the end of a text, or before it if it is empty. -/
def gapAfter (gap : Bool) : List Char → Bool
  | [] => gap
  | c :: cs => gapAfter (isBlank c) cs

/-- A text without tokens leaves a gap, if there is anything of it. -/
theorem gapAfter_of_tokens_eq_nil {gap : Bool} {cs : List Char} (h : tokens gap cs = []) :
    cs = [] ∨ gapAfter gap cs = true := by
  induction cs using tokens_induction generalizing gap with
  | nil => exact .inl rfl
  | colons => cases h
  | blank c cs hc ih =>
    rw [tokens_blank hc] at h
    rw [gapAfter, hc]
    rcases ih h with rfl | hgap
    · exact .inr rfl
    · exact .inr hgap
  | word c cs hc =>
    obtain ⟨w, ts', hjoin⟩ := exists_joinWord gap c (tokens false cs)
    rw [tokens_wordChar hc, hjoin] at h
    cases h
  | mark c cs hblank hword hcolons =>
    rw [tokens_mark hblank hword hcolons] at h
    cases h

theorem joinWord_append {b : List Char} (gap gap' : Bool) (c : Char) (ts : Tokens)
    (h : ts = [] → gap' = false → ∀ d ∈ b.head?, isWordChar d = false) :
    joinWord gap c (ts ++ tokens gap' b) = joinWord gap c ts ++ tokens gap' b := by
  cases ts with
  | cons x ts =>
    obtain ⟨_ | _, t⟩ := x
    · cases t <;> rfl
    · rfl
  | nil =>
    rw [List.nil_append]
    unfold joinWord
    split
    · rename_i w ts htokens
      have hsound := (fits_tokens gap' b).sound (false, .word w)
      rw [htokens] at hsound
      obtain ⟨hne, hword⟩ := hsound (List.mem_cons_self ..)
      obtain ⟨d, w, rfl⟩ := List.exists_cons_of_ne_nil hne
      cases gap' with
      | false =>
        have hd := h rfl rfl d (head_of_tokens htokens)
        rw [hword d (List.mem_cons_self ..)] at hd
        cases hd
      | true => exact absurd (gap_of_tokens_true htokens) Bool.false_ne_true
    · rfl

theorem Seam.of_cons {c : Char} {a b : List Char} (h : Seam (c :: a) b) : Seam a b := by
  intro d hd
  apply h
  rw [Option.mem_def] at hd ⊢
  rw [List.getLast?_cons, hd]
  rfl

/-- The tokens of a text are the tokens of its parts if no token runs from one into the other. -/
theorem tokens_append {a b : List Char} (h : Seam a b) (gap : Bool) :
    tokens gap (a ++ b) = tokens gap a ++ tokens (gapAfter gap a) b := by
  induction a using tokens_induction generalizing gap with
  | nil => rfl
  | colons cs ih =>
    have hrest := ih h.of_cons.of_cons false
    rw [List.cons_append, List.cons_append, tokens, hrest, tokens]
    rfl
  | blank c cs hc ih =>
    rw [List.cons_append, tokens_blank hc, tokens_blank hc, ih h.of_cons, gapAfter, hc]
  | word c cs hc ih =>
    rw [List.cons_append, tokens_wordChar hc, tokens_wordChar hc, ih h.of_cons,
      gapAfter, not_isBlank_of_isWordChar hc, joinWord_append]
    intro htokens hgap d hd
    rcases gapAfter_of_tokens_eq_nil htokens with rfl | hgap'
    · have hglue := h c rfl d hd
      rw [glues, hc] at hglue
      exact (Bool.or_eq_false_iff.1 hglue).1
    · rw [hgap] at hgap'
      cases hgap'
  | mark c cs hblank hword hcolons ih =>
    have hcolons' : ¬ (c = ':' ∧ (cs ++ b).head? = some ':') := by
      rintro ⟨rfl, hhead⟩
      cases cs with
      | nil => exact absurd (h ':' rfl ':' hhead) (by decide)
      | cons d cs => exact hcolons ⟨rfl, hhead⟩
    rw [List.cons_append, tokens_mark hblank hword hcolons', tokens_mark hblank hword hcolons,
      ih h.of_cons, gapAfter, hblank, List.cons_append]

theorem lexemes_append {a b : List Char} (h : Seam a b) :
    lexemes (a ++ b) = lexemes a ++ lexemes b := by
  rw [lexemes, tokens_append h, List.map_append, map_snd_tokens, map_snd_tokens]

theorem flatMap_chars_joinWord (gap : Bool) (c : Char) (ts : Tokens) :
    ((joinWord gap c ts).map Prod.snd).flatMap Token.chars =
      c :: (ts.map Prod.snd).flatMap Token.chars := by
  unfold joinWord
  split <;> rfl

/-- The characters of the tokens of a text are its characters without the blanks. -/
theorem flatMap_chars_lexemes (cs : List Char) :
    (lexemes cs).flatMap Token.chars = withoutBlanks cs := by
  induction cs using tokens_induction with
  | nil => rfl
  | colons cs ih => exact congrArg (fun x => ':' :: ':' :: x) ih
  | blank c cs hc ih =>
    rw [lexemes, tokens_blank hc, map_snd_tokens, ih]
    simp [withoutBlanks, hc]
  | word c cs hc ih =>
    rw [lexemes, tokens_wordChar hc, flatMap_chars_joinWord, map_snd_tokens, ih]
    simp [withoutBlanks, not_isBlank_of_isWordChar hc]
  | mark c cs hblank hword hcolons ih =>
    rw [lexemes, tokens_mark hblank hword hcolons, List.map_cons, map_snd_tokens,
      List.flatMap_cons, ih]
    simp [withoutBlanks, hblank, Token.chars]

/-! ### Writing -/

/-- The tokens with a gap before them. -/
def withGap (gap : Bool) : Tokens → Tokens
  | [] => []
  | (f, t) :: ts => (gap || f, t) :: ts

/-- The tokens without the gap before them. -/
def flush : Tokens → Tokens
  | [] => []
  | (_, t) :: ts => (false, t) :: ts

theorem tokens_blanks {blanks : List Char} (h : ∀ c ∈ blanks, isBlank c = true) (gap : Bool)
    (cs : List Char) : tokens gap (blanks ++ cs) = tokens (gap || !blanks.isEmpty) cs := by
  induction blanks generalizing gap with
  | nil =>
    rw [List.isEmpty_nil, Bool.not_true, Bool.or_false]
    rfl
  | cons c blanks ih =>
    obtain ⟨hc, hblanks⟩ := List.forall_mem_cons.1 h
    rw [List.cons_append, tokens_blank hc, ih hblanks, Bool.true_or, List.isEmpty_cons,
      Bool.not_false, Bool.or_true]

theorem tokens_chars {t : Token} (h : t.IsSound) (gap : Bool) : tokens gap t.chars = [(gap, t)] := by
  cases t with
  | colons => rfl
  | mark c => exact tokens_mark h.1 h.2 (by simp) gap
  | word w =>
    obtain ⟨hne, hw⟩ := h
    induction w generalizing gap with
    | nil => exact absurd rfl hne
    | cons c w ih =>
      rw [Token.chars, tokens_wordChar (hw c (List.mem_cons_self ..))]
      cases w with
      | nil => rfl
      | cons d w =>
        have hrest := ih false (by simp) (fun x hx => hw x (List.mem_cons_of_mem _ hx))
        rw [Token.chars] at hrest
        rw [hrest]
        rfl

theorem Token.IsSound.chars_ne_nil {t : Token} (h : t.IsSound) : t.chars ≠ [] := by
  cases t with
  | word w => exact h.1
  | colons => simp [Token.chars]
  | mark c => simp [Token.chars]

theorem Token.IsSound.not_isBlank {t : Token} (h : t.IsSound) : ∀ c ∈ t.chars, isBlank c = false := by
  cases t with
  | word w => exact fun c hc => not_isBlank_of_isWordChar (h.2 c hc)
  | colons => decide
  | mark c => simpa [Token.chars] using h.1

theorem gapAfter_append (gap : Bool) (a b : List Char) :
    gapAfter gap (a ++ b) = gapAfter (gapAfter gap a) b := by
  induction a generalizing gap with
  | nil => rfl
  | cons c a ih => exact ih _

theorem gapAfter_eq_false {cs : List Char} (hne : cs ≠ []) (h : ∀ c ∈ cs, isBlank c = false)
    (gap : Bool) : gapAfter gap cs = false := by
  induction cs generalizing gap with
  | nil => exact absurd rfl hne
  | cons c cs ih =>
    rw [gapAfter, h c (List.mem_cons_self ..)]
    cases cs with
    | nil => rfl
    | cons d cs => exact ih (by simp) (fun x hx => h x (List.mem_cons_of_mem _ hx)) false

theorem spaced_head {ts : List (List Char × Token)}
    (hblanks : ∀ x ∈ ts, ∀ c ∈ x.1, isBlank c = true) (h : Fits (noted ts)) :
    ∀ d ∈ (spaced ts).head?, isBlank d = true ∨
      ∃ x ∈ (noted ts).head?, x.1 = false ∧ d ∈ x.2.chars.head? := by
  cases ts with
  | nil => simp [spaced]
  | cons x ts =>
    obtain ⟨blanks, t⟩ := x
    intro d hd
    cases blanks with
    | cons c blanks =>
      obtain rfl := Option.some.inj hd
      exact .inl (hblanks _ (List.mem_cons_self ..) _ (List.mem_cons_self ..))
    | nil =>
      refine .inr ⟨(false, t), rfl, rfl, ?_⟩
      rw [spaced, List.nil_append, Option.mem_def,
        List.head?_append_of_ne_nil _ (Fits.cons_iff.1 h).1.chars_ne_nil] at hd
      exact hd

theorem clings_of_head {t : Token} (ht : t.IsSound) (h : t.chars.head? = some ':') :
    (Token.mark ':').clings t = true := by
  cases t with
  | colons => rfl
  | mark c =>
    obtain rfl := Option.some.inj h
    rfl
  | word w => exact absurd (ht.2 ':' (List.mem_of_mem_head? h)) (by decide)

theorem not_isWordChar_of_head {t : Token} (ht : t.IsSound) {w : List Char}
    (hclings : ¬ (Token.word w).clings t = true) {d : Char} (hd : t.chars.head? = some d) :
    isWordChar d = false := by
  cases t with
  | word w => exact absurd rfl hclings
  | colons =>
    obtain rfl := Option.some.inj hd
    decide
  | mark c =>
    obtain rfl := Option.some.inj hd
    exact ht.2

/-- A word ends before tokens that do not cling to it. -/
theorem not_isWordChar_head_spaced {ts : List (List Char × Token)}
    (hblanks : ∀ x ∈ ts, ∀ c ∈ x.1, isBlank c = true) (h : Fits (noted ts)) {w : List Char}
    (hfirst : ∀ x ∈ (noted ts).head?, (Token.word w).clings x.2 = true → x.1 = true) :
    ∀ d ∈ (spaced ts).head?, isWordChar d = false := by
  intro d hd
  rcases spaced_head hblanks h d hd with hblank | ⟨x, hx, hgap, hchars⟩
  · exact isWordChar_of_isBlank hblank
  · have hclings := mt (hfirst x hx) (by rw [hgap]; decide)
    exact not_isWordChar_of_head (h.sound x (List.mem_of_mem_head? hx)) hclings hchars

/-- A single colon does not stand directly before another colon. -/
theorem single_colon_spaced {blanks : List Char} {c : Char} {ts : List (List Char × Token)}
    (hblanks : ∀ x ∈ ts, ∀ c ∈ x.1, isBlank c = true)
    (h : Fits (noted ((blanks, .mark c) :: ts))) : ¬ (c = ':' ∧ (spaced ts).head? = some ':') := by
  rintro ⟨rfl, hhead⟩
  obtain ⟨-, hfirst, hrest⟩ := Fits.cons_iff.1 h
  rcases spaced_head hblanks hrest ':' hhead with hblank | ⟨x, hx, hgap, hchars⟩
  · exact absurd hblank (by decide)
  · have hclings := clings_of_head (hrest.sound x (List.mem_of_mem_head? hx)) hchars
    rw [hfirst x hx hclings] at hgap
    cases hgap

theorem withGap_false (ts : Tokens) : withGap false ts = ts := by cases ts <;> rfl

/-- Tokens that fit together are read again as they stand. -/
theorem tokens_spaced {ts : List (List Char × Token)}
    (hblanks : ∀ x ∈ ts, ∀ c ∈ x.1, isBlank c = true) (h : Fits (noted ts)) (gap : Bool) :
    tokens gap (spaced ts) = withGap gap (noted ts) := by
  induction ts generalizing gap with
  | nil => rfl
  | cons x ts ih =>
    obtain ⟨blanks, t⟩ := x
    obtain ⟨ht, hfirst, hrest⟩ := Fits.cons_iff.1 h
    obtain ⟨hblanks, hblanksRest⟩ := List.forall_mem_cons.1 hblanks
    have hnext : tokens false (spaced ts) = noted ts := by
      rw [ih hblanksRest hrest, withGap_false]
    rw [spaced, List.append_assoc, tokens_blanks hblanks]
    cases t with
    | colons =>
      rw [Token.chars, List.cons_append, List.singleton_append, tokens, hnext]
      rfl
    | mark c =>
      rw [Token.chars, List.singleton_append,
        tokens_mark ht.1 ht.2 (single_colon_spaced hblanksRest h), hnext]
      rfl
    | word w =>
      have hhead := not_isWordChar_head_spaced hblanksRest hrest hfirst
      rw [tokens_append, tokens_chars ht, gapAfter_eq_false ht.chars_ne_nil ht.not_isBlank, hnext]
      · rfl
      -- the end of a word and what follows it do not glue: a word has no colon, and no word follows
      -- it without a gap
      · intro c hc d hd
        have hccolon : (c == ':') = false := by
          rw [beq_eq_false_iff_ne]
          rintro rfl
          exact absurd (ht.2 ':' (List.mem_of_getLast? hc)) (by decide)
        rw [glues, hhead d hd, hccolon, Bool.and_false, Bool.false_and, Bool.or_false]

/-- The tokens with a space for each gap. -/
def singleSpaced (ts : Tokens) : List (List Char × Token) := ts.map fun x => (gapChars x.1, x.2)

theorem spaced_singleSpaced (ts : Tokens) : spaced (singleSpaced ts) = written ts := by
  induction ts with
  | nil => rfl
  | cons x ts ih => rw [written, ← ih]; rfl

theorem noted_singleSpaced (ts : Tokens) : noted (singleSpaced ts) = ts := by
  induction ts with
  | nil => rfl
  | cons x ts ih =>
    obtain ⟨_ | _, t⟩ := x
    · exact congrArg ((false, t) :: ·) ih
    · exact congrArg ((true, t) :: ·) ih

theorem isBlank_of_mem_gapChars {gap : Bool} : ∀ c ∈ gapChars gap, isBlank c = true := by
  cases gap <;> decide

theorem isBlank_of_mem_singleSpaced (ts : Tokens) :
    ∀ x ∈ singleSpaced ts, ∀ c ∈ x.1, isBlank c = true := by
  intro x hx
  obtain ⟨y, -, rfl⟩ := List.mem_map.1 hx
  exact isBlank_of_mem_gapChars

theorem not_isWordChar_head_written {ts : Tokens} (h : Fits ts) {w : List Char}
    (hfirst : ∀ x ∈ ts.head?, (Token.word w).clings x.2 = true → x.1 = true) :
    ∀ d ∈ (written ts).head?, isWordChar d = false := by
  rw [← spaced_singleSpaced]
  refine not_isWordChar_head_spaced (isBlank_of_mem_singleSpaced ts) ?_ ?_ (w := w)
  · rwa [noted_singleSpaced]
  · rwa [noted_singleSpaced]

theorem Fits.single_colon {gap : Bool} {c : Char} {ts : Tokens} (h : Fits ((gap, .mark c) :: ts)) :
    ¬ (c = ':' ∧ (written ts).head? = some ':') := by
  rw [← spaced_singleSpaced]
  have hnoted := noted_singleSpaced ((gap, .mark c) :: ts)
  rw [← hnoted] at h
  exact single_colon_spaced (isBlank_of_mem_singleSpaced ts) h

/-- Tokens that fit together are read again as they are written. -/
theorem tokens_written {ts : Tokens} (h : Fits ts) (gap : Bool) :
    tokens gap (written ts) = withGap gap ts := by
  rw [← spaced_singleSpaced, tokens_spaced (isBlank_of_mem_singleSpaced ts), noted_singleSpaced]
  rwa [noted_singleSpaced]

theorem written_append (a b : Tokens) : written (a ++ b) = written a ++ written b := by
  induction a with
  | nil => rfl
  | cons x a ih => simp only [List.cons_append, written, ih, List.append_assoc]

theorem eq_mark_of_mem_chars {t : Token} (ht : t.IsSound) {c : Char} (hword : isWordChar c = false)
    (hcolon : c ≠ ':') (hc : c ∈ t.chars) : t = .mark c := by
  cases t with
  | word w =>
    rw [ht.2 c hc] at hword
    cases hword
  | colons => simp [Token.chars, hcolon] at hc
  | mark d => exact congrArg Token.mark (List.mem_singleton.1 hc).symm

/-- A mark of a text is a token of it. -/
theorem mark_mem_of_mem_written {ts : Tokens} (h : ∀ x ∈ ts, x.2.IsSound) {c : Char}
    (hword : isWordChar c = false) (hblank : isBlank c = false) (hcolon : c ≠ ':')
    (hc : c ∈ written ts) : .mark c ∈ ts.map Prod.snd := by
  induction ts with
  | nil => simp [written] at hc
  | cons x ts ih =>
    obtain ⟨ht, hts⟩ := List.forall_mem_cons.1 h
    rw [written, List.mem_append, List.mem_append] at hc
    rcases hc with (hgap | hchars) | hrest
    · rw [isBlank_of_mem_gapChars c hgap] at hblank
      cases hblank
    · rw [← eq_mark_of_mem_chars ht hword hcolon hchars]
      exact List.mem_cons_self ..
    · exact List.mem_cons_of_mem _ (ih hts hrest)

theorem mem_written_of_mark_mem {ts : Tokens} {c : Char} (h : .mark c ∈ ts.map Prod.snd) :
    c ∈ written ts := by
  obtain ⟨x, hx, heq⟩ := List.mem_map.1 h
  induction ts with
  | nil => cases hx
  | cons y ts ih =>
    rw [written, List.mem_append, List.mem_append]
    rcases List.mem_cons.1 hx with rfl | hx
    · exact .inl (.inr (by rw [heq]; exact List.mem_singleton_self c))
    · exact .inr (ih (List.mem_map.2 ⟨x, hx, heq⟩) hx)

theorem contains_written {ts : Tokens} (h : Fits ts) {c : Char} (hword : isWordChar c = false)
    (hblank : isBlank c = false) (hcolon : c ≠ ':') :
    (written ts).contains c = decide (.mark c ∈ ts.map Prod.snd) := by
  rw [Bool.eq_iff_iff, List.contains_iff_mem, decide_eq_true_iff]
  exact ⟨mark_mem_of_mem_written h.sound hword hblank hcolon, mem_written_of_mark_mem⟩

/-! ### Ends -/

theorem trim_eq_nil {cs : List Char} (h : ∀ c ∈ cs, isBlank c = true) : trim cs = [] := by
  have hstart : trimStart cs = [] := List.dropWhile_eq_nil_iff.2 h
  rw [trim, hstart]
  rfl

/-- A text is what is left between blanks if it has no blanks at its ends. -/
theorem trim_between {a b m : List Char} (ha : ∀ c ∈ a, isBlank c = true)
    (hb : ∀ c ∈ b, isBlank c = true) (hhead : ∀ c ∈ m.head?, isBlank c = false)
    (hlast : ∀ c ∈ m.getLast?, isBlank c = false) : trim (a ++ m ++ b) = m := by
  cases m with
  | nil => exact trim_eq_nil (by simpa [or_imp, forall_and] using ⟨ha, hb⟩)
  | cons c m =>
    have hc : isBlank c = false := hhead c rfl
    have hstart : trimStart (a ++ (c :: m) ++ b) = c :: m ++ b := by
      rw [trimStart, List.append_assoc, List.dropWhile_append_of_pos ha]
      simp [hc]
    have hb' : ∀ c ∈ b.reverse, isBlank c = true := by simpa using hb
    obtain ⟨d, rest, hd⟩ : ∃ d rest, (c :: m).reverse = d :: rest :=
      List.exists_cons_of_ne_nil (by simp)
    have hdblank : isBlank d = false := by
      apply hlast
      rw [Option.mem_def, List.getLast?_eq_head?_reverse, hd]
      rfl
    rw [trim, hstart, trimEnd, List.reverse_append, List.dropWhile_append_of_pos hb', hd,
      List.dropWhile_cons_of_neg (by rw [hdblank]; decide), ← hd, List.reverse_reverse]

theorem written_eq_gapChars {ts : Tokens} :
    written ts = gapChars (ts.head?.any Prod.fst) ++ written (flush ts) := by
  cases ts with
  | nil => rfl
  | cons x ts => simp only [written, flush, List.head?_cons, Option.any_some, List.append_assoc]; rfl

theorem Fits.flush {ts : Tokens} (h : Fits ts) : Fits (flush ts) := by
  cases ts with
  | nil => exact h
  | cons x ts =>
    obtain ⟨hx, hfirst, hrest⟩ := cons_iff.1 h
    exact cons_iff.2 ⟨hx, hfirst, hrest⟩

theorem not_isBlank_of_head_written {ts : Tokens} (h : Fits ts) :
    ∀ c ∈ (written (flush ts)).head?, isBlank c = false := by
  cases ts with
  | nil => simp [flush, written]
  | cons x ts =>
    intro c hc
    have ht := (Fits.cons_iff.1 h).1
    have hwritten : written (flush (x :: ts)) = x.2.chars ++ written ts := rfl
    rw [hwritten, Option.mem_def, List.head?_append_of_ne_nil _ ht.chars_ne_nil] at hc
    exact ht.not_isBlank c (List.mem_of_mem_head? hc)

theorem written_ne_nil {ts : Tokens} (h : Fits ts) (hne : ts ≠ []) : written ts ≠ [] := by
  cases ts with
  | nil => exact absurd rfl hne
  | cons x ts =>
    have := (Fits.cons_iff.1 h).1.chars_ne_nil
    simp [written, this]

theorem not_isBlank_of_getLast_written {ts : Tokens} (h : Fits ts) :
    ∀ c ∈ (written ts).getLast?, isBlank c = false := by
  induction ts with
  | nil => simp [written]
  | cons x ts ih =>
    intro c hc
    have hsound := (Fits.cons_iff.1 h).1
    cases ts with
    | nil =>
      rw [written, written, List.append_nil, Option.mem_def,
        List.getLast?_append_of_ne_nil _ hsound.chars_ne_nil] at hc
      exact hsound.not_isBlank c (List.mem_of_getLast? hc)
    | cons y ts =>
      rw [written, Option.mem_def,
        List.getLast?_append_of_ne_nil _ (written_ne_nil h.tail (by simp))] at hc
      exact ih h.tail c hc

/-- What is written from tokens has a blank at its start only. -/
theorem trim_written {ts : Tokens} (h : Fits ts) (gap : Bool) :
    trim (written ts ++ gapChars gap) = written (flush ts) := by
  rw [written_eq_gapChars]
  exact trim_between isBlank_of_mem_gapChars isBlank_of_mem_gapChars
    (not_isBlank_of_head_written h) (not_isBlank_of_getLast_written h.flush)

end Layout

end Hql
