import Hql.Layout.Spelling
import Hql.Proofs.Layout.Brackets
import Hql.Proofs.Layout.Spacing

/-!
Words that keep their spelling. Which words do is decided on the tokens of a text: it depends on the
tokens next to a word and on whether the innermost open bracket is a brace that opens a value. Text
whose words all keep their spelling is changed in its spacing only.
-/

namespace Hql

namespace Text

theorem isWordChar_of_isIdentStart {c : Char} (h : isIdentStart c = true) :
    isWordChar c = true := by
  rcases Bool.or_eq_true_iff.1 h with hletter | hunderscore
  · exact isWordChar_of_isAlpha hletter
  · obtain rfl := beq_iff_eq.1 hunderscore
    decide

theorem foldChar_of_not_isWordChar {c : Char} (h : isWordChar c = false) : foldChar c = c := by
  have hne {d : Char} (hd : isWordChar d = true) : c ≠ d := by
    rintro rfl
    rw [h] at hd
    cases hd
  have hdotted : ¬ (decide (c = 'İ') || decide (c = 'ı')) = true := by
    simpa using ⟨hne (by decide +kernel), hne (by decide +kernel)⟩
  rw [foldChar, if_neg hdotted, if_neg (hne (by decide +kernel))]
  refine dif_neg fun hupper => ?_
  have hletter : c.isAlpha = true := Bool.or_eq_true_iff.2 (.inl (decide_eq_true hupper))
  rw [isWordChar_of_isAlpha hletter] at h
  cases h

/-- What has a character that is no word character is none of the words given in lower case: that
character is folded to itself. -/
theorem equalsFolded_eq_false {w lowered : List Char} {c : Char} (hmem : c ∈ w)
    (hc : isWordChar c = false) (hlowered : ∀ x ∈ lowered, isWordChar x = true) :
    equalsFolded w lowered = false := by
  rw [equalsFolded, beq_eq_false_iff_ne]
  rintro rfl
  have hfold := hlowered (foldChar c) (List.mem_map_of_mem hmem)
  rw [foldChar_of_not_isWordChar hc, hc] at hfold
  cases hfold

/-! ### Runs of a text in pieces -/

theorem head_of_runs {cs run : List Char} {d : Char} {more : List (List Char)}
    (h : runs cs = (d :: run) :: more) : cs.head? = some d := by
  rw [← flatten_runs cs, h]
  rfl

theorem runs_word {w : List Char} (hne : w ≠ []) (hw : ∀ c ∈ w, isWordChar c = true)
    {cs : List Char} (hcs : ∀ d ∈ cs.head?, isWordChar d = false) :
    runs (w ++ cs) = w :: runs cs := by
  induction w with
  | nil => exact absurd rfl hne
  | cons c w ih =>
    obtain ⟨hc, hw⟩ := List.forall_mem_cons.1 hw
    cases w with
    | nil =>
      rw [List.singleton_append, runs]
      split
      · rename_i d run more h
        rw [hc, hcs d (head_of_runs h), if_neg (by decide), h]
      · rfl
    | cons d w =>
      have hd : isWordChar d = true := hw d (List.mem_cons_self ..)
      rw [List.cons_append, runs, ih (by simp) hw]
      simp [hc, hd]

end Text

namespace Layout

open Text

theorem isWord_of_not_isWordChar {c : Char} (h : isWordChar c = false) (run : List Char) :
    isWord (c :: run) = false := by
  rw [isWord, Bool.eq_false_iff]
  intro hstart
  rw [isWordChar_of_isIdentStart hstart] at h
  cases h

theorem spellWords_mark {c : Char} (hc : isWordChar c = false) (before cs : List Char) :
    spellWords before (runs (c :: cs)) = c :: spellWords (c :: before) (runs cs) := by
  have hrun := isWord_of_not_isWordChar hc
  rw [runs]
  split
  · rename_i d run more h
    rw [h]
    split
    · rename_i heq
      rw [hc, beq_iff_eq] at heq
      rw [spellWords, hrun, if_neg (by decide), spellWords, isWord_of_not_isWordChar heq.symm,
        if_neg (by decide)]
      simp only [List.reverse_cons, List.append_assoc, List.cons_append, List.nil_append]
    · rw [spellWords, hrun, if_neg (by decide)]
      rfl
  · rw [spellWords, hrun, if_neg (by decide)]
    rfl

theorem spellWords_word {w : List Char} (hne : w ≠ []) (hw : ∀ c ∈ w, isWordChar c = true)
    {cs : List Char} (hcs : ∀ d ∈ cs.head?, isWordChar d = false) (before : List Char) :
    spellWords before (runs (w ++ cs)) = (if isWord w then spelling before cs w else w) ++
      spellWords (w.reverse ++ before) (runs cs) := by
  rw [runs_word hne hw hcs, spellWords, flatten_runs]

/-- A run with the spelling of a sort direction if it is one. -/
def directed (run : List Char) : List Char :=
  if equalsFolded run ['a', 's', 'c'] then ['A', 's', 'c']
  else if equalsFolded run ['d', 'e', 's', 'c'] then ['D', 'e', 's', 'c']
  else run

theorem spellDirections_eq (cs : List Char) : spellDirections cs = (runs cs).flatMap directed := rfl

theorem directed_of_not_isWordChar {c : Char} (hc : isWordChar c = false) (run : List Char) :
    directed (c :: run) = c :: run := by
  have hmem : c ∈ c :: run := List.mem_cons_self ..
  rw [directed, equalsFolded_eq_false hmem hc (by decide), equalsFolded_eq_false hmem hc (by decide),
    if_neg (by decide), if_neg (by decide)]

theorem spellDirections_mark {c : Char} (hc : isWordChar c = false) (cs : List Char) :
    spellDirections (c :: cs) = c :: spellDirections cs := by
  have hrun := directed_of_not_isWordChar hc
  rw [spellDirections_eq, spellDirections_eq, runs]
  split
  · rename_i d run more h
    rw [h]
    split
    · rename_i heq
      rw [hc, beq_iff_eq] at heq
      rw [List.flatMap_cons, hrun, List.flatMap_cons, directed_of_not_isWordChar heq.symm]
      rfl
    · rw [List.flatMap_cons, hrun]
      rfl
  · rw [List.flatMap_cons, hrun]
    rfl

theorem spellDirections_word {w : List Char} (hne : w ≠ []) (hw : ∀ c ∈ w, isWordChar c = true)
    {cs : List Char} (hcs : ∀ d ∈ cs.head?, isWordChar d = false) :
    spellDirections (w ++ cs) = directed w ++ spellDirections cs := by
  rw [spellDirections_eq, runs_word hne hw hcs, List.flatMap_cons, spellDirections_eq]

/-! ### Words that keep their spelling -/

/-- A word is called between two tokens. -/
def isCalled (before after : Option Token) : Bool :=
  before == some .colons || after == some (.mark '<') || after == some (.mark '(') ||
    after == some .colons

/-- A type stands between two tokens. -/
def isTyped (inValue : Bool) (before after : Option Token) : Bool :=
  (before == some (.mark ':') && !inValue) || before == some (.mark '[') ||
    before == some (.mark '<') || after == some (.mark ']')

/-- A word keeps its spelling, whether it is called and whether a type stands in its place. -/
structure Keeps (called typed : Bool) (w : List Char) : Prop where
  directed : directed w = w
  spelled : ∀ s, ((if called then Keyword.step? (String.ofList w) else none) <|>
      Keyword.structural? (String.ofList w) <|>
        if typed then Keyword.type? (String.ofList w) else none) = some s → s.toList = w

/-- A brace after a token opens a value. -/
def opensValue (before : Option Token) (c : Char) : Bool :=
  c == '\x7b' && (before == none || before == some (.mark '(') || before == some (.mark ',') ||
    before == some .colons)

/-- The brackets that are open after one more mark, from the innermost on. Each is given by whether
it is a brace that opens a value. -/
def openAfter (opened : List Bool) (before : Option Token) (c : Char) : List Bool :=
  if isCloser c then opened.tail
  else if isOpener c then opensValue before c :: opened
  else opened

/-- Every word of a text keeps its spelling. The arrows `=>` and `<-` stand at the end only, and no
single colon directly after a double one. -/
def Kept (opened : List Bool) (before : Option Token) : List Token → Prop
  | [] => True
  | .word w :: ts =>
    Keeps (isCalled before ts.head?) (isTyped (opened.headD false) before ts.head?) w ∧
      Kept opened (some (.word w)) ts
  | .colons :: ts => Kept opened (some .colons) ts
  | .mark c :: ts =>
    if c = '=' ∨ c = '-' then ∀ w, .word w ∉ ts
    else (c = ':' → before ≠ some .colons) ∧
      Kept (openAfter opened before c) (some (.mark c)) ts

/-! ### The text before a word -/

/-- A text whose last token is `before`, and in which the brackets `opened` are open at the end. The
text is given from its end. -/
structure InContext (opened : List Bool) (before : Option Token) (cs : List Char) : Prop where
  value : ∀ depth after, after ≠ some '-' → inValueBlock depth after cs = opened.getD depth false
  plain : ∀ c ∈ cs, c ≠ '=' ∧ c ≠ '-'
  start : before = none → cs = []
  last : ∀ t, before = some t → t.IsSound ∧
    ∃ rest, cs = t.chars.reverse ++ rest ∧ (t = .mark ':' → rest.head? ≠ some ':')

namespace InContext

theorem empty : InContext [] none [] where
  value := fun _ _ _ => rfl
  plain := by simp
  start := fun _ => rfl
  last := fun _ h => by cases h

variable {opened : List Bool} {before : Option Token} {cs : List Char}

theorem head_eq (h : InContext opened before cs) {c : Char} (hword : isWordChar c = false)
    (hcolon : c ≠ ':') : (cs.head? == some c) = (before == some (.mark c)) := by
  cases before with
  | none =>
    rw [h.start rfl]
    rfl
  | some t =>
    obtain ⟨ht, rest, rfl, -⟩ := h.last t rfl
    have hne : t.chars.reverse ≠ [] := by simpa using ht.chars_ne_nil
    rw [List.head?_append_of_ne_nil _ hne, List.head?_reverse, getLast_chars_eq hword hcolon ht]

theorem not_isBlank_head (h : InContext opened before cs) : ∀ c ∈ cs.head?, isBlank c = false := by
  intro c hc
  cases before with
  | none =>
    rw [h.start rfl] at hc
    cases hc
  | some t =>
    obtain ⟨ht, rest, rfl, -⟩ := h.last t rfl
    rw [List.head?_append_of_ne_nil _ (by simpa using ht.chars_ne_nil)] at hc
    exact ht.not_isBlank c (List.mem_reverse.1 (List.mem_of_mem_head? hc))

theorem isPrefixOf_colons (h : InContext opened before cs) :
    [':', ':'].isPrefixOf cs = (before == some .colons) := by
  cases before with
  | none =>
    rw [h.start rfl]
    rfl
  | some t =>
    obtain ⟨ht, rest, rfl, hrest⟩ := h.last t rfl
    cases t with
    | colons => rfl
    | mark c =>
      have hright : (some (Token.mark c) == some Token.colons) = false := rfl
      rw [hright, Bool.eq_false_iff]
      intro hstart
      obtain ⟨tail, htail⟩ := List.isPrefixOf_iff_prefix.1 hstart
      obtain ⟨rfl, rfl⟩ : ':' = c ∧ ':' :: tail = rest := List.cons.inj htail
      exact hrest rfl rfl
    | word w =>
      have hright : (some (Token.word w) == some Token.colons) = false := rfl
      rw [hright, Bool.eq_false_iff]
      intro hstart
      obtain ⟨tail, htail⟩ := List.isPrefixOf_iff_prefix.1 hstart
      have hhead : w.reverse.head? = some ':' := by
        rw [← List.head?_append_of_ne_nil _ (by simpa using ht.1)]
        exact (congrArg List.head? htail).symm
      exact absurd (ht.2 ':' (List.mem_reverse.1 (List.mem_of_mem_head? hhead))) (by decide)

theorem head_colon_eq (h : InContext opened before cs) :
    (cs.head? == some ':' && !([':', ':'].isPrefixOf cs)) = (before == some (.mark ':')) := by
  rw [h.isPrefixOf_colons]
  cases before with
  | none =>
    rw [h.start rfl]
    rfl
  | some t =>
    obtain ⟨ht, rest, rfl, hrest⟩ := h.last t rfl
    have hne : t.chars.reverse ≠ [] := by simpa using ht.chars_ne_nil
    rw [List.head?_append_of_ne_nil _ hne, List.head?_reverse]
    cases t with
    | colons => rfl
    | mark c =>
      rw [Bool.eq_iff_iff]
      simp [Token.chars]
    | word w =>
      have hlast : (w.getLast? == some ':') = false := by
        rw [beq_eq_false_iff_ne]
        intro hlast
        exact absurd (ht.2 ':' (List.mem_of_getLast? hlast)) (by decide)
      rw [Token.chars, hlast]
      rfl

/-- Blanks before a place change nothing. -/
theorem value_gapChars (h : InContext opened before cs) (gap : Bool) (depth : Nat)
    {after : Option Char} (hafter : after ≠ some '-') :
    inValueBlock depth after (gapChars gap ++ cs) = opened.getD depth false := by
  cases gap with
  | false => exact h.value depth after hafter
  | true => exact h.value depth (some ' ') (by decide)

theorem plain_append (h : InContext opened before cs) (gap : Bool) (xs : List Char)
    (hxs : ∀ c ∈ xs, c ≠ '=' ∧ c ≠ '-') : ∀ c ∈ xs ++ (gapChars gap ++ cs), c ≠ '=' ∧ c ≠ '-' := by
  have hgap : ∀ c ∈ gapChars gap, c ≠ '=' ∧ c ≠ '-' := by cases gap <;> decide
  simpa only [List.forall_mem_append] using ⟨hxs, hgap, h.plain⟩

/-- Characters that are no brackets change nothing either. -/
theorem inValueBlock_append (xs : List Char)
    (hxs : ∀ c ∈ xs, isCloser c = false ∧ isOpener c = false ∧ c ≠ '-') {depth : Nat}
    {cs : List Char} {b : Bool} (h : ∀ after, after ≠ some '-' → inValueBlock depth after cs = b)
    {after : Option Char} (hafter : after ≠ some '-') : inValueBlock depth after (xs ++ cs) = b := by
  induction xs generalizing after with
  | nil => exact h after hafter
  | cons c xs ih =>
    obtain ⟨⟨hclose, hopen, hc⟩, hxs⟩ := List.forall_mem_cons.1 hxs
    rw [List.cons_append, inValueBlock, hclose, if_neg (by decide), hopen, Bool.false_and,
      if_neg (by decide)]
    exact ih hxs (fun heq => hc (Option.some.inj heq))

theorem word (h : InContext opened before cs) (gap : Bool) {w : List Char}
    (hw : (Token.word w).IsSound) :
    InContext opened (some (.word w)) (w.reverse ++ (gapChars gap ++ cs)) where
  value depth after hafter := by
    refine inValueBlock_append _ (fun c hc => ?_) (fun a => h.value_gapChars gap depth) hafter
    have hcword := hw.2 c (List.mem_reverse.1 hc)
    obtain ⟨hopen, hclose⟩ := not_bracket_of_isWordChar hcword
    exact ⟨hclose, hopen, fun heq => absurd (heq ▸ hcword) (by decide)⟩
  plain := by
    refine h.plain_append gap _ fun c hc => ?_
    have hcword := hw.2 c (List.mem_reverse.1 hc)
    exact ⟨fun heq => absurd (heq ▸ hcword) (by decide), fun heq => absurd (heq ▸ hcword) (by decide)⟩
  start := by simp
  last := by
    rintro t heq
    obtain rfl := Option.some.inj heq
    exact ⟨hw, _, rfl, fun h => by cases h⟩

theorem colons (h : InContext opened before cs) (gap : Bool) :
    InContext opened (some .colons) (':' :: ':' :: (gapChars gap ++ cs)) where
  value depth after hafter :=
    inValueBlock_append [':', ':'] (by decide) (fun a => h.value_gapChars gap depth) hafter
  plain := h.plain_append gap [':', ':'] (by decide)
  start := by simp
  last := by
    rintro t heq
    obtain rfl := Option.some.inj heq
    exact ⟨trivial, _, rfl, fun h => by cases h⟩

/-- The text before a brace tells whether the brace opens a value. -/
theorem opensValue_eq (h : InContext opened before cs) (gap : Bool) (c : Char) :
    (let context := (gapChars gap ++ cs).dropWhile isBlank
     c == '\x7b' && (context.isEmpty || context.head? == some '(' ||
          context.head? == some ',' || [':', ':'].isPrefixOf context)) = opensValue before c := by
  have hcontext : (gapChars gap ++ cs).dropWhile isBlank = cs := by
    rw [List.dropWhile_append_of_pos isBlank_of_mem_gapChars]
    exact dropWhile_of_head h.not_isBlank_head
  have hempty : cs.isEmpty = (before == none) := by
    cases before with
    | none => rw [h.start rfl]; rfl
    | some t =>
      obtain ⟨ht, rest, rfl, -⟩ := h.last t rfl
      have hne := ht.chars_ne_nil
      simp [hne]
  dsimp only
  rw [hcontext, hempty, h.head_eq (by decide) (by decide), h.head_eq (by decide) (by decide),
    h.isPrefixOf_colons, opensValue]

theorem mark (h : InContext opened before cs) (gap : Bool) {c : Char} (hc : (Token.mark c).IsSound)
    (hplain : ¬ (c = '=' ∨ c = '-')) (hcolon : c = ':' → (gapChars gap ++ cs).head? ≠ some ':') :
    InContext (openAfter opened before c) (some (.mark c)) (c :: (gapChars gap ++ cs)) where
  value depth after hafter := by
    have hc : some c ≠ some '-' := fun heq => hplain (.inr (Option.some.inj heq))
    have hrest (depth : Nat) := h.value_gapChars gap depth hc
    have harrow (d : Char) (hd : d = '=' ∨ d = '-') : ((gapChars gap ++ cs).head? == some d) = false := by
      rw [beq_eq_false_iff_ne]
      intro hhead
      have hd' := h.plain_append gap [] (by simp) d (List.mem_of_mem_head? hhead)
      exact hd.elim hd'.1 hd'.2
    rw [inValueBlock, openAfter]
    split
    · rw [harrow '=' (.inl rfl), harrow '-' (.inr rfl), Bool.or_false, Bool.and_false,
        if_neg (by decide), hrest]
      cases opened <;> rfl
    · rw [beq_eq_false_iff_ne.2 hafter, Bool.and_false, Bool.not_false, Bool.and_true]
      split
      · cases depth with
        | zero => exact h.opensValue_eq gap c
        | succ depth =>
          rw [if_pos (Nat.succ_pos _), Nat.add_sub_cancel, hrest]
          rfl
      · exact hrest depth
  plain := by
    refine h.plain_append gap [c] ?_
    simpa using hplain
  start := by simp
  last := by
    rintro t heq
    obtain rfl := Option.some.inj heq
    refine ⟨hc, _, rfl, fun h => hcolon (Token.mark.inj h)⟩

end InContext

/-! ### Spelling a text -/

theorem head_written_flush_eq {ts : Tokens} (h : Fits ts) {c : Char}
    (hword : isWordChar c = false) (hcolon : c ≠ ':') :
    ((written (flush ts)).head? == some c) = ((ts.map Prod.snd).head? == some (.mark c)) := by
  cases ts with
  | nil => rfl
  | cons x ts =>
    have ht := (Fits.cons_iff.1 h).1
    have hwritten : written (flush (x :: ts)) = x.2.chars ++ written ts := rfl
    rw [hwritten, List.head?_append_of_ne_nil _ ht.chars_ne_nil, head_chars_eq hword hcolon ht]
    rfl

theorem isPrefixOf_written_flush {ts : Tokens} (h : Fits ts) :
    [':', ':'].isPrefixOf (written (flush ts)) = ((ts.map Prod.snd).head? == some .colons) := by
  cases ts with
  | nil => rfl
  | cons x ts =>
    obtain ⟨gap, t⟩ := x
    cases t with
    | colons => rfl
    | mark c =>
      have hright : (some (Token.mark c) == some Token.colons) = false := rfl
      rw [List.map_cons, List.head?_cons, hright, Bool.eq_false_iff]
      intro hstart
      obtain ⟨tail, htail⟩ := List.isPrefixOf_iff_prefix.1 hstart
      obtain ⟨rfl, hrest⟩ : ':' = c ∧ ':' :: tail = written ts := List.cons.inj htail
      exact h.single_colon ⟨rfl, (congrArg List.head? hrest).symm⟩
    | word w =>
      have hright : (some (Token.word w) == some Token.colons) = false := rfl
      rw [List.map_cons, List.head?_cons, hright, Bool.eq_false_iff]
      intro hstart
      obtain ⟨tail, htail⟩ := List.isPrefixOf_iff_prefix.1 hstart
      have hw := (Fits.cons_iff.1 h).1
      obtain ⟨c, w, rfl⟩ := List.exists_cons_of_ne_nil hw.1
      obtain ⟨rfl, -⟩ : ':' = c ∧ _ := List.cons.inj htail
      exact absurd (hw.2 ':' (List.mem_cons_self ..)) (by decide)

/-- A word that keeps its spelling between its neighbours is spelled as it is. -/
theorem spelling_eq_self {opened : List Bool} {before : Option Token} {cs : List Char}
    (hcontext : InContext opened before cs) (gap : Bool) {ts : Tokens} (hts : Fits ts)
    {w : List Char} (hw : Keeps (isCalled before (ts.map Prod.snd).head?)
      (isTyped (opened.headD false) before (ts.map Prod.snd).head?) w) :
    spelling (gapChars gap ++ cs) (written ts) w = w := by
  have hspace : ∀ c, isBlank c = false → (c == ' ') = false := by
    intro c hc
    rw [beq_eq_false_iff_ne]
    rintro rfl
    exact absurd hc (by decide)
  have hgap (g : Bool) : ∀ c ∈ gapChars g, (c == ' ') = true := by cases g <;> decide
  have hbefore : (gapChars gap ++ cs).dropWhile (· == ' ') = cs := by
    rw [List.dropWhile_append_of_pos (hgap gap)]
    exact dropWhile_of_head fun c hc => hspace c (hcontext.not_isBlank_head c hc)
  have hafter : (written ts).dropWhile (· == ' ') = written (flush ts) := by
    rw [written_eq_gapChars, List.dropWhile_append_of_pos (hgap _)]
    exact dropWhile_of_head fun c hc => hspace c (not_isBlank_of_head_written hts c hc)
  -- what the text says of the neighbours of the word is what the tokens say of them
  have hcalled : inCallPosition cs (written (flush ts)) =
      isCalled before (ts.map Prod.snd).head? := by
    rw [inCallPosition, hcontext.isPrefixOf_colons, head_written_flush_eq hts (by decide) (by decide),
      head_written_flush_eq hts (by decide) (by decide), isPrefixOf_written_flush hts, isCalled]
  have htyped : inTypePosition cs (written (flush ts)) =
      isTyped (opened.headD false) before (ts.map Prod.snd).head? := by
    have hvalue : inValueBlock 0 none cs = opened.headD false := by
      rw [hcontext.value 0 none (by decide)]
      cases opened <;> rfl
    rw [inTypePosition, hcontext.head_colon_eq, hvalue, hcontext.head_eq (by decide) (by decide),
      hcontext.head_eq (by decide) (by decide), head_written_flush_eq hts (by decide) (by decide),
      isTyped]
  rw [spelling, hbefore, hafter, hcalled, htyped]
  split
  · rfl
  · split
    · rfl
    · dsimp only
      split
      · rename_i s hfound
        exact hw.spelled s hfound
      · rfl

theorem spellWords_gapChars (gap : Bool) (before cs : List Char) :
    spellWords before (runs (gapChars gap ++ cs)) =
      gapChars gap ++ spellWords (gapChars gap ++ before) (runs cs) := by
  cases gap with
  | false => rfl
  | true => exact spellWords_mark (by decide) before cs

theorem spellWords_of_no_word {ts : Tokens} (h : Fits ts) (hword : ∀ w, .word w ∉ ts.map Prod.snd)
    (before : List Char) : spellWords before (runs (written ts)) = written ts := by
  induction ts generalizing before with
  | nil => rfl
  | cons x ts ih =>
    obtain ⟨gap, t⟩ := x
    have hrest := ih h.tail fun w hw => hword w (List.mem_cons_of_mem _ hw)
    rw [written, List.append_assoc, spellWords_gapChars]
    cases t with
    | colons =>
      rw [Token.chars, List.cons_append, List.singleton_append, spellWords_mark (by decide),
        spellWords_mark (by decide), hrest]
    | mark c =>
      rw [Token.chars, List.singleton_append, spellWords_mark (Fits.cons_iff.1 h).1.2, hrest]
    | word w => exact absurd (List.mem_cons_self ..) (hword w)

theorem spellWords_written {ts : Tokens} (h : Fits ts) {opened : List Bool} {before : Option Token}
    {cs : List Char} (hcontext : InContext opened before cs)
    (hseam : ∀ t ∈ before, ∀ x ∈ ts.head?, t.clings x.2 = true → x.1 = true)
    (hkept : Kept opened before (ts.map Prod.snd)) :
    spellWords cs (runs (written ts)) = written ts := by
  induction ts generalizing opened before cs with
  | nil => rfl
  | cons x ts ih =>
    obtain ⟨gap, t⟩ := x
    obtain ⟨ht, hfirst, hrest⟩ := Fits.cons_iff.1 h
    have hnext : ∀ u ∈ some t, ∀ x ∈ ts.head?, u.clings x.2 = true → x.1 = true := by
      intro u hu
      obtain rfl := Option.some.inj hu
      exact hfirst
    rw [written, List.append_assoc, spellWords_gapChars]
    cases t with
    | colons =>
      rw [Token.chars, List.cons_append, List.singleton_append, spellWords_mark (by decide),
        spellWords_mark (by decide), ih hrest (hcontext.colons gap) hnext hkept]
    | mark c =>
      rw [Token.chars, List.singleton_append, spellWords_mark ht.2]
      rw [List.map_cons, Kept] at hkept
      split at hkept
      · rw [spellWords_of_no_word hrest hkept]
      · rename_i hplain
        refine congrArg (gapChars gap ++ c :: ·) ?_
        refine ih hrest (hcontext.mark gap ht hplain ?_) hnext hkept.2
        rintro rfl
        cases gap with
        | true => exact fun hhead => absurd (Option.some.inj hhead) (by decide)
        | false =>
          intro hhead
          -- the colon before it would be a token of its own and cling to this one
          have hcolon := hcontext.head_colon_eq
          have hhead : cs.head? = some ':' := hhead
          rw [hcontext.isPrefixOf_colons, beq_eq_false_iff_ne.2 (hkept.1 rfl), hhead] at hcolon
          have hbefore : before = some (.mark ':') := beq_iff_eq.1 hcolon.symm
          exact absurd (hseam _ hbefore (false, .mark ':') rfl rfl) Bool.false_ne_true
    | word w =>
      rw [Token.chars, spellWords_word ht.1 ht.2 (not_isWordChar_head_written hrest hfirst),
        spelling_eq_self hcontext gap hrest hkept.1, ite_self,
        ih hrest (hcontext.word gap ht) hnext hkept.2]

theorem spellDirections_written {ts : Tokens} (h : Fits ts)
    (hword : ∀ w, .word w ∈ ts.map Prod.snd → directed w = w) :
    spellDirections (written ts) = written ts := by
  induction ts with
  | nil => rfl
  | cons x ts ih =>
    obtain ⟨gap, t⟩ := x
    obtain ⟨ht, hfirst, hrest⟩ := Fits.cons_iff.1 h
    have hnext := ih hrest fun w hw => hword w (List.mem_cons_of_mem _ hw)
    have hgap (cs : List Char) : spellDirections (gapChars gap ++ cs) =
        gapChars gap ++ spellDirections cs := by
      cases gap with
      | false => rfl
      | true => exact spellDirections_mark (by decide) cs
    rw [written, List.append_assoc, hgap]
    cases t with
    | colons =>
      rw [Token.chars, List.cons_append, List.singleton_append, spellDirections_mark (by decide),
        spellDirections_mark (by decide), hnext]
    | mark c => rw [Token.chars, List.singleton_append, spellDirections_mark ht.2, hnext]
    | word w =>
      rw [Token.chars, spellDirections_word ht.1 ht.2 (not_isWordChar_head_written hrest hfirst),
        hword w (List.mem_cons_self ..), hnext]

theorem Kept.directed {ts : List Token} {opened : List Bool} {before : Option Token}
    (h : Kept opened before ts) : ∀ w, .word w ∈ ts → directed w = w := by
  induction ts generalizing opened before with
  | nil => simp
  | cons t ts ih =>
    intro v hv
    cases t with
    | colons => exact ih h v (by simpa using hv)
    | word w =>
      rcases List.mem_cons.1 hv with heq | hv
      · obtain rfl := Token.word.inj heq
        exact h.1.directed
      · exact ih h.2 v hv
    | mark c =>
      have hv : .word v ∈ ts := by simpa using hv
      rw [Kept] at h
      split at h
      · exact absurd hv (h v)
      · exact ih h.2 v hv

/-- Code whose tokens are as they should be. -/
structure Tidy (ts : List Token) : Prop where
  colons : NoLooseColon ts
  kept : Kept [] none ts
  marks : .mark '/' ∉ ts ∧ .mark '#' ∉ ts

theorem tidyCode_written {ts : Tokens} (h : Fits ts) (htidy : Tidy (ts.map Prod.snd)) :
    tidyCode (written ts) = written (tight ts) := by
  have htight := h.tight htidy.colons
  rw [tidyCode, space_written h, spellDirections_written htight,
    spellWords_written htight .empty (by simp)]
  · rw [map_snd_tight]
    exact htidy.kept
  · rw [map_snd_tight]
    exact htidy.kept.directed

/-! ### Comments -/

theorem comment?_eq_none {c : Char} (hslash : c ≠ '/') (hhash : c ≠ '#') (cs : List Char) :
    comment? (c :: cs) = none := by
  simp [comment?, hslash, hhash]

/-- A text without the marks that start comments is code. -/
theorem pieces_eq_code {cs : List Char} (h : ∀ c ∈ cs, c ≠ '/' ∧ c ≠ '#') (pending : List Char) :
    pieces pending cs = [.code (pending.reverse ++ cs)] := by
  induction cs generalizing pending with
  | nil => rw [pieces, List.append_nil]
  | cons c cs ih =>
    obtain ⟨hc, hcs⟩ := List.forall_mem_cons.1 h
    rw [pieces]
    split
    · rename_i hcomment
      rw [comment?_eq_none hc.1 hc.2] at hcomment
      cases hcomment
    · rw [ih hcs, List.reverse_cons, List.append_assoc, List.singleton_append]

theorem tidy_eq_tidyCode {cs : List Char} (h : ∀ c ∈ cs, c ≠ '/' ∧ c ≠ '#') :
    tidy cs = tidyCode cs := by
  rw [tidy, pieces_eq_code h]
  exact List.append_nil _

/-- Tokens without the marks that start comments are written without them. -/
theorem not_mem_comment {ts : Tokens} (h : Fits ts)
    (hmarks : .mark '/' ∉ ts.map Prod.snd ∧ .mark '#' ∉ ts.map Prod.snd) :
    ∀ c ∈ written ts, c ≠ '/' ∧ c ≠ '#' := by
  intro c hc
  constructor
  · rintro rfl
    exact hmarks.1 (mark_mem_of_mem_written h.sound (by decide) (by decide) (by decide) hc)
  · rintro rfl
    exact hmarks.2 (mark_mem_of_mem_written h.sound (by decide) (by decide) (by decide) hc)

theorem tidy_written {ts : Tokens} (h : Fits ts) (htidy : Tidy (ts.map Prod.snd)) :
    tidy (written ts) = written (tight ts) := by
  rw [tidy_eq_tidyCode (not_mem_comment h htidy.marks), tidyCode_written h htidy]

end Layout

end Hql
