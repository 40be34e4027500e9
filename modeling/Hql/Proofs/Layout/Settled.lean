import Hql.Proofs.Layout.Literal
import Hql.Proofs.Layout.Paragraph
import Hql.Proofs.Layout.Phrase

/-!
Layout of code that is settled: its words are spelled as they are wherever they stand. A line of such
code with single spaces in it is tidy, and a literal at its end is laid out by itself.
-/

namespace Hql.Layout

open Text

/-! ### Settled code -/

/-- The marks of settled code. -/
def codeMarks : List Char := [' ', ':', ',', '[', ']', '\x7b', '\x7d']

/-- Code whose words may stand anywhere. -/
inductive Settled : List Char → Prop
  | nil : Settled []
  | mark {c : Char} {cs : List Char} (hc : c ∈ codeMarks) (h : Settled cs) : Settled (c :: cs)
  | word {w cs : List Char} (hsound : (Token.word w).IsSound) (hw : IsNeutral w)
      (hcs : ∀ d ∈ cs.head?, isWordChar d = false) (h : Settled cs) : Settled (w ++ cs)

theorem isWordChar_of_mem_codeMarks : ∀ c ∈ codeMarks, isWordChar c = false := by decide

theorem IsNeutral.spelling_eq {w : List Char} (h : IsNeutral w) (before after : List Char) :
    spelling before after w = w := by
  rw [spelling]
  dsimp only
  split
  · rfl
  · split
    · rfl
    · split
      · rename_i s hs
        exact (h.keeps _ _).spelled s hs
      · rfl

/-- A mark starts no block. -/
theorem startsBlock_mark {c : Char} (hc : isWordChar c = false) (cs : List Char) :
    startsBlock (c :: cs) = startsBlock cs := by
  have hrun (run : List Char) : isBlockWord (c :: run) = false := isBlockWord_eq_false hc
  rw [startsBlock, startsBlock, runs]
  split
  · rename_i d run more h
    rw [h]
    split
    · rename_i heq
      rw [hc, beq_iff_eq] at heq
      have hd : isBlockWord (d :: run) = false := isBlockWord_eq_false heq.symm
      rw [List.any_cons, hrun, List.any_cons, hd]
    · rw [List.any_cons, hrun, Bool.false_or]
  · rw [List.any_cons, hrun, Bool.false_or]

theorem startsBlock_word {w cs : List Char} (hw : (Token.word w).IsSound)
    (hcs : ∀ d ∈ cs.head?, isWordChar d = false) :
    startsBlock (w ++ cs) = (isBlockWord w || startsBlock cs) := by
  rw [startsBlock, runs_word hw.1 hw.2 hcs, List.any_cons, startsBlock]

theorem startsBlock_indent {indent : List Char} (h : ∀ c ∈ indent, c = ' ') (cs : List Char) :
    startsBlock (indent ++ cs) = startsBlock cs := by
  induction indent with
  | nil => rfl
  | cons c indent ih =>
    obtain ⟨rfl, hindent⟩ := List.forall_mem_cons.1 h
    rw [List.cons_append, startsBlock_mark (by decide), ih hindent]

theorem startsBlock_comma (cs : List Char) : startsBlock (cs ++ [',']) = startsBlock cs := by
  induction cs using words_induction with
  | nil => rfl
  | mark c cs hc ih => rw [List.cons_append, startsBlock_mark hc, ih, startsBlock_mark hc]
  | word w cs hne hw hcs ih =>
    rw [List.append_assoc, startsBlock_word ⟨hne, hw⟩ (head_comma hcs), ih,
      startsBlock_word ⟨hne, hw⟩ hcs]

namespace Settled

variable {a b : List Char} (h : Settled a) (hb : ∀ d ∈ b.head?, isWordChar d = false)

include h in
theorem mem {c : Char} (hc : c ∈ a) : isWordChar c = true ∨ c ∈ codeMarks := by
  induction h with
  | nil => cases hc
  | mark hmark _ ih =>
    rcases List.mem_cons.1 hc with rfl | hc
    · exact .inr hmark
    · exact ih hc
  | word hsound _ _ _ ih =>
    rcases List.mem_append.1 hc with hc | hc
    · exact .inl (hsound.2 c hc)
    · exact ih hc

include h in
/-- Settled code has none of the characters that are neither of words nor its marks. -/
theorem not_mem {c : Char} (hword : isWordChar c = false) (hmark : c ∉ codeMarks) : c ∉ a := by
  intro hc
  rcases h.mem hc with hw | hm
  · rw [hword] at hw
    cases hw
  · exact hmark hm

include h in
theorem no_comment : ∀ c ∈ a, c ≠ '/' ∧ c ≠ '#' := by
  refine fun c hc => ⟨?_, ?_⟩
  · rintro rfl
    exact h.not_mem (by decide) (by decide) hc
  · rintro rfl
    exact h.not_mem (by decide) (by decide) hc

include h hb in
theorem spellDirections_append : spellDirections (a ++ b) = a ++ spellDirections b := by
  induction h with
  | nil => rfl
  | mark hc _ ih =>
    rw [List.cons_append, spellDirections_mark (isWordChar_of_mem_codeMarks _ hc), ih,
      List.cons_append]
  | word hsound hw hcs _ ih =>
    rw [List.append_assoc, spellDirections_word hsound.1 hsound.2 (head_append hcs hb), ih,
      (hw.keeps false false).directed, List.append_assoc]

include h hb in
theorem spellWords_append (before : List Char) :
    spellWords before (runs (a ++ b)) = a ++ spellWords (a.reverse ++ before) (runs b) := by
  induction h generalizing before with
  | nil => rfl
  | mark hc _ ih =>
    rw [List.cons_append, spellWords_mark (isWordChar_of_mem_codeMarks _ hc), ih,
      List.reverse_cons, List.append_assoc, List.cons_append]
    rfl
  | word hsound hw hcs _ ih =>
    rw [List.append_assoc, spellWords_word hsound.1 hsound.2 (head_append hcs hb), ih,
      hw.spelling_eq, ite_self, List.reverse_append, List.append_assoc, List.append_assoc]

include h hb in
theorem startsBlock_append : startsBlock (a ++ b) = startsBlock b := by
  induction h with
  | nil => rfl
  | mark hc _ ih =>
    rw [List.cons_append, startsBlock_mark (isWordChar_of_mem_codeMarks _ hc), ih]
  | word hsound hw hcs _ ih =>
    rw [List.append_assoc, startsBlock_word hsound (head_append hcs hb), hw.noBlock, Bool.false_or,
      ih]

end Settled

/-! ### Words with single spaces between them -/

theorem joinChains_step {c : Char} {cs : List Char} (hc : isBlank c = false)
    (hcolons : ¬ (c = ':' ∧ cs.head? = some ':')) (after : Bool) :
    joinChains [] after (c :: cs) = c :: joinChains [] false cs := by
  rw [joinChains_cons hcolons, if_neg (by rw [hc]; decide)]
  rfl

theorem joinChains_solid {u : List Char} (hu : ∀ c ∈ u, isBlank c = false) (after : Bool) :
    joinChains [] after u = u := by
  induction u using tokens_induction generalizing after with
  | nil => rfl
  | colons cs ih =>
    rw [joinChains, ih fun c hc => hu c (by simp [hc])]
  | blank c cs hc ih =>
    rw [hu c (List.mem_cons_self ..)] at hc
    cases hc
  | word c cs hc ih =>
    have hcolon : ¬ (c = ':' ∧ cs.head? = some ':') := by
      rintro ⟨rfl, -⟩
      exact absurd hc (by decide)
    rw [joinChains_step (not_isBlank_of_isWordChar hc) hcolon,
      ih fun d hd => hu d (List.mem_cons_of_mem c hd)]
  | mark c cs hblank hword hcolons ih =>
    rw [joinChains_step hblank hcolons, ih fun d hd => hu d (List.mem_cons_of_mem c hd)]

/-- Text without blanks is spaced as it is. -/
theorem space_solid {u : List Char} (hne : u ≠ []) (hu : ∀ c ∈ u, isBlank c = false) :
    space u = u := by
  have hsqueeze : squeeze false u = u := by
    have hall := squeeze_append hne hu false []
    rw [List.append_nil] at hall
    exact hall.trans (List.append_nil u)
  have hopen (bracket : Char) : closeAfter bracket false u = u := by
    have hall : closeAfter bracket false (u ++ []) = _ := closeAfter_append hne hu false []
    rw [List.append_nil] at hall
    exact hall.trans (List.append_nil u)
  have hclose (bracket : Char) : closeBefore bracket u = u := by
    have hall := closeBefore_append hu bracket []
    rw [List.append_nil] at hall
    exact hall.trans (List.append_nil u)
  rw [space, joinChains_solid hu, hsqueeze, hopen, hclose, hopen, hclose]

/-- A character before which a gap stays. -/
def Follows (c : Char) : Prop := isBlank c = false ∧ c ∉ [':', '\x7d', ')']

instance (c : Char) : Decidable (Follows c) := inferInstanceAs (Decidable (_ ∧ _))

theorem Begins.follows {c : Char} (h : Begins c) : Follows c :=
  ⟨h.1, fun hmem => h.2 (by
    simp only [List.mem_cons, List.not_mem_nil, or_false] at hmem
    rcases hmem with rfl | rfl | rfl <;> decide)⟩

theorem Follows.single {c : Char} (h : Follows c) (cs : List Char) :
    ¬ (c = ':' ∧ cs.head? = some ':') := by
  rintro ⟨rfl, -⟩
  exact absurd h.2 (by decide)

/-- The gap after a text that does not end with a double colon stays. -/
theorem joinChains_gap {u : List Char} (hu : ∀ c ∈ u, isBlank c = false) {after : Bool}
    (hstart : u = [] → after = false) (hlast : ¬ [':', ':'] <:+ u) {c : Char} (hc : Follows c)
    (more : List Char) :
    joinChains [] after (u ++ ' ' :: c :: more) = u ++ ' ' :: joinChains [] false (c :: more) := by
  have hhead (cs : List Char) (h : (cs ++ ' ' :: c :: more).head? = some ':') :
      cs.head? = some ':' := by
    cases cs with
    | nil => exact absurd (Option.some.inj h) (by decide)
    | cons d cs => exact h
  have hsuffix {d : Char} {cs : List Char} (h : ¬ [':', ':'] <:+ d :: cs) : ¬ [':', ':'] <:+ cs :=
    fun hcs => h (hcs.trans (List.suffix_cons _ _))
  -- `after` says that a double colon came before, which would take the gap of an empty text
  induction u using tokens_induction generalizing after with
  | nil =>
    have hspace : isBlank ' ' = true := by decide
    rw [hstart rfl, List.nil_append, joinChains_cons (fun h => absurd h.1 (by decide)), hspace,
      if_pos rfl, joinChains_cons (hc.single more), hc.1, joinChains_step hc.1 (hc.single more)]
    rfl
  | colons cs ih =>
    have hne : cs ≠ [] := by
      rintro rfl
      exact hlast (List.suffix_refl _)
    rw [List.cons_append, List.cons_append, joinChains,
      ih (fun d hd => hu d (by simp [hd])) (fun h => absurd h hne) (hsuffix (hsuffix hlast))]
    rfl
  | blank d cs hd ih =>
    rw [hu d (List.mem_cons_self ..)] at hd
    cases hd
  | word d cs hd ih =>
    have hcolon : ¬ (d = ':' ∧ (cs ++ ' ' :: c :: more).head? = some ':') := by
      rintro ⟨rfl, -⟩
      exact absurd hd (by decide)
    rw [List.cons_append, joinChains_step (not_isBlank_of_isWordChar hd) hcolon,
      ih (fun e he => hu e (List.mem_cons_of_mem d he)) (fun _ => rfl) (hsuffix hlast)]
    rfl
  | mark d cs hblank hword hcolons ih =>
    have hcolon : ¬ (d = ':' ∧ (cs ++ ' ' :: c :: more).head? = some ':') := fun h =>
      hcolons ⟨h.1, hhead cs h.2⟩
    rw [List.cons_append, joinChains_step hblank hcolon,
      ih (fun e he => hu e (List.mem_cons_of_mem d he)) (fun _ => rfl) (hsuffix hlast)]
    rfl

/-- A part of the spacing that takes text without blanks and what stands after it apart. -/
structure KeepsGap (f : List Char → List Char) (u : List Char) : Prop where
  head : ∀ c more, Follows c → ∃ more', f (c :: more) = c :: more'
  gap : ∀ c more, Follows c → f (u ++ ' ' :: c :: more) = u ++ ' ' :: f (c :: more)

theorem KeepsGap.comp {f g : List Char → List Char} {u : List Char} (hf : KeepsGap f u)
    (hg : KeepsGap g u) : KeepsGap (fun x => g (f x)) u where
  head c more hc := by
    obtain ⟨more', hmore⟩ := hf.head c more hc
    obtain ⟨more'', hmore'⟩ := hg.head c more' hc
    exact ⟨more'', by rw [hmore, hmore']⟩
  gap c more hc := by
    obtain ⟨more', hmore⟩ := hf.head c more hc
    rw [hf.gap c more hc, hmore, hg.gap c more' hc]

/-- Text without blanks that no gap clings to. -/
structure IsChunk (u : List Char) : Prop where
  ne_nil : u ≠ []
  solid : ∀ c ∈ u, isBlank c = false
  colons : ¬ [':', ':'] <:+ u
  last : ∀ c ∈ u.getLast?, c ≠ '(' ∧ c ≠ '\x7b'

namespace IsChunk

variable {u : List Char} (h : IsChunk u)

theorem of_last {c : Char} (hsolid : ∀ c ∈ u, isBlank c = false) (hlast : u.getLast? = some c)
    (hc : c ≠ ':' ∧ c ≠ '(' ∧ c ≠ '\x7b') : IsChunk u where
  ne_nil := by
    rintro rfl
    cases hlast
  solid := hsolid
  colons := by
    rintro ⟨front, rfl⟩
    rw [List.getLast?_append] at hlast
    exact hc.1 (Option.some.inj hlast).symm
  last d hd := by
    obtain rfl := Option.some.inj (hlast.symm.trans hd)
    exact hc.2

include h

theorem keepsGap_joinChains : KeepsGap (joinChains [] false) u where
  head _ more hc := ⟨_, joinChains_step hc.1 (hc.single more) false⟩
  gap _ more hc := joinChains_gap h.solid (fun hnil => absurd hnil h.ne_nil) h.colons hc more

theorem keepsGap_squeeze : KeepsGap (squeeze false) u where
  head c more hc := ⟨squeeze false more, by rw [squeeze, hc.1, if_neg (by decide)]⟩
  gap c more hc := by
    have hspace : isBlank ' ' = true := by decide
    rw [squeeze_append h.ne_nil h.solid, squeeze, hspace, squeeze, hc.1, squeeze, hc.1]
    rfl

theorem keepsGap_closeAfter {bracket : Char} (hlast : u.getLast? ≠ some bracket) :
    KeepsGap (closeAfter bracket false) u where
  head c more hc := ⟨closeAfter bracket (c == bracket) more, by
    rw [closeAfter, hc.1, Bool.false_and, if_neg (by decide)]⟩
  gap c more hc := by
    rw [closeAfter_append h.ne_nil h.solid, beq_false_of_ne hlast, closeAfter, Bool.and_false,
      if_neg (by decide), closeAfter, hc.1, closeAfter, hc.1]
    rfl

theorem keepsGap_closeBefore {bracket : Char} (hbracket : ¬ Follows bracket) :
    KeepsGap (closeBefore bracket) u where
  head c more hc := ⟨closeBefore bracket more, by
    rw [closeBefore_cons, hc.1, Bool.false_and, if_neg (by decide)]⟩
  gap c more hc := by
    have hstep : closeBefore bracket (c :: more) = c :: closeBefore bracket more := by
      rw [closeBefore_cons, hc.1, Bool.false_and, if_neg (by decide)]
    have hhead : ((c :: closeBefore bracket more).head? == some bracket) = false :=
      beq_false_of_ne fun heq => hbracket (Option.some.inj heq ▸ hc)
    rw [closeBefore_append h.solid, closeBefore_cons, hstep, hhead, Bool.and_false,
      if_neg (by decide)]

theorem keepsGap_space : KeepsGap space u := by
  have hround : u.getLast? ≠ some '(' := fun heq => (h.last '(' heq).1 rfl
  have hbrace : u.getLast? ≠ some '\x7b' := fun heq => (h.last '\x7b' heq).2 rfl
  have hclose : ¬ Follows ')' := fun hc => absurd hc.2 (by decide)
  have hclose' : ¬ Follows '\x7d' := fun hc => absurd hc.2 (by decide)
  exact (((((h.keepsGap_joinChains.comp h.keepsGap_squeeze).comp
    (h.keepsGap_closeAfter hround)).comp (h.keepsGap_closeBefore hclose)).comp
    (h.keepsGap_closeAfter hbrace)).comp (h.keepsGap_closeBefore hclose'))

end IsChunk

/-! ### Lines of settled code -/

theorem Settled.append {a b : List Char} (ha : Settled a) (hb : Settled b)
    (hhead : ∀ d ∈ b.head?, isWordChar d = false) : Settled (a ++ b) := by
  induction ha with
  | nil => exact hb
  | mark hc _ ih => exact .mark hc ih
  | word hsound hw hcs _ ih =>
    rw [List.append_assoc]
    exact .word hsound hw (head_append hcs hhead) ih

/-- Settled code with its spacing in order is tidy. -/
theorem Settled.tidy_eq {a : List Char} (h : Settled a) (hspace : space a = a) : tidy a = a := by
  have hdirections := h.spellDirections_append (b := []) (by simp)
  have hwords := h.spellWords_append (b := []) (by simp) []
  simp only [List.append_nil] at hdirections hwords
  have hempty : spellDirections [] = [] := rfl
  rw [tidy_eq_tidyCode h.no_comment, tidyCode, hspace, hdirections, hempty, List.append_nil, hwords]
  exact List.append_nil a

/-- A literal still starts as one with its sort directions spelled. -/
theorem exists_spellDirections {c : Char} (hc : Begins c) (more : List Char) :
    ∃ d more', spellDirections (c :: more) = d :: more' ∧ Begins d := by
  generalize hcs : c :: more = cs
  cases cs using words_induction with
  | nil => cases hcs
  | mark d ds hd =>
    obtain ⟨rfl, rfl⟩ := List.cons.inj hcs
    exact ⟨c, _, spellDirections_mark hd more, hc⟩
  | word w ds hne hw hds =>
    obtain ⟨d, w, rfl⟩ := List.exists_cons_of_ne_nil hne
    obtain ⟨rfl, -⟩ := List.cons.inj hcs
    rw [spellDirections_word hne hw hds, directed]
    split
    · exact ⟨'A', _, rfl, by decide⟩
    · split
      · exact ⟨'D', _, rfl, by decide⟩
      · exact ⟨c, _, rfl, hc⟩

/-! ### Texts put together with single spaces -/

/-- A chunk of settled code that stands in front of others. -/
structure IsLead (u : List Char) : Prop extends IsChunk u where
  settled : Settled u
  brace : '\x7b' ∉ u
  head : ∃ c ∈ u.head?, Follows c

/-- A text with others in front of it, each with a space after it. -/
def ledBy (us : List (List Char)) (text : List Char) : List Char :=
  us.foldr (fun u cs => u ++ ' ' :: cs) text

@[simp] theorem ledBy_nil (text : List Char) : ledBy [] text = text := rfl

@[simp] theorem ledBy_cons (u : List Char) (us : List (List Char)) (text : List Char) :
    ledBy (u :: us) text = u ++ ' ' :: ledBy us text := rfl

theorem ledBy_append (us : List (List Char)) (text rest : List Char) :
    ledBy us text ++ rest = ledBy us (text ++ rest) := by
  induction us with
  | nil => rfl
  | cons u us ih => rw [ledBy_cons, List.append_assoc, List.cons_append, ih, ledBy_cons]

theorem ledBy_concat (us : List (List Char)) (u text : List Char) :
    ledBy (us ++ [u]) text = ledBy us (u ++ ' ' :: text) := by
  simp [ledBy]

theorem getLast?_ledBy (us : List (List Char)) {text : List Char} (h : text ≠ []) :
    (ledBy us text).getLast? = text.getLast? := by
  induction us with
  | nil => rfl
  | cons u us ih =>
    have hne : ledBy us text ≠ [] := by
      cases us <;> simp [h]
    rw [ledBy_cons, List.getLast?_append_of_ne_nil _ (by simp), List.getLast?_cons_of_ne_nil hne, ih]

section LedBy

variable {us : List (List Char)} (hus : ∀ u ∈ us, IsLead u) {text : List Char}

include hus

theorem Settled.ledBy (h : Settled text) : Settled (ledBy us text) := by
  induction us with
  | nil => exact h
  | cons u us ih =>
    obtain ⟨hu, hus⟩ := List.forall_mem_cons.1 hus
    exact hu.settled.append (.mark (by decide) (ih hus)) (by simp; decide)

theorem brace_not_mem_ledBy (h : '\x7b' ∉ text) : '\x7b' ∉ Layout.ledBy us text := by
  induction us with
  | nil => exact h
  | cons u us ih =>
    obtain ⟨hu, hus⟩ := List.forall_mem_cons.1 hus
    rw [ledBy_cons, List.mem_append, List.mem_cons]
    rintro (hmem | hmem | hmem)
    · exact hu.brace hmem
    · exact absurd hmem (by decide)
    · exact ih hus hmem

theorem head_ledBy (h : ∃ c ∈ text.head?, Follows c) :
    ∃ c ∈ (Layout.ledBy us text).head?, Follows c := by
  cases us with
  | nil => exact h
  | cons u us =>
    obtain ⟨hu, -⟩ := List.forall_mem_cons.1 hus
    rw [ledBy_cons, List.head?_append_of_ne_nil _ hu.ne_nil]
    exact hu.head

/-- Chunks keep the spaces after them. -/
theorem space_ledBy {rest rest' : List Char} (h : ∃ c ∈ text.head?, Follows c)
    (hspace : space (text ++ rest) = text ++ rest') :
    space (Layout.ledBy us text ++ rest) = Layout.ledBy us text ++ rest' := by
  induction us with
  | nil => exact hspace
  | cons u us ih =>
    obtain ⟨hu, hus⟩ := List.forall_mem_cons.1 hus
    obtain ⟨c, hc, hfollows⟩ := head_ledBy hus h
    obtain ⟨more, hmore⟩ := List.head?_eq_some_iff.1 hc
    have hstep := hu.keepsGap_space.gap c (more ++ rest) hfollows
    rw [← List.cons_append, ← hmore] at hstep
    rw [ledBy_cons, List.append_assoc, List.cons_append, hstep, ih hus, List.append_assoc,
      List.cons_append]

end LedBy

/-- A line of settled code with its spacing in order. -/
structure IsCodeLine (a : List Char) : Prop where
  settled : Settled a
  space_eq : space a = a
  head : ∃ c ∈ a.head?, Follows c
  last : ∀ c ∈ a.getLast?, isBlank c = false

namespace IsCodeLine

theorem of_solid {u : List Char} (hsolid : ∀ c ∈ u, isBlank c = false) (hsettled : Settled u)
    (hhead : ∃ c ∈ u.head?, Follows c) : IsCodeLine u where
  settled := hsettled
  space_eq := by
    obtain ⟨c, hc, -⟩ := hhead
    refine space_solid ?_ hsolid
    rintro rfl
    cases hc
  head := hhead
  last c hc := hsolid c (List.mem_of_getLast? hc)

theorem ledBy {us : List (List Char)} (hus : ∀ u ∈ us, IsLead u) {text : List Char}
    (h : IsCodeLine text) : IsCodeLine (ledBy us text) where
  settled := h.settled.ledBy hus
  space_eq := by
    have hspace : space (Layout.ledBy us text ++ []) = Layout.ledBy us text ++ [] :=
      space_ledBy hus h.head (by rw [List.append_nil, h.space_eq])
    rwa [List.append_nil] at hspace
  head := head_ledBy hus h.head
  last := by
    obtain ⟨c, hc, -⟩ := h.head
    have hne : text ≠ [] := by
      rintro rfl
      cases hc
    rw [getLast?_ledBy us hne]
    exact h.last

theorem tidy_eq {a : List Char} (h : IsCodeLine a) : tidy a = a := h.settled.tidy_eq h.space_eq

end IsCodeLine

/-- Code that a literal may follow. -/
structure TakesLiteral (a : List Char) : Prop where
  settled : Settled a
  brace : '\x7b' ∉ a
  last : ∃ c ∈ a.getLast?, isWordChar c = true
  head : ∃ c ∈ a.head?, Follows c
  gap : ∀ c more, Follows c → space (a ++ ' ' :: c :: more) = a ++ ' ' :: space (c :: more)

namespace TakesLiteral

variable {a : List Char}

theorem of_lead (h : IsLead a) (hlast : ∃ c ∈ a.getLast?, isWordChar c = true) : TakesLiteral a where
  settled := h.settled
  brace := h.brace
  last := hlast
  head := h.head
  gap := h.keepsGap_space.gap

theorem ledBy {us : List (List Char)} (hus : ∀ u ∈ us, IsLead u) (h : TakesLiteral a) :
    TakesLiteral (ledBy us a) where
  settled := h.settled.ledBy hus
  brace := brace_not_mem_ledBy hus h.brace
  last := by
    obtain ⟨c, hc, hword⟩ := h.last
    have hne : a ≠ [] := by
      rintro rfl
      cases hc
    rw [getLast?_ledBy us hne]
    exact ⟨c, hc, hword⟩
  head := head_ledBy hus h.head
  gap c more hc := space_ledBy hus h.head (h.gap c more hc)

/-- Code in front of a literal and the literal are laid out by themselves. -/
theorem tidyCode_eq (h : TakesLiteral a) {c : Char} (hc : Begins c) (more : List Char) :
    tidyCode (a ++ ' ' :: c :: more) = a ++ ' ' :: tidyCode (c :: more) := by
  have hchunk : IsChunk ['x'] := .of_last (by decide) rfl (by decide)
  obtain ⟨spaced, hspaced⟩ := hchunk.keepsGap_space.head c more hc.follows
  obtain ⟨d, directions, hdirections, hd⟩ := exists_spellDirections hc spaced
  have hspace : isWordChar ' ' = false := by decide
  have hgap (cs : List Char) : ∀ e ∈ (' ' :: cs).head?, isWordChar e = false := by simp; decide
  -- the code in front does not reach into the literal
  have hfront : '\x7b' ∉ ' ' :: a.reverse := by
    simpa using h.brace
  have hlast : ∃ e cs, (' ' :: a.reverse).dropWhile (· == ' ') = e :: cs ∧ isWordChar e = true := by
    obtain ⟨e, he, hword⟩ := h.last
    obtain ⟨init, rfl⟩ := List.getLast?_eq_some_iff.1 he
    have hne : (e == ' ') = false := beq_false_of_ne fun heq => by
      rw [heq] at hword
      exact absurd hword (by decide)
    have hreverse : ' ' :: (init ++ [e]).reverse = ' ' :: e :: init.reverse := by simp
    refine ⟨e, init.reverse, ?_, hword⟩
    rw [hreverse, List.dropWhile_cons_of_pos (by decide), List.dropWhile_cons, hne,
      if_neg (by decide)]
  have hinside : spellWords ([] ++ ' ' :: a.reverse) (runs (d :: directions)) =
      spellWords [] (runs (d :: directions)) :=
    spellWords_before (by simp) hfront hlast fun _ e he => Option.some.inj he ▸ hd
  rw [tidyCode, h.gap c more hc.follows, hspaced, h.settled.spellDirections_append (hgap _),
    spellDirections_mark hspace, hdirections, h.settled.spellWords_append (hgap _),
    spellWords_mark hspace, List.append_nil]
  rw [List.nil_append] at hinside
  rw [hinside, tidyCode, hspaced, hdirections]

/-- Code in front of a literal and the literal are laid out by themselves, comments in the literal
included. -/
theorem tidy_eq (h : TakesLiteral a) {c : Char} (hc : Begins c) (more : List Char) :
    tidy (a ++ ' ' :: c :: more) = a ++ ' ' :: tidy (c :: more) := by
  obtain ⟨code, rest, hpieces⟩ := exists_pieces more
  have hcomment : comment? (c :: more) = none := comment?_eq_none (by
    rintro rfl
    exact absurd hc (by decide)) (by
    rintro rfl
    exact absurd hc (by decide)) more
  have hfront : ∀ d ∈ a ++ [' '], d ≠ '/' ∧ d ≠ '#' := by
    rw [List.forall_mem_append]
    exact ⟨h.settled.no_comment, by decide⟩
  have hall : pieces [] (a ++ ' ' :: c :: more) = .code (a ++ ' ' :: c :: code) :: rest := by
    have hsplit : a ++ ' ' :: c :: more = (a ++ [' ']) ++ c :: more := by simp
    rw [hsplit, pieces_append hfront, pieces_of_no_comment hcomment, hpieces]
    simp
  have hliteral : pieces [] (c :: more) = .code (c :: code) :: rest := by
    rw [pieces_of_no_comment hcomment, hpieces]
    rfl
  rw [tidy, hall, List.flatMap_cons, Piece.tidy, h.tidyCode_eq hc, tidy, hliteral, List.flatMap_cons,
    Piece.tidy, List.append_assoc]
  rfl

end TakesLiteral

end Hql.Layout
