import Hql.Layout.Document
import Hql.Proofs.Layout.Block

/-!
Texts divided into paragraphs. A paragraph holds one query and may have a comment above it. Whatever
stands on the lines of a query, a line starts a block only if it holds the word that starts queries; so
a text of paragraphs is divided as it was put together, one block for each query.
-/

namespace Hql

namespace Text

/-! ### Lines -/

theorem consFirst_append {pieces : List (List Char)} (h : pieces ≠ []) (c : Char)
    (more : List (List Char)) : consFirst c (pieces ++ more) = consFirst c pieces ++ more := by
  cases pieces with
  | nil => exact absurd rfl h
  | cons p ps => rfl

theorem lines_append {a : List Char} (ha : a.getLast? ≠ some '\r') (b : List Char) :
    lines (a ++ '\n' :: b) = lines a ++ lines b := by
  induction a with
  | nil => rfl
  | cons c a ih =>
    have ha' : a.getLast? ≠ some '\r' := by
      intro hlast
      rw [List.getLast?_cons, hlast] at ha
      exact ha rfl
    have hreturn : (decide (c = '\r') && (a ++ '\n' :: b).head? == some '\n') =
        (decide (c = '\r') && a.head? == some '\n') := by
      cases a with
      | nil =>
        have hc : c ≠ '\r' := fun heq => ha (congrArg some heq)
        rw [decide_eq_false hc]
        rfl
      | cons d a => rfl
    rw [List.cons_append, lines, lines, hreturn, ih ha', consFirst_append (Layout.lines_ne_nil a)]
    split
    · rfl
    · split <;> rfl

theorem lines_of_not_mem {cs : List Char} (h : '\n' ∉ cs) : lines cs = [cs] := by
  induction cs with
  | nil => rfl
  | cons c cs ih =>
    rw [List.mem_cons, not_or] at h
    have hhead : (cs.head? == some '\n') = false := by
      rw [beq_eq_false_iff_ne]
      exact fun hhead => h.2 (List.mem_of_mem_head? hhead)
    rw [lines, if_neg (fun heq => h.1 heq.symm), hhead, Bool.and_false, if_neg (by decide), ih h.2]
    rfl

theorem lines_append_left {a : List Char} (ha : ∀ c ∈ a, c ≠ '\n' ∧ c ≠ '\r') (b : List Char) :
    lines (a ++ b) = Layout.prependFirst a (lines b) := by
  induction a with
  | nil =>
    obtain ⟨p, ps, hp⟩ := List.exists_cons_of_ne_nil (Layout.lines_ne_nil b)
    rw [List.nil_append, hp]
    rfl
  | cons c a ih =>
    obtain ⟨⟨hn, hr⟩, ha⟩ := List.forall_mem_cons.1 ha
    rw [List.cons_append, lines, if_neg hn, decide_eq_false hr, Bool.false_and, if_neg (by decide),
      ih ha]
    cases lines b <;> rfl

theorem mem_of_mem_lines {cs l : List Char} (hl : l ∈ lines cs) {c : Char} (hc : c ∈ l) :
    c ∈ cs := by
  induction cs generalizing l with
  | nil =>
    obtain rfl := List.mem_singleton.1 hl
    exact hc
  | cons d cs ih =>
    rw [lines] at hl
    split at hl
    · rcases List.mem_cons.1 hl with rfl | hl
      · cases hc
      · exact List.mem_cons_of_mem _ (ih hl hc)
    · split at hl
      · exact List.mem_cons_of_mem _ (ih hl hc)
      · obtain ⟨p, ps, hps⟩ := List.exists_cons_of_ne_nil (Layout.lines_ne_nil cs)
        rw [hps] at hl ih
        rcases List.mem_cons.1 hl with rfl | hl
        · rcases List.mem_cons.1 hc with rfl | hc
          · exact List.mem_cons_self ..
          · exact List.mem_cons_of_mem _ (ih (List.mem_cons_self ..) hc)
        · exact List.mem_cons_of_mem _ (ih (List.mem_cons_of_mem _ hl) hc)

/-- The last line of a text ends as the text does. -/
theorem getLast_lines {cs : List Char} {c : Char} (h : cs.getLast? = some c) (hc : c ≠ '\n') :
    ∃ l, (lines cs).getLast? = some l ∧ l.getLast? = some c := by
  induction cs with
  | nil => cases h
  | cons d cs ih =>
    have hne := Layout.lines_ne_nil cs
    cases cs with
    | nil =>
      obtain rfl : d = c := Option.some.inj h
      have hreturn : (decide (d = '\r') && ([] : List Char).head? == some '\n') = false := Bool.and_false _
      rw [lines, if_neg hc, hreturn, if_neg (by decide)]
      exact ⟨[d], rfl, rfl⟩
    | cons e cs =>
      rw [List.getLast?_cons_cons] at h
      obtain ⟨l, hlast, hl⟩ := ih h
      rw [lines]
      split
      · refine ⟨l, ?_, hl⟩
        rw [List.getLast?_cons, hlast]
        rfl
      · split
        · exact ⟨l, hlast, hl⟩
        · obtain ⟨p, ps, hps⟩ := List.exists_cons_of_ne_nil hne
          rw [hps] at hlast ⊢
          -- the character joins the first line, which may be the last one as well
          cases ps with
          | nil =>
            obtain rfl : p = l := Option.some.inj hlast
            refine ⟨d :: p, rfl, ?_⟩
            rw [List.getLast?_cons, hl]
            rfl
          | cons q ps =>
            rw [List.getLast?_cons_cons] at hlast
            exact ⟨l, hlast, hl⟩

end Text

namespace Layout

open Text

/-! ### The words of a text -/

/-- A run of word characters. -/
def isWordRun (run : List Char) : Bool := run.head?.any isWordChar

theorem runs_cons (c : Char) (cs : List Char) : ∃ run more, runs (c :: cs) = (c :: run) :: more := by
  rw [runs]
  split
  · split
    · exact ⟨_, _, rfl⟩
    · exact ⟨_, _, rfl⟩
  · exact ⟨_, _, rfl⟩

theorem tokens_of_head {cs : List Char} {d : Char} (hd : cs.head? = some d)
    (hword : isWordChar d = true) :
    ∃ w ts, tokens false cs = (false, .word (d :: w)) :: ts := by
  obtain ⟨cs, rfl⟩ := List.head?_eq_some_iff.1 hd
  rw [tokens_wordChar hword]
  exact exists_joinWord false d _

theorem joinWord_of_head {c : Char} {cs : List Char} (h : ∀ d ∈ cs.head?, isWordChar d = false) :
    joinWord false c (tokens false cs) = (false, .word [c]) :: tokens false cs := by
  unfold joinWord
  split
  · rename_i w ts htokens
    obtain ⟨hne, hw⟩ := (fits_tokens false cs).sound (false, .word w) (by rw [htokens]; simp)
    obtain ⟨d, w, rfl⟩ := List.exists_cons_of_ne_nil hne
    have hd := h d (head_of_tokens htokens)
    rw [hw d (List.mem_cons_self ..)] at hd
    cases hd
  · rfl

/-- The words of a text are its runs of word characters. -/
theorem filter_runs (cs : List Char) : (runs cs).filter isWordRun = words (lexemes cs) := by
  -- a character that belongs to no word changes nothing
  have hother {c : Char} {cs : List Char} (hc : isWordChar c = false) :
      (runs (c :: cs)).filter isWordRun = (runs cs).filter isWordRun := by
    have hrun (run : List Char) : isWordRun (c :: run) = false := hc
    rw [runs]
    split
    · rename_i d run more h
      rw [h]
      split
      · rename_i heq
        have hd : isWordRun (d :: run) = false := by
          rw [beq_iff_eq, hc] at heq
          exact heq.symm
        rw [List.filter_cons_of_neg (by rw [hrun]; decide),
          List.filter_cons_of_neg (by rw [hd]; decide)]
      · rw [List.filter_cons_of_neg (by rw [hrun]; decide)]
    · rw [List.filter_cons_of_neg (by rw [hrun]; decide)]
  induction cs using tokens_induction with
  | nil => rfl
  | colons cs ih => rw [hother (by decide), hother (by decide), ih]; rfl
  | blank c cs hc ih =>
    rw [hother (isWordChar_of_isBlank hc), ih, lexemes, lexemes, tokens_blank hc, map_snd_tokens,
      map_snd_tokens]
  | mark c cs hblank hword hcolons ih =>
    have hlexemes : lexemes (c :: cs) = .mark c :: lexemes cs := by
      rw [lexemes, tokens_mark hblank hword hcolons]
      rfl
    rw [hother hword, ih, hlexemes]
    rfl
  | word c cs hc ih =>
    have hrun (run : List Char) : isWordRun (c :: run) = true := hc
    rw [lexemes, tokens_wordChar hc]
    cases cs with
    | nil => simp [runs, hrun, tokens, joinWord, words]
    | cons d cs =>
      obtain ⟨run, more, hruns⟩ := runs_cons d cs
      rw [runs, hruns]
      dsimp only
      rw [hruns] at ih
      by_cases hd : isWordChar d = true
      · have hrun' : isWordRun (d :: run) = true := hd
        have hhead : (d :: cs).head? = some d := rfl
        obtain ⟨w, ts, htokens⟩ := tokens_of_head hhead hd
        rw [List.filter_cons_of_pos hrun', lexemes, htokens] at ih
        obtain ⟨hhead, hmore⟩ := List.cons.inj ih
        rw [hc, hd, if_pos (by decide), List.filter_cons_of_pos (hrun _), hmore, htokens, hhead]
        rfl
      · rw [Bool.not_eq_true] at hd
        rw [hc, hd, if_neg (by decide), List.filter_cons_of_pos (hrun _), ih,
          joinWord_of_head (by simpa using hd)]
        rfl

theorem isBlockWord_eq_false {run : List Char} (h : isWordRun run = false) :
    isBlockWord run = false := by
  cases run with
  | nil => decide
  | cons c run =>
    have hc : isWordChar c = false := h
    have hmem : c ∈ c :: run := List.mem_cons_self ..
    exact Bool.or_eq_false_iff.2 ⟨equalsFolded_eq_false hmem hc (by decide),
      equalsFolded_eq_false hmem hc (by decide)⟩

/-- A line starts a block if one of its words does. -/
theorem startsBlock_eq (cs : List Char) : startsBlock cs = (words (lexemes cs)).any isBlockWord := by
  rw [startsBlock, ← filter_runs, List.any_filter]
  refine congrArg (List.any (runs cs)) (funext fun run => ?_)
  cases h : isWordRun run with
  | false => rw [isBlockWord_eq_false h, Bool.false_and]
  | true => rw [Bool.true_and]

/-! ### The words of lines -/

theorem seam_of_not_glues {a : List Char} {c : Char} (hword : isWordChar c = false)
    (hcolon : c ≠ ':') (b : List Char) : Seam a (c :: b) := by
  intro d _ e he
  obtain rfl := Option.some.inj he
  rw [glues, hword, beq_eq_false_iff_ne.2 hcolon, Bool.and_false, Bool.and_false]
  rfl

theorem lexemes_space (cs : List Char) : lexemes (' ' :: cs) = lexemes cs := by
  rw [lexemes, tokens_blank (by decide), map_snd_tokens]

theorem lexemes_oneLine (ls : List (List Char)) : lexemes (oneLine ls) = ls.flatMap lexemes := by
  cases ls with
  | nil => rfl
  | cons l ls =>
    rw [oneLine, intercalate_eq_flatMap, List.flatMap_cons]
    have hrest : ∀ l, lexemes (l ++ ls.flatMap ([' '] ++ ·)) = lexemes l ++ ls.flatMap lexemes := by
      induction ls with
      | nil => intro l; simp
      | cons m ls ih =>
        intro l
        rw [List.flatMap_cons, List.append_assoc, List.singleton_append,
          lexemes_append (seam_of_not_glues (by decide) (by decide) _), lexemes_space, ih,
          List.flatMap_cons]
    exact hrest l

theorem flatMap_lexemes_lines (cs : List Char) : (lines cs).flatMap lexemes = lexemes cs := by
  rw [← lexemes_oneLine, lexemes, tokens_oneLine_lines]
  rfl

theorem lexemes_blanks {blanks : List Char} (h : ∀ c ∈ blanks, isBlank c = true) (cs : List Char) :
    lexemes (blanks ++ cs) = lexemes cs := by
  rw [lexemes, tokens_blanks h, map_snd_tokens]

theorem lexemes_append_blanks {blanks : List Char} (h : ∀ c ∈ blanks, isBlank c = true)
    (cs : List Char) : lexemes (cs ++ blanks) = lexemes cs := by
  cases blanks with
  | nil => rw [List.append_nil]
  | cons c blanks =>
    have hc := h c (List.mem_cons_self ..)
    have hblanks := lexemes_blanks h []
    rw [List.append_nil] at hblanks
    have hcolon : c ≠ ':' := by
      rintro rfl
      exact absurd hc (by decide)
    rw [lexemes_append (seam_of_not_glues (isWordChar_of_isBlank hc) hcolon _), hblanks]
    exact List.append_nil _

/-- A text is what is left of it between blanks. -/
theorem exists_blanks_trim (cs : List Char) : ∃ a b, cs = a ++ trim cs ++ b ∧
    (∀ c ∈ a, isBlank c = true) ∧ ∀ c ∈ b, isBlank c = true := by
  have hend (cs : List Char) : cs = trimEnd cs ++ (cs.reverse.takeWhile isBlank).reverse := by
    have h := List.takeWhile_append_dropWhile (p := isBlank) (l := cs.reverse)
    have hreverse := congrArg List.reverse h
    rw [List.reverse_append, List.reverse_reverse] at hreverse
    exact hreverse.symm
  refine ⟨cs.takeWhile isBlank, ((trimStart cs).reverse.takeWhile isBlank).reverse, ?_, ?_, ?_⟩
  · rw [List.append_assoc, trim, ← hend, trimStart, List.takeWhile_append_dropWhile]
  · exact fun c hc => List.mem_takeWhile_imp hc
  · exact fun c hc => List.mem_takeWhile_imp (List.mem_reverse.1 hc)

theorem lexemes_trim (cs : List Char) : lexemes (trim cs) = lexemes cs := by
  obtain ⟨a, b, hcs, ha, hb⟩ := exists_blanks_trim cs
  have hlexemes := congrArg lexemes hcs
  rw [lexemes_append_blanks hb, lexemes_blanks ha] at hlexemes
  exact hlexemes.symm

/-! ### Paragraphs -/

/-- A query with the comment above it, if there is one. -/
structure Paragraph where
  comment : Option (List Char)
  text : List Char

/-- A comment on a line of its own. -/
structure IsComment (cs : List Char) : Prop where
  starts : ∃ rest, cs = '/' :: '/' :: rest
  line : '\n' ∉ cs
  last : ∀ c ∈ cs.getLast?, isBlank c = false
  noBlock : startsBlock cs = false

namespace Paragraph

def chars (p : Paragraph) : List Char :=
  match p.comment with
  | none => p.text
  | some c => c ++ '\n' :: p.text

/-- The text of a paragraph starts with the one word in it that starts a block. -/
structure IsSound (p : Paragraph) : Prop where
  comment : ∀ c ∈ p.comment, IsComment c
  starts : ∃ more, p.text = queryChars ++ ' ' :: more ∧
    (words (lexemes more)).any isBlockWord = false
  marks : ∀ c ∈ p.text, c ≠ '/' ∧ c ≠ '#'
  last : ∀ c ∈ p.text.getLast?, isBlank c = false

/-- The segments of a paragraph. -/
def segments (p : Paragraph) : List Segment :=
  p.comment.toList.map .loose ++ [.block (lines p.text)]

end Paragraph

/-- Paragraphs, with an empty line between two. -/
def document : List Paragraph → List Char
  | [] => []
  | [p] => p.chars
  | p :: q :: ps => p.chars ++ '\n' :: '\n' :: document (q :: ps)

/-- The lines of paragraphs. -/
def documentLines : List Paragraph → List (List Char)
  | [] => []
  | [p] => p.comment.toList ++ lines p.text
  | p :: q :: ps => p.comment.toList ++ lines p.text ++ [] :: documentLines (q :: ps)

theorem trim_eq_self {cs : List Char} (hhead : ∀ c ∈ cs.head?, isBlank c = false)
    (hlast : ∀ c ∈ cs.getLast?, isBlank c = false) : trim cs = cs := by
  have h := trim_between (a := []) (b := []) (by simp) (by simp) hhead hlast
  rwa [List.nil_append, List.append_nil] at h

theorem mem_of_mem_trim {cs : List Char} {c : Char} (h : c ∈ trim cs) : c ∈ cs := by
  obtain ⟨a, b, hcs, -, -⟩ := exists_blanks_trim cs
  rw [hcs]
  exact List.mem_append_left _ (List.mem_append_right _ h)

theorem isBlankLine_eq_false {l : List Char} {c : Char} (h : c ∈ l) (hc : isBlank c = false) :
    isBlankLine l = false := by
  obtain ⟨a, b, hl, ha, hb⟩ := exists_blanks_trim l
  rw [isBlankLine, List.isEmpty_eq_false_iff]
  intro hnil
  rw [hl, hnil, List.append_nil, List.mem_append] at h
  rcases h with h | h
  · rw [ha c h] at hc
    cases hc
  · rw [hb c h] at hc
    cases hc

namespace IsComment

variable {cs : List Char}

theorem trim_eq (h : IsComment cs) : trim cs = cs := by
  obtain ⟨rest, rfl⟩ := h.starts
  exact trim_eq_self (by simp; decide) h.last

theorem startsComment_eq (h : IsComment cs) : startsComment cs = true := by
  obtain ⟨rest, rfl⟩ := h.starts
  rfl

theorem isBlankLine_eq (h : IsComment cs) : isBlankLine cs = false := by
  rw [isBlankLine, h.trim_eq]
  obtain ⟨rest, rfl⟩ := h.starts
  rfl

theorem getLast_ne (h : IsComment cs) {d : Char} (hd : isBlank d = true) : cs.getLast? ≠ some d := by
  intro heq
  rw [h.last d heq] at hd
  cases hd

end IsComment

namespace Paragraph.IsSound

variable {p : Paragraph}

theorem getLast_ne (h : p.IsSound) {d : Char} (hd : isBlank d = true) :
    p.chars.getLast? ≠ some d := by
  have htext : p.text ≠ [] := by
    obtain ⟨more, hmore, -⟩ := h.starts
    rw [hmore]
    simp [queryChars]
  intro heq
  have hlast : p.text.getLast? = some d := by
    rw [chars] at heq
    split at heq
    · exact heq
    · rwa [List.getLast?_append_of_ne_nil _ (by simp), List.getLast?_cons_of_ne_nil htext] at heq
  rw [h.last d hlast] at hd
  cases hd

theorem lines_chars (h : p.IsSound) : lines p.chars = p.comment.toList ++ lines p.text := by
  rw [chars]
  cases hcomment : p.comment with
  | none => rfl
  | some c =>
    have hc := h.comment c hcomment
    rw [lines_append (hc.getLast_ne (by decide)), lines_of_not_mem hc.line]
    rfl

/-- The first line of a paragraph's text starts a block, and no other line does or is a comment. -/
theorem lines_text (h : p.IsSound) : ∃ first more, lines p.text = first :: more ∧
    isBlankLine first = false ∧ startsBlock (trim first) = true ∧
    (∀ l ∈ more, startsBlock (trim l) = false ∧ startsComment (trim l) = false) ∧
    ∀ l ∈ (lines p.text).getLast?, isBlankLine l = false := by
  obtain ⟨more, htext, hmore⟩ := h.starts
  obtain ⟨l, ls, hlines⟩ := List.exists_cons_of_ne_nil (lines_ne_nil more)
  have hsplit : lines p.text = (queryChars ++ ' ' :: l) :: ls := by
    have happend := lines_append_left (a := queryChars ++ [' ']) (by decide) more
    rw [List.append_assoc, List.singleton_append, ← htext, hlines] at happend
    rw [happend]
    simp [prependFirst]
  -- the words of the lines are those of the text, of which only the first one starts a block
  have hfirst : words (lexemes (queryChars ++ ' ' :: l)) = queryChars :: words (lexemes l) := by
    rw [lexemes_append (seam_of_not_glues (by decide) (by decide) _), lexemes_space]
    rfl
  refine ⟨_, _, hsplit, ?_, ?_, fun m hm => ⟨?_, ?_⟩, fun m hm => ?_⟩
  · exact isBlankLine_eq_false (List.mem_append_left _ (List.mem_cons_self ..)) (by decide)
  · rw [startsBlock_eq, lexemes_trim, hfirst, List.any_cons]
    exact Bool.or_eq_true_iff.2 (.inl (by decide))
  · rw [startsBlock_eq, lexemes_trim, List.any_eq_false]
    intro w hw
    rw [List.any_eq_false] at hmore
    refine hmore w ?_
    rw [← flatMap_lexemes_lines, hlines, words, List.filterMap_flatMap]
    exact List.mem_flatMap.2 ⟨m, List.mem_cons_of_mem _ hm, hw⟩
  · have hsub : ∀ c ∈ trim m, c ∈ p.text := fun c hc =>
      mem_of_mem_lines (by rw [hsplit]; exact List.mem_cons_of_mem _ hm) (mem_of_mem_trim hc)
    cases htrim : trim m with
    | nil => rfl
    | cons c cs =>
      have hc := h.marks c (hsub c (by rw [htrim]; exact List.mem_cons_self ..))
      exact startsComment_eq_false hc.1 hc.2 cs
  · obtain ⟨c, hc⟩ : ∃ c, p.text.getLast? = some c := by
      cases hlast : p.text.getLast? with
      | none =>
        rw [List.getLast?_eq_none_iff, htext] at hlast
        simp [queryChars] at hlast
      | some c => exact ⟨c, rfl⟩
    have hblank := h.last c hc
    obtain ⟨k, hk, hkc⟩ := getLast_lines hc (by rintro rfl; exact absurd hblank (by decide))
    obtain rfl : k = m := Option.some.inj (hk.symm.trans hm)
    exact isBlankLine_eq_false (List.mem_of_getLast? hkc) hblank

end Paragraph.IsSound

theorem lines_document {ps : List Paragraph} (h : ∀ p ∈ ps, p.IsSound) (hne : ps ≠ []) :
    lines (document ps) = documentLines ps := by
  induction ps with
  | nil => exact absurd rfl hne
  | cons p ps ih =>
    obtain ⟨hp, hps⟩ := List.forall_mem_cons.1 h
    cases ps with
    | nil => exact hp.lines_chars
    | cons q ps =>
      have hrest (cs : List Char) : lines ('\n' :: cs) = [] :: lines cs := rfl
      rw [document, lines_append (hp.getLast_ne (by decide)), hrest, hp.lines_chars,
        ih hps (by simp), documentLines]

/-! ### Segments -/

/-- A block goes on before lines that are neither blank throughout nor start with a block or a
comment. -/
theorem endsBefore_eq_false {more : List (List Char)} (hne : more ≠ [])
    (hmore : ∀ l ∈ more, startsBlock (trim l) = false ∧ startsComment (trim l) = false)
    (hlast : ∀ l ∈ more.getLast?, isBlankLine l = false) (rest : List (List Char)) :
    endsBefore (more ++ rest) = false := by
  obtain ⟨l, ls, hdrop⟩ : ∃ l ls, more.dropWhile isBlankLine = l :: ls := by
    refine List.exists_cons_of_ne_nil fun hnil => ?_
    rw [List.dropWhile_eq_nil_iff] at hnil
    have hblank := hnil _ (List.getLast_mem hne)
    rw [hlast _ (List.getLast?_eq_some_getLast hne)] at hblank
    cases hblank
  have hl : l ∈ more := (List.dropWhile_suffix _).subset (by rw [hdrop]; exact List.mem_cons_self ..)
  have happend : (more ++ rest).dropWhile isBlankLine = l :: (ls ++ rest) := by
    rw [List.dropWhile_append, hdrop]
    rfl
  obtain ⟨hblock, hcomment⟩ := hmore l hl
  rw [endsBefore, happend, if_neg (by simp [hne])]
  dsimp only
  rw [hblock, hcomment]
  rfl

/-- The lines of a block up to its last one belong to it. -/
theorem segmentsOf_append {more : List (List Char)} (hne : more ≠ [])
    (hmore : ∀ l ∈ more, startsBlock (trim l) = false ∧ startsComment (trim l) = false)
    (hlast : ∀ l ∈ more.getLast?, isBlankLine l = false) {rest : List (List Char)}
    (hrest : endsBefore rest = true) (block : List (List Char)) :
    segmentsOf (some block) (more ++ rest) = .block (block ++ more) :: segmentsOf none rest := by
  induction more generalizing block with
  | nil => exact absurd rfl hne
  | cons l more ih =>
    obtain ⟨⟨hblock, -⟩, hmore⟩ := List.forall_mem_cons.1 hmore
    rw [List.cons_append, segmentsOf]
    dsimp only
    rw [hblock, if_neg (by decide)]
    cases more with
    | nil => rw [List.nil_append, hrest, if_pos rfl]
    | cons m more =>
      rw [List.getLast?_cons_cons] at hlast
      rw [endsBefore_eq_false (by simp) hmore hlast, if_neg (by decide), ih (by simp) hmore hlast,
        List.append_assoc, List.singleton_append]

/-- The lines of a text are one block. -/
theorem Paragraph.IsSound.segmentsOf {p : Paragraph} (h : p.IsSound) {rest : List (List Char)}
    (hrest : endsBefore rest = true) : Layout.segmentsOf none (lines p.text ++ rest) =
      .block (lines p.text) :: Layout.segmentsOf none rest := by
  obtain ⟨first, more, hlines, hblank, hblock, hmore, hlast⟩ := h.lines_text
  rw [hlines, List.cons_append, Layout.segmentsOf]
  dsimp only
  rw [hblank, if_neg (by decide), hblock, if_pos rfl]
  cases more with
  | nil => rw [List.nil_append, hrest, if_pos rfl]
  | cons m more =>
    rw [hlines, List.getLast?_cons_cons] at hlast
    rw [endsBefore_eq_false (by simp) hmore hlast, if_neg (by decide),
      segmentsOf_append (by simp) hmore hlast hrest, List.singleton_append]

/-- A block ends before the next paragraph. -/
theorem endsBefore_documentLines {p : Paragraph} (h : p.IsSound) (ps : List Paragraph) :
    endsBefore ([] :: documentLines (p :: ps)) = true := by
  obtain ⟨first, more, hlines, hblank, hblock, -, -⟩ := h.lines_text
  have hdrop (rest : List (List Char)) : (first :: rest).dropWhile isBlankLine = first :: rest :=
    List.dropWhile_cons_of_neg (by rw [hblank]; decide)
  have hempty : isBlankLine [] = true := rfl
  obtain ⟨rest, hrest⟩ : ∃ rest, documentLines (p :: ps) = p.comment.toList ++ first :: rest := by
    cases ps with
    | nil => exact ⟨more, by rw [documentLines, hlines]⟩
    | cons q ps =>
      exact ⟨_, by rw [documentLines, hlines, List.append_assoc, List.cons_append]⟩
  rw [endsBefore, hrest, if_neg (by simp), List.dropWhile_cons_of_pos hempty]
  cases hcomment : p.comment with
  | none =>
    rw [Option.toList_none, List.nil_append, hdrop]
    dsimp only
    rw [hblock, Bool.true_or]
  | some c =>
    have hc := h.comment c hcomment
    rw [Option.toList_some, List.singleton_append,
      List.dropWhile_cons_of_neg (by rw [hc.isBlankLine_eq]; decide)]
    dsimp only
    rw [hdrop]
    dsimp only
    rw [hblock, hc.trim_eq, hc.startsComment_eq]
    exact Bool.or_true _

theorem segmentsOf_documentLines {ps : List Paragraph} (h : ∀ p ∈ ps, p.IsSound) :
    segmentsOf none (documentLines ps) = ps.flatMap Paragraph.segments := by
  induction ps with
  | nil => rfl
  | cons p ps ih =>
    obtain ⟨hp, hps⟩ := List.forall_mem_cons.1 h
    have hcomment (rest : List (List Char)) : segmentsOf none (p.comment.toList ++ rest) =
        p.comment.toList.map .loose ++ segmentsOf none rest := by
      cases hcomment : p.comment with
      | none => rfl
      | some c =>
        have hc := hp.comment c hcomment
        rw [Option.toList_some, List.singleton_append, segmentsOf]
        dsimp only
        rw [hc.isBlankLine_eq, if_neg (by decide), hc.trim_eq, hc.noBlock, if_neg (by decide)]
        rfl
    rw [List.flatMap_cons, ← ih hps, Paragraph.segments]
    cases ps with
    | nil =>
      have hlines : documentLines [p] = p.comment.toList ++ (lines p.text ++ []) := by
        rw [documentLines, List.append_nil]
      rw [hlines, hcomment, hp.segmentsOf rfl]
      simp [documentLines]
    | cons q ps =>
      have hq := endsBefore_documentLines (hps q (List.mem_cons_self ..)) ps
      have hblank (rest : List (List Char)) : segmentsOf none ([] :: rest) = segmentsOf none rest := rfl
      rw [documentLines, List.append_assoc, hcomment, hp.segmentsOf hq, hblank]
      simp

/-- A text of paragraphs is divided as it was put together. -/
theorem segmentsOf_document {ps : List Paragraph} (h : ∀ p ∈ ps, p.IsSound) :
    segmentsOf none (lines (document ps)) = ps.flatMap Paragraph.segments := by
  cases ps with
  | nil => rfl
  | cons p ps => rw [lines_document h (by simp), segmentsOf_documentLines h]

end Layout

end Hql
