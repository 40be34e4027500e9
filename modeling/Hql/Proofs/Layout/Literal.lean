import Hql.Proofs.Layout.Phrase

/-!
Layout at the end of a line. A comma at the end changes nothing before it, and what stands before a
literal changes nothing inside it.
-/

namespace Hql.Layout

open Text

/-! ### A comma behind a text -/

theorem joinChains_comma (pending : List Char) (after : Bool) (cs : List Char) :
    joinChains pending after (cs ++ [',']) = joinChains pending after cs ++ [','] := by
  fun_induction joinChains pending after cs with
  | case1 pending after =>
    have hcomma : isBlank ',' = false := by decide
    rw [List.nil_append, joinChains_cons (fun h => absurd h.1 (by decide)), hcomma]
    rfl
  | case2 pending after cs ih =>
    rw [List.cons_append, List.cons_append, joinChains, ih]
    rfl
  | case3 pending after c cs hcolons hc ih =>
    have hsingle : ¬ (c = ':' ∧ (cs ++ [',']).head? = some ':') := by
      rintro ⟨rfl, -⟩
      exact absurd hc (by decide)
    rw [List.cons_append, joinChains_cons hsingle, if_pos hc, ih]
  | case4 pending after c cs hcolons hc ih =>
    have hsingle : ¬ (c = ':' ∧ (cs ++ [',']).head? = some ':') := by
      rintro ⟨rfl, hhead⟩
      cases cs with
      | nil => cases hhead
      | cons d cs =>
        obtain rfl : d = ':' := Option.some.inj hhead
        exact hcolons cs rfl rfl
    rw [List.cons_append, joinChains_cons hsingle, if_neg hc, ih, List.append_assoc]
    rfl

theorem squeeze_comma (inRun : Bool) (cs : List Char) :
    squeeze inRun (cs ++ [',']) = squeeze inRun cs ++ [','] := by
  induction cs generalizing inRun with
  | nil => rfl
  | cons c cs ih =>
    rw [List.cons_append, squeeze, squeeze, ih, ih]
    split
    · split <;> rfl
    · rfl

theorem closeAfter_comma (bracket : Char) (skip : Bool) (cs : List Char) :
    closeAfter bracket skip (cs ++ [',']) = closeAfter bracket skip cs ++ [','] := by
  have hcomma : isBlank ',' = false := by decide
  rw [closeAfter_concat, hcomma, Bool.false_and, if_neg (by decide)]

theorem closeBefore_comma {bracket : Char} (h : (',' == bracket) = false) (cs : List Char) :
    closeBefore bracket (cs ++ [',']) = closeBefore bracket cs ++ [','] := by
  have hcomma : isBlank ',' = false := by decide
  rw [closeBefore, List.reverse_append, List.reverse_singleton, List.singleton_append, closeAfter,
    hcomma, Bool.false_and, if_neg (by decide), h, List.reverse_cons, closeBefore]

theorem space_comma (cs : List Char) : space (cs ++ [',']) = space cs ++ [','] := by
  rw [space, joinChains_comma, squeeze_comma, closeAfter_comma, closeBefore_comma (by decide),
    closeAfter_comma, closeBefore_comma (by decide), space]

/-- Induction over a text along its words: it starts with a word or with a character outside
words. -/
@[elab_as_elim]
theorem words_induction {motive : List Char → Prop} (cs : List Char) (nil : motive [])
    (mark : ∀ c cs, isWordChar c = false → motive cs → motive (c :: cs))
    (word : ∀ w cs, w ≠ [] → (∀ c ∈ w, isWordChar c = true) →
      (∀ d ∈ cs.head?, isWordChar d = false) → motive cs → motive (w ++ cs)) : motive cs := by
  induction hn : cs.length using Nat.strong_induction_on generalizing cs with
  | _ n ih =>
    cases cs with
    | nil => exact nil
    | cons c cs =>
      cases hc : isWordChar c with
      | false => exact mark c cs hc (ih cs.length (by simp [← hn]) cs rfl)
      | true =>
        have hsplit := List.takeWhile_append_dropWhile (p := isWordChar) (l := c :: cs)
        have hne : (c :: cs).takeWhile isWordChar ≠ [] := by simp [hc]
        have hlen : ((c :: cs).dropWhile isWordChar).length < n := by
          have hsum := congrArg List.length hsplit
          have hpos := List.length_pos_iff.2 hne
          rw [List.length_append] at hsum
          omega
        rw [← hsplit]
        refine word _ _ hne (fun d hd => List.mem_takeWhile_imp hd) (fun d hd => ?_)
          (ih _ hlen _ rfl)
        have hfirst := List.head?_dropWhile_not isWordChar (c :: cs)
        rw [Option.mem_def] at hd
        rw [hd] at hfirst
        exact hfirst

theorem head_append {a b : List Char} (ha : ∀ d ∈ a.head?, isWordChar d = false)
    (hb : ∀ d ∈ b.head?, isWordChar d = false) : ∀ d ∈ (a ++ b).head?, isWordChar d = false := by
  cases a with
  | nil => exact hb
  | cons c cs => exact ha

/-- No word begins with a comma. -/
theorem head_comma {cs : List Char} (h : ∀ d ∈ cs.head?, isWordChar d = false) :
    ∀ d ∈ (cs ++ [',']).head?, isWordChar d = false :=
  head_append h (by decide)

theorem spellDirections_comma (cs : List Char) :
    spellDirections (cs ++ [',']) = spellDirections cs ++ [','] := by
  induction cs using words_induction with
  | nil => exact spellDirections_mark (by decide) []
  | mark c cs hc ih =>
    rw [List.cons_append, spellDirections_mark hc, ih, spellDirections_mark hc, List.cons_append]
  | word w cs hne hw hcs ih =>
    rw [List.append_assoc, spellDirections_word hne hw (head_comma hcs), ih,
      spellDirections_word hne hw hcs, List.append_assoc]

/-- The spelling of a word only depends on the braces round it, on whether it is called and on whether
a type stands in its place. -/
theorem spelling_congr {before before' after after' : List Char} (word : List Char)
    (hbraces : ((before.dropWhile (· == ' ')).head? == some '{' &&
        (after.dropWhile (· == ' ')).head? == some '}') =
      ((before'.dropWhile (· == ' ')).head? == some '{' &&
        (after'.dropWhile (· == ' ')).head? == some '}'))
    (hcalled : inCallPosition (before.dropWhile (· == ' ')) (after.dropWhile (· == ' ')) =
      inCallPosition (before'.dropWhile (· == ' ')) (after'.dropWhile (· == ' ')))
    (htyped : inTypePosition (before.dropWhile (· == ' ')) (after.dropWhile (· == ' ')) =
      inTypePosition (before'.dropWhile (· == ' ')) (after'.dropWhile (· == ' '))) :
    spelling before after word = spelling before' after' word := by
  simp only [spelling, hbraces, hcalled, htyped]

/-- What stands after a word is looked at no further than to the comma. -/
theorem spelling_comma (before after word : List Char) :
    spelling before (after ++ [',']) word = spelling before after word := by
  have hdrop : (after ++ [',']).dropWhile (· == ' ') = after.dropWhile (· == ' ') ++ [','] := by
    rw [List.dropWhile_append]
    split
    · rename_i hnil
      rw [List.isEmpty_iff.1 hnil]
      rfl
    · rfl
  have hhead {c : Char} (hc : (',' == c) = false) (cs : List Char) :
      ((cs ++ [',']).head? == some c) = (cs.head? == some c) := by
    cases cs with
    | nil => exact hc
    | cons d cs => rfl
  have hcolons (cs : List Char) :
      [':', ':'].isPrefixOf (cs ++ [',']) = [':', ':'].isPrefixOf cs := by
    match cs with
    | [] => rfl
    | [c] => simp [List.isPrefixOf]
    | c :: d :: cs => simp [List.isPrefixOf]
  apply spelling_congr
  · rw [hdrop, hhead (by decide)]
  · rw [hdrop, inCallPosition, hhead (by decide), hhead (by decide), hcolons, inCallPosition]
  · rw [hdrop, inTypePosition, hhead (by decide), inTypePosition]

theorem spellWords_comma (before cs : List Char) :
    spellWords before (runs (cs ++ [','])) = spellWords before (runs cs) ++ [','] := by
  induction cs using words_induction generalizing before with
  | nil => exact spellWords_mark (by decide) before []
  | mark c cs hc ih =>
    rw [List.cons_append, spellWords_mark hc, ih, spellWords_mark hc, List.cons_append]
  | word w cs hne hw hcs ih =>
    rw [List.append_assoc, spellWords_word hne hw (head_comma hcs), ih, spelling_comma,
      spellWords_word hne hw hcs, List.append_assoc]

theorem tidyCode_comma (cs : List Char) : tidyCode (cs ++ [',']) = tidyCode cs ++ [','] := by
  rw [tidyCode, space_comma, spellDirections_comma, spellWords_comma, tidyCode]

/-- A text between comment marks is closed before the comma or not at all. -/
theorem splitFirst?_comma (cs : List Char) : splitFirst? ['*', '/'] (cs ++ [',']) =
    (splitFirst? ['*', '/'] cs).map fun p => (p.1, p.2 ++ [',']) := by
  induction cs with
  | nil => rfl
  | cons c cs ih =>
    have hstart : ['*', '/'].isPrefixOf (c :: cs ++ [',']) = ['*', '/'].isPrefixOf (c :: cs) := by
      cases cs with
      | nil => simp [List.isPrefixOf]
      | cons d cs => simp [List.isPrefixOf]
    rw [List.cons_append, splitFirst?, splitFirst?, ← List.cons_append, hstart, ih]
    split
    · rename_i hprefix
      obtain ⟨rest, hrest⟩ := List.isPrefixOf_iff_prefix.1 hprefix
      rw [← hrest]
      rfl
    · cases splitFirst? ['*', '/'] cs <;> rfl

/-- A comment up to the end of the line takes the comma in, any other leaves it. -/
theorem comment?_comma {cs : List Char} (hline : '\n' ∉ cs) :
    (comment? cs = none → comment? (cs ++ [',']) = none) ∧
      ∀ p, comment? cs = some p → comment? (cs ++ [',']) = some (p.1, p.2 ++ [',']) ∨
        p.2 = [] ∧ comment? (cs ++ [',']) = some (p.1 ++ [','], []) := by
  cases cs with
  | nil => exact ⟨fun _ => by decide, by simp [comment?]⟩
  | cons c cs =>
    have hhead {d : Char} (hd : (',' == d) = false) :
        ((cs ++ [',']).head? == some d) = (cs.head? == some d) := by
      cases cs with
      | nil => exact hd
      | cons e cs => rfl
    rw [List.cons_append, comment?, comment?, hhead (by decide), hhead (by decide)]
    split
    · -- the whole line is the comment
      have hkeep (cs : List Char) (h : '\n' ∉ cs) :
          cs.takeWhile (· != '\n') = cs ∧ cs.dropWhile (· != '\n') = [] := by
        have hall : ∀ d ∈ cs, (d != '\n') = true := fun d hd =>
          bne_iff_ne.2 fun heq => h (heq ▸ hd)
        exact ⟨List.takeWhile_eq_self_iff.2 hall, List.dropWhile_eq_nil_iff.2 hall⟩
      have hline' : '\n' ∉ c :: (cs ++ [',']) := by
        rw [← List.cons_append, List.mem_append]
        simpa using hline
      refine ⟨fun h => by simp at h, fun p hp => .inr ?_⟩
      obtain rfl := Option.some.inj hp
      rw [(hkeep _ hline).1, (hkeep _ hline).2, (hkeep _ hline').1, (hkeep _ hline').2]
      exact ⟨rfl, rfl⟩
    · split
      · rename_i hblock
        obtain ⟨d, cs, rfl⟩ : ∃ d ds, cs = d :: ds := by
          cases cs with
          | nil => simp at hblock
          | cons d ds => exact ⟨d, ds, rfl⟩
        rw [List.cons_append, List.drop_succ_cons, List.drop_zero, List.drop_succ_cons,
          List.drop_zero, splitFirst?_comma, Option.map_map]
        refine ⟨fun h => ?_, fun p hp => .inl ?_⟩
        · rw [Option.map_eq_none_iff] at h ⊢
          exact h
        · obtain ⟨q, hq, rfl⟩ := Option.map_eq_some_iff.1 hp
          rw [hq]
          rfl
      · exact ⟨fun _ => rfl, fun p hp => by cases hp⟩

/-! ### Code and comments -/

theorem pieces_of_comment {c : Char} {cs : List Char} {p : List Char × List Char}
    (h : comment? (c :: cs) = some p) (pending : List Char) :
    pieces pending (c :: cs) = .code pending.reverse :: .comment p.1 :: pieces [] p.2 := by
  rw [pieces]
  split
  · rename_i comment rest hsome
    obtain rfl := Option.some.inj (hsome.symm.trans h)
    rfl
  · rename_i hnone
    rw [hnone] at h
    cases h

theorem pieces_of_no_comment {c : Char} {cs : List Char} (h : comment? (c :: cs) = none)
    (pending : List Char) : pieces pending (c :: cs) = pieces (c :: pending) cs := by
  rw [pieces]
  split
  · rename_i hsome
    rw [hsome] at h
    cases h
  · rfl

/-- Code before a text joins the first piece of it. -/
theorem exists_pieces (cs : List Char) : ∃ code more, ∀ pending,
    pieces pending cs = .code (pending.reverse ++ code) :: more := by
  induction cs with
  | nil => exact ⟨[], [], fun pending => by rw [pieces, List.append_nil]⟩
  | cons c cs ih =>
    cases h : comment? (c :: cs) with
    | some p =>
      exact ⟨[], .comment p.1 :: pieces [] p.2, fun pending => by
        rw [pieces_of_comment h, List.append_nil]⟩
    | none =>
      obtain ⟨code, more, hpieces⟩ := ih
      refine ⟨c :: code, more, fun pending => ?_⟩
      rw [pieces_of_no_comment h, hpieces, List.reverse_cons, List.append_assoc]
      rfl

/-- Code before a text goes to the first piece of it. -/
theorem pieces_append {front : List Char} (h : ∀ c ∈ front, c ≠ '/' ∧ c ≠ '#') (pending cs : List Char) :
    pieces pending (front ++ cs) = pieces (front.reverse ++ pending) cs := by
  induction front generalizing pending with
  | nil => rfl
  | cons c front ih =>
    obtain ⟨hc, hfront⟩ := List.forall_mem_cons.1 h
    rw [List.cons_append, pieces_of_no_comment (comment?_eq_none hc.1 hc.2 _), ih hfront,
      List.reverse_cons, List.append_assoc]
    rfl

theorem comment?_append {cs : List Char} {p : List Char × List Char} (h : comment? cs = some p) :
    p.1 ++ p.2 = cs := by
  cases cs with
  | nil => cases h
  | cons c cs =>
    rw [comment?] at h
    split at h
    · obtain rfl := Option.some.inj h
      exact List.takeWhile_append_dropWhile
    · split at h
      · rename_i hblock
        obtain ⟨-, hstar⟩ := Bool.and_eq_true_iff.1 hblock
        obtain ⟨cs, rfl⟩ := List.head?_eq_some_iff.1 (beq_iff_eq.1 hstar)
        obtain ⟨q, hq, rfl⟩ := Option.map_eq_some_iff.1 h
        rw [List.drop_succ_cons, List.drop_zero] at hq
        simp [← splitFirst?_eq_some hq]
      · cases h

/-- A comma at the end of a line changes nothing before it. -/
theorem tidy_comma {cs : List Char} (hline : '\n' ∉ cs) : tidy (cs ++ [',']) = tidy cs ++ [','] := by
  have hcode (pending : List Char) : pieces pending [','] = [.code (pending.reverse ++ [','])] :=
    pieces_eq_code (by decide) pending
  have hcode' (pending : List Char) : pieces pending [] = [.code pending.reverse] := by rw [pieces]
  have hpieces (pending : List Char) : (pieces pending (cs ++ [','])).flatMap Piece.tidy =
      (pieces pending cs).flatMap Piece.tidy ++ [','] := by
    -- a comment may take more than one character
    induction hn : cs.length using Nat.strong_induction_on generalizing cs pending with
    | _ n ih =>
      obtain ⟨hnone, hsome⟩ := comment?_comma hline
      cases cs with
      | nil =>
        rw [List.nil_append, hcode, pieces, List.flatMap_singleton, List.flatMap_singleton,
          Piece.tidy, tidyCode_comma, Piece.tidy]
      | cons c cs =>
        have htail : '\n' ∉ cs := fun hmem => hline (List.mem_cons_of_mem c hmem)
        rw [List.cons_append] at hnone hsome ⊢
        cases h : comment? (c :: cs) with
        | none =>
          rw [pieces_of_no_comment (hnone h), pieces_of_no_comment h]
          exact ih cs.length (by simp [← hn]) htail (c :: pending) rfl
        | some p =>
          have hlen : p.2.length < n := hn ▸ comment?_length h
          rw [pieces_of_comment h]
          rcases hsome p h with hcomma | ⟨hrest, hcomma⟩
          · have hrest : '\n' ∉ p.2 := fun hmem => hline (by
              rw [← comment?_append h]
              exact List.mem_append_right _ hmem)
            rw [pieces_of_comment hcomma, List.flatMap_cons, List.flatMap_cons,
              ih p.2.length hlen hrest [] rfl, List.flatMap_cons, List.flatMap_cons,
              List.append_assoc, List.append_assoc]
          · rw [pieces_of_comment hcomma, hrest]
            have hempty : pieces [] [] = [.code []] := hcode' []
            have htidy : Piece.tidy (.code []) = [] := rfl
            have hcomment (cs : List Char) : Piece.tidy (.comment cs) = cs := rfl
            simp only [hempty, htidy, hcomment, List.flatMap_cons, List.flatMap_nil,
              List.append_nil, List.append_assoc]
  exact hpieces []

/-! ### Code before a literal -/

/-- A character that may start a literal: it is neither a blank nor a colon, an angle bracket or a
brace, and it ends no brackets. -/
def Begins (c : Char) : Prop :=
  isBlank c = false ∧ c ∉ [':', '\x7b', '\x7d', ')', '<', '>', '/', '#']

instance (c : Char) : Decidable (Begins c) := inferInstanceAs (Decidable (_ ∧ _))

theorem inValueBlock_of_not_mem {cs : List Char} (h : '\x7b' ∉ cs) (depth : Nat)
    (after : Option Char) : inValueBlock depth after cs = false := by
  induction cs generalizing depth after with
  | nil => rfl
  | cons c cs ih =>
    rw [List.mem_cons, not_or] at h
    have hbrace : (c == '\x7b') = false := beq_false_of_ne (Ne.symm h.1)
    simp only [inValueBlock, ih h.2, hbrace, Bool.false_and, ite_self]

section Before

variable {front before : List Char} (hbefore : ∀ c ∈ before.getLast?, Begins c)

include hbefore in
theorem isPrefixOf_colons_append (hne : before ≠ []) (front : List Char) :
    [':', ':'].isPrefixOf (before ++ front) = [':', ':'].isPrefixOf before := by
  match before with
  | [] => exact absurd rfl hne
  | [c] =>
    have hc : c ≠ ':' := by
      rintro rfl
      exact absurd (hbefore ':' rfl).2 (by decide)
    simp [List.isPrefixOf, hc.symm]
  | c :: d :: before => simp [List.isPrefixOf]

include hbefore in
/-- Blanks before a place do not reach the start of a literal. -/
theorem dropWhile_append_of_last {p : Char → Bool} (hp : ∀ c, Begins c → p c = false)
    (hne : before ≠ []) (front : List Char) :
    (before ++ front).dropWhile p = before.dropWhile p ++ front ∧ before.dropWhile p ≠ [] := by
  have hkeep : before.dropWhile p ≠ [] := by
    rw [Ne, List.dropWhile_eq_nil_iff]
    intro hall
    have hlast := hbefore _ (List.getLast?_eq_some_getLast hne)
    have hdrop := hall _ (List.getLast_mem hne)
    rw [hp _ hlast] at hdrop
    cases hdrop
  refine ⟨?_, hkeep⟩
  rw [List.dropWhile_append, if_neg (by rwa [List.isEmpty_iff])]

theorem last_dropWhile {p : Char → Bool} (hbefore : ∀ c ∈ before.getLast?, Begins c) :
    ∀ c ∈ (before.dropWhile p).getLast?, Begins c := by
  obtain ⟨dropped, hdropped⟩ := List.dropWhile_suffix (l := before) p
  intro c hc
  refine hbefore c ?_
  rw [← hdropped, Option.mem_def]
  rw [Option.mem_def] at hc
  rw [List.getLast?_append, hc, Option.some_or]

include hbefore in
/-- Whether a brace is open is decided inside the literal. -/
theorem inValueBlock_append (hfront : '\x7b' ∉ front) (depth : Nat) (after : Option Char) :
    inValueBlock depth after (before ++ front) = inValueBlock depth after before := by
  induction before generalizing depth after with
  | nil => exact inValueBlock_of_not_mem hfront depth after
  | cons c before ih =>
    cases before with
    | nil =>
      -- the first character of a literal opens nothing that counts
      obtain ⟨-, hc⟩ := hbefore c rfl
      have hbrace : (c == '\x7b') = false := beq_false_of_ne fun heq => hc (by simp [heq])
      have hnone (depth : Nat) (after : Option Char) : inValueBlock depth after front = false :=
        inValueBlock_of_not_mem hfront depth after
      have hnil (depth : Nat) (after : Option Char) : inValueBlock depth after [] = false := rfl
      simp only [List.singleton_append, inValueBlock, hnone, hbrace, Bool.false_and, ite_self]
    | cons d before =>
      have hlast : ∀ x ∈ (d :: before).getLast?, Begins x := fun x hx =>
        hbefore x (by rwa [List.getLast?_cons_cons])
      obtain ⟨hdrop, hne⟩ := dropWhile_append_of_last hlast (p := isBlank) (fun _ h => h.1)
        (List.cons_ne_nil d before) front
      have hcolons := isPrefixOf_colons_append (last_dropWhile hlast) hne front
      have hempty (xs : List Char) (h : xs ≠ []) : (xs ++ front).isEmpty = xs.isEmpty := by
        cases xs with
        | nil => exact absurd rfl h
        | cons x xs => rfl
      have hhead (xs : List Char) (h : xs ≠ []) : (xs ++ front).head? = xs.head? :=
        List.head?_append_of_ne_nil xs h
      rw [List.cons_append, inValueBlock, inValueBlock]
      simp only [hhead _ (List.cons_ne_nil d before), ih hlast, hdrop, hempty _ hne, hhead _ hne, hcolons]

include hbefore in
/-- What stands before a literal does not matter for the spelling inside it. -/
theorem spelling_append (hbrace : '\x7b' ∉ front)
    (hlast : ∃ c more, front.dropWhile (· == ' ') = c :: more ∧ isWordChar c = true)
    (after word : List Char) :
    spelling (before ++ front) after word = spelling before after word := by
  -- the spelling of a word looks back past blanks, at one character or a double colon
  cases hnil : before with
  | nil =>
    obtain ⟨c, more, hfront, hc⟩ := hlast
    have hhead {d : Char} (hd : isWordChar d = false) : (some c == some d) = false := by
      refine beq_false_of_ne fun heq => ?_
      rw [Option.some.inj heq, hd] at hc
      cases hc
    have hcolons : [':', ':'].isPrefixOf (c :: more) = false := by
      have hcolon : (':' == c) = false := beq_false_of_ne fun heq => by
        rw [← heq] at hc
        exact absurd hc (by decide)
      rw [List.isPrefixOf, hcolon, Bool.false_and]
    have hnone (d : Char) : ((none : Option Char) == some d) = false := rfl
    have hcolons' : [':', ':'].isPrefixOf ([] : List Char) = false := rfl
    apply spelling_congr
    · rw [List.nil_append, hfront, List.head?_cons, hhead (by decide)]
      rfl
    · rw [List.nil_append, hfront, inCallPosition, hcolons]
      rfl
    · simp only [List.nil_append, hfront, inTypePosition, List.head?_cons, List.head?_nil,
        List.dropWhile_nil, hhead (d := ':') (by decide), hhead (d := '[') (by decide),
        hhead (d := '<') (by decide), hnone, Bool.false_and]
  | cons d ds =>
    obtain ⟨hdrop, hne⟩ := dropWhile_append_of_last hbefore (p := (· == ' '))
      (fun c h => beq_false_of_ne fun heq => by
        rw [heq] at h
        exact absurd h.1 (by decide)) (hnil ▸ List.cons_ne_nil d ds) front
    have hfinal := last_dropWhile (p := (· == ' ')) hbefore
    rw [← hnil]
    have hhead : (before.dropWhile (· == ' ') ++ front).head? = (before.dropWhile (· == ' ')).head? :=
        List.head?_append_of_ne_nil _ hne
    have hcolons := isPrefixOf_colons_append hfinal hne front
    apply spelling_congr
    · rw [hdrop, hhead]
    · rw [hdrop, inCallPosition, hcolons, inCallPosition]
    · rw [hdrop, inTypePosition, hhead, hcolons, inValueBlock_append hfinal hbrace, inTypePosition]

include hbefore in
theorem spellWords_before (hbrace : '\x7b' ∉ front)
    (hlast : ∃ c more, front.dropWhile (· == ' ') = c :: more ∧ isWordChar c = true)
    {cs : List Char} (hopens : before = [] → ∀ c ∈ cs.head?, Begins c) :
    spellWords (before ++ front) (runs cs) = spellWords before (runs cs) := by
  induction cs using words_induction generalizing before with
  | nil => rfl
  | mark c cs hc ih =>
    have hnext : ∀ d ∈ (c :: before).getLast?, Begins d := by
      cases before with
      | nil =>
        intro d hd
        obtain rfl := Option.some.inj hd
        exact hopens rfl c rfl
      | cons e before => rwa [List.getLast?_cons_cons]
    rw [spellWords_mark hc, spellWords_mark hc, ← List.cons_append, ih hnext (by simp)]
  | word w cs hne hw hcs ih =>
    have hnext : ∀ d ∈ (w.reverse ++ before).getLast?, Begins d := by
      cases before with
      | nil =>
        intro d hd
        rw [List.append_nil, List.getLast?_reverse] at hd
        refine hopens rfl d ?_
        rwa [List.head?_append_of_ne_nil _ hne]
      | cons e before =>
        intro d hd
        rw [List.getLast?_append_of_ne_nil _ (by simp)] at hd
        exact hbefore d hd
    rw [spellWords_word hne hw hcs, spellWords_word hne hw hcs, spelling_append hbefore hbrace hlast,
      ← List.append_assoc, ih hnext (by simp [hne])]

end Before

end Hql.Layout
