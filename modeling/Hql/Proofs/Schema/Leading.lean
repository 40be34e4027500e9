import Hql.Proofs.Schema.Gap
import Hql.Proofs.Schema.Reading
import Hql.Proofs.Schema.Step
import Mathlib.Data.List.Basic

/-!
The tokens at the start of a text, together with what comes after them. The tokens of a text depend
on the text after them only through its first character, so that text may be exchanged: for any text
that stands apart, and for one with the same first character.
-/

namespace Hql.Schema

open Text

/-! ### What a token may stand before -/

theorem isIdentStart_head {cs : List Char} (h : isIdentifier cs = true) :
    ∀ c ∈ cs.head?, isIdentStart c = true := by
  obtain ⟨c, more, rfl⟩ := List.exists_cons_of_ne_nil (isIdentifier_ne_nil h)
  rintro d ⟨⟩
  exact (isIdentifier_cons.1 h).1

namespace Place

/-- A token is found before any text that stands apart. -/
theorem find_before {p : Place} {cs : List Char} {f : Found} (h : p.find cs = some f)
    {s : List Char} (hs : Apart s) :
    p.find (f.lexeme ++ s) = some ⟨f.terminal, f.lexeme, s, f.place⟩ := by
  obtain ⟨hspells, hplain⟩ := spells_of_find h
  have hnext := (find_eq_some h).2
  obtain ⟨t, lexeme, rest, q⟩ := f
  cases t with
  | mark m =>
    obtain rfl : lexeme = m.text.toList := hspells
    exact find_mark hnext fun _ _ => hs.endsName
  | name =>
    have hword : ¬ p.IsMarkWord lexeme := by
      rintro ⟨m, haccepts, rfl⟩
      cases (hplain rfl).symm.trans (markOf?_text haccepts)
    exact find_name hnext hspells hword hs.endsName
  | quoted => exact find_quoted hnext hspells s
  | number => exact find_number hnext hspells hs

/-- Where names may stand, no token that starts like a name is cut off within one. -/
theorem endsName_of_find {p : Place} {cs : List Char} {f : Found} (h : p.find cs = some f)
    (hname : p.accepts .name = true) (hstart : ∀ c ∈ f.lexeme.head?, isIdentStart c = true) :
    EndsName f.rest := by
  obtain ⟨⟨happend, hne⟩, -⟩ := find_eq_some h
  obtain ⟨c, more, hlexeme⟩ := List.exists_cons_of_ne_nil hne
  have hlexeme : f.lexeme = c :: more := hlexeme
  have hc : isIdentStart c = true := hstart c (by rw [hlexeme]; rfl)
  have hread : name? cs = some (cs.takeWhile isIdentChar, cs.dropWhile isIdentChar) := by
    rw [← happend, hlexeme, List.cons_append, name?, if_pos hc]
  -- a keyword or a name: either is all of the characters of a name that stand there
  have htake (t : Terminal) (ht : p.accepts t = true) (hfind : p.find cs =
      (p.take t (cs.takeWhile isIdentChar, cs.dropWhile isIdentChar) <|>
        p.findQuoted cs <|> p.findNumber cs <|> p.findMark cs)) :
      f.rest = cs.dropWhile isIdentChar := by
    obtain ⟨q, hq⟩ := Option.isSome_iff_exists.1 ht
    rw [take_of_next hq, h] at hfind
    exact congrArg Found.rest (Option.some.inj hfind)
  have hrest : f.rest = cs.dropWhile isIdentChar := by
    cases hm : p.markOf? (cs.takeWhile isIdentChar) with
    | some m =>
      obtain ⟨hfound, -⟩ := List.find?_eq_some_iff_append.1 hm
      refine htake (.mark m) (Bool.and_eq_true_iff.1 hfound).1 ?_
      rw [find, if_pos hname, findName, hread]
      simp only [Option.bind_eq_bind, Option.bind_some, hm]
    | none =>
      refine htake .name hname ?_
      rw [find, if_pos hname, findName, hread]
      simp only [Option.bind_eq_bind, Option.bind_some, hm]
  intro d hd
  rw [hrest] at hd
  have hnot := List.head?_dropWhile_not isIdentChar cs
  rw [hd] at hnot
  simpa using hnot

/-- A token is found before any text with the same first character. A number asks for more, as it may
have digits after a letter. -/
theorem find_of_same_head {p : Place} {cs : List Char} {f : Found} (h : p.find cs = some f)
    (hnumber : f.terminal = .number → Apart f.rest) {s : List Char} (hs : s.head? = f.rest.head?) :
    p.find (f.lexeme ++ s) = some ⟨f.terminal, f.lexeme, s, f.place⟩ := by
  obtain ⟨hspells, hplain⟩ := spells_of_find h
  have hnext := (find_eq_some h).2
  have hends : p.accepts .name = true → (∀ c ∈ f.lexeme.head?, isIdentStart c = true) →
      EndsName s := by
    intro hname hstart
    have hends := endsName_of_find h hname hstart
    rwa [EndsName, ← hs] at hends
  obtain ⟨t, lexeme, rest, q⟩ := f
  cases t with
  | mark m =>
    obtain rfl : lexeme = m.text.toList := hspells
    exact find_mark hnext fun hname hword =>
      hends hname (isIdentStart_head (Mark.isIdentifier_text hword))
  | name =>
    have hword : ¬ p.IsMarkWord lexeme := by
      rintro ⟨m, haccepts, rfl⟩
      cases (hplain rfl).symm.trans (markOf?_text haccepts)
    exact find_name hnext hspells hword (hends (accepts_of_next hnext) (isIdentStart_head hspells))
  | quoted => exact find_quoted hnext hspells s
  | number =>
    refine find_number hnext hspells ?_
    have hrest := hnumber rfl
    rwa [Apart, ← hs] at hrest

end Place

/-! ### Tokens at the start of a text -/

/-- In front of the text `rest`, a text is read as these tokens, which lead from one place to
another. -/
inductive Leads (rest : List Char) : Place → Nat → List Char → List Token → Place → Prop
  | nil (p : Place) (offset : Nat) : Leads rest p offset [] [] p
  | cons {p q r : Place} {offset : Nat} {gap lexeme more : List Char} {t : Terminal}
      {ts : List Token} (hgap : IsGap gap)
      (hfind : p.find (lexeme ++ (more ++ rest)) = some ⟨t, lexeme, more ++ rest, q⟩)
      (hmore : Leads rest q (offset + gap.length + lexeme.length) more ts r) :
      Leads rest p offset (gap ++ (lexeme ++ more)) (⟨p, t, lexeme, offset + gap.length⟩ :: ts) r

theorem scan_eq (p : Place) (offset : Nat) (cs : List Char) :
    scan p offset cs =
      let body := skipLayout false cs
      let start := offset + (cs.length - body.length)
      if body = [] then ([], if p = .outside then .complete else .unfinished)
      else match p.find body with
        | none => ([], .unexpected start)
        | some f =>
          let more := scan f.place (start + f.lexeme.length) f.rest
          (⟨p, f.terminal, f.lexeme, start⟩ :: more.1, more.2) := by
  rw [scan]
  simp only [List.isEmpty_iff]
  split
  · rfl
  · split
    · next hnone => rw [hnone]
    · next f hsome => rw [hsome]

theorem scan_of_layout {cs : List Char} (h : skipLayout false cs = []) (p : Place) (offset : Nat) :
    scan p offset cs = ([], if p = .outside then .complete else .unfinished) := by
  rw [scan_eq]
  exact if_pos h

/-- Layout only counts for offsets. -/
theorem scan_of_same_body {cs ds : List Char} (h : skipLayout false cs = skipLayout false ds)
    {offset offset' : Nat} (hlen : offset + cs.length = offset' + ds.length) (p : Place) :
    scan p offset cs = scan p offset' ds := by
  have hcs := skipLayout_length_le false cs
  have hds := skipLayout_length_le false ds
  have hstart : offset + (cs.length - (skipLayout false ds).length) =
      offset' + (ds.length - (skipLayout false ds).length) := by
    rw [h] at hcs
    omega
  rw [scan_eq, scan_eq]
  simp only [h, hstart]

theorem scan_gap {gap : List Char} (h : IsGap gap) (p : Place) (offset : Nat) (cs : List Char) :
    scan p offset (gap ++ cs) = scan p (offset + gap.length) cs := by
  refine scan_of_same_body (h.skipLayout_append cs) ?_ p
  rw [List.length_append, Nat.add_assoc]

theorem skipLayout_of_find {p : Place} {cs : List Char} {f : Found} (h : p.find cs = some f) :
    skipLayout false cs = cs := by
  have hskip := skipLayout_spelled (Place.spells_of_find h).1 f.rest
  rwa [(Place.find_eq_some h).1.1] at hskip

theorem scan_of_find {p : Place} {cs : List Char} {f : Found} (h : p.find cs = some f)
    (offset : Nat) :
    scan p offset cs = (⟨p, f.terminal, f.lexeme, offset⟩ ::
        (scan f.place (offset + f.lexeme.length) f.rest).1,
      (scan f.place (offset + f.lexeme.length) f.rest).2) := by
  have hne : cs ≠ [] := by
    rintro rfl
    exact Nat.not_lt_zero _ (Place.find_rest_length h)
  rw [scan_eq, skipLayout_of_find h, if_neg hne, h, Nat.sub_self, Nat.add_zero]

theorem scan_of_find_none {p : Place} {cs : List Char} (hne : cs ≠ [])
    (hskip : skipLayout false cs = cs) (h : p.find cs = none) (offset : Nat) :
    scan p offset cs = ([], .unexpected offset) := by
  rw [scan_eq, hskip, if_neg hne, h, Nat.sub_self, Nat.add_zero]

/-- A text without a token is layout alone, or goes on with a character that no token starts with. -/
theorem scan_eq_nil {p : Place} {offset : Nat} {cs : List Char} {e : Ending}
    (h : scan p offset cs = ([], e)) :
    (skipLayout false cs = [] ∧ e = if p = .outside then .complete else .unfinished) ∨
      ∃ gap body, IsGap gap ∧ cs = gap ++ body ∧ body ≠ [] ∧ skipLayout false body = body ∧
        p.find body = none ∧ e = .unexpected (offset + gap.length) := by
  by_cases hnil : skipLayout false cs = []
  · rw [scan_of_layout hnil] at h
    exact .inl ⟨hnil, (congrArg Prod.snd h).symm⟩
  · obtain ⟨gap, hgap, hcs⟩ := exists_gap hnil
    have hskip := skipLayout_skipLayout false cs
    refine .inr ⟨gap, skipLayout false cs, hgap, hcs, hnil, hskip, ?_⟩
    rw [hcs, scan_gap hgap] at h
    cases hf : p.find (skipLayout false cs) with
    | none =>
      rw [scan_of_find_none hnil hskip hf] at h
      exact ⟨rfl, (congrArg Prod.snd h).symm⟩
    | some f =>
      rw [scan_of_find hf] at h
      cases congrArg Prod.fst h

namespace Place

theorem next_number {p q : Place} (h : p.next .number = some q) :
    ∃ o, q = .fieldEnd o ∨ q = .afterItem o := by
  cases p with
  | fieldDefault o => exact ⟨o, .inl (Option.some.inj h).symm⟩
  | firstItem o => exact ⟨o, .inr (Option.some.inj h).symm⟩
  | nextItem o => exact ⟨o, .inr (Option.some.inj h).symm⟩
  | head k => cases k <;> cases h
  | _ => cases h

/-- After a number only marks may stand which no number can run into. -/
theorem apart_after_number {p q r : Place} (hnumber : p.next .number = some q) {t : Terminal}
    (hnext : q.next t = some r) {lexeme : List Char} (hspells : t.Spells lexeme) (cs : List Char) :
    Apart (lexeme ++ cs) := by
  have hmark : ∃ m : Mark, t = .mark m ∧ (m = .comma ∨ m = .closeBrace ∨ m = .closeBracket) := by
    obtain ⟨o, rfl | rfl⟩ := next_number hnumber
    · cases t with
      | mark m =>
        rcases afterField_eq_some hnext with ⟨rfl, -⟩ | ⟨rfl, -⟩
        · exact ⟨_, rfl, .inl rfl⟩
        · exact ⟨_, rfl, .inr (.inl rfl)⟩
      | _ => cases hnext
    · cases t with
      | mark m =>
        cases m with
        | comma => exact ⟨_, rfl, .inl rfl⟩
        | closeBracket => exact ⟨_, rfl, .inr (.inr rfl)⟩
        | _ => cases hnext
      | _ => cases hnext
  obtain ⟨m, rfl, hm⟩ := hmark
  obtain rfl : lexeme = m.text.toList := hspells
  rcases hm with rfl | rfl | rfl <;> exact apart_of_head _ (by decide)

end Place

namespace Leads

variable {rest cs : List Char} {p q : Place} {offset : Nat} {ts us : List Token}

theorem scan_eq (h : Leads rest p offset cs ts q) :
    scan p offset (cs ++ rest) =
      (ts ++ (scan q (offset + cs.length) rest).1, (scan q (offset + cs.length) rest).2) := by
  induction h with
  | nil p offset => rfl
  | @cons p q r offset gap lexeme more t ts hgap hfind _ ih =>
    have hlen : offset + (gap ++ (lexeme ++ more)).length =
        offset + gap.length + lexeme.length + more.length := by
      simp only [List.length_append]
      omega
    have htext : gap ++ (lexeme ++ more) ++ rest = gap ++ (lexeme ++ (more ++ rest)) := by
      simp only [List.append_assoc]
    rw [htext, scan_gap hgap, scan_of_find hfind, hlen, List.cons_append]
    dsimp only
    rw [ih]

/-- The tokens after a token are read on their own. -/
theorem split (h : Leads rest p offset cs (ts ++ us) q) :
    ∃ a b m, cs = a ++ b ∧ Leads (b ++ rest) p offset a ts m ∧
      Leads rest m (offset + a.length) b us q := by
  induction ts generalizing p offset cs with
  | nil => exact ⟨[], cs, p, rfl, .nil p offset, h⟩
  | cons t ts ih =>
    cases h with
    | @cons _ q' _ _ gap lexeme more t' _ hgap hfind hmore =>
      obtain ⟨a, b, m, rfl, ha, hb⟩ := ih hmore
      have hlen : offset + (gap ++ (lexeme ++ a)).length =
          offset + gap.length + lexeme.length + a.length := by
        simp only [List.length_append]
        omega
      refine ⟨gap ++ (lexeme ++ a), b, m, by simp only [List.append_assoc], ?_, by rwa [hlen]⟩
      rw [List.append_assoc] at hfind
      exact .cons hgap hfind ha

theorem nil_of_nil (h : Leads rest p offset cs [] q) : cs = [] ∧ q = p := by
  cases h
  exact ⟨rfl, rfl⟩

/-- The last token is found in front of what comes after it, and ends there. -/
theorem last {t : Token} (h : Leads rest p offset cs (ts ++ [t]) q) :
    t.place.find (t.lexeme ++ rest) = some ⟨t.terminal, t.lexeme, rest, q⟩ ∧
      t.offset + t.lexeme.length = offset + cs.length := by
  obtain ⟨a, b, m, rfl, -, hlast⟩ := h.split
  cases hlast with
  | cons hgap hfind hmore =>
    obtain ⟨rfl, rfl⟩ := hmore.nil_of_nil
    refine ⟨hfind, ?_⟩
    simp only [List.length_append, List.append_nil]
    omega

/-- What comes after the tokens may be exchanged if the last of them is still found. The others are,
as the character after each of them stays. -/
theorem exchange (h : Leads rest p offset cs ts q) {s : List Char}
    (hlast : ∀ t ∈ ts.getLast?, t.place.find (t.lexeme ++ s) = some ⟨t.terminal, t.lexeme, s, q⟩) :
    Leads s p offset cs ts q := by
  induction h with
  | nil p offset => exact .nil p offset
  | @cons p q r offset gap lexeme more t ts hgap hfind hmore ih =>
    refine .cons hgap ?_ (ih fun t' ht' => hlast t' ?_)
    · cases hmore with
      | nil => exact hlast _ rfl
      | @cons _ q' _ _ gap' lexeme' more' t' ts' hgap' hfind' _ =>
        obtain ⟨⟨-, hne⟩, hnext'⟩ := Place.find_eq_some hfind'
        have hnonempty : gap' ++ (lexeme' ++ more') ≠ [] :=
          List.append_ne_nil_of_right_ne_nil _ (List.append_ne_nil_of_left_ne_nil hne _)
        refine Place.find_of_same_head hfind (fun hnumber => ?_) ?_
        · obtain rfl : t = .number := hnumber
          dsimp only
          rw [List.append_assoc]
          by_cases hgapnil : gap' = []
          · subst hgapnil
            rw [List.nil_append, List.append_assoc]
            exact Place.apart_after_number (Place.find_eq_some hfind).2 hnext'
              (Place.spells_of_find hfind').1 _
          · exact hgap'.apart hgapnil _
        · rw [List.head?_append_of_ne_nil _ hnonempty, List.head?_append_of_ne_nil _ hnonempty]
    · cases ts with
      | nil => cases ht'
      | cons => rwa [List.getLast?_cons_cons]

/-- The tokens are read before any text that stands apart. -/
theorem before (h : Leads rest p offset cs ts q) {s : List Char} (hs : Apart s) :
    Leads s p offset cs ts q := by
  refine h.exchange fun t ht => ?_
  obtain ⟨us, rfl⟩ := List.getLast?_eq_some_iff.1 ht
  exact Place.find_before h.last.1 hs

/-- The tokens are read on a line of their own too. -/
theorem newline (h : Leads rest p offset cs ts q) (b : List Char) :
    Leads (rest ++ '\n' :: b) p offset cs ts q := by
  refine h.exchange fun t ht => ?_
  obtain ⟨us, rfl⟩ := List.getLast?_eq_some_iff.1 ht
  have hfind := h.last.1
  have hne : t.lexeme ++ rest ≠ [] :=
    List.append_ne_nil_of_left_ne_nil (Place.find_eq_some hfind).1.2 _
  rw [← List.append_assoc, Place.find_seam (.inl rfl) hne b, hfind]
  rfl

end Leads

/-- Every text starts with its tokens. What comes after them holds no token. -/
theorem exists_leads (p : Place) (offset : Nat) (cs : List Char) :
    ∃ front rest q, cs = front ++ rest ∧ Leads rest p offset front (scan p offset cs).1 q ∧
      scan q (offset + front.length) rest = ([], (scan p offset cs).2) := by
  -- each token shortens the text, so the induction is on its length
  induction hn : cs.length using Nat.strong_induction_on generalizing p offset cs with
  | _ n ih =>
    by_cases hnil : skipLayout false cs = []
    · rw [scan_of_layout hnil]
      exact ⟨[], cs, p, rfl, .nil p offset, scan_of_layout hnil p offset⟩
    · obtain ⟨gap, hgap, hcs⟩ := exists_gap hnil
      cases hf : p.find (skipLayout false cs) with
      | none =>
        have hscan : scan p offset cs = ([], .unexpected (offset + gap.length)) := by
          rw [hcs, scan_gap hgap]
          exact scan_of_find_none hnil (skipLayout_skipLayout _ _) hf _
        rw [hscan]
        exact ⟨[], cs, p, rfl, .nil p offset, hscan⟩
      | some f =>
        obtain ⟨t, lexeme, after, q⟩ := f
        have happend : lexeme ++ after = skipLayout false cs := (Place.find_eq_some hf).1.1
        have hlen : after.length < n := hn ▸ Place.find_skipLayout_rest_length hf
        obtain ⟨front, rest, r, rfl, hleads, hend⟩ :=
          ih after.length hlen q (offset + gap.length + lexeme.length) after rfl
        have hscan : scan p offset cs = (⟨p, t, lexeme, offset + gap.length⟩ ::
            (scan q (offset + gap.length + lexeme.length) (front ++ rest)).1,
          (scan q (offset + gap.length + lexeme.length) (front ++ rest)).2) := by
          rw [hcs, scan_gap hgap, scan_of_find hf]
        rw [← happend] at hf
        rw [hscan]
        refine ⟨gap ++ (lexeme ++ front), rest, r, ?_, .cons hgap hf hleads, ?_⟩
        · rw [hcs, ← happend]
          simp only [List.append_assoc]
        · rw [← hend]
          congr 1
          simp only [List.length_append]
          omega

/-! ### Lines one after another -/

/-- Unless a text goes wrong, its tokens are followed by those of the next line, read at the place
where the text ends. -/
theorem exists_scan_newline {p : Place} {offset : Nat} {a : List Char}
    (h : ∀ n, (scan p offset a).2 ≠ .unexpected n) :
    ∃ q, ((scan p offset a).2 = .complete → q = .outside) ∧ ∀ b, scan p offset (a ++ '\n' :: b) =
      ((scan p offset a).1 ++ (scan q (offset + a.length + 1) b).1,
        (scan q (offset + a.length + 1) b).2) := by
  obtain ⟨front, rest, q, hcs, hleads, hend⟩ := exists_leads p offset a
  rcases scan_eq_nil hend with ⟨hrest, hending⟩ | ⟨gap, body, -, -, -, -, -, hending⟩
  · refine ⟨q, fun hcomplete => ?_, fun b => ?_⟩
    · by_contra hne
      rw [hcomplete, if_neg hne] at hending
      cases hending
    · have hskip : skipLayout false (rest ++ '\n' :: b) = skipLayout false b := by
        rw [skipLayout_newline, if_pos hrest]
      have hlen : offset + front.length + (rest ++ '\n' :: b).length =
          offset + a.length + 1 + b.length := by
        rw [hcs]
        simp only [List.length_append, List.length_cons]
        omega
      have hscan := (hleads.newline b).scan_eq
      rwa [← List.append_assoc, ← hcs, scan_of_same_body hskip hlen q] at hscan
  · exact absurd hending (h _)

/-- Where a text goes wrong, more lines change nothing. -/
theorem scan_newline_of_unexpected {p : Place} {offset n : Nat} {a : List Char}
    (h : (scan p offset a).2 = .unexpected n) (b : List Char) :
    scan p offset (a ++ '\n' :: b) = scan p offset a := by
  obtain ⟨front, rest, q, hcs, hleads, hend⟩ := exists_leads p offset a
  rcases scan_eq_nil hend with ⟨-, hending⟩ | ⟨gap, body, hgap, hrest, hne, hskip, hfind, hending⟩
  · rw [h] at hending
    split at hending <;> cases hending
  · have hnone : q.find (body ++ '\n' :: b) = none := by
      rw [Place.find_seam (.inl rfl) hne b, hfind]
      rfl
    have hbody : skipLayout false (body ++ '\n' :: b) = body ++ '\n' :: b := by
      rw [skipLayout_newline, hskip, if_neg hne]
    have hscan := (hleads.newline b).scan_eq
    rw [← List.append_assoc, ← hcs, hrest, List.append_assoc, scan_gap hgap,
      scan_of_find_none (by simp) hbody hnone, ← hending, List.append_nil] at hscan
    exact hscan

end Hql.Schema
