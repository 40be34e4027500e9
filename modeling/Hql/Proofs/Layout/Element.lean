import Hql.Layout.Block
import Hql.Proofs.Layout.Spelling

/-!
Elements of a chain laid out. Which blanks stand before a token is decided by the tokens alone, but
for the gaps that spacing keeps; so an element that is laid out already is laid out as it is.
-/

namespace Hql.Layout

open Text

/-- Where a token of an element stands: before its braces, at the start of a field, within a field
in which some brackets are open, or after the braces. -/
inductive Zone where
  | before | fresh | within (depth : Nat) | after
  deriving DecidableEq

namespace Zone

/-- The blanks before a token, which stands after `previous`. -/
def blanks (zone : Zone) (previous : Option Token) (x : Bool × Token) : List Char :=
  match zone with
  | fresh => '\n' :: indentTwice
  | within depth =>
    if x.2 = .mark '\x7d' then '\n' :: indent
    else if depth = 0 ∧ x.2 = .mark ',' then []
    else gapChars (x.1 && tightGap previous x.2)
  | before | after => gapChars (x.1 && tightGap previous x.2)

/-- Where the token after a token stands. -/
def next (zone : Zone) (t : Token) : Zone :=
  match zone with
  | before => if t = .mark '\x7b' then fresh else before
  | fresh => within (depthThrough 0 t)
  | within depth =>
    if t = .mark '\x7d' then after
    else if depth = 0 ∧ t = .mark ',' then fresh
    else within (depthThrough depth t)
  | after => after

end Zone

/-- Tokens laid out, with the blanks before each. -/
def layFrom (zone : Zone) (previous : Option Token) : Tokens → List (List Char × Token)
  | [] => []
  | x :: ts => (zone.blanks previous x, x.2) :: layFrom (zone.next x.2) (some x.2) ts

/-- What stands between two tokens of a text that is laid out: nothing, a space, or a line end with
the indentation of the next line. -/
def breaks : List (List Char) := [[], [' '], '\n' :: indent, '\n' :: indentTwice]

/-- Nothing but breaks stands before the tokens of a text. -/
def Broken (xs : List (List Char × Token)) : Prop := ∀ x ∈ xs, x.1 ∈ breaks

theorem isBlank_of_broken {xs : List (List Char × Token)} (h : Broken xs) :
    ∀ x ∈ xs, ∀ c ∈ x.1, isBlank c = true := by
  have hbreaks : ∀ b ∈ breaks, ∀ c ∈ b, isBlank c = true := by decide
  exact fun x hx => hbreaks x.1 (h x hx)

theorem broken_singleSpaced (ts : Tokens) : Broken (singleSpaced ts) := by
  have hgap (gap : Bool) : gapChars gap ∈ breaks := by cases gap <;> decide
  intro x hx
  obtain ⟨y, -, rfl⟩ := List.mem_map.1 hx
  exact hgap y.1

theorem blanks_mem_breaks (zone : Zone) (previous : Option Token) (x : Bool × Token) :
    zone.blanks previous x ∈ breaks := by
  have hgap (gap : Bool) : gapChars gap ∈ breaks := by cases gap <;> decide
  cases zone with
  | before => exact hgap _
  | fresh => exact (by decide : '\n' :: indentTwice ∈ breaks)
  | after => exact hgap _
  | within depth =>
    rw [Zone.blanks]
    split
    · decide
    · split
      · decide
      · exact hgap _

theorem broken_layFrom (zone : Zone) (previous : Option Token) (ts : Tokens) :
    Broken (layFrom zone previous ts) := by
  induction ts generalizing zone previous with
  | nil => simp [Broken, layFrom]
  | cons x ts ih => exact List.forall_mem_cons.2 ⟨blanks_mem_breaks zone previous x, ih _ _⟩

@[simp] theorem map_snd_noted_layFrom (zone : Zone) (previous : Option Token) (ts : Tokens) :
    (noted (layFrom zone previous ts)).map Prod.snd = ts.map Prod.snd := by
  induction ts generalizing zone previous with
  | nil => rfl
  | cons x ts ih => exact congrArg (x.2 :: ·) (ih _ _)

theorem isEmpty_gapChars (gap : Bool) : (gapChars gap).isEmpty = !gap := by cases gap <;> rfl

/-- What is laid out is laid out as it stands. -/
theorem layFrom_noted (zone : Zone) (previous : Option Token) (ts : Tokens) :
    layFrom zone previous (noted (layFrom zone previous ts)) = layFrom zone previous ts := by
  induction ts generalizing zone previous with
  | nil => rfl
  | cons x ts ih =>
    have hblanks : zone.blanks previous (!(zone.blanks previous x).isEmpty, x.2) =
        zone.blanks previous x := by
      have hgap (keep : Bool) : gapChars (!(gapChars (x.1 && keep)).isEmpty && keep) =
          gapChars (x.1 && keep) := by
        rw [isEmpty_gapChars, Bool.not_not, Bool.and_assoc, Bool.and_self]
      cases zone with
      | before => exact hgap _
      | fresh => rfl
      | after => exact hgap _
      | within depth =>
        rw [Zone.blanks, Zone.blanks]
        split
        · rfl
        · split
          · rfl
          · exact hgap _
    rw [layFrom, noted, List.map_cons, layFrom, hblanks]
    exact congrArg (_ :: ·) (ih _ _)

/-- A gap that spacing keeps is kept everywhere but before the comma after a field. -/
theorem isEmpty_blanks {zone : Zone} {previous : Option Token} {x : Bool × Token}
    (hgap : (x.1 && tightGap previous x.2) = true) (hcomma : x.2 ≠ .mark ',') :
    (zone.blanks previous x).isEmpty = false := by
  cases zone with
  | before => rw [Zone.blanks, hgap]; rfl
  | fresh => rfl
  | after => rw [Zone.blanks, hgap]; rfl
  | within depth =>
    rw [Zone.blanks]
    split
    · rfl
    · rw [if_neg (fun h => hcomma h.2), hgap]
      rfl

theorem Fits.noted_layFrom {ts : Tokens} (h : Fits ts) (hcolon : NoLooseColon (ts.map Prod.snd))
    (zone : Zone) (previous : Option Token) : Fits (noted (layFrom zone previous ts)) := by
  induction ts generalizing zone previous with
  | nil => exact .nil
  | cons x ts ih =>
    obtain ⟨ht, hfirst, hrest⟩ := cons_iff.1 h
    obtain ⟨hcolonFirst, hcolonRest⟩ := List.isChain_cons.1 hcolon
    refine cons_iff.2 ⟨ht, ?_, ih hrest hcolonRest _ _⟩
    cases ts with
    | nil => simp [layFrom]
    | cons y ts =>
      rintro z hz hclings
      obtain rfl := Option.some.inj hz
      have hgap : (y.1 && tightGap (some x.2) y.2) = true :=
        Bool.and_eq_true_iff.2
          ⟨hfirst y rfl hclings, tightGap_of_clings hclings (hcolonFirst y.2 rfl)⟩
      have hcomma : y.2 ≠ .mark ',' := by
        intro heq
        have hcomma : x.2.clings y.2 = true := hclings
        rw [heq] at hcomma
        cases h : x.2 <;> simp [h, Token.clings] at hcomma
      exact congrArg (!·) (isEmpty_blanks hgap hcomma)

/-! ### Elements without expanded fields -/

theorem layFrom_after (previous : Option Token) (ts : Tokens) :
    spaced (layFrom .after previous ts) = written (regap tightGap previous ts) := by
  induction ts generalizing previous with
  | nil => rfl
  | cons x ts ih => exact congrArg (gapChars _ ++ x.2.chars ++ ·) (ih _)

theorem layFrom_regap (zone : Zone) (previous : Option Token) (ts : Tokens) :
    layFrom zone previous (regap tightGap previous ts) = layFrom zone previous ts := by
  induction ts generalizing zone previous with
  | nil => rfl
  | cons x ts ih =>
    have hgap : (x.1 && tightGap previous x.2 && tightGap previous x.2) =
        (x.1 && tightGap previous x.2) := by rw [Bool.and_assoc, Bool.and_self]
    have hblanks : zone.blanks previous (x.1 && tightGap previous x.2, x.2) =
        zone.blanks previous x := by
      cases zone <;> simp only [Zone.blanks, hgap]
    rw [regap, layFrom, layFrom, hblanks, ih]

/-! ### Braces -/

theorem expandBraces_append {a : List Char} (ha : '\x7b' ∉ a) (b : List Char) :
    expandBraces (a ++ b) = a ++ expandBraces b := by
  induction a with
  | nil => rfl
  | cons c a ih =>
    rw [List.mem_cons, not_or] at ha
    rw [List.cons_append, expandBraces, if_neg (fun h => ha.1 h.symm), ih ha.2, List.cons_append]

theorem untilBrace?_append {a : List Char} (hopen : '\x7b' ∉ a) (hclose : '\x7d' ∉ a)
    (b : List Char) : untilBrace? 0 (a ++ '\x7d' :: b) = some (a, b) := by
  induction a with
  | nil => rfl
  | cons c a ih =>
    rw [List.mem_cons, not_or] at hopen hclose
    rw [List.cons_append, untilBrace?, if_neg (fun h => hopen.1 h.symm),
      if_neg (fun h => hclose.1 h.symm), ih hopen.2 hclose.2]
    rfl

/-- A text with one pair of braces in it. -/
theorem expandBraces_braces {a inside b : List Char} (ha : '\x7b' ∉ a) (hopen : '\x7b' ∉ inside)
    (hclose : '\x7d' ∉ inside) (hb : '\x7b' ∉ b) :
    expandBraces (a ++ '\x7b' :: inside ++ '\x7d' :: b) = a ++ expandFields inside ++ b := by
  have hnil : expandBraces [] = [] := by rw [expandBraces]
  rw [List.append_assoc, expandBraces_append ha, List.cons_append, expandBraces, if_pos rfl]
  split
  · rename_i content rest h
    rw [untilBrace?_append hopen hclose] at h
    obtain ⟨rfl, rfl⟩ := Prod.mk.inj (Option.some.inj h)
    have hrest := expandBraces_append hb []
    rw [List.append_nil, hnil, List.append_nil] at hrest
    rw [hrest, List.append_assoc]
  · rename_i h
    rw [untilBrace?_append hopen hclose] at h
    cases h

/-! ### Fields -/

/-- What separates two expanded fields. -/
def fieldBreak : List Char := ',' :: '\n' :: indentTwice

/-- Fields laid out, up to the brace that closes them. -/
theorem spaced_layFrom_fields {ts : Tokens} (gap : Bool) (after : Tokens)
    (hbrace : .mark '\x7d' ∉ ts.map Prod.snd) :
    (∀ (depth : Nat) (previous : Option Token) (first : Tokens) (rest : List Tokens),
      splitTokens Prod.snd (.mark ',') depth ts = first :: rest → (∀ p ∈ rest, p ≠ []) →
      regap tightGap previous ts = ts →
      spaced (layFrom (.within depth) previous (ts ++ (gap, .mark '\x7d') :: after)) =
        written first ++ (rest.flatMap fun p => fieldBreak ++ written (flush p)) ++
          '\n' :: indent ++ '\x7d' :: spaced (layFrom .after (some (.mark '\x7d')) after)) ∧
    (∀ (previous : Option Token) (first : Tokens) (rest : List Tokens),
      splitTokens Prod.snd (.mark ',') 0 ts = first :: rest → (∀ p ∈ first :: rest, p ≠ []) →
      regap tightGap previous ts = ts →
      spaced (layFrom .fresh previous (ts ++ (gap, .mark '\x7d') :: after)) =
        '\n' :: indentTwice ++ written (flush first) ++
          (rest.flatMap fun p => fieldBreak ++ written (flush p)) ++
          '\n' :: indent ++ '\x7d' :: spaced (layFrom .after (some (.mark '\x7d')) after)) := by
  induction ts with
  | nil =>
    constructor
    · intro depth previous first rest hsplit _ _
      obtain ⟨rfl, rfl⟩ := List.cons.inj hsplit
      rfl
    · intro previous first rest hsplit hne _
      obtain ⟨rfl, rfl⟩ := List.cons.inj hsplit
      exact absurd rfl (hne [] (by simp))
  | cons x ts ih =>
    rw [List.map_cons, List.mem_cons, not_or] at hbrace
    obtain ⟨ihWithin, ihFresh⟩ := ih hbrace.2
    have hx : x.2 ≠ .mark '\x7d' := fun h => hbrace.1 h.symm
    -- an item that is no separator continues the first field
    have hcontinue {depth : Nat} {previous : Option Token} {first : Tokens} {rest : List Tokens}
        (hcut : ¬ (depthThrough depth x.2 = 0 ∧ x.2 = .mark ','))
        (hsplit : splitTokens Prod.snd (.mark ',') depth (x :: ts) = first :: rest)
        (hne : ∀ p ∈ rest, p ≠ []) (htight : regap tightGap previous (x :: ts) = x :: ts) :
        ∃ first', first = x :: first' ∧
          spaced (layFrom (.within (depthThrough depth x.2)) (some x.2)
              (ts ++ (gap, .mark '\x7d') :: after)) =
            written first' ++ (rest.flatMap fun p => fieldBreak ++ written (flush p)) ++
              '\n' :: indent ++ '\x7d' :: spaced (layFrom .after (some (.mark '\x7d')) after) := by
      obtain ⟨first', rest', hsplit'⟩ := List.exists_cons_of_ne_nil
        (show splitTokens Prod.snd (.mark ',') (depthThrough depth x.2) ts ≠ [] from
          splitTokens_ne_nil _ _)
      rw [splitTokens, if_neg hcut, hsplit', consHead] at hsplit
      obtain ⟨rfl, rfl⟩ := List.cons.inj hsplit
      exact ⟨first', rfl, ihWithin _ _ _ _ hsplit' hne (List.cons.inj htight).2⟩
    constructor
    · intro depth previous first rest hsplit hne htight
      obtain ⟨g, t⟩ := x
      by_cases hcut : depthThrough depth t = 0 ∧ t = .mark ','
      · obtain ⟨hdepth, rfl⟩ := hcut
        obtain rfl : depth = 0 := hdepth
        have hzero : depthThrough 0 (.mark ',') = 0 := rfl
        rw [splitTokens, if_pos ⟨hzero, rfl⟩] at hsplit
        obtain ⟨rfl, rfl⟩ := List.cons.inj hsplit
        obtain ⟨first, rest, hsplit'⟩ := List.exists_cons_of_ne_nil
          (show splitTokens Prod.snd (.mark ',') 0 ts ≠ [] from splitTokens_ne_nil _ _)
        have hfresh := ihFresh (some (.mark ',')) first rest hsplit' (hsplit' ▸ hne)
          (List.cons.inj htight).2
        have hstep (us : Tokens) :
            spaced (layFrom (.within 0) previous ((g, .mark ',') :: us)) =
              ',' :: spaced (layFrom .fresh (some (.mark ',')) us) := rfl
        rw [List.cons_append, hstep, hfresh, hzero, hsplit', List.flatMap_cons, fieldBreak, written]
        simp only [List.nil_append, List.cons_append, List.append_assoc]
      · obtain ⟨first', rfl, hrest⟩ := hcontinue hcut hsplit hne htight
        have hplain : ¬ (depth = 0 ∧ t = .mark ',') := by
          rintro ⟨rfl, rfl⟩
          exact hcut ⟨rfl, rfl⟩
        have hgap : (g && tightGap previous t) = g :=
          congrArg Prod.fst (List.cons.inj htight).1
        rw [List.cons_append, layFrom, spaced, Zone.next, if_neg hx, if_neg hplain, hrest,
          Zone.blanks, if_neg hx, if_neg hplain, hgap, written]
        simp only [List.append_assoc]
    · intro previous first rest hsplit hne htight
      have hcut : ¬ (depthThrough 0 x.2 = 0 ∧ x.2 = .mark ',') := by
        intro hcut
        rw [splitTokens, if_pos hcut] at hsplit
        exact hne first (List.mem_cons_self ..) (List.cons.inj hsplit).1.symm
      obtain ⟨first', rfl, hrest⟩ := hcontinue hcut hsplit
        (fun p hp => hne p (List.mem_cons_of_mem _ hp)) htight
      rw [List.cons_append, layFrom, spaced, Zone.next, hrest, Zone.blanks, flush, written]
      simp only [gapChars, List.append_assoc, List.cons_append]
      rfl

/-! ### Elements -/

/-- The tokens between the braces of an element. -/
def inside (ts : List Token) : List Token :=
  ((ts.dropWhile (· != .mark '\x7b')).drop 1).takeWhile (· != .mark '\x7d')

/-- The fields of an element stand on a line each. -/
def spreads (ts : List Token) : Bool :=
  2 ≤ (splitTokens id (.mark ',') 0 (inside ts)).length

/-- An element with braces has one pair of them, and each field of it has tokens. -/
def Fielded (ts : List Token) : Prop :=
  .mark '\x7b' ∉ ts ∨ ∃ a b,
    ts = a ++ .mark '\x7b' :: inside ts ++ .mark '\x7d' :: b ∧
      .mark '\x7b' ∉ a ∧ .mark '\x7b' ∉ inside ts ∧ .mark '\x7d' ∉ inside ts ∧
        .mark '\x7b' ∉ b ∧ [] ∉ splitTokens id (.mark ',') 0 (inside ts)

/-- Where the first token of an element stands. -/
def zoneOf (ts : List Token) : Zone := if spreads ts then .before else .after

/-- An element laid out. -/
def layElement (ts : Tokens) : List (List Char × Token) :=
  layFrom (zoneOf (ts.map Prod.snd)) none ts

theorem regap_append (keeps : Option Token → Token → Bool) (previous : Option Token) (a b : Tokens) :
    regap keeps previous (a ++ b) =
      regap keeps previous a ++ regap keeps ((a.map Prod.snd).getLast?.or previous) b := by
  induction a generalizing previous with
  | nil => rfl
  | cons x a ih =>
    rw [List.cons_append, regap, ih, regap, List.map_cons, List.getLast?_cons, List.cons_append]
    cases (a.map Prod.snd).getLast? <;> rfl

theorem layFrom_append_before {a : Tokens} (ha : .mark '\x7b' ∉ a.map Prod.snd)
    (previous : Option Token) (b : Tokens) :
    spaced (layFrom .before previous (a ++ b)) = written (regap tightGap previous a) ++
      spaced (layFrom .before ((a.map Prod.snd).getLast?.or previous) b) := by
  induction a generalizing previous with
  | nil => rfl
  | cons x a ih =>
    rw [List.map_cons, List.mem_cons, not_or] at ha
    rw [List.cons_append, layFrom, spaced, Zone.next, if_neg (fun h => ha.1 h.symm), ih ha.2,
      Zone.blanks, regap, written, List.map_cons, List.getLast?_cons, List.append_assoc,
      List.append_assoc, List.append_assoc]
    cases (a.map Prod.snd).getLast? <;> rfl

theorem intercalate_eq_flatMap {α : Type} (separator first : List α) (rest : List (List α)) :
    separator.intercalate (first :: rest) = first ++ rest.flatMap (separator ++ ·) := by
  induction rest generalizing first with
  | nil => simp [List.intercalate]
  | cons second rest ih =>
    have hstep : separator.intercalate (first :: second :: rest) =
        first ++ separator ++ separator.intercalate (second :: rest) := by simp [List.intercalate]
    rw [hstep, ih, List.flatMap_cons]
    simp only [List.append_assoc]

/-- The content of the braces of an element. -/
theorem expandFields_written {inside : Tokens} (h : Fits inside)
    (hminus : .mark '-' ∉ inside.map Prod.snd) {first : Tokens} {rest : List Tokens}
    (hsplit : splitTokens Prod.snd (.mark ',') 0 inside = first :: rest)
    (hne : ∀ p ∈ first :: rest, p ≠ []) : expandFields (written inside) =
      if rest = [] then '\x7b' :: written inside ++ ['\x7d']
      else '\x7b' :: '\n' :: indentTwice ++ written (flush first) ++
        (rest.flatMap fun p => fieldBreak ++ written (flush p)) ++ '\n' :: indent ++ ['\x7d'] := by
  have hkeep : (first :: rest).filter (fun piece => !piece.isEmpty) = first :: rest := by
    rw [List.filter_eq_self]
    intro p hp
    simpa using hne p hp
  have hfields : splitTopLevel [','] (written inside) =
      (first :: rest).map fun p => written (flush p) := by
    have hwritten := splitTopLevel_written (.inr rfl) h hminus
    rwa [hsplit, hkeep] at hwritten
  rw [expandFields, hfields]
  cases rest with
  | nil => rfl
  | cons second rest =>
    have hrest : ((second :: rest).map fun p => written (flush p)).flatMap (fieldBreak ++ ·) =
        (second :: rest).flatMap fun p => fieldBreak ++ written (flush p) := List.flatMap_map ..
    rw [if_neg (by simp), ← hrest, List.map_cons, List.map_cons]
    dsimp only
    rw [intercalate_eq_flatMap, ← fieldBreak]
    simp only [List.append_assoc, List.cons_append]

theorem whole_of_not_mem {separator : Token} {ts : List Token} (h : separator ∉ ts) (depth : Nat) :
    Whole separator depth ts := by
  induction ts generalizing depth with
  | nil => trivial
  | cons t ts ih =>
    rw [List.mem_cons, not_or] at h
    exact ⟨fun hcut => h.1 hcut.2.symm, ih h.2 _⟩

theorem spreads_eq_false {ts : List Token} (h : .mark '\x7b' ∉ ts ∨ .mark ',' ∉ ts) :
    spreads ts = false := by
  have hcomma : .mark ',' ∉ inside ts := by
    rcases h with h | h
    · have hnone : ts.dropWhile (· != .mark '\x7b') = [] := by
        rw [List.dropWhile_eq_nil_iff]
        intro t ht
        rw [bne_iff_ne]
        rintro rfl
        exact h ht
      rw [inside, hnone]
      simp
    · intro hmem
      apply h
      exact (List.dropWhile_suffix _).subset
        (List.drop_subset _ _ ((List.takeWhile_prefix _).subset hmem))
  have hwhole : Whole (.mark ',') 0 ((inside ts).map id) := by
    rw [List.map_id]
    exact whole_of_not_mem hcomma 0
  rw [spreads, splitTokens_of_whole hwhole]
  rfl

theorem length_regap (keeps : Option Token → Token → Bool) (previous : Option Token) (ts : Tokens) :
    (regap keeps previous ts).length = ts.length := by
  rw [← List.length_map Prod.snd, map_snd_regap, List.length_map]

/-- A part of tokens whose spacing is in order is in order itself. -/
theorem regap_append_eq_self {keeps : Option Token → Token → Bool} {previous : Option Token}
    {a b : Tokens} (h : regap keeps previous (a ++ b) = a ++ b) : regap keeps previous a = a ∧
      regap keeps ((a.map Prod.snd).getLast?.or previous) b = b := by
  rw [regap_append] at h
  exact List.append_inj h (length_regap _ _ _)

/-- Tight tokens with one pair of braces. -/
theorem expandBraces_written {a content b : Tokens} {gap gap' : Bool}
    (h : Fits (a ++ (gap, .mark '\x7b') :: content ++ (gap', .mark '\x7d') :: b))
    (htight : regap tightGap none
        (a ++ (gap, .mark '\x7b') :: content ++ (gap', .mark '\x7d') :: b) =
      a ++ (gap, .mark '\x7b') :: content ++ (gap', .mark '\x7d') :: b)
    (hminus : .mark '-' ∉ content.map Prod.snd)
    (ha : .mark '\x7b' ∉ a.map Prod.snd) (hopen : .mark '\x7b' ∉ content.map Prod.snd)
    (hclose : .mark '\x7d' ∉ content.map Prod.snd) (hb : .mark '\x7b' ∉ b.map Prod.snd)
    {first : Tokens} {rest : List Tokens}
    (hsplit : splitTokens Prod.snd (.mark ',') 0 content = first :: rest)
    (hne : ∀ p ∈ first :: rest, p ≠ []) :
    expandBraces (written (a ++ (gap, .mark '\x7b') :: content ++ (gap', .mark '\x7d') :: b)) =
      if rest = [] then written (a ++ (gap, .mark '\x7b') :: content ++ (gap', .mark '\x7d') :: b)
      else spaced (layFrom .before none
        (a ++ (gap, .mark '\x7b') :: content ++ (gap', .mark '\x7d') :: b)) := by
  obtain ⟨hfront, hback⟩ := regap_append_eq_self htight
  obtain ⟨hselfA, hselfContent⟩ := regap_append_eq_self hfront
  obtain ⟨hgap, hselfContent⟩ := List.cons.inj hselfContent
  obtain ⟨hgap', hselfB⟩ := List.cons.inj hback
  -- tight tokens have no gap in front of a closing brace
  have hnogap : gap' = false := by
    have hnever (before : Option Token) : tightGap before (.mark '\x7d') = false := by
      simp [tightGap]
    have hfst := congrArg Prod.fst hgap'
    rw [hnever, Bool.and_false] at hfst
    exact hfst.symm
  subst hnogap
  -- a mark that is no token is no character of the text, so the text has this one pair of braces
  have hnot {c : Char} {ts : Tokens} (hsub : ∀ x ∈ ts, x.2.IsSound) (hword : isWordChar c = false)
      (hblank : isBlank c = false) (hcolon : c ≠ ':') (hmem : .mark c ∉ ts.map Prod.snd) :
      c ∉ written ts :=
    mt (mark_mem_of_mem_written hsub hword hblank hcolon) hmem
  have hsound := h.sound
  simp only [List.forall_mem_append, List.forall_mem_cons] at hsound
  obtain ⟨⟨hsoundA, -, hsoundContent⟩, -, hsoundB⟩ := hsound
  have hfits : Fits content := h.of_isInfix ⟨a ++ [(gap, .mark '\x7b')], (false, .mark '\x7d') :: b, by simp⟩
  have htext : written (a ++ (gap, .mark '\x7b') :: content ++ (false, .mark '\x7d') :: b) =
      (written a ++ gapChars gap) ++ '\x7b' :: written content ++ '\x7d' :: written b := by
    simp only [written_append, written, Token.chars, gapChars, List.append_assoc, List.cons_append,
      List.nil_append]
    rfl
  have hspaceA : '\x7b' ∉ written a ++ gapChars gap := by
    rw [List.mem_append, not_or]
    refine ⟨hnot hsoundA (by decide) (by decide) (by decide) ha, ?_⟩
    cases gap <;> decide
  rw [htext, expandBraces_braces hspaceA
    (hnot hsoundContent (by decide) (by decide) (by decide) hopen)
    (hnot hsoundContent (by decide) (by decide) (by decide) hclose)
    (hnot hsoundB (by decide) (by decide) (by decide) hb),
    expandFields_written hfits hminus hsplit hne]
  -- a single field stays on its line; several are broken where the layout breaks fields
  split
  · simp only [List.append_assoc, List.cons_append, List.nil_append]
  · have hfields := (spaced_layFrom_fields false b hclose).2 (some (.mark '\x7b')) first rest hsplit
      hne hselfContent
    have hshape : a ++ (gap, .mark '\x7b') :: content ++ (false, .mark '\x7d') :: b =
        a ++ (gap, .mark '\x7b') :: (content ++ (false, .mark '\x7d') :: b) := by
      rw [List.append_assoc, List.cons_append]
    rw [hshape, layFrom_append_before ha, hselfA, layFrom, spaced,
      Zone.next, if_pos rfl, hfields, layFrom_after, hselfB, Zone.blanks]
    dsimp only
    rw [(Prod.mk.inj hgap).1]
    simp only [Token.chars, List.append_assoc, List.cons_append, List.nil_append]

theorem expandElement_written {ts : Tokens} (h : Fits ts) (htidy : Tidy (ts.map Prod.snd))
    (hminus : .mark '-' ∉ ts.map Prod.snd) (hfielded : Fielded (ts.map Prod.snd)) :
    expandElement (tidy (written ts)) = spaced (layElement ts) := by
  have htight := h.tight htidy.colons
  have hopen := contains_written (c := '\x7b') htight (by decide) (by decide) (by decide)
  have hcomma := contains_written (c := ',') htight (by decide) (by decide) (by decide)
  rw [map_snd_tight] at hopen hcomma
  rw [tidy_written h htidy, expandElement, hopen, hcomma, layElement]
  by_cases hplain : .mark '\x7b' ∉ ts.map Prod.snd ∨ .mark ',' ∉ ts.map Prod.snd
  · have hnot : ¬ (decide (.mark '\x7b' ∈ ts.map Prod.snd) &&
        decide (.mark ',' ∈ ts.map Prod.snd)) = true := by
      simpa [-List.mem_map, imp_iff_not_or] using hplain
    rw [if_neg hnot, zoneOf, spreads_eq_false hplain]
    exact (layFrom_after none ts).symm
  · rw [not_or, not_not, not_not] at hplain
    rw [if_pos (by simpa [-List.mem_map] using hplain)]
    obtain ⟨a, b, hsplit, haOpen, hinOpen, hinClose, hbOpen, hfields⟩ :=
      hfielded.resolve_left (not_not.2 hplain.1)
    generalize hinside : inside (ts.map Prod.snd) = content at *
    -- the tight tokens have the same parts
    obtain ⟨ts', R, hTs, hts', hR⟩ := List.map_eq_append_iff.1 ((map_snd_tight ts).trans hsplit)
    obtain ⟨A, X, rfl, rfl, hX⟩ := List.map_eq_append_iff.1 hts'
    obtain ⟨⟨g, _⟩, C, rfl, rfl, rfl⟩ := List.map_eq_cons_iff.1 hX
    obtain ⟨⟨g', _⟩, B, rfl, rfl, rfl⟩ := List.map_eq_cons_iff.1 hR
    have hself : regap tightGap none (tight ts) = tight ts := tight_tight ts
    rw [← layFrom_regap, ← tight]
    have hminusContent : .mark '-' ∉ C.map Prod.snd := by
      intro hmem
      apply hminus
      rw [hsplit]
      simp [-List.mem_map, hmem]
    have hpieces : (splitTokens (id ∘ Prod.snd) (.mark ',') 0 C).map (List.map Prod.snd) =
        splitTokens id (.mark ',') 0 (C.map Prod.snd) := map_splitTokens Prod.snd 0 C
    obtain ⟨first, rest, hsplitC⟩ := List.exists_cons_of_ne_nil
      (show splitTokens (id ∘ Prod.snd) (.mark ',') 0 C ≠ [] from splitTokens_ne_nil _ _)
    have hne : ∀ p ∈ first :: rest, p ≠ [] := by
      rintro p hp rfl
      apply hfields
      rw [← hpieces, hsplitC]
      exact List.mem_map.2 ⟨[], hp, rfl⟩
    have hspreads : spreads (ts.map Prod.snd) = decide (rest ≠ []) := by
      rw [spreads, hinside, ← hpieces, hsplitC, List.length_map, List.length_cons]
      cases rest <;> simp
    rw [hTs] at htight hself ⊢
    rw [expandBraces_written htight hself hminusContent haOpen hinOpen hinClose hbOpen hsplitC hne,
      zoneOf, hspreads]
    by_cases hrest : rest = []
    · rw [if_pos hrest, if_neg (by simpa using hrest), layFrom_after, hself]
    · rw [if_neg hrest, if_pos (by simpa using hrest)]

end Hql.Layout
