import Hql.Layout.Brackets
import Hql.Proofs.Layout.Token

/-!
Texts split outside brackets, as a matter of their tokens: a piece of the text is what is written
from a piece of the tokens.
-/

namespace Hql.Layout

open Text

/-- The number of open brackets after one more token. -/
def depthThrough (depth : Nat) : Token → Nat
  | .mark c => if isOpener c then depth + 1 else if isCloser c then depth - 1 else depth
  | _ => depth

/-- The pieces with one more item at the start of the first. -/
def consHead {α : Type} (a : α) : List (List α) → List (List α)
  | [] => [[a]]
  | piece :: pieces => (a :: piece) :: pieces

/-- The pieces of a list of tokens between the separators that stand outside brackets. `depth`
brackets are open at its start. -/
def splitTokens {α : Type} (token : α → Token) (separator : Token) (depth : Nat) :
    List α → List (List α)
  | [] => [[]]
  | a :: as =>
    let after := depthThrough depth (token a)
    if after = 0 ∧ token a = separator then [] :: splitTokens token separator after as
    else consHead a (splitTokens token separator after as)

/-- The tokens that separate elements and fields. -/
def Token.IsSeparator (t : Token) : Prop := t = .colons ∨ t = .mark ','

section Pieces

variable {α : Type} {token : α → Token} {separator : Token}

theorem splitTokens_ne_nil (depth : Nat) (as : List α) :
    splitTokens token separator depth as ≠ [] := by
  cases as with
  | nil => simp [splitTokens]
  | cons a as =>
    rw [splitTokens]
    split
    · simp
    · cases splitTokens token separator (depthThrough depth (token a)) as <;> simp [consHead]

/-- A split knows nothing of the items but their tokens. -/
theorem map_splitTokens {β : Type} (f : β → α) (depth : Nat) (bs : List β) :
    (splitTokens (token ∘ f) separator depth bs).map (List.map f) =
      splitTokens token separator depth (bs.map f) := by
  induction bs generalizing depth with
  | nil => rfl
  | cons b bs ih =>
    rw [splitTokens, List.map_cons, splitTokens, Function.comp_apply]
    split
    · rw [List.map_cons, ih, List.map_nil]
    · rw [← ih]
      cases splitTokens (token ∘ f) separator (depthThrough depth (token (f b))) bs <;> rfl

theorem infix_of_mem_splitTokens {depth : Nat} {as piece : List α}
    (h : piece ∈ splitTokens token separator depth as) : piece <:+: as := by
  have hstrong : ∀ depth, ∃ first rest, splitTokens token separator depth as = first :: rest ∧
      first <+: as ∧ ∀ p ∈ rest, p <:+: as := by
    clear h depth
    induction as with
    | nil => exact fun depth => ⟨[], [], rfl, List.prefix_rfl, by simp⟩
    | cons a as ih =>
      intro depth
      obtain ⟨first, rest, hsplit, hfirst, hrest⟩ := ih (depthThrough depth (token a))
      have hlift : ∀ p, p <:+: as → p <:+: a :: as := fun p hp => hp.trans (List.infix_cons List.infix_rfl)
      rw [splitTokens, hsplit]
      split
      · refine ⟨[], first :: rest, rfl, List.nil_prefix, ?_⟩
        exact List.forall_mem_cons.2 ⟨hlift _ hfirst.isInfix, fun p hp => hlift p (hrest p hp)⟩
      · exact ⟨a :: first, rest, rfl, List.cons_prefix_cons.2 ⟨rfl, hfirst⟩,
          fun p hp => hlift p (hrest p hp)⟩
  obtain ⟨first, rest, hsplit, hfirst, hrest⟩ := hstrong depth
  rw [hsplit] at h
  rcases List.mem_cons.1 h with rfl | h
  · exact hfirst.isInfix
  · exact hrest piece h

/-- No separator stands outside the brackets of some tokens. -/
def Whole (separator : Token) : Nat → List Token → Prop
  | _, [] => True
  | depth, t :: ts =>
    ¬ (depthThrough depth t = 0 ∧ t = separator) ∧ Whole separator (depthThrough depth t) ts

/-- The number of open brackets after some tokens. -/
def depthOver (depth : Nat) (ts : List Token) : Nat := ts.foldl depthThrough depth

theorem splitTokens_of_whole {depth : Nat} {as : List α}
    (h : Whole separator depth (as.map token)) :
    splitTokens token separator depth as = [as] := by
  induction as generalizing depth with
  | nil => rfl
  | cons a as ih => rw [splitTokens, if_neg h.1, ih h.2, consHead]

theorem splitTokens_append (hseparator : separator.IsSeparator) {depth : Nat} {as : List α} {s : α}
    (h : Whole separator depth (as.map token)) (hend : depthOver depth (as.map token) = 0)
    (hs : token s = separator) (bs : List α) : splitTokens token separator depth (as ++ s :: bs) =
      as :: splitTokens token separator 0 bs := by
  induction as generalizing depth with
  | nil =>
    obtain rfl : depth = 0 := hend
    have hzero : depthThrough 0 separator = 0 := by
      rcases hseparator with rfl | rfl <;> rfl
    rw [List.nil_append, splitTokens, hs, hzero, if_pos ⟨rfl, rfl⟩]
  | cons a as ih => rw [List.cons_append, splitTokens, if_neg h.1, ih h.2 hend, consHead]

end Pieces

/-! ### Pieces of a text -/

/-- The pieces with a text before the first. -/
def prependFirst (cs : List Char) : List (List Char) → List (List Char)
  | [] => [cs]
  | piece :: pieces => (cs ++ piece) :: pieces

theorem prependFirst_prependFirst (xs ys : List Char) (pieces : List (List Char)) :
    prependFirst xs (prependFirst ys pieces) = prependFirst (xs ++ ys) pieces := by
  cases pieces with
  | nil => rfl
  | cons p ps => simp only [prependFirst, List.append_assoc]

theorem segments_ne_nil (separator : List Char) (depth skip : Nat) (cs : List Char) :
    segments separator depth skip cs ≠ [] := by
  induction cs generalizing depth skip with
  | nil => cases skip <;> simp [segments]
  | cons c cs ih =>
    cases skip with
    | succ skip => exact ih depth skip
    | zero =>
      rw [segments]
      split
      · simp
      · cases segments separator (depthAfter depth c cs) 0 cs <;> simp [consFirst]

theorem segments_cons {separator : List Char} {depth after : Nat} {c : Char} {cs : List Char}
    (hafter : depthAfter depth c cs = after)
    (h : after = 0 → ¬ separator.isPrefixOf (c :: cs) = true) :
    segments separator depth 0 (c :: cs) = prependFirst [c] (segments separator after 0 cs) := by
  have hcut : ¬ (decide (after = 0) && separator.isPrefixOf (c :: cs)) = true := by
    rw [Bool.and_eq_true_iff, decide_eq_true_eq]
    exact fun hcut => h hcut.1 hcut.2
  rw [segments, hafter]
  rw [if_neg hcut]
  cases segments separator after 0 cs <;> rfl

theorem segments_append {separator : List Char} {depth : Nat} {xs : List Char}
    (hxs : ∀ c ∈ xs, isOpener c = false ∧ isCloser c = false ∧ separator.head? ≠ some c)
    (hseparator : separator ≠ []) (cs : List Char) :
    segments separator depth 0 (xs ++ cs) = prependFirst xs (segments separator depth 0 cs) := by
  induction xs with
  | nil =>
    obtain ⟨p, ps, hp⟩ := List.exists_cons_of_ne_nil (segments_ne_nil separator depth 0 cs)
    rw [List.nil_append, hp]
    rfl
  | cons c xs ih =>
    obtain ⟨⟨hopen, hclose, hc⟩, hxs⟩ := List.forall_mem_cons.1 hxs
    have hafter : depthAfter depth c (xs ++ cs) = depth := by
      rw [depthAfter, hopen, hclose, if_neg (by decide), if_neg (by decide)]
    rw [List.cons_append, segments_cons hafter, ih hxs]
    · cases segments separator depth 0 cs <;> simp [prependFirst]
    · intro _ hstart
      obtain ⟨d, separator, rfl⟩ := List.exists_cons_of_ne_nil hseparator
      obtain ⟨rest, hrest⟩ := List.isPrefixOf_iff_prefix.1 hstart
      exact hc (congrArg some (List.cons.inj hrest).1)

/-- A piece of text is written from a piece of tokens, up to a space at its end. -/
def Writes (cs : List Char) (piece : Tokens) : Prop := ∃ gap, cs = written piece ++ gapChars gap

theorem forall₂_writes_cons (gap : Bool) (t : Token) {pieces : List (List Char)}
    {split : List Tokens} (h : List.Forall₂ Writes pieces split) :
    List.Forall₂ Writes (prependFirst (gapChars gap ++ t.chars) pieces)
      (consHead (gap, t) split) := by
  cases h with
  | nil => exact .cons ⟨false, by simp [written, gapChars]⟩ .nil
  | cons hfirst hrest =>
    obtain ⟨g, rfl⟩ := hfirst
    exact .cons ⟨g, by simp only [written, List.append_assoc]⟩ hrest

theorem not_bracket_of_isWordChar {c : Char} (hc : isWordChar c = true) :
    isOpener c = false ∧ isCloser c = false := by
  have hne {d : Char} (hd : isWordChar d = false) : (c == d) = false := by
    rw [beq_eq_false_iff_ne]
    rintro rfl
    rw [hc] at hd
    cases hd
  constructor
  · rw [isOpener, hne (by decide), hne (by decide), hne (by decide), hne (by decide)]
    rfl
  · rw [isCloser, hne (by decide), hne (by decide), hne (by decide), hne (by decide)]
    rfl

theorem not_bracket_of_isBlank {c : Char} (hc : isBlank c = true) :
    isOpener c = false ∧ isCloser c = false := by
  rw [Bool.eq_false_iff, Bool.eq_false_iff]
  constructor
  · intro hopen
    simp only [isOpener, Bool.or_eq_true, beq_iff_eq] at hopen
    rcases hopen with ((rfl | rfl) | rfl) | rfl <;> exact absurd hc (by decide)
  · intro hclose
    simp only [isCloser, Bool.or_eq_true, beq_iff_eq] at hclose
    rcases hclose with ((rfl | rfl) | rfl) | rfl <;> exact absurd hc (by decide)

theorem not_isCloser_of_isOpener {c : Char} (h : isOpener c = true) : isCloser c = false := by
  simp only [isOpener, Bool.or_eq_true, beq_iff_eq] at h
  rcases h with ((rfl | rfl) | rfl) | rfl <;> rfl

theorem not_isOpener_of_isCloser {c : Char} (h : isCloser c = true) : isOpener c = false := by
  rw [← Bool.not_eq_true]
  intro hopen
  rw [not_isCloser_of_isOpener hopen] at h
  cases h

/-- A separator outside brackets ends a piece. -/
theorem segments_separator {separator : Token} (h : separator.IsSeparator) (cs : List Char) :
    segments separator.chars 0 0 (separator.chars ++ cs) =
      [] :: segments separator.chars 0 0 cs := by
  rcases h with rfl | rfl <;> rfl

/-- Any other token belongs to the piece around it. -/
theorem segments_token {separator : Token} (hseparator : separator.IsSeparator) {gap : Bool}
    {t : Token} {ts : Tokens} (h : Fits ((gap, t) :: ts)) (hminus : .mark '-' ∉ ts.map Prod.snd)
    {depth : Nat} (ht : ¬ (depthThrough depth t = 0 ∧ t = separator)) :
    segments separator.chars depth 0 (t.chars ++ written ts) =
      prependFirst t.chars (segments separator.chars (depthThrough depth t) 0 (written ts)) := by
  have hne : separator.chars ≠ [] := by
    rcases hseparator with rfl | rfl <;> simp [Token.chars]
  -- a word has no bracket and no separator in it; other tokens may begin like the separator, but
  -- they are longer, or another one, or stand inside brackets
  cases t with
  | word w =>
    refine segments_append (fun c hc => ?_) hne _
    have hword := (Fits.cons_iff.1 h).1.2 c hc
    obtain ⟨hopen, hclose⟩ := not_bracket_of_isWordChar hword
    refine ⟨hopen, hclose, fun hhead => ?_⟩
    rcases hseparator with rfl | rfl
    · obtain rfl := Option.some.inj hhead
      exact absurd hword (by decide)
    · obtain rfl := Option.some.inj hhead
      exact absurd hword (by decide)
  | colons =>
    have hcut (cs : List Char) (hdepth : depth = 0) :
        ¬ separator.chars.isPrefixOf (':' :: cs) = true := by
      rcases hseparator with rfl | rfl
      · exact absurd ⟨hdepth, rfl⟩ ht
      · simp [Token.chars]
    have hafter (cs : List Char) : depthAfter depth ':' cs = depth := rfl
    rw [Token.chars, List.cons_append, List.singleton_append, segments_cons (hafter _) (hcut _),
      segments_cons (hafter _) (hcut _)]
    obtain ⟨p, ps, hp⟩ := List.exists_cons_of_ne_nil
      (segments_ne_nil separator.chars depth 0 (written ts))
    have hthrough : depthThrough depth .colons = depth := rfl
    rw [hthrough, hp]
    rfl
  | mark c =>
    have hafter : depthAfter depth c (written ts) = depthThrough depth (.mark c) := by
      have hhead : ((written ts).head? == some '-') = false := by
        rw [beq_eq_false_iff_ne]
        intro hhead
        exact hminus (mark_mem_of_mem_written h.tail.sound (by decide) (by decide) (by decide)
          (List.mem_of_mem_head? hhead))
      rw [depthAfter, hhead, Bool.and_false, if_neg Bool.false_ne_true, depthThrough]
    refine segments_cons hafter fun hdepth hstart => ?_
    obtain ⟨rest, hrest⟩ := List.isPrefixOf_iff_prefix.1 hstart
    rcases hseparator with rfl | rfl
    · obtain ⟨rfl, htail⟩ : ':' = c ∧ ':' :: rest = written ts := List.cons.inj hrest
      exact h.single_colon ⟨rfl, (congrArg List.head? htail).symm⟩
    · obtain ⟨rfl, -⟩ : ',' = c ∧ _ := List.cons.inj hrest
      exact ht ⟨hdepth, rfl⟩

theorem segments_written {separator : Token} (hseparator : separator.IsSeparator) {ts : Tokens}
    (h : Fits ts) (hminus : .mark '-' ∉ ts.map Prod.snd) (depth : Nat) :
    List.Forall₂ Writes (segments separator.chars depth 0 (written ts))
      (splitTokens Prod.snd separator depth ts) := by
  induction ts generalizing depth with
  | nil => exact .cons ⟨false, rfl⟩ .nil
  | cons x ts ih =>
    obtain ⟨gap, t⟩ := x
    have hrest := fun hmem => hminus (List.mem_cons_of_mem _ hmem)
    have hne : separator.chars ≠ [] := by
      rcases hseparator with rfl | rfl <;> simp [Token.chars]
    have hgap : ∀ c ∈ gapChars gap, isOpener c = false ∧ isCloser c = false ∧
        separator.chars.head? ≠ some c := by
      rcases hseparator with rfl | rfl <;> cases gap <;> decide
    rw [written, List.append_assoc, segments_append hgap hne, splitTokens]
    split
    · rename_i hcut
      obtain ⟨hdepth, rfl⟩ := hcut
      have hzero : depth = 0 := by
        rcases hseparator with ht | ht
        · rw [ht] at hdepth
          exact hdepth
        · rw [ht] at hdepth
          exact hdepth
      subst hzero
      rw [segments_separator hseparator, hdepth]
      exact .cons ⟨gap, List.append_nil _⟩ (ih h.tail hrest 0)
    · rename_i hcut
      rw [segments_token hseparator h hrest hcut, prependFirst_prependFirst]
      exact forall₂_writes_cons gap t (ih h.tail hrest _)

theorem map_trim_of_writes {pieces : List (List Char)} {split : List Tokens}
    (h : List.Forall₂ Writes pieces split) (hfits : ∀ piece ∈ split, Fits piece) :
    pieces.map trim = split.map fun piece => written (flush piece) := by
  induction h with
  | nil => rfl
  | cons hfirst _ ih =>
    obtain ⟨hpiece, hrest⟩ := List.forall_mem_cons.1 hfits
    obtain ⟨gap, rfl⟩ := hfirst
    rw [List.map_cons, List.map_cons, trim_written hpiece, ih hrest]

theorem isEmpty_written_flush {ts : Tokens} (h : Fits ts) :
    (written (flush ts)).isEmpty = ts.isEmpty := by
  cases ts with
  | nil => rfl
  | cons x ts =>
    have hne := written_ne_nil h.flush (by simp [flush])
    simpa using hne

/-- A text split outside brackets. -/
theorem splitTopLevel_written {separator : Token} (hseparator : separator.IsSeparator) {ts : Tokens}
    (h : Fits ts) (hminus : .mark '-' ∉ ts.map Prod.snd) :
    splitTopLevel separator.chars (written ts) =
      ((splitTokens Prod.snd separator 0 ts).filter (fun piece => !piece.isEmpty)).map
        fun piece => written (flush piece) := by
  have hpiece : ∀ piece ∈ splitTokens Prod.snd separator 0 ts, Fits piece :=
    fun piece hpiece => h.of_isInfix (infix_of_mem_splitTokens hpiece)
  have htrim := map_trim_of_writes (segments_written hseparator h hminus 0) hpiece
  rw [splitTopLevel, htrim, List.filter_map]
  refine congrArg _ (List.filter_congr fun piece hmem => ?_)
  rw [Function.comp_apply, isEmpty_written_flush (hpiece piece hmem)]

end Hql.Layout
