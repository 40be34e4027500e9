import Hql.Proofs.Query.Outline
import Hql.Proofs.Query.Parts

/-!
Brackets in rendered fragments. A fragment whose own texts are balanced is rendered as a balanced
text, so brackets are open within the arguments, type parameters and projections of a source and
nowhere else. Main statement: split at the double colons outside brackets, a rendered source falls
into its origin and its steps.
-/

namespace Hql

open Text

namespace Layout

/-! ### Balanced texts -/

/-- Every closer of a text closes a bracket that is open, and none is left open. `depth` brackets are
open at the start of the text. -/
def closes : (depth : Nat) → List Char → Bool
  | depth, [] => depth == 0
  | depth, c :: cs => (depth != 0 || !isCloser c) && closes (depthAfter depth c cs) cs

/-- A text in which every bracket is closed and every closer has its bracket. -/
def IsBalanced (cs : List Char) : Prop := closes 0 cs = true

instance (cs : List Char) : Decidable (IsBalanced cs) := inferInstanceAs (Decidable (_ = _))

/-- Below brackets that are open around a text the counter does the same, whatever follows. -/
theorem depthAfter_below {depth : Nat} {c : Char} {cs : List Char}
    (h : closes depth (c :: cs) = true) (outer : Nat) (rest : List Char) :
    depthAfter (outer + depth) c (cs ++ rest) = outer + depthAfter depth c cs ∧
      closes (depthAfter depth c cs) cs = true := by
  obtain ⟨hcloser, hcs⟩ := Bool.and_eq_true_iff.1 h
  refine ⟨?_, hcs⟩
  by_cases hopen : isOpener c = true
  · -- at its end a balanced text has no opener, so what may make an arrow of it is its own
    have harrow : (c == '<' && (cs ++ rest).head? == some '-') =
        (c == '<' && cs.head? == some '-') := by
      cases cs with
      | nil =>
        have hend : depthAfter depth c [] = depth + 1 := by simp [depthAfter, hopen]
        rw [hend] at hcs
        cases hcs
      | cons d cs => rfl
    rw [depthAfter, depthAfter, if_pos hopen, if_pos hopen, harrow]
    split <;> omega
  · rw [depthAfter, depthAfter, if_neg hopen, if_neg hopen]
    split
    · next hclose =>
      rw [hclose] at hcloser
      have hdepth : depth ≠ 0 := by simpa using hcloser
      omega
    · rfl

theorem closes_append {depth : Nat} {a : List Char} (h : closes depth a = true) (outer : Nat)
    (b : List Char) : closes (outer + depth) (a ++ b) = closes outer b := by
  induction a generalizing depth with
  | nil =>
    obtain rfl : depth = 0 := by simpa [closes] using h
    rfl
  | cons c a ih =>
    obtain ⟨hdepth, hrest⟩ := depthAfter_below h outer b
    have hcloser := (Bool.and_eq_true_iff.1 h).1
    have houter : (outer + depth != 0 || !isCloser c) = true := by
      rw [Bool.or_eq_true, bne_iff_ne] at hcloser ⊢
      exact hcloser.imp_left fun hne => by omega
    rw [List.cons_append, closes, houter, hdepth, Bool.true_and]
    exact ih hrest

namespace IsBalanced

variable {a b : List Char}

theorem nil : IsBalanced [] := rfl

theorem append (ha : IsBalanced a) (hb : IsBalanced b) : IsBalanced (a ++ b) := by
  have h : closes (0 + 0) (a ++ b) = closes 0 b := closes_append ha 0 b
  exact h.trans hb

theorem of_plain (h : ∀ c ∈ a, isOpener c = false ∧ isCloser c = false) : IsBalanced a := by
  induction a with
  | nil => exact nil
  | cons c a ih =>
    obtain ⟨⟨hopen, hclose⟩, ha⟩ := List.forall_mem_cons.1 h
    have hdepth : depthAfter 0 c a = 0 := by
      rw [depthAfter, hopen, hclose]
      rfl
    rw [IsBalanced, closes, hdepth, hclose]
    exact ih ha

theorem blanks (h : ∀ c ∈ a, isBlank c = true) : IsBalanced a :=
  of_plain fun c hc => not_bracket_of_isBlank (h c hc)

theorem intercalate {separator : List Char} (hseparator : IsBalanced separator)
    {texts : List (List Char)} (h : ∀ text ∈ texts, IsBalanced text) :
    IsBalanced (separator.intercalate texts) := by
  cases texts with
  | nil => exact nil
  | cons text texts =>
    obtain ⟨htext, htexts⟩ := List.forall_mem_cons.1 h
    rw [intercalate_eq_flatMap]
    apply htext.append
    clear h htext
    induction texts with
    | nil => exact nil
    | cons next texts ih =>
      obtain ⟨hnext, hmore⟩ := List.forall_mem_cons.1 htexts
      exact (hseparator.append hnext).append (ih hmore)

end IsBalanced

/-- A balanced text in a pair of brackets. -/
def IsBracketed (cs : List Char) : Prop :=
  ∃ opener inner closer, cs = opener :: (inner ++ [closer]) ∧ isOpener opener = true ∧
    isCloser closer = true ∧ IsBalanced inner ∧ ¬ (opener = '<' ∧ inner.head? = some '-')

section Bracketed

variable {opener closer : Char} {inner : List Char}

/-- An opener with its closer behind it is no arrow. -/
theorem depthAfter_opener (hopen : isOpener opener = true) (hclose : isCloser closer = true)
    (harrow : ¬ (opener = '<' ∧ inner.head? = some '-')) (depth : Nat) (rest : List Char) :
    depthAfter depth opener (inner ++ closer :: rest) = depth + 1 := by
  have hhead : (opener == '<' && (inner ++ closer :: rest).head? == some '-') = false := by
    rw [Bool.eq_false_iff, ne_eq, Bool.and_eq_true_iff, beq_iff_eq, beq_iff_eq]
    rintro ⟨rfl, hminus⟩
    cases inner with
    | nil =>
      obtain rfl := Option.some.inj hminus
      exact absurd hclose (by decide)
    | cons c inner => exact harrow ⟨rfl, hminus⟩
  rw [depthAfter, if_pos hopen, hhead, if_neg Bool.false_ne_true]

theorem depthAfter_closer (hclose : isCloser closer = true) (depth : Nat) (rest : List Char) :
    depthAfter (depth + 1) closer rest = depth := by
  rw [depthAfter, not_isOpener_of_isCloser hclose, if_neg Bool.false_ne_true, if_pos hclose, Nat.add_sub_cancel]

end Bracketed

theorem IsBracketed.isBalanced {cs : List Char} (h : IsBracketed cs) : IsBalanced cs := by
  obtain ⟨opener, inner, closer, rfl, hopen, hclose, hinner, harrow⟩ := h
  have hplain := not_isCloser_of_isOpener hopen
  have hclosed : closes (1 + 0) (inner ++ [closer]) = closes 1 [closer] := closes_append hinner 1 _
  rw [IsBalanced, closes, depthAfter_opener hopen hclose harrow, hplain]
  rw [closes, depthAfter_closer hclose] at hclosed
  exact hclosed

/-! ### Texts within a piece -/

/-- A text that a split at double colons leaves whole: with `depth` open brackets before it, the text
belongs to one piece and as many brackets are open behind it. -/
def Passes (depth : Nat) (cs : List Char) : Prop :=
  ∀ rest, segments [':', ':'] depth 0 (cs ++ rest) =
    prependFirst cs (segments [':', ':'] depth 0 rest)

namespace Passes

variable {depth : Nat} {a b : List Char}

theorem nil (depth : Nat) : Passes depth [] := by
  intro rest
  obtain ⟨p, ps, hp⟩ := List.exists_cons_of_ne_nil (segments_ne_nil [':', ':'] depth 0 rest)
  rw [List.nil_append, hp]
  rfl

theorem append (ha : Passes depth a) (hb : Passes depth b) : Passes depth (a ++ b) := by
  intro rest
  rw [List.append_assoc, ha, hb, prependFirst_prependFirst]

/-- Outside brackets only colons divide. -/
theorem of_plain (h : ∀ c ∈ a, isOpener c = false ∧ isCloser c = false ∧ c ≠ ':') :
    Passes depth a := by
  apply segments_append
  · intro c hc
    obtain ⟨hopen, hclose, hcolon⟩ := h c hc
    exact ⟨hopen, hclose, fun hhead => hcolon (Option.some.inj hhead).symm⟩
  · simp

theorem blanks (h : ∀ c ∈ a, isBlank c = true) : Passes depth a := by
  apply of_plain
  intro c hc
  obtain ⟨hopen, hclose⟩ := not_bracket_of_isBlank (h c hc)
  refine ⟨hopen, hclose, ?_⟩
  rintro rfl
  exact absurd (h ':' hc) (by decide)

/-- Within brackets nothing divides a balanced text. -/
theorem of_closes {inside : Nat} (h : closes inside a = true) (depth : Nat) (rest : List Char) :
    segments [':', ':'] (depth + 1 + inside) 0 (a ++ rest) =
      prependFirst a (segments [':', ':'] (depth + 1) 0 rest) := by
  induction a generalizing inside with
  | nil =>
    obtain rfl : inside = 0 := by simpa [closes] using h
    exact nil (depth + 1) rest
  | cons c a ih =>
    obtain ⟨hafter, ha⟩ := depthAfter_below h (depth + 1) rest
    rw [List.cons_append, segments_cons hafter, ih ha, prependFirst_prependFirst]
    · rfl
    · intro hzero
      omega

theorem of_bracketed (h : IsBracketed a) : Passes 0 a := by
  intro rest
  obtain ⟨opener, inner, closer, rfl, hopen, hclose, hinner, harrow⟩ := h
  have hnot {c : Char} (hc : c ≠ ':') (cs : List Char) :
      ¬ [':', ':'].isPrefixOf (c :: cs) = true := by
    rw [List.isPrefixOf, Bool.and_eq_true_iff, beq_iff_eq]
    exact fun heq => hc heq.1.symm
  have hcolon : opener ≠ ':' ∧ closer ≠ ':' := by
    constructor
    · rintro rfl
      exact absurd hopen (by decide)
    · rintro rfl
      exact absurd hclose (by decide)
  -- the opener, what it opens, and the closer
  have hinside : segments [':', ':'] 1 0 (inner ++ closer :: rest) =
      prependFirst inner (segments [':', ':'] 1 0 (closer :: rest)) := of_closes hinner 0 _
  have htext : opener :: (inner ++ [closer]) ++ rest = opener :: (inner ++ closer :: rest) := by simp
  rw [htext, segments_cons (depthAfter_opener hopen hclose harrow 0 rest) (by simp), hinside,
    segments_cons (depthAfter_closer hclose 0 rest) fun _ => hnot hcolon.2 rest,
    prependFirst_prependFirst, prependFirst_prependFirst]
  rfl

end Passes

/-- A piece is a body with blanks behind it. -/
def Pads (piece body : List Char) : Prop :=
  ∃ gap, piece = body ++ gap ∧ ∀ c ∈ gap, isBlank c = true

/-- A text with no blank at either end. -/
structure IsFlush (cs : List Char) : Prop where
  head : ∃ c ∈ cs.head?, isBlank c = false
  last : ∃ c ∈ cs.getLast?, isBlank c = false

theorem trim_of_pads {piece body : List Char} (h : Pads piece body) (hbody : IsFlush body) :
    trim piece = body := by
  obtain ⟨gap, rfl, hgap⟩ := h
  obtain ⟨⟨c, hc, hfirst⟩, d, hd, hlast⟩ := hbody
  refine trim_between (a := []) (by simp) hgap ?_ ?_
  · intro c' hc'
    rwa [Option.some.inj (hc'.symm.trans hc)]
  · intro d' hd'
    rwa [Option.some.inj (hd'.symm.trans hd)]

/-- Trimmed, the pieces are the bodies, and none of them is empty. -/
theorem trimmed_of_pads {pieces bodies : List (List Char)} (h : List.Forall₂ Pads pieces bodies)
    (hbodies : ∀ body ∈ bodies, IsFlush body) :
    ((pieces.map trim).filter fun piece => !piece.isEmpty) = bodies := by
  induction h with
  | nil => rfl
  | @cons piece body pieces bodies hpiece _ ih =>
    obtain ⟨hbody, hmore⟩ := List.forall_mem_cons.1 hbodies
    have hne : (!body.isEmpty) = true := by
      obtain ⟨c, hc, -⟩ := hbody.head
      cases body with
      | nil => cases hc
      | cons c body => rfl
    rw [List.map_cons, trim_of_pads hpiece hbody, List.filter_cons, if_pos hne, ih hmore]

end Layout

namespace Fragment

open Layout

/-! ### Fragments of balanced texts -/

/-- A name that stands in one piece: it is there, and no blank, bracket, colon or minus sign is in
it. -/
structure IsSolid (name : String) : Prop where
  ne_empty : name ≠ ""
  chars : ∀ c ∈ name.toList,
    isBlank c = false ∧ isOpener c = false ∧ isCloser c = false ∧ c ≠ ':' ∧ c ≠ '-'

instance (name : String) : Decidable (IsSolid name) :=
  decidable_of_iff (name ≠ "" ∧ ∀ c ∈ name.toList,
      isBlank c = false ∧ isOpener c = false ∧ isCloser c = false ∧ c ≠ ':' ∧ c ≠ '-')
    ⟨fun h => ⟨h.1, h.2⟩, fun h => ⟨h.ne_empty, h.chars⟩⟩

/-- Every identifier is solid, in letters of any script. -/
theorem isSolid_of_wordChars {name : String} (hne : name ≠ "")
    (h : ∀ c ∈ name.toList, isWordChar c = true) : IsSolid name where
  ne_empty := hne
  chars := by
    intro c hc
    have hword := h c hc
    obtain ⟨hopen, hclose⟩ := not_bracket_of_isWordChar hword
    refine ⟨not_isBlank_of_isWordChar hword, hopen, hclose, ?_, ?_⟩
    · rintro rfl
      exact absurd hword (by decide)
    · rintro rfl
      exact absurd hword (by decide)

namespace IsSolid

variable {name : String}

theorem isBalanced (h : IsSolid name) : IsBalanced name.toList :=
  .of_plain fun c hc => ⟨(h.chars c hc).2.1, (h.chars c hc).2.2.1⟩

theorem passes (h : IsSolid name) : Passes 0 name.toList :=
  .of_plain fun c hc => ⟨(h.chars c hc).2.1, (h.chars c hc).2.2.1, (h.chars c hc).2.2.2.1⟩

theorem shut (h : IsSolid name) : Shut name.toList := by
  have hne : name.toList ≠ [] := String.toList_eq_nil_iff.not.2 h.ne_empty
  have hlast := h.chars _ (List.getLast_mem hne)
  exact ⟨_, List.getLast?_eq_some_getLast hne, hlast.1, hlast.2.2.2.1⟩

theorem exists_head (h : IsSolid name) : ∃ c cs, name.toList = c :: cs ∧ isBlank c = false := by
  obtain ⟨c, cs, hcs⟩ := List.exists_cons_of_ne_nil (String.toList_eq_nil_iff.not.2 h.ne_empty)
  exact ⟨c, cs, hcs, (h.chars c (hcs ▸ List.mem_cons_self ..)).1⟩

end IsSolid

/-- The names in a fragment, apart from those of the fragments inside it: where an operator or a type
stands they are solid, and every other text is balanced. The arrow of a whole query closes a bracket
that is not open, and blocks of a schema are no part of queries. -/
def HasBalancedTexts : Fragment → Prop
  | text s => IsBalanced s.toList
  | step name typeParam _ _ => IsSolid name ∧ ∀ t ∈ typeParam, IsSolid t
  | expression head _ _ => IsBalanced head.toList
  | projection fields => ∀ field ∈ fields, IsBalanced field.1.toList
  | source origin typeParam _ _ _ => IsSolid origin ∧ ∀ t ∈ typeParam, IsSolid t
  | assignment name _ => IsBalanced name.toList
  | drop _ => True
  | query .. => False
  | block _ => False

instance : DecidablePred HasBalancedTexts
  | text _ => inferInstanceAs (Decidable (IsBalanced _))
  | step _ typeParam _ _ => inferInstanceAs (Decidable (_ ∧ ∀ t ∈ typeParam, IsSolid t))
  | expression _ _ _ => inferInstanceAs (Decidable (IsBalanced _))
  | projection fields => inferInstanceAs (Decidable (∀ field ∈ fields, IsBalanced field.1.toList))
  | source _ typeParam _ _ _ => inferInstanceAs (Decidable (_ ∧ ∀ t ∈ typeParam, IsSolid t))
  | assignment _ _ => inferInstanceAs (Decidable (IsBalanced _))
  | drop _ => inferInstanceAs (Decidable True)
  | query .. => inferInstanceAs (Decidable False)
  | block _ => inferInstanceAs (Decidable False)

theorem typeArgument_eq {typeParam : Option String} (h : ∀ t ∈ typeParam, IsSolid t) :
    (typeArgument typeParam).toList = [] ∨ IsBracketed (typeArgument typeParam).toList := by
  rw [typeArgument]
  split
  · next t ht =>
    have hsolid := h t (Option.filter_eq_some_iff.1 ht).1
    have htext : ("<" ++ t ++ ">").toList = '<' :: (t.toList ++ ['>']) := by simp
    refine .inr ⟨'<', t.toList, '>', htext, rfl, rfl, hsolid.isBalanced, ?_⟩
    rintro ⟨-, hhead⟩
    exact (hsolid.chars '-' (List.mem_of_mem_head? hhead)).2.2.2.2 rfl
  · exact .inl rfl

theorem isBalanced_of_eq {cs : List Char} (h : cs = [] ∨ IsBracketed cs) : IsBalanced cs := by
  rcases h with rfl | h
  · exact .nil
  · exact h.isBalanced

theorem passes_of_eq {cs : List Char} (h : cs = [] ∨ IsBracketed cs) : Passes 0 cs := by
  rcases h with rfl | h
  · exact .nil 0
  · exact .of_bracketed h

theorem isBracketed_parentheses {texts : List (List Char)} (h : ∀ text ∈ texts, IsBalanced text) :
    IsBracketed ('(' :: ([',', ' '].intercalate texts ++ [')'])) :=
  ⟨_, _, _, rfl, rfl, rfl, .intercalate (by decide) h, fun hopen => by cases hopen.1⟩

/-- The fields of a projection on lines of their own, in braces. -/
theorem isBracketed_projection {indent : String} (hindent : IsIndent indent)
    {fields : List (String × Fragment)}
    (h : ∀ line ∈ (renderFields (indent ++ tab) fields).map String.toList, IsBalanced line) :
    IsBracketed (render indent (projection fields)).toList := by
  cases fields with
  | nil =>
    exact ⟨'\x7b', [], '\x7d', toList_render_braces indent, rfl, rfl, .nil,
      fun hopen => by cases hopen.1⟩
  | cons field fields =>
    have hbody : IsBalanced ([',', '\n'].intercalate
        ((renderFields (indent ++ tab) (field :: fields)).map String.toList)) :=
      .intercalate (by decide) h
    have hfront : IsBalanced ['\n'] := by decide
    have hback : IsBalanced ('\n' :: indent.toList) :=
      .blanks (List.forall_mem_cons.2 ⟨by decide, hindent⟩)
    refine ⟨'\x7b', _, '\x7d', ?_, rfl, rfl, (hfront.append hbody).append hback,
      fun hopen => by cases hopen.1⟩
    rw [toList_render_projection]
    simp only [List.cons_append, List.nil_append, List.append_assoc]

mutual

/-- A fragment of balanced texts is rendered as a balanced text. -/
theorem isBalanced_render {f : Fragment} (h : Everywhere HasBalancedTexts f) {indent : String}
    (hindent : IsIndent indent) : IsBalanced (render indent f).toList := by
  cases f with
  | text s =>
    rw [render]
    exact (everywhere_text s).1 h
  | step name typeParam args attached =>
    obtain ⟨⟨hname, htype⟩, hargs⟩ := (everywhere_step ..).1 h
    have hcolons : IsBalanced "::".toList := by decide
    have hargs := isBalanced_of_eq (renderArgs_eq hargs hindent)
    simp only [render, String.toList_append]
    exact ((hcolons.append hname.isBalanced).append
      (isBalanced_of_eq (typeArgument_eq htype))).append hargs
  | expression head callArgs chain =>
    obtain ⟨hhead, hargs, hchain⟩ := (everywhere_expression ..).1 h
    have hhead : IsBalanced head.toList := hhead
    have hargs := isBalanced_of_eq (renderArgs_eq hargs hindent)
    simp only [render, String.toList_append]
    exact (hhead.append hargs).append (isBalanced_renderChain hchain hindent false)
  | projection fields =>
    obtain ⟨hnames, hfields⟩ := (everywhere_projection fields).1 h
    exact (isBracketed_projection hindent
      (isBalanced_renderFields hnames hfields hindent.tab)).isBalanced
  | source origin typeParam args steps multiline =>
    obtain ⟨⟨horigin, htype⟩, hargs, hsteps⟩ := (everywhere_source ..).1 h
    have hdeep := hindent.chain multiline
    have hargs := isBalanced_of_eq (renderArgs_eq hargs hindent)
    simp only [render, String.toList_append]
    exact ((horigin.isBalanced.append (isBalanced_of_eq (typeArgument_eq htype))).append
      hargs).append (isBalanced_renderChain hsteps hdeep multiline)
  | assignment name value =>
    obtain ⟨hname, hvalue⟩ := (everywhere_assignment ..).1 h
    have hname : IsBalanced name.toList := hname
    have harrow : IsBalanced " <- ".toList := by decide
    simp only [render, String.toList_append]
    exact (hname.append harrow).append (isBalanced_render hvalue hindent)
  | drop target =>
    obtain ⟨-, htarget⟩ := (everywhere_drop target).1 h
    have hword : IsBalanced "DROP ".toList := by decide
    rw [render, String.toList_append]
    exact hword.append (isBalanced_render htarget hindent)
  | query name params statements returns =>
    exact absurd (h _ (by rw [parts]; exact List.mem_cons_self ..)) id
  | block e => exact absurd (h _ (by rw [parts]; exact List.mem_cons_self ..)) id

theorem renderArgs_eq {args : Option (List Fragment)}
    (h : ∀ f ∈ args.getD [], Everywhere HasBalancedTexts f) {indent : String}
    (hindent : IsIndent indent) :
    (renderArgs indent args).toList = [] ∨ IsBracketed (renderArgs indent args).toList := by
  cases args with
  | none => exact .inl rfl
  | some args =>
    rw [toList_renderArgs]
    exact .inr (isBracketed_parentheses (isBalanced_renderAll h hindent))

theorem isBalanced_renderAll {fs : List Fragment} (h : ∀ f ∈ fs, Everywhere HasBalancedTexts f)
    {indent : String} (hindent : IsIndent indent) :
    ∀ text ∈ (renderAll indent fs).map String.toList, IsBalanced text := by
  cases fs with
  | nil => exact fun _ hmem => nomatch hmem
  | cons f fs =>
    obtain ⟨hf, hfs⟩ := List.forall_mem_cons.1 h
    exact List.forall_mem_cons.2 ⟨isBalanced_render hf hindent, isBalanced_renderAll hfs hindent⟩

theorem isBalanced_renderFields {fields : List (String × Fragment)}
    (hnames : ∀ field ∈ fields, IsBalanced field.1.toList)
    (h : ∀ field ∈ fields, Everywhere HasBalancedTexts field.2) {indent : String}
    (hindent : IsIndent indent) :
    ∀ line ∈ (renderFields indent fields).map String.toList, IsBalanced line := by
  cases fields with
  | nil => exact fun _ hmem => nomatch hmem
  | cons field fields =>
    obtain ⟨name, f⟩ := field
    obtain ⟨hname, hnames⟩ := List.forall_mem_cons.1 hnames
    obtain ⟨hf, hfields⟩ := List.forall_mem_cons.1 h
    have hcolon : IsBalanced ": ".toList := by decide
    have hline : IsBalanced (indent ++ name ++ ": " ++ render indent f).toList := by
      simp only [String.toList_append]
      exact (((IsBalanced.blanks hindent).append hname).append hcolon).append
        (isBalanced_render hf hindent)
    exact List.forall_mem_cons.2 ⟨hline, isBalanced_renderFields hnames hfields hindent⟩

theorem isBalanced_renderChain {fs : List Fragment}
    (h : ∀ f ∈ fs, Everywhere HasBalancedTexts f) {indent : String} (hindent : IsIndent indent)
    (multiline : Bool) : IsBalanced (renderChain indent multiline fs).toList := by
  cases fs with
  | nil => exact .nil
  | cons f fs =>
    obtain ⟨hf, hfs⟩ := List.forall_mem_cons.1 h
    have hlink : IsBalanced f.link.toList := by
      rw [link.eq_def]
      split <;> decide
    have hbreak : IsBalanced (if multiline && !f.isAttached then "\n" ++ indent else "").toList := by
      split
      · rw [String.toList_append]
        exact .blanks (List.forall_mem_cons.2 ⟨by decide, hindent⟩)
      · exact .nil
    simp only [renderChain, String.toList_append]
    exact ((hbreak.append hlink).append (isBalanced_render hf hindent)).append
      (isBalanced_renderChain hfs hindent multiline)

end

/-! ### The pieces of a source -/

section Calls

variable {indent name : String} {typeParam : Option String} {args : Option (List Fragment)}

theorem passes_callText (hname : IsSolid name) (htype : ∀ t ∈ typeParam, IsSolid t)
    (hargs : ∀ f ∈ args.getD [], Everywhere HasBalancedTexts f) (hindent : IsIndent indent) :
    Passes 0 (callText indent name typeParam args).toList := by
  rw [callText, String.toList_append, String.toList_append]
  exact (hname.passes.append (passes_of_eq (typeArgument_eq htype))).append
    (passes_of_eq (renderArgs_eq hargs hindent))

theorem isFlush_callText (hname : IsSolid name) :
    IsFlush (callText indent name typeParam args).toList where
  head := by
    obtain ⟨c, cs, hcs, hc⟩ := hname.exists_head
    refine ⟨c, ?_, hc⟩
    rw [callText, String.toList_append, String.toList_append, hcs]
    rfl
  last := by
    obtain ⟨c, hlast, hc, -⟩ : Shut (callText indent name typeParam args).toList :=
      shut_callText hname.shut indent
    exact ⟨c, hlast, hc⟩

end Calls

/-- A step or projection of a chain that a split at double colons finds whole. -/
theorem step_pieces {f : Fragment} (hlink : IsLink f) (h : Everywhere HasBalancedTexts f)
    {indent : String} (hindent : IsIndent indent) :
    IsShutStep f ∧ Passes 0 (bodyText indent f).toList ∧ IsFlush (bodyText indent f).toList := by
  cases f with
  | step name typeParam args attached =>
    obtain ⟨⟨hname, htype⟩, hargs⟩ := (everywhere_step ..).1 h
    exact ⟨hname.shut, passes_callText hname htype hargs hindent, isFlush_callText hname⟩
  | projection fields =>
    obtain ⟨hnames, hfields⟩ := (everywhere_projection fields).1 h
    have hbody : IsBracketed (bodyText indent (projection fields)).toList :=
      isBracketed_projection hindent (isBalanced_renderFields hnames hfields hindent.tab)
    have hshut : IsShutStep (projection fields) := trivial
    refine ⟨hshut, .of_bracketed hbody, ?head, ?last⟩
    case head =>
      obtain ⟨opener, inner, closer, heq, hopen, -⟩ := hbody
      refine ⟨opener, by rw [heq]; rfl, ?_⟩
      rw [Bool.eq_false_iff]
      intro hblank
      rw [(not_bracket_of_isBlank hblank).1] at hopen
      cases hopen
    case last =>
      obtain ⟨c, hlast, hc, -⟩ := shut_bodyText hshut indent
      exact ⟨c, hlast, hc⟩
  | _ => exact absurd hlink id

/-- What is split off a chain: the text before it, and the steps without their double colons. -/
theorem pads_segments_chain {fs : List Fragment} (hlinks : ∀ f ∈ fs, IsLink f)
    (h : ∀ f ∈ fs, Everywhere HasBalancedTexts f) {indent : String} (hindent : IsIndent indent)
    (multiline : Bool) {front : List Char} (hfront : Passes 0 front) :
    List.Forall₂ Pads (segments [':', ':'] 0 0 (front ++ (renderChain indent multiline fs).toList))
      (front :: fs.map fun f => (bodyText indent f).toList) := by
  induction fs generalizing front with
  | nil =>
    have hpieces := hfront []
    have hnone : (renderChain indent multiline []).toList = [] := by simp [renderChain]
    rw [hnone, hpieces]
    exact .cons ⟨[], rfl, by simp⟩ .nil
  | cons f fs ih =>
    obtain ⟨hlink, hlinks⟩ := List.forall_mem_cons.1 hlinks
    obtain ⟨hf, hfs⟩ := List.forall_mem_cons.1 h
    obtain ⟨hshut, hbody, -⟩ := step_pieces hlink hf hindent
    -- the line end and the indentation before a step pad the piece before it
    obtain ⟨gap, hgap, htext⟩ : ∃ gap, (∀ c ∈ gap, isBlank c = true) ∧
        (renderChain indent multiline (f :: fs)).toList = gap ++ ':' :: ':' ::
          ((bodyText indent f).toList ++ (renderChain indent multiline fs).toList) := by
      refine ⟨_, ?_, renderChain_cons hshut indent multiline fs⟩
      split
      · exact List.forall_mem_cons.2 ⟨by decide, hindent⟩
      · simp
    have hdivide := segments_separator (.inl rfl : Token.colons.IsSeparator)
      ((bodyText indent f).toList ++ (renderChain indent multiline fs).toList)
    have hpieces := hfront.append (.blanks hgap) (':' :: ':' ::
      ((bodyText indent f).toList ++ (renderChain indent multiline fs).toList))
    rw [htext, ← List.append_assoc, hpieces]
    rw [Token.chars, List.cons_append, List.singleton_append] at hdivide
    rw [hdivide, prependFirst, List.append_nil, List.map_cons]
    exact .cons ⟨gap, rfl, hgap⟩ (ih hlinks hfs hbody)

/-- Split at the double colons outside brackets, a rendered source falls into its origin, with the
type parameter and the arguments, and its steps without their double colons, in order. -/
theorem splitTopLevel_render {origin : String} {typeParam : Option String}
    {args : Option (List Fragment)} {steps : List Fragment} {multiline : Bool}
    (h : Everywhere HasBalancedTexts (source origin typeParam args steps multiline))
    (hsteps : ∀ f ∈ steps, IsLink f) {indent : String} (hindent : IsIndent indent) :
    let deep := if multiline then indent ++ tab else indent
    splitTopLevel "::".toList (render indent (source origin typeParam args steps multiline)).toList =
        (render indent (source origin typeParam args [] multiline)).toList ::
          steps.map (fun f => (bodyText deep f).toList) ∧
      ∀ f ∈ steps, f.link ++ render deep f = "::" ++ bodyText deep f := by
  intro deep
  obtain ⟨⟨horigin, htype⟩, hargs, hall⟩ := (everywhere_source ..).1 h
  have hdeep : IsIndent deep := hindent.chain multiline
  have hpiece (f : Fragment) (hf : f ∈ steps) := step_pieces (hsteps f hf) (hall f hf) hdeep
  refine ⟨?_, fun f hf => link_append (hpiece f hf).1 deep⟩
  have hfront := passes_callText horigin htype hargs hindent
  have hpads := pads_segments_chain hsteps hall hdeep multiline hfront
  have hflush : ∀ body ∈ (callText indent origin typeParam args).toList ::
      steps.map (fun f => (bodyText deep f).toList), IsFlush body := by
    refine List.forall_mem_cons.2 ⟨isFlush_callText horigin, ?_⟩
    intro body hbody
    obtain ⟨f, hf, rfl⟩ := List.mem_map.1 hbody
    exact (hpiece f hf).2.2
  rw [splitTopLevel, render_source, String.toList_append, render_origin]
  exact trimmed_of_pads hpads hflush

/-- The steps of a source: a condition, a step that stays on its line, and a projection. -/
def visitSteps : List Fragment := [
  step "WHERE" none (some [call "EQ" [property "name", literal "a (b)"]]) false,
  step "Out" (some "Visits") none true,
  projection [("name", property "name"), ("places", text "_::Out<Visits>::COUNT")]]

theorem splitTopLevel_render_visits :
    Everywhere HasBalancedTexts (source "N" (some "User") (some [ident "id"]) visitSteps true) ∧
      (∀ f ∈ visitSteps, IsLink f) ∧ IsIndent "  " ∧
      splitTopLevel "::".toList (render "  "
          (source "N" (some "User") (some [ident "id"]) visitSteps true)).toList =
        ["N<User>(id)", "WHERE(EQ(_::\x7bname\x7d, \"a (b)\"))", "Out<Visits>",
          "\x7b\n          name: _::\x7bname\x7d,\n          places: _::Out<Visits>::COUNT\n      \x7d"].map
            String.toList := by
  have htexts : Everywhere HasBalancedTexts
      (source "N" (some "User") (some [ident "id"]) visitSteps true) := by decide
  have hsteps : ∀ f ∈ visitSteps, IsLink f := by simp [visitSteps, IsLink]
  have hindent : IsIndent "  " := by decide
  refine ⟨htexts, hsteps, hindent, ?_⟩
  rw [(splitTopLevel_render htexts hsteps hindent).1]
  decide +kernel

end Fragment

end Hql
