import Hql.Proofs.Layout.Lines
import Hql.Proofs.Layout.Settled
import Hql.Proofs.Library.Names
import Hql.Proofs.Schema.Misread

/-!
Schemas laid out. The layout of code takes the indentation of a schema away and leaves its lines as
they are, unless a name in it is a word of the vocabulary or the literal of a default is not laid out as
it is; so a schema that is laid out defines what it defined before.
-/

namespace Hql

open Text Layout Library

/-! ### Names and defaults that are left alone -/

namespace Entity

/-- No name that a schema shows of the entity is a word of the vocabulary. -/
structure IsUnreserved (e : Entity) : Prop where
  name : Keyword.isReserved e.name = false
  source : e.isEdge = true → ∀ s ∈ setEnd e.source, Keyword.isReserved s = false
  target : e.isEdge = true → ∀ s ∈ setEnd e.target, Keyword.isReserved s = false
  properties : ∀ p ∈ e.namedProperties, Keyword.isReserved p.name = false

end Entity

namespace Model

/-- The literals of the defaults that the schema of a model shows. -/
def defaultLiterals (model : Model) : List String :=
  model.entities.flatMap fun e => e.namedProperties.filterMap Property.defaultLiteral?

/-- The layout of code leaves the default literals of a model alone: it changes none of them, and it
takes none of them for the start of a query. What starts with the word of a query is only taken for one
if an arrow follows somewhere. -/
structure KeepsDefaults (model : Model) : Prop where
  literals : ∀ l ∈ model.defaultLiterals, tidy l.toList = l.toList
  blocks : (∀ l ∈ model.defaultLiterals, startsBlock l.toList = false) ∨
    ∀ l ∈ model.defaultLiterals, NoArrow l.toList

end Model

namespace Schema

/-! ### Reading line by line -/

namespace State

theorem advance_eq_foldlM (s : State) (cs : List Char) :
    s.advance cs = (solidLines cs).foldlM State.advance s := by
  have hline (s : State) (w : List Char) : s.advance w = (solidLine w).foldlM State.advance s := by
    rw [solidLine]
    split
    · rename_i hnil
      rw [hnil, advance_nil]
      rfl
    · rw [List.foldlM_cons]
      cases s.advance w <;> rfl
  induction cs using lines_induction generalizing s with
  | last w h => rw [solidLines_of_not_mem h, ← hline]
  | line w cs h ih =>
    rw [advance_newline, solidLines_line h, List.foldlM_append, ← hline]
    exact congrArg (s.advance w).bind (funext ih)

/-- Indentation makes no difference to what is read. -/
theorem advance_evened {l l' : List Char} (h : Evened l l') (s : State) :
    s.advance l' = s.advance l := by
  obtain ⟨heven, rfl | rfl⟩ := h
  · rfl
  · obtain ⟨indent, hindent, hl⟩ := heven.indented
    have hlayout : ∀ c ∈ indent, isLayoutChar c = true := by
      intro c hc
      rw [hindent c hc]
      decide
    rw [hl, advance_layout hlayout, ← hl]

theorem foldlM_advance_congr {as bs : List (List Char)} (h : List.Forall₂ Evened as bs) (s : State) :
    bs.foldlM State.advance s = as.foldlM State.advance s := by
  induction h generalizing s with
  | nil => rfl
  | cons hab _ ih =>
    rw [List.foldlM_cons, List.foldlM_cons, advance_evened hab]
    exact congrArg (State.advance s _).bind (funext ih)

/-- A text whose lines are laid out one by one is read as before. -/
theorem advance_formatChars {c : Char} (hc : isBlank c = false) {cs : List Char}
    (h : AreEven ((c :: cs).splitOn '\n')) (s : State) :
    s.advance (formatChars (c :: cs)) = s.advance (c :: cs) := by
  rw [advance_eq_foldlM, foldlM_advance_congr (forall₂_formatChars hc h), ← advance_eq_foldlM]

end State

/-! ### Literals -/

theorem begins_of_isWordChar {c : Char} (h : isWordChar c = true) : Begins c := by
  refine ⟨not_isBlank_of_isWordChar h, fun hmem => ?_⟩
  have hmarks : ∀ d ∈ [':', '\x7b', '\x7d', ')', '<', '>', '/', '#'], isWordChar d = false := by decide
  rw [hmarks c hmem] at h
  cases h

/-- A text on one line that starts as literals do and does not end with a blank. -/
structure IsLiteral (cs : List Char) : Prop where
  begins : ∃ c ∈ cs.head?, Begins c
  line : '\n' ∉ cs
  last : ∀ c ∈ cs.getLast?, isBlank c = false

theorem isLiteral_of_isIdentifier {cs : List Char} (h : isIdentifier cs = true) : IsLiteral cs := by
  have hword : ∀ c ∈ cs, isWordChar c = true := fun c hc =>
    isWordChar_of_isIdentChar (isIdentChar_of_mem h c hc)
  obtain ⟨c, more, rfl⟩ := List.exists_cons_of_ne_nil (isIdentifier_ne_nil h)
  exact ⟨⟨c, rfl, begins_of_isWordChar (hword c (List.mem_cons_self ..))⟩,
    newline_not_mem_identifier h,
    fun d hd => not_isBlank_of_isWordChar (hword d (List.mem_of_getLast? hd))⟩

theorem isLiteral_of_isNumber {cs : List Char} (h : IsNumber cs) : IsLiteral cs := by
  have hbegins : ∀ c ∈ cs, Begins c := by
    intro c hc
    rcases h.mem c hc with hdigit | hmark
    · exact begins_of_isWordChar (isWordChar_of_isIdentChar (isIdentChar_of_isDigit hdigit))
    · have hmarks : ∀ d ∈ ['+', '-', '.', 'e', 'E'], Begins d := by decide
      exact hmarks c hmark
  have hne : cs ≠ [] := Terminal.Spells.ne_nil (t := .number) h
  obtain ⟨c, more, rfl⟩ := List.exists_cons_of_ne_nil hne
  exact ⟨⟨c, rfl, hbegins c (List.mem_cons_self ..)⟩, newline_not_mem_number h,
    fun d hd => (hbegins d (List.mem_of_getLast? hd)).1⟩

theorem isLiteral_of_isListText {s : String} (h : IsListText s) : IsLiteral s.toList := by
  obtain ⟨items, rfl, hitems⟩ := h
  have htext : (Draft.listText items).toList =
      '[' :: ((String.intercalate ", " items).toList ++ [']']) := by
    simp [Draft.listText]
  refine ⟨⟨'[', by rw [htext]; rfl, by decide⟩, newline_not_mem_list hitems, fun c hc => ?_⟩
  rw [htext, ← List.cons_append, List.getLast?_concat] at hc
  obtain rfl := Option.some.inj hc
  decide

theorem isLiteral_quote {s : String} (h : '\n' ∉ s.toList) : IsLiteral (Literal.quote s).toList := by
  have htext := quote_toList s
  refine ⟨⟨'"', by rw [htext]; rfl, by decide⟩, newline_not_mem_quoted (isQuoted_quote h), fun c hc => ?_⟩
  rw [htext, ← List.cons_append, List.getLast?_concat] at hc
  obtain rfl := Option.some.inj hc
  decide

/-- The literal of a printable default. -/
theorem isLiteral_of_defaultLiteral? {p : Property} (h : p.HasPrintableDefault) {l : String}
    (hl : p.defaultLiteral? = some l) : IsLiteral l.toList := by
  obtain ⟨s, hs, -⟩ := Option.map_eq_some_iff.1 hl
  have hprintable := h s hs
  cases hq : p.quotesDefault with
  | true =>
    rw [hq, if_pos rfl] at hprintable
    rcases State.defaultLiteral?_of_quotesDefault hs hq with hquote | ⟨hnow, hbare⟩
    · obtain rfl := Option.some.inj (hl.symm.trans hquote)
      exact isLiteral_quote hprintable
    · obtain rfl := Option.some.inj (hl.symm.trans hbare)
      rw [hnow]
      exact isLiteral_of_isIdentifier (by decide)
  | false =>
    rw [hq, if_neg Bool.false_ne_true] at hprintable
    obtain rfl := Option.some.inj (hl.symm.trans (State.defaultLiteral?_of_not_quotesDefault hs hq))
    rcases hprintable with hname | hnumber | hlist
    · exact isLiteral_of_isIdentifier hname
    · exact isLiteral_of_isNumber hnumber
    · exact isLiteral_of_isListText hlist

/-! ### The lines of a schema -/

/-- Indentation of a schema. -/
def IsIndent (cs : List Char) : Prop := ∀ c ∈ cs, c = ' '

/-- A line of a schema: code whose names are left alone, with the literal of a default at its end if
there is one. -/
inductive IsPrintedLine (literals : List String) : List Char → Prop
  | empty : IsPrintedLine literals []
  | close {indent : List Char} (hindent : IsIndent indent) : IsPrintedLine literals (indent ++ ['}'])
  | code {indent text : List Char} (hindent : IsIndent indent) (h : IsCodeLine text) :
      IsPrintedLine literals (indent ++ text)
  | field {indent front back : List Char} {l : String} (hindent : IsIndent indent) (h : TakesLiteral front)
      (hl : l ∈ literals) (hliteral : IsLiteral l.toList) (hback : back = [] ∨ back = [',']) :
      IsPrintedLine literals (indent ++ (front ++ ' ' :: (l.toList ++ back)))

namespace IsPrintedLine

variable {literals : List String} {line : List Char}

theorem isEven (h : IsPrintedLine literals line) (hliterals : ∀ l ∈ literals, tidy l.toList = l.toList) :
    line = [] ∨ IsEven line := by
  cases h with
  | empty => exact .inl rfl
  | close hindent => exact .inr (.of_append hindent (by simp) (by decide) (by decide) (by decide +kernel))
  | @code indent text hindent htext =>
    obtain ⟨c, hc, hfollows⟩ := htext.head
    refine .inr (.of_append hindent ?_ ?_ htext.last htext.tidy_eq)
    · rintro rfl
      cases hc
    · intro d hd
      obtain rfl := Option.some.inj (hc.symm.trans hd)
      exact hfollows.1
  | @field indent front back l hindent hfront hl hliteral hback =>
    obtain ⟨c, hc, hfollows⟩ := hfront.head
    obtain ⟨more, rfl⟩ := List.head?_eq_some_iff.1 hc
    obtain ⟨d, hd, hbegins⟩ := hliteral.begins
    obtain ⟨rest, hrest⟩ := List.head?_eq_some_iff.1 hd
    refine .inr (.of_append hindent (by simp) ?_ ?_ ?_)
    · intro e he
      obtain rfl := Option.some.inj he
      exact hfollows.1
    · have hne : l.toList ≠ [] := by simp [hrest]
      -- the literal or the comma behind it ends the line
      have hlast : ∀ e ∈ (l.toList ++ back).getLast?, isBlank e = false := by
        rcases hback with rfl | rfl
        · rw [List.append_nil]
          exact hliteral.last
        · intro e he
          rw [List.getLast?_concat] at he
          obtain rfl := Option.some.inj he
          decide
      rwa [List.getLast?_append_of_ne_nil _ (by simp), List.getLast?_cons_of_ne_nil (by simp [hne])]
    · have htidy : tidy (l.toList ++ back) = l.toList ++ back := by
        rcases hback with rfl | rfl
        · rw [List.append_nil, hliterals l hl]
        · rw [tidy_comma hliteral.line, hliterals l hl]
      have hfield := hfront.tidy_eq hbegins (rest ++ back)
      rw [← List.cons_append, ← hrest] at hfield
      rw [hfield, htidy]

theorem startsBlock_eq (h : IsPrintedLine literals line)
    (hliterals : ∀ l ∈ literals, startsBlock l.toList = false) : startsBlock line = false := by
  cases h with
  | empty => rfl
  | close hindent => exact startsBlock_indent hindent ['}']
  | @code indent text hindent htext =>
    have htail := htext.settled.startsBlock_append (b := []) (by simp)
    rw [List.append_nil] at htail
    exact (startsBlock_indent hindent text).trans htail
  | @field indent front back l hindent hfront hl _ hback =>
    have htail : startsBlock (l.toList ++ back) = false := by
      rcases hback with rfl | rfl
      · rw [List.append_nil, hliterals l hl]
      · rw [startsBlock_comma, hliterals l hl]
    rw [startsBlock_indent hindent, hfront.settled.startsBlock_append (by simp; decide),
      startsBlock_mark (by decide), htail]

theorem noArrow (h : IsPrintedLine literals line) (hliterals : ∀ l ∈ literals, NoArrow l.toList) :
    NoArrow line := by
  have hindented {indent : List Char} (hindent : IsIndent indent) : '=' ∉ indent :=
    fun hmem => absurd (hindent '=' hmem) (by decide)
  cases h with
  | empty => exact .nil
  | close hindent => exact .append_left (hindented hindent) (.of_not_mem (by decide))
  | code hindent htext =>
    exact .append_left (hindented hindent)
      (.of_not_mem (htext.settled.not_mem (by decide) (by decide)))
  | @field indent front back l hindent hfront hl _ hback =>
    have htail : NoArrow (l.toList ++ back) := by
      rcases hback with rfl | rfl
      · rw [List.append_nil]
        exact hliterals l hl
      · exact (hliterals l hl).comma
    have hspace : NoArrow ([' '] ++ (l.toList ++ back)) := .append_left (by decide) htail
    exact .append_left (hindented hindent)
      (.append_left (hfront.settled.not_mem (by decide) (by decide)) hspace)

end IsPrintedLine

theorem areEven_of_printed {cs : List Char} {literals : List String}
    (h : ∀ l ∈ cs.splitOn '\n', IsPrintedLine literals l)
    (hliterals : ∀ l ∈ literals, tidy l.toList = l.toList)
    (hblocks : (∀ l ∈ literals, startsBlock l.toList = false) ∨ ∀ l ∈ literals, NoArrow l.toList) :
    AreEven (cs.splitOn '\n') where
  even l hl := (h l hl).isEven hliterals
  blocks := by
    refine hblocks.imp (fun hstarts l hl => ?_) fun harrows l hl => (h l hl).noArrow harrows
    rw [Layout.startsBlock_eq, lexemes_trim, ← Layout.startsBlock_eq]
    exact (h l hl).startsBlock_eq hstarts

/-- A text all of whose lines are lines of a schema. -/
def IsPrinted (literals : List String) (cs : List Char) : Prop :=
  ∀ l ∈ cs.splitOn '\n', IsPrintedLine literals l

namespace IsPrinted

variable {literals : List String}

theorem newline {a b : List Char} (ha : IsPrinted literals a) (hb : IsPrinted literals b) :
    IsPrinted literals (a ++ '\n' :: b) := by
  rw [IsPrinted, splitOn_newline]
  exact List.forall_mem_append.2 ⟨ha, hb⟩

theorem line {l : List Char} (h : IsPrintedLine literals l) : IsPrinted literals l := by
  have hline : '\n' ∉ l := by
    have hindented {indent : List Char} (hindent : IsIndent indent) : '\n' ∉ indent :=
      fun hmem => absurd (hindent '\n' hmem) (by decide)
    cases h with
    | empty => simp
    | close hindent => simp [hindented hindent]
    | code hindent htext => simp [hindented hindent, htext.settled.not_mem (c := '\n') (by decide) (by decide)]
    | field hindent hfront hl hliteral hback =>
      have hfront := hfront.settled.not_mem (c := '\n') (by decide) (by decide)
      rcases hback with rfl | rfl <;> simp [hindented hindent, hfront, hliteral.line]
  rw [IsPrinted, List.splitOn_eq_singleton hline]
  simpa using h

end IsPrinted

/-! ### Names in code -/

/-- A name that may stand anywhere in code. -/
structure IsPlainName (s : String) : Prop where
  identifier : isIdentifier s.toList = true
  unreserved : Keyword.isReserved s = false

namespace IsPlainName

variable {s : String} (h : IsPlainName s)

include h

theorem isWordChar : ∀ c ∈ s.toList, isWordChar c = true := fun c hc =>
  isWordChar_of_isIdentChar (isIdentChar_of_mem h.identifier c hc)

theorem settled {cs : List Char} (hcs : ∀ d ∈ cs.head?, Text.isWordChar d = false)
    (hsettled : Settled cs) : Settled (s.toList ++ cs) :=
  .word ⟨isIdentifier_ne_nil h.identifier, h.isWordChar⟩
    (isNeutral_of_not_isReserved (isIdentChar_of_mem h.identifier)
      (by rw [String.ofList_toList, h.unreserved])) hcs hsettled

theorem follows : ∃ c ∈ s.toList.head?, Follows c := by
  obtain ⟨c, more, hmore⟩ := List.exists_cons_of_ne_nil (isIdentifier_ne_nil h.identifier)
  refine ⟨c, by rw [hmore]; rfl, (begins_of_isWordChar (h.isWordChar c ?_)).follows⟩
  rw [hmore]
  exact List.mem_cons_self ..

end IsPlainName

/-- Chunks of word characters and some marks. -/
theorem isLead_of_chars {u : List Char} (hsettled : Settled u)
    (hchars : ∀ c ∈ u, isWordChar c = true ∨ c ∈ [':', ',', '[', ']'])
    (hcolons : ¬ [':', ':'] <:+ u) (hhead : ∃ c ∈ u.head?, Follows c) : IsLead u := by
  have hbegin : ∀ c ∈ u, isBlank c = false ∧ c ≠ '(' ∧ c ≠ '{' := by
    intro c hc
    rcases hchars c hc with hword | hmark
    · have hbegins := begins_of_isWordChar hword
      refine ⟨hbegins.1, ?_, ?_⟩
      · rintro rfl
        exact absurd hword (by decide)
      · rintro rfl
        exact absurd hword (by decide)
    · have hmarks : ∀ d ∈ [':', ',', '[', ']'], isBlank d = false ∧ d ≠ '(' ∧ d ≠ '{' := by decide
      exact hmarks c hmark
  obtain ⟨d, hd, hfollows⟩ := hhead
  exact {
    ne_nil := by
      rintro rfl
      cases hd
    solid := fun c hc => (hbegin c hc).1
    colons := hcolons
    last := fun c hc => (hbegin c (List.mem_of_getLast? hc)).2
    settled := hsettled
    brace := fun hmem => (hbegin _ hmem).2.2 rfl
    head := ⟨d, hd, hfollows⟩ }

theorem not_colons_suffix {u : List Char} {c : Char} (hlast : u.getLast? = some c) (hc : c ≠ ':') :
    ¬ [':', ':'] <:+ u := by
  rintro ⟨front, rfl⟩
  rw [List.getLast?_append] at hlast
  exact hc (Option.some.inj hlast).symm

/-- The words of the vocabulary that schemas hold. -/
def schemaWords : List String :=
  ["N", "E", "V", "UNIQUE", "INDEX", "DEFAULT"] ++ PropertyType.all.map PropertyType.name

/-- The words of schemas have their own spelling in the texts of schemas. -/
theorem isNeutral_of_mem {s : String} (h : s ∈ schemaWords) :
    (Token.word s.toList).IsSound ∧ IsNeutral s.toList := by
  have hall : ∀ s ∈ schemaWords, (s.toList ≠ [] ∧ ∀ c ∈ s.toList, isWordChar c = true) ∧
      IsNeutral s.toList := by decide +kernel
  exact hall s h

theorem settled_of_mem {s : String} (h : s ∈ schemaWords) {cs : List Char}
    (hcs : ∀ d ∈ cs.head?, isWordChar d = false) (hsettled : Settled cs) : Settled (s.toList ++ cs) :=
  .word (isNeutral_of_mem h).1 (isNeutral_of_mem h).2 hcs hsettled

theorem follows_of_isSound {w : List Char} (h : (Token.word w).IsSound) :
    ∃ c ∈ w.head?, Follows c := by
  obtain ⟨c, more, rfl⟩ := List.exists_cons_of_ne_nil h.1
  exact ⟨c, rfl, (begins_of_isWordChar (h.2 c (List.mem_cons_self ..))).follows⟩

theorem isLead_of_mem {s : String} (h : s ∈ schemaWords) : IsLead s.toList := by
  have hsound := (isNeutral_of_mem h).1
  have hsettled : Settled (s.toList ++ []) := settled_of_mem h (by simp) .nil
  rw [List.append_nil] at hsettled
  refine isLead_of_chars hsettled (fun c hc => .inl (hsound.2 c hc)) (fun hsuffix => ?_)
    (follows_of_isSound hsound)
  exact absurd (hsound.2 ':' (hsuffix.subset (by simp))) (by decide)

theorem typeName_mem (t : PropertyType) : t.name ∈ schemaWords :=
  List.mem_append_right _ (List.mem_map_of_mem t.mem_all)

theorem isLead_typeName (p : Property) : IsLead p.typeName.toList := by
  rw [Property.typeName]
  split
  · have hsound := (isNeutral_of_mem (typeName_mem p.type)).1
    have htext : ("[" ++ p.type.name ++ "]").toList = '[' :: (p.type.name.toList ++ [']']) := by simp
    rw [htext]
    refine isLead_of_chars (.mark (by decide) (settled_of_mem (typeName_mem p.type) (by decide)
      (.mark (by decide) .nil))) ?_ (not_colons_suffix (c := ']') ?_ (by decide)) ⟨'[', rfl, by decide⟩
    · rw [List.forall_mem_cons, List.forall_mem_append]
      exact ⟨.inr (by decide), fun c hc => .inl (hsound.2 c hc), by decide⟩
    · rw [← List.cons_append, List.getLast?_concat]
  · exact isLead_of_mem (typeName_mem p.type)

namespace IsPlainName

variable {s : String} (h : IsPlainName s)

include h

/-- A name with a colon behind it. -/
theorem isLead_colon : IsLead (s.toList ++ [':']) := by
  obtain ⟨c, hc, hfollows⟩ := h.follows
  refine isLead_of_chars (h.settled (by decide) (.mark (by decide) .nil)) ?_ ?_ ?_
  · exact List.forall_mem_append.2 ⟨fun d hd => .inl (h.isWordChar d hd), by decide⟩
  · rintro ⟨front, hfront⟩
    have hsplit : front ++ [':'] ++ [':'] = s.toList ++ [':'] := by simpa using hfront
    have hname := List.append_cancel_right hsplit
    have hcolon := h.isWordChar ':' (by rw [← hname]; simp)
    exact absurd hcolon (by decide)
  · refine ⟨c, ?_, hfollows⟩
    rwa [List.head?_append_of_ne_nil _ (isIdentifier_ne_nil h.identifier)]

/-- A name with the letter of its kind in front of it. -/
theorem isLead_definition (k : EntityKind) :
    IsLead ((Mark.ofKind k).text.toList ++ ':' :: ':' :: s.toList) := by
  have hname : Settled (s.toList ++ []) := h.settled (by simp) .nil
  rw [List.append_nil] at hname
  have hne := isIdentifier_ne_nil h.identifier
  have hlast := List.getLast?_eq_some_getLast hne
  have hletter : (Mark.ofKind k).text ∈ schemaWords := by cases k <;> decide
  obtain ⟨hsound, -⟩ := isNeutral_of_mem hletter
  obtain ⟨d, hd, hfollows⟩ := follows_of_isSound hsound
  refine isLead_of_chars (settled_of_mem hletter (by simp; decide)
    (.mark (by decide) (.mark (by decide) hname))) ?_
    (not_colons_suffix (c := s.toList.getLast hne) ?_ fun heq => ?_) ⟨d, ?_, hfollows⟩
  · rw [List.forall_mem_append, List.forall_mem_cons, List.forall_mem_cons]
    exact ⟨fun e he => .inl (hsound.2 e he), .inr (by decide), .inr (by decide),
      fun e he => .inl (h.isWordChar e he)⟩
  · rw [List.getLast?_append_of_ne_nil _ (by simp), List.getLast?_cons_cons,
      List.getLast?_cons_of_ne_nil hne, hlast]
  · exact absurd (heq ▸ h.isWordChar _ (List.getLast_mem hne)) (by decide)
  · rwa [List.head?_append_of_ne_nil _ hsound.1]

/-- A name with a comma behind it. -/
theorem isCodeLine_comma : IsCodeLine (s.toList ++ [',']) := by
  obtain ⟨c, hc, hfollows⟩ := h.follows
  refine .of_solid ?_ (h.settled (by decide) (.mark (by decide) .nil)) ⟨c, ?_, hfollows⟩
  · exact List.forall_mem_append.2
      ⟨fun d hd => not_isBlank_of_isWordChar (h.isWordChar d hd), by decide⟩
  · rwa [List.head?_append_of_ne_nil _ (isIdentifier_ne_nil h.identifier)]

end IsPlainName

/-! ### The lines of fields -/

/-- The chunks of a field up to its name. -/
def fieldLeads (p : Property) : List (List Char) :=
  (if p.isUnique then ["UNIQUE".toList, "INDEX".toList]
    else if p.isIndex then ["INDEX".toList] else []) ++ [p.name.toList ++ [':']]

theorem isLead_of_mem_fieldLeads {p : Property} (h : IsPlainName p.name) :
    ∀ u ∈ fieldLeads p, IsLead u := by
  have hunique : IsLead "UNIQUE".toList := isLead_of_mem (by decide)
  have hindex : IsLead "INDEX".toList := isLead_of_mem (by decide)
  have hname : IsLead (p.name.toList ++ [':']) := h.isLead_colon
  refine List.forall_mem_append.2 ⟨?_, List.forall_mem_singleton.2 hname⟩
  split
  · exact List.forall_mem_cons.2 ⟨hunique, List.forall_mem_singleton.2 hindex⟩
  · split
    · exact List.forall_mem_singleton.2 hindex
    · exact List.forall_mem_nil _

theorem fieldText_eq (p : Property) :
    p.fieldText.toList = ledBy (fieldLeads p) (p.typeName.toList ++ p.defaultClause.toList) := by
  rw [Property.fieldText, Property.modifier, fieldLeads]
  split
  · simp [ledBy]
  · split
    · simp [ledBy]
    · simp [ledBy]

theorem isPrintedLine_field {literals : List String} {p : Property} (hp : p.IsDeclarable)
    (hname : Keyword.isReserved p.name = false) (hliterals : ∀ l ∈ p.defaultLiteral?, l ∈ literals)
    {indent back : List Char} (hindent : IsIndent indent) (hback : back = [] ∨ back = [',']) :
    IsPrintedLine literals (indent ++ (p.fieldText.toList ++ back)) := by
  have hplain : IsPlainName p.name := ⟨hp.name, hname⟩
  have hleads := isLead_of_mem_fieldLeads hplain
  have htype := isLead_typeName p
  rw [fieldText_eq, Property.defaultClause]
  -- without a default the line is code throughout; with one it ends in a literal
  cases hl : p.defaultLiteral? with
  | none =>
    have hcode : IsCodeLine (p.typeName.toList ++ back) := by
      obtain ⟨c, hc, hfollows⟩ := htype.head
      refine .of_solid (List.forall_mem_append.2 ⟨htype.solid, ?_⟩) (htype.settled.append ?_ ?_)
        ⟨c, ?_, hfollows⟩
      · rcases hback with rfl | rfl <;> decide
      · rcases hback with rfl | rfl
        · exact .nil
        · exact .mark (by decide) .nil
      · rcases hback with rfl | rfl <;> decide
      · rwa [List.head?_append_of_ne_nil _ htype.ne_nil]
    have htext : ledBy (fieldLeads p) (p.typeName.toList ++ "".toList) ++ back =
        ledBy (fieldLeads p) (p.typeName.toList ++ back) := by
      rw [ledBy_append, List.append_assoc]
      rfl
    dsimp only
    rw [htext]
    exact .code hindent (hcode.ledBy hleads)
  | some l =>
    have hdefault : TakesLiteral "DEFAULT".toList :=
      .of_lead (isLead_of_mem (by decide)) ⟨'T', rfl, by decide⟩
    have hclause : (" DEFAULT " ++ l).toList = ' ' :: ("DEFAULT".toList ++ ' ' :: l.toList) := by simp
    have htext : ledBy (fieldLeads p) (p.typeName.toList ++ (" DEFAULT " ++ l).toList) ++ back =
        ledBy (fieldLeads p ++ [p.typeName.toList]) "DEFAULT".toList ++ ' ' :: (l.toList ++ back) := by
      rw [ledBy_append, ledBy_append, ledBy_concat, hclause]
      simp only [List.append_assoc, List.cons_append]
    dsimp only
    rw [htext]
    refine .field hindent (hdefault.ledBy ?_) (hliterals l hl)
      (isLiteral_of_defaultLiteral? hp.default hl) hback
    exact List.forall_mem_append.2 ⟨hleads, List.forall_mem_singleton.2 htype⟩

/-! ### The lines of blocks -/

theorem isIndent_indentOf (e : Entity) : IsIndent (indentOf e).toList := by
  rw [indentOf]
  split <;> exact forall_mem_of_all (by decide)

theorem isIndent_closeIndentOf (e : Entity) : IsIndent (closeIndentOf e).toList := by
  rw [closeIndentOf]
  split <;> exact forall_mem_of_all (by decide)

theorem isPrinted_fieldsText {literals : List String} {indent : String} (hindent : IsIndent indent.toList)
    (p : Property) (ps : List Property)
    (h : ∀ q ∈ p :: ps, q.IsDeclarable ∧ Keyword.isReserved q.name = false ∧
      ∀ l ∈ q.defaultLiteral?, l ∈ literals) : IsPrinted literals (fieldsText indent (p :: ps)) := by
  induction ps generalizing p with
  | nil =>
    obtain ⟨hp, hname, hliterals⟩ := h p (List.mem_cons_self ..)
    have hline := isPrintedLine_field hp hname hliterals hindent (.inl rfl)
    rw [List.append_nil] at hline
    rw [fieldsText_singleton]
    exact .line hline
  | cons q ps ih =>
    obtain ⟨hp, hname, hliterals⟩ := h p (List.mem_cons_self ..)
    have hline := isPrintedLine_field hp hname hliterals hindent (.inr rfl)
    have hrest := ih q fun x hx => h x (List.mem_cons_of_mem p hx)
    have htext : indent.toList ++ p.fieldText.toList ++ ',' :: '\n' :: fieldsText indent (q :: ps) =
        (indent.toList ++ (p.fieldText.toList ++ [','])) ++ '\n' :: fieldsText indent (q :: ps) := by
      simp
    rw [fieldsText_cons, htext]
    exact (IsPrinted.line hline).newline hrest

/-- The words of schemas that are names. -/
theorem isPlainName_of_mem {s : String} (h : s ∈ ["From", "To", "Properties", undefinedEnd]) :
    IsPlainName s := by
  have hall : ∀ s ∈ ["From", "To", "Properties", undefinedEnd],
      isIdentifier s.toList = true ∧ Keyword.isReserved s = false := by decide +kernel
  exact ⟨(hall s h).1, (hall s h).2⟩

theorem isPlainName_endName {name : Option String} (h : Entity.IsNamedEnd name)
    (hreserved : ∀ s ∈ setEnd name, Keyword.isReserved s = false) : IsPlainName (endName name) := by
  rw [endName]
  cases hs : setEnd name with
  | none => exact isPlainName_of_mem (by decide)
  | some s => exact ⟨h s hs, hreserved s hs⟩

section Block

variable {literals : List String} {e : Entity}

theorem isCodeLine_openBrace : IsCodeLine ['{'] :=
  .of_solid (by decide) (.mark (by decide) .nil) ⟨'{', rfl, by decide⟩

/-- A clause of an edge. -/
theorem isPrinted_clause {word : String} (hword : IsPlainName word) {text : List Char}
    (h : IsCodeLine text) :
    IsPrinted literals (tab.toList ++ (word.toList ++ ':' :: ' ' :: text)) := by
  have hcode := h.ledBy (List.forall_mem_singleton.2 hword.isLead_colon)
  rw [ledBy_cons, ledBy_nil, List.append_assoc] at hcode
  exact .line (.code (forall_mem_of_all (by decide)) hcode)

theorem isPrinted_headText (he : e.IsDeclarable) (hnames : e.IsUnreserved) :
    IsPrinted literals (headText e) := by
  have hname : IsPlainName e.name := ⟨he.name, hnames.name⟩
  have hnone : IsIndent [] := List.forall_mem_nil _
  have hdefinition (k : EntityKind) {text : List Char} (h : IsCodeLine text) : IsPrinted literals
      ((Mark.ofKind k).text.toList ++ (':' :: ':' :: (e.name.toList ++ ' ' :: text))) := by
    have hcode := h.ledBy (List.forall_mem_singleton.2 (hname.isLead_definition k))
    rw [ledBy_cons, ledBy_nil, List.append_assoc] at hcode
    have hline : IsPrintedLine literals _ := .code hnone hcode
    exact .line hline
  rw [headText]
  cases hedge : e.isEdge with
  | false => exact hdefinition e.kind isCodeLine_openBrace
  | true =>
    have hsource := isPlainName_endName (he.source hedge) (hnames.source hedge)
    have htarget := isPlainName_endName (he.target hedge) (hnames.target hedge)
    have hline : IsPrinted literals (edgeLine e) := by
      rw [edgeLine]
      cases e.isUniqueRelation with
      | false => exact hdefinition .edge isCodeLine_openBrace
      | true =>
        have hunique : IsLead "UNIQUE".toList := isLead_of_mem (by decide)
        exact hdefinition .edge (isCodeLine_openBrace.ledBy (List.forall_mem_singleton.2 hunique))
    have hfrom : IsPrinted literals (clauseLine .source (endName e.source)) :=
      isPrinted_clause (isPlainName_of_mem (by decide)) hsource.isCodeLine_comma
    have hto : IsPrinted literals (clauseLine .target (endName e.target)) :=
      isPrinted_clause (isPlainName_of_mem (by decide)) htarget.isCodeLine_comma
    have hproperties : IsPrinted literals (tab ++ "Properties: \x7b").toList :=
      isPrinted_clause (isPlainName_of_mem (s := "Properties") (by decide)) isCodeLine_openBrace
    exact hline.newline (hfrom.newline (hto.newline hproperties))

theorem isPrinted_close (e : Entity) :
    IsPrinted literals ((closeIndentOf e).toList ++ '}' :: endText e) := by
  have hclose : IsPrinted literals ((closeIndentOf e).toList ++ ['}']) :=
    .line (.close (isIndent_closeIndentOf e))
  rw [endText]
  split
  · have hend : IsPrinted literals ['}'] := .line (.close (List.forall_mem_nil _))
    have hboth := hclose.newline hend
    rwa [List.append_assoc] at hboth
  · exact hclose

theorem isPrinted_block (he : e.IsDeclarable) (hnames : e.IsUnreserved)
    (hliterals : ∀ p ∈ e.namedProperties, ∀ l ∈ p.defaultLiteral?, l ∈ literals) :
    IsPrinted literals e.block.toList := by
  have hhead : IsPrinted literals (headText e) := isPrinted_headText he hnames
  have hclose : IsPrinted literals ((closeIndentOf e).toList ++ '}' :: endText e) := isPrinted_close e
  rw [block_toList, fieldLines_toList]
  cases hps : e.namedProperties with
  | nil =>
    rw [if_pos rfl]
    exact hhead.newline hclose
  | cons p ps =>
    have hfields : IsPrinted literals (fieldsText (indentOf e) (p :: ps)) := by
      refine isPrinted_fieldsText (isIndent_indentOf e) p ps fun q hq => ?_
      rw [← hps] at hq
      exact ⟨he.properties q hq, hnames.properties q hq, hliterals q hq⟩
    have hbody := hfields.newline hclose
    rw [if_neg (List.cons_ne_nil p ps), List.append_assoc]
    exact hhead.newline hbody

theorem isPrinted_blocksText {es : List Entity} (hes : ∀ e ∈ es, e.IsDeclarable)
    (hnames : ∀ e ∈ es, e.IsUnreserved)
    (hliterals : ∀ e ∈ es, ∀ p ∈ e.namedProperties, ∀ l ∈ p.defaultLiteral?, l ∈ literals) :
    IsPrinted literals (blocksText es) := by
  induction es with
  | nil => exact .line .empty
  | cons e es ih =>
    rw [List.forall_mem_cons] at hes hnames hliterals
    have hblock := isPrinted_block hes.1 hnames.1 hliterals.1
    cases es with
    | nil =>
      rw [blocksText_singleton]
      exact hblock
    | cons f es =>
      have hempty : IsPrinted literals [] := .line .empty
      rw [blocksText_cons]
      exact hblock.newline (hempty.newline (ih hes.2 hnames.2 hliterals.2))

end Block

/-! ### Schemas that are laid out -/

theorem mem_defaultLiterals {model : Model} {e : Entity} (he : e ∈ model.entities) {p : Property}
    (hp : p ∈ e.namedProperties) {l : String} (hl : l ∈ p.defaultLiteral?) :
    l ∈ model.defaultLiterals :=
  List.mem_flatMap.2 ⟨e, he, List.mem_filterMap.2 ⟨p, hp, hl⟩⟩

theorem isEmptyText_format_empty {model : Model} (h : model.entities = []) :
    isEmptyText (format (print model)).toList = true := by
  cases model with
  | nil => decide +kernel
  | cons e es =>
    have hprint : print (e :: es) = "" := by
      rw [print, h]
      · rfl
      · exact List.cons_ne_nil e es
    rw [hprint]
    decide +kernel

theorem read_format_print {model : Model} (h : model.IsDeclarable)
    (hnames : ∀ e ∈ model.entities, e.IsUnreserved) (hdefaults : model.KeepsDefaults) :
    read (format (print model)) = .ok model.declared ∧ read (print model) = .ok model.declared := by
  have hprint := entities?_print h
  refine ⟨read_eq_ok_iff.2 ?_, read_eq_ok_iff.2 hprint⟩
  cases hes : model.entities with
  | nil =>
    have hdeclared : model.declared = [] := by rw [Model.declared, hes]; rfl
    exact entities?_eq_ok_iff.2 (.inl ⟨isEmptyText_format_empty hes, hdeclared⟩)
  | cons e es =>
    have hne : model.entities ≠ [] := by simp [hes]
    have hprinted : IsPrinted model.defaultLiterals (blocksText model.entities) :=
      isPrinted_blocksText h hnames fun e he p hp l hl => mem_defaultLiterals he hp hl
    have heven := areEven_of_printed hprinted hdefaults.literals hdefaults.blocks
    obtain ⟨c, cs, htext, hblank, hbrace⟩ : ∃ c cs, blocksText model.entities = c :: cs ∧
        isBlank c = false ∧ c ≠ '{' := by
      rw [hes]
      exact blocksText_head e es
    rw [print_toList hne, entities?_eq_ok_iff] at hprint
    rw [htext] at heven hprint
    obtain ⟨more, hmore⟩ := exists_formatChars hblank heven
    have hformat : (format (print model)).toList = c :: more := by
      rw [format, String.toList_ofList, print_toList hne, htext, hmore]
    have hadvance := State.advance_formatChars hblank heven {}
    rw [hmore] at hadvance
    rw [hformat, entities?_eq_ok_iff, hadvance, isEmptyText_cons more hblank hbrace]
    rwa [isEmptyText_cons cs hblank hbrace] at hprint

/-- A model whose defaults are left alone although one of them holds a word of the vocabulary. -/
def articleModel : Model := [
  some {
    id := "a", name := "Article", kind := .vector
    properties := [
      some { name := "title", isIndex := true, defaultValue := some "a QUERY, \"untitled\"" },
      some { name := "From", type := .i32, isArray := true, defaultValue := some "[1, \"a, b\", x]" },
      some { name := "written", type := .date, isUnique := true, defaultValue := some "NOW" }] },
  none,
  some {
    id := "c", name := "Cites", kind := .edge, isUniqueRelation := true
    source := some "Article", target := some "Undefined"
    properties := [some { name := "To", type := .f64, defaultValue := some "-1.5e3" }, none] }]

theorem read_format_print_articleModel :
    articleModel.IsDeclarable ∧ (∀ e ∈ articleModel.entities, e.IsUnreserved) ∧
      articleModel.KeepsDefaults ∧ read (format (print articleModel)) = .ok articleModel.declared := by
  have hlist : IsListText "[1, \"a, b\", x]" :=
    ⟨["1", "\"a, b\"", "x"], by decide +kernel, by decide +kernel⟩
  have hnumber : IsNumber "-1.5e3".toList := by decide +kernel
  have hentities : ∀ e ∈ articleModel.entities,
      e = (articleModel.entities)[0] ∨ e = (articleModel.entities)[1] := by
    intro e he
    simpa [articleModel, Model.entities] using he
  have h : articleModel.IsDeclarable := by
    intro e he
    rcases hentities e he with rfl | rfl
    · refine ⟨by decide, by decide, by decide, ?_⟩
      intro p hp
      have hp : p = (articleModel.entities)[0].namedProperties[0] ∨
          p = (articleModel.entities)[0].namedProperties[1] ∨
          p = (articleModel.entities)[0].namedProperties[2] := by
        simpa [articleModel, Model.entities, Entity.namedProperties] using hp
      rcases hp with rfl | rfl | rfl
      · exact ⟨by decide, by decide, .of_quoted rfl (by decide) (by decide)⟩
      · exact ⟨by decide, by decide, .of_bare rfl (by decide) (.inr (.inr hlist))⟩
      · exact ⟨by decide, by decide, .of_quoted rfl (by decide) (by decide)⟩
    · refine ⟨by decide, by decide, by decide, ?_⟩
      intro p hp
      obtain rfl : p = (articleModel.entities)[1].namedProperties[0] := by
        simpa [articleModel, Model.entities, Entity.namedProperties] using hp
      exact ⟨by decide, by decide, .of_bare rfl (by decide) (.inr (.inl hnumber))⟩
  have hnames : ∀ e ∈ articleModel.entities, e.IsUnreserved := by
    have hall : ∀ e ∈ articleModel.entities, Keyword.isReserved e.name = false ∧
        (∀ s ∈ setEnd e.source, Keyword.isReserved s = false) ∧
        (∀ s ∈ setEnd e.target, Keyword.isReserved s = false) ∧
        ∀ p ∈ e.namedProperties, Keyword.isReserved p.name = false := by decide +kernel
    intro e he
    obtain ⟨hname, hsource, htarget, hproperties⟩ := hall e he
    exact ⟨hname, fun _ => hsource, fun _ => htarget, hproperties⟩
  have hdefaults : articleModel.KeepsDefaults := ⟨by decide +kernel, .inr (by decide +kernel)⟩
  exact ⟨h, hnames, hdefaults, (read_format_print h hnames hdefaults).1⟩

/-- A node with a single property, which has a default. -/
def defaultModel (default : String) : Model :=
  [some { id := "a", name := "A", kind := .node
          properties := [some { name := "x", defaultValue := some default }] }]

theorem isDeclarable_defaultModel {default : String} (h : '\n' ∉ default.toList) :
    (defaultModel default).IsDeclarable := by
  intro e he
  obtain rfl := List.mem_singleton.1 he
  have hnames : isIdentifier "A".toList = true ∧ isIdentifier "x".toList = true := by decide
  refine ⟨hnames.1, by simp [Entity.isEdge], by simp [Entity.isEdge], fun p hp => ?_⟩
  obtain rfl := List.mem_singleton.1 hp
  exact ⟨hnames.2, by simp [Property.IsBareModifier], .of_quoted rfl rfl h⟩

theorem isUnreserved_defaultModel (default : String) :
    ∀ e ∈ (defaultModel default).entities, e.IsUnreserved := by
  intro e he
  obtain rfl := List.mem_singleton.1 he
  have hnames : Keyword.isReserved "A" = false ∧ Keyword.isReserved "x" = false := by decide +kernel
  refine ⟨hnames.1, by simp [Entity.isEdge], by simp [Entity.isEdge], fun p hp => ?_⟩
  obtain rfl := List.mem_singleton.1 hp
  exact hnames.2

/-- Words of the vocabulary are spelled in upper case within the quotes of a default too, and a default
that reads as a query is laid out as one, even where nothing in it is spelled otherwise. -/
theorem not_read_format_print :
    (¬ ∀ model : Model, model.IsDeclarable → (∀ e ∈ model.entities, e.IsUnreserved) →
        ∃ es, read (format (print model)) = .ok es ∧ read (print model) = .ok es) ∧
      ¬ ∀ model : Model, model.IsDeclarable → (∀ e ∈ model.entities, e.IsUnreserved) →
        (∀ l ∈ model.defaultLiterals, tidy l.toList = l.toList) →
        ∃ es, read (format (print model)) = .ok es ∧ read (print model) = .ok es := by
  constructor
  · intro h
    obtain ⟨es, hformat, hprint⟩ := h (defaultModel "in") (isDeclarable_defaultModel (by decide))
      (isUnreserved_defaultModel _)
    have heq := congrArg Except.toOption (hformat.trans hprint.symm)
    revert heq
    decide +kernel
  · intro h
    obtain ⟨es, hformat, hprint⟩ := h (defaultModel "QUERY => b") (isDeclarable_defaultModel (by decide))
      (isUnreserved_defaultModel _) (by decide +kernel)
    have heq := congrArg Except.toOption (hformat.trans hprint.symm)
    revert heq
    decide +kernel

end Schema

end Hql
