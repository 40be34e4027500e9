import Hql.Proofs.Layout.Document
import Hql.Proofs.Query.Parts
import Hql.Query.Printer

/-!
The lines of rendered fragments. A fragment whose own texts stay on one line is rendered without empty
lines: every line after the first starts with its indentation or a brace.
-/

namespace Hql

open Text (tab)

namespace Layout

/-! ### Texts without empty lines -/

/-- A text without an empty line in it or at its end. -/
structure Unbroken (cs : List Char) : Prop where
  apart : cs.IsChain fun c d => ¬ (c = '\n' ∧ d = '\n')
  ends : cs.getLast? ≠ some '\n'

/-- A text whose first line is not empty. -/
def StartsLine (cs : List Char) : Prop := ∃ c ∈ cs.head?, c ≠ '\n'

theorem StartsLine.append {a : List Char} (h : StartsLine a) (b : List Char) : StartsLine (a ++ b) := by
  obtain ⟨c, hc, hline⟩ := h
  exact ⟨c, by rw [Option.mem_def, List.head?_append, hc]; rfl, hline⟩

theorem StartsLine.intercalate {text : List Char} (h : StartsLine text) (separator : List Char)
    (texts : List (List Char)) : StartsLine (separator.intercalate (text :: texts)) := by
  rw [intercalate_eq_flatMap]
  exact h.append _

namespace Unbroken

variable {a b : List Char}

theorem nil : Unbroken [] := ⟨.nil, by simp⟩

theorem of_not_mem (h : '\n' ∉ a) : Unbroken a :=
  ⟨isChain_of_not_mem h, fun hlast => h (List.mem_of_getLast? hlast)⟩

theorem append (ha : Unbroken a) (hb : Unbroken b) : Unbroken (a ++ b) where
  apart := by
    refine List.isChain_append.2 ⟨ha.apart, hb.apart, fun c hc d _ heq => ha.ends ?_⟩
    rw [← heq.1]
    exact hc
  ends := by
    have hb := hb.ends
    rw [List.getLast?_append]
    cases hlast : b.getLast? with
    | none => exact ha.ends
    | some c => rwa [hlast] at hb

theorem newline (h : Unbroken a) (hstarts : StartsLine a) : Unbroken ('\n' :: a) where
  apart := by
    obtain ⟨c, hc, hline⟩ := hstarts
    refine List.isChain_cons.2 ⟨fun d hd heq => hline ?_, h.apart⟩
    rw [Option.some.inj (hc.symm.trans hd)]
    exact heq.2
  ends := by
    obtain ⟨c, hc, -⟩ := hstarts
    cases a with
    | nil => cases hc
    | cons d a =>
      rw [List.getLast?_cons_cons]
      exact h.ends

/-- Texts put together with a separator that may stand before each of them. -/
theorem intercalate {separator : List Char} {texts : List (List Char)}
    (h : ∀ text ∈ texts, Unbroken text ∧ Unbroken (separator ++ text)) :
    Unbroken (separator.intercalate texts) := by
  cases texts with
  | nil => exact nil
  | cons text texts =>
    obtain ⟨⟨htext, -⟩, htexts⟩ := List.forall_mem_cons.1 h
    rw [intercalate_eq_flatMap]
    refine htext.append ?_
    induction texts with
    | nil => exact nil
    | cons next texts ih =>
      obtain ⟨⟨-, hnext⟩, hmore⟩ := List.forall_mem_cons.1 htexts
      exact hnext.append (ih (List.forall_mem_cons.2 ⟨h text (List.mem_cons_self ..), hmore⟩) hmore)

theorem intercalate_comma {texts : List (List Char)} (h : ∀ text ∈ texts, Unbroken text) :
    Unbroken ([',', ' '].intercalate texts) :=
  intercalate fun text htext => ⟨h text htext, append (of_not_mem (by decide)) (h text htext)⟩

theorem intercalate_lines {texts : List (List Char)}
    (h : ∀ text ∈ texts, Unbroken text ∧ StartsLine text) :
    Unbroken ([',', '\n'].intercalate texts) := by
  refine intercalate fun text htext => ⟨(h text htext).1, ?_⟩
  exact append (a := [',']) (of_not_mem (by decide)) ((h text htext).1.newline (h text htext).2)

end Unbroken

end Layout

namespace Fragment

open Layout

/-! ### Fragments whose own texts stay on one line -/

/-- A text on one line. -/
def IsLine (s : String) : Prop := '\n' ∉ s.toList

instance (s : String) : Decidable (IsLine s) := inferInstanceAs (Decidable (_ ∉ _))

@[simp] theorem isLine_append (s t : String) : IsLine (s ++ t) ↔ IsLine s ∧ IsLine t := by
  simp [IsLine, not_or]

theorem IsLine.unbroken {s : String} (h : IsLine s) : Unbroken s.toList := .of_not_mem h

/-- Indentation that is there starts a line. -/
theorem IsLine.startsLine {indent : String} (h : IsLine indent) (hne : indent ≠ "") :
    StartsLine indent.toList := by
  obtain ⟨c, cs, hcs⟩ := List.exists_cons_of_ne_nil (String.toList_eq_nil_iff.not.2 hne)
  refine ⟨c, by rw [hcs]; rfl, ?_⟩
  rintro rfl
  exact h (by rw [hcs]; exact List.mem_cons_self ..)

/-- The names in a fragment, apart from those of the fragments inside it, are texts on one line.
Blocks of a schema are not. -/
def IsOneLine : Fragment → Prop
  | text s => IsLine s
  | step name typeParam _ _ => IsLine name ∧ ∀ t ∈ typeParam, IsLine t
  | expression head _ _ => IsLine head
  | projection fields => ∀ field ∈ fields, IsLine field.1
  | source origin typeParam _ _ _ => IsLine origin ∧ ∀ t ∈ typeParam, IsLine t
  | assignment name _ => IsLine name
  | drop _ => True
  | query name params _ _ => IsLine name ∧ ∀ p ∈ params, IsLine p.1 ∧ IsLine p.2
  | block _ => False

instance : DecidablePred IsOneLine
  | text _ => inferInstanceAs (Decidable (IsLine _))
  | step _ typeParam _ _ => inferInstanceAs (Decidable (_ ∧ ∀ t ∈ typeParam, IsLine t))
  | expression _ _ _ => inferInstanceAs (Decidable (IsLine _))
  | projection fields => inferInstanceAs (Decidable (∀ field ∈ fields, IsLine field.1))
  | source _ typeParam _ _ _ => inferInstanceAs (Decidable (_ ∧ ∀ t ∈ typeParam, IsLine t))
  | assignment _ _ => inferInstanceAs (Decidable (IsLine _))
  | drop _ => inferInstanceAs (Decidable True)
  | query _ params _ _ => inferInstanceAs (Decidable (_ ∧ ∀ p ∈ params, IsLine p.1 ∧ IsLine p.2))
  | block _ => inferInstanceAs (Decidable False)

theorem isLine_typeArgument {typeParam : Option String} (h : ∀ t ∈ typeParam, IsLine t) :
    IsLine (typeArgument typeParam) := by
  rw [typeArgument]
  split
  · next t ht =>
    have hline := h t (Option.filter_eq_some_iff.1 ht).1
    simp only [isLine_append]
    exact ⟨⟨by decide, hline⟩, by decide⟩
  · decide

theorem isLine_link (f : Fragment) : IsLine f.link := by
  rw [link.eq_def]
  split
  · decide
  · decide

theorem isLine_tab {indent : String} (h : IsLine indent) : IsLine (indent ++ tab) :=
  (isLine_append _ _).2 ⟨h, by decide⟩

theorem append_tab_ne_empty (indent : String) : indent ++ tab ≠ "" := by
  intro h
  have htab : tab = "" := (String.append_eq_empty_iff.1 h).2
  exact absurd htab (by decide)

/-- What may follow a line end within indentation. -/
theorem unbroken_indented {indent : String} (h : IsLine indent) (hne : indent ≠ "") {cs : List Char}
    (hcs : Unbroken cs) : Unbroken ('\n' :: (indent.toList ++ cs)) :=
  (h.unbroken.append hcs).newline ((h.startsLine hne).append cs)

/-- A closing mark on a line of its own. -/
theorem unbroken_closed {indent : String} (h : IsLine indent) {c : Char} (hc : c ≠ '\n') :
    Unbroken ('\n' :: (indent.toList ++ [c])) := by
  have hline : Unbroken [c] := .of_not_mem (by simpa using hc.symm)
  by_cases hne : indent = ""
  · rw [hne]
    exact hline.newline ⟨c, rfl, hc⟩
  · exact unbroken_indented h hne hline

mutual

/-- No fragment is rendered with an empty line. -/
theorem unbroken_render {f : Fragment} (h : Everywhere IsOneLine f) {indent : String}
    (hindent : IsLine indent) : Unbroken (render indent f).toList := by
  cases f with
  | text s =>
    rw [render]
    exact ((everywhere_text s).1 h).unbroken
  | step name typeParam args attached =>
    obtain ⟨⟨hname, htype⟩, hargs⟩ := (everywhere_step ..).1 h
    simp only [render, String.toList_append]
    exact (((IsLine.unbroken (by decide)).append hname.unbroken).append
      (isLine_typeArgument htype).unbroken).append (unbroken_renderArgs hargs hindent)
  | expression head callArgs chain =>
    obtain ⟨hhead, hargs, hchain⟩ := (everywhere_expression ..).1 h
    simp only [render, String.toList_append]
    exact (hhead.unbroken.append (unbroken_renderArgs hargs hindent)).append
      (unbroken_renderChain hchain hindent fun hmultiline => nomatch hmultiline)
  | projection fields =>
    obtain ⟨hnames, hfields⟩ := (everywhere_projection fields).1 h
    -- below the line of the fragment the indentation is never empty, so no line is
    have hlines := unbroken_renderFields hnames hfields (isLine_tab hindent)
      (append_tab_ne_empty indent)
    cases fields with
    | nil =>
      rw [toList_render_braces]
      exact .of_not_mem (by decide)
    | cons field fields =>
      have hfirst := (hlines _ (List.mem_cons_self ..)).2
      have hbody := (Unbroken.intercalate_lines hlines).newline (hfirst.intercalate [',', '\n'] _)
      have hclose : Unbroken ('\n' :: (indent.toList ++ ['\x7d'])) :=
        unbroken_closed hindent (by decide)
      rw [toList_render_projection]
      have hopen : Unbroken ['\x7b'] := .of_not_mem (by decide)
      exact hopen.append (hbody.append hclose)
  | source origin typeParam args steps multiline =>
    obtain ⟨⟨horigin, htype⟩, hargs, hsteps⟩ := (everywhere_source ..).1 h
    have hdeep : IsLine (if multiline then indent ++ tab else indent) := by
      split
      · exact isLine_tab hindent
      · exact hindent
    have hne (hmultiline : multiline = true) : (if multiline then indent ++ tab else indent) ≠ "" := by
      rw [if_pos hmultiline]
      exact append_tab_ne_empty indent
    simp only [render, String.toList_append]
    exact ((horigin.unbroken.append (isLine_typeArgument htype).unbroken).append
      (unbroken_renderArgs hargs hindent)).append (unbroken_renderChain hsteps hdeep hne)
  | assignment name value =>
    obtain ⟨hname, hvalue⟩ := (everywhere_assignment ..).1 h
    simp only [render, String.toList_append]
    exact (hname.unbroken.append (IsLine.unbroken (by decide))).append
      (unbroken_render hvalue hindent)
  | drop target =>
    obtain ⟨-, htarget⟩ := (everywhere_drop target).1 h
    rw [render, String.toList_append]
    exact (IsLine.unbroken (by decide)).append (unbroken_render htarget hindent)
  | query name params statements returns =>
    obtain ⟨⟨hname, hparams⟩, hstatements, hreturns⟩ := (everywhere_query ..).1 h
    have htab := isLine_tab hindent
    have hne := append_tab_ne_empty indent
    have hparam : ∀ text ∈ (params.map fun p => p.1 ++ ": " ++ p.2).map String.toList,
        Unbroken text := by
      rw [List.map_map, List.forall_mem_map]
      intro p hp
      refine IsLine.unbroken ?_
      simp only [isLine_append]
      exact ⟨⟨(hparams p hp).1, by decide⟩, (hparams p hp).2⟩
    have hhead : Unbroken (indent ++ "QUERY " ++ name ++ "(").toList := by
      refine IsLine.unbroken ?_
      simp only [isLine_append]
      exact ⟨⟨⟨hindent, by decide⟩, hname⟩, by decide⟩
    have hreturn := unbroken_indented htab hne ((IsLine.unbroken (by decide : IsLine "RETURN ")).append
      (unbroken_render hreturns htab))
    have htext : (render indent (query name params statements returns)).toList =
        (indent ++ "QUERY " ++ name ++ "(").toList ++
          [',', ' '].intercalate ((params.map fun p => p.1 ++ ": " ++ p.2).map String.toList) ++
          ") =>".toList ++ (renderLines (indent ++ tab) statements).toList ++
          '\n' :: ((indent ++ tab).toList ++ ("RETURN ".toList ++
            (render (indent ++ tab) returns).toList)) := by
      simp [render, String.toList_intercalate]
    rw [htext]
    exact (((hhead.append (Unbroken.intercalate_comma hparam)).append
      (IsLine.unbroken (by decide))).append (unbroken_renderLines hstatements htab hne)).append hreturn
  | block e => exact absurd (h (block e) (List.mem_singleton.2 rfl)) id

theorem unbroken_renderArgs {args : Option (List Fragment)}
    (h : ∀ f ∈ args.getD [], Everywhere IsOneLine f) {indent : String} (hindent : IsLine indent) :
    Unbroken (renderArgs indent args).toList := by
  cases args with
  | none => exact .nil
  | some args =>
    have hall := Unbroken.intercalate_comma (unbroken_renderAll h hindent)
    have hopen : Unbroken ['('] := .of_not_mem (by decide)
    have hclose : Unbroken [')'] := .of_not_mem (by decide)
    rw [toList_renderArgs]
    exact hopen.append (hall.append hclose)

theorem unbroken_renderAll {fs : List Fragment} (h : ∀ f ∈ fs, Everywhere IsOneLine f)
    {indent : String} (hindent : IsLine indent) :
    ∀ text ∈ (renderAll indent fs).map String.toList, Unbroken text := by
  cases fs with
  | nil => exact fun _ hmem => nomatch hmem
  | cons f fs =>
    obtain ⟨hf, hfs⟩ := List.forall_mem_cons.1 h
    exact List.forall_mem_cons.2 ⟨unbroken_render hf hindent, unbroken_renderAll hfs hindent⟩

theorem unbroken_renderFields {fields : List (String × Fragment)}
    (hnames : ∀ field ∈ fields, IsLine field.1) (h : ∀ field ∈ fields, Everywhere IsOneLine field.2)
    {indent : String} (hindent : IsLine indent) (hne : indent ≠ "") :
    ∀ text ∈ (renderFields indent fields).map String.toList, Unbroken text ∧ StartsLine text := by
  cases fields with
  | nil => exact fun _ hmem => nomatch hmem
  | cons field fields =>
    obtain ⟨name, f⟩ := field
    obtain ⟨hname, hnames⟩ := List.forall_mem_cons.1 hnames
    obtain ⟨hf, hfields⟩ := List.forall_mem_cons.1 h
    refine List.forall_mem_cons.2 ⟨?_, unbroken_renderFields hnames hfields hindent hne⟩
    have hcolon : Unbroken [':', ' '] := .of_not_mem (by decide)
    have hrest := hname.unbroken.append (hcolon.append (unbroken_render hf hindent))
    rw [toList_renderField]
    exact ⟨hindent.unbroken.append hrest, (hindent.startsLine hne).append _⟩

theorem unbroken_renderChain {fs : List Fragment} (h : ∀ f ∈ fs, Everywhere IsOneLine f)
    {indent : String} (hindent : IsLine indent) {multiline : Bool}
    (hne : multiline = true → indent ≠ "") : Unbroken (renderChain indent multiline fs).toList := by
  cases fs with
  | nil => exact .nil
  | cons f fs =>
    obtain ⟨hf, hfs⟩ := List.forall_mem_cons.1 h
    have hstep := (isLine_link f).unbroken.append (unbroken_render hf hindent)
    have hrest := hstep.append (unbroken_renderChain hfs hindent hne)
    rw [renderChain]
    simp only [String.toList_append, List.append_assoc] at hrest ⊢
    -- a step on a line of its own is indented, so the line before it is not followed by an empty one
    split
    · next hbreak =>
      rw [String.toList_append]
      exact unbroken_indented hindent (hne (Bool.and_eq_true_iff.1 hbreak).1) hrest
    · exact hrest

theorem unbroken_renderLines {fs : List Fragment} (h : ∀ f ∈ fs, Everywhere IsOneLine f)
    {indent : String} (hindent : IsLine indent) (hne : indent ≠ "") :
    Unbroken (renderLines indent fs).toList := by
  cases fs with
  | nil => exact .nil
  | cons f fs =>
    obtain ⟨hf, hfs⟩ := List.forall_mem_cons.1 h
    have hrest := (unbroken_render hf hindent).append (unbroken_renderLines hfs hindent hne)
    rw [toList_renderLines]
    exact unbroken_indented hindent hne hrest

end

end Fragment

end Hql
