import Hql.Proofs.Query.Lines

/-!
Indentation of rendered fragments. Main statement: a fragment rendered at an indentation is the
fragment rendered without one, with the indentation behind every line feed; the first line of a query
is indented as well.
-/

namespace Hql

open Text (tab)

namespace Fragment

/-! ### Lines moved to the right -/

/-- The text with an indentation behind every line feed. -/
def indentLines (indent s : String) : String :=
  String.ofList (s.toList.flatMap fun c => if c = '\n' then c :: indent.toList else [c])

section Lines

variable (indent : String)

theorem toList_indentLines (s : String) : (indentLines indent s).toList =
    s.toList.flatMap fun c => if c = '\n' then c :: indent.toList else [c] :=
  String.toList_ofList

theorem indentLines_append (s t : String) :
    indentLines indent (s ++ t) = indentLines indent s ++ indentLines indent t := by
  apply String.toList_injective
  simp only [toList_indentLines, String.toList_append, List.flatMap_append]

theorem indentLines_line {s : String} (h : IsLine s) : indentLines indent s = s := by
  apply String.toList_injective
  rw [toList_indentLines]
  have hkeep : ∀ cs : List Char, '\n' ∉ cs →
      (cs.flatMap fun c => if c = '\n' then c :: indent.toList else [c]) = cs := by
    intro cs hcs
    induction cs with
    | nil => rfl
    | cons c cs ih =>
      rw [List.mem_cons, not_or] at hcs
      rw [List.flatMap_cons, if_neg (Ne.symm hcs.1), ih hcs.2, List.singleton_append]
  exact hkeep s.toList h

theorem indentLines_empty : indentLines indent "" = "" := rfl

theorem indentLines_newline : indentLines indent "\n" = "\n" ++ indent := by
  apply String.toList_injective
  rw [toList_indentLines, String.toList_append]
  exact List.append_nil _

theorem indentLines_ended {s : String} (h : IsLine s) :
    indentLines indent (s ++ "\n") = s ++ "\n" ++ indent := by
  rw [indentLines_append, indentLines_line indent h, indentLines_newline, String.append_assoc]

theorem indentLines_intercalate (separator : String) (texts : List String) :
    indentLines indent (separator.intercalate texts) =
      (indentLines indent separator).intercalate (texts.map (indentLines indent)) := by
  induction texts with
  | nil => rw [List.map_nil, String.intercalate_nil, String.intercalate_nil, indentLines_empty]
  | cons text texts ih =>
    cases texts with
    | nil => rw [List.map_singleton, String.intercalate_singleton, String.intercalate_singleton]
    | cons next texts =>
      rw [String.intercalate_cons_cons, indentLines_append, indentLines_append, ih, List.map_cons,
        List.map_cons, List.map_cons, String.intercalate_cons_cons]

/-- An indentation behind a separator and in front of all is one in front of each text. -/
theorem append_intercalate (separator text : String) (texts : List String) :
    indent ++ (separator ++ indent).intercalate (text :: texts) =
      separator.intercalate ((text :: texts).map fun t => indent ++ t) := by
  induction texts generalizing text with
  | nil => rw [List.map_singleton, String.intercalate_singleton, String.intercalate_singleton]
  | cons next texts ih =>
    rw [String.intercalate_cons_cons, List.map_cons, List.map_cons, String.intercalate_cons_cons,
      ← List.map_cons, ← ih next]
    simp only [String.append_assoc]

end Lines

/-! ### Fragments at an indentation -/

def isQuery : Fragment → Bool
  | query .. => true
  | _ => false

/-- A fragment that starts on the line on which it stands, with texts on one line. -/
def IsInline (f : Fragment) : Prop := IsOneLine f ∧ f.isQuery = false

mutual

/-- An indentation in front of another one moves every line of a fragment but the first. -/
theorem render_append {f : Fragment} (h : Everywhere IsInline f) {deep : String} (hdeep : IsLine deep)
    (indent : String) : render (indent ++ deep) f = indentLines indent (render deep f) := by
  cases f with
  | text s =>
    have hline : IsLine s := ((everywhere_text s).1 h).1
    rw [render, render, indentLines_line indent hline]
  | step name typeParam args attached =>
    obtain ⟨⟨⟨hname, htype⟩, -⟩, hargs⟩ := (everywhere_step ..).1 h
    have hcolons : IsLine "::" := by decide
    simp only [render, indentLines_append, indentLines_line indent hcolons,
      indentLines_line indent hname, indentLines_line indent (isLine_typeArgument htype),
      renderArgs_append hargs hdeep indent]
  | expression head callArgs chain =>
    obtain ⟨⟨hhead, -⟩, hargs, hchain⟩ := (everywhere_expression ..).1 h
    have hhead : IsLine head := hhead
    simp only [render, indentLines_append, indentLines_line indent hhead,
      renderArgs_append hargs hdeep indent, renderChain_append hchain hdeep indent]
  | projection fields =>
    obtain ⟨⟨hnames, -⟩, hfields⟩ := (everywhere_projection fields).1 h
    have hlines := renderFields_append hnames hfields (isLine_tab hdeep) indent
    rw [← String.append_assoc] at hlines
    rw [render, render, hlines]
    cases renderFields (deep ++ tab) fields with
    | nil =>
      have hbraces : IsLine "\x7b\x7d" := by decide
      exact (indentLines_line indent hbraces).symm
    | cons line lines =>
      have hopen : indentLines indent "\x7b\n" = "\x7b\n" ++ indent := by
        have hbrace : ("\x7b\n" : String) = "\x7b" ++ "\n" := by decide
        rw [hbrace, indentLines_ended indent (by decide)]
      have hcomma : indentLines indent ",\n" = ",\n" ++ indent := by
        have hseparator : (",\n" : String) = "," ++ "\n" := by decide
        rw [hseparator, indentLines_ended indent (by decide)]
      have hclose : IsLine "\x7d" := by decide
      -- the line feeds of the brace and of the commas now bring the indentation of the fields
      have hbody := append_intercalate indent ",\n" (indentLines indent line)
        (lines.map (indentLines indent))
      rw [← List.map_cons, List.map_map] at hbody
      calc "\x7b\n" ++ String.intercalate ",\n"
              ((line :: lines).map fun l => indent ++ indentLines indent l) ++
            "\n" ++ (indent ++ deep) ++ "\x7d"
          = "\x7b\n" ++ (indent ++ String.intercalate (",\n" ++ indent)
              ((line :: lines).map (indentLines indent))) ++ "\n" ++ (indent ++ deep) ++ "\x7d" := by
            rw [hbody]
            rfl
        _ = indentLines indent ("\x7b\n" ++ String.intercalate ",\n" (line :: lines) ++ "\n" ++
              deep ++ "\x7d") := by
            simp only [indentLines_append, hopen, indentLines_intercalate, hcomma,
              indentLines_newline, indentLines_line indent hdeep, indentLines_line indent hclose,
              String.append_assoc]
  | source origin typeParam args steps multiline =>
    obtain ⟨⟨⟨horigin, htype⟩, -⟩, hargs, hsteps⟩ := (everywhere_source ..).1 h
    have hchain : renderChain (if multiline then indent ++ deep ++ tab else indent ++ deep) multiline
        steps = indentLines indent
          (renderChain (if multiline then deep ++ tab else deep) multiline steps) := by
      split
      · rw [String.append_assoc]
        exact renderChain_append hsteps (isLine_tab hdeep) indent multiline
      · exact renderChain_append hsteps hdeep indent multiline
    simp only [render, indentLines_append, indentLines_line indent horigin,
      indentLines_line indent (isLine_typeArgument htype), renderArgs_append hargs hdeep indent,
      hchain]
  | assignment name value =>
    obtain ⟨⟨hname, -⟩, hvalue⟩ := (everywhere_assignment ..).1 h
    have hname : IsLine name := hname
    have harrow : IsLine " <- " := by decide
    simp only [render, indentLines_append, indentLines_line indent hname,
      indentLines_line indent harrow, render_append hvalue hdeep indent]
  | drop target =>
    obtain ⟨-, htarget⟩ := (everywhere_drop target).1 h
    have hword : IsLine "DROP " := by decide
    rw [render, render, indentLines_append, indentLines_line indent hword,
      render_append htarget hdeep indent]
  | query name params statements returns =>
    exact absurd ((everywhere_query ..).1 h).1.2 (by simp [isQuery])
  | block e => exact absurd (h (block e) (List.mem_singleton.2 rfl)).1 id

theorem renderArgs_append {args : Option (List Fragment)}
    (h : ∀ f ∈ args.getD [], Everywhere IsInline f) {deep : String} (hdeep : IsLine deep)
    (indent : String) :
    renderArgs (indent ++ deep) args = indentLines indent (renderArgs deep args) := by
  cases args with
  | none => rw [renderArgs, renderArgs, indentLines_empty]
  | some args =>
    have hall : renderAll (indent ++ deep) args = (renderAll deep args).map (indentLines indent) :=
      renderAll_append h hdeep indent
    have hopen : IsLine "(" := by decide
    have hcomma : IsLine ", " := by decide
    have hclose : IsLine ")" := by decide
    simp only [renderArgs, indentLines_append, indentLines_intercalate,
      indentLines_line indent hopen, indentLines_line indent hcomma, indentLines_line indent hclose,
      hall]

theorem renderAll_append {fs : List Fragment} (h : ∀ f ∈ fs, Everywhere IsInline f) {deep : String}
    (hdeep : IsLine deep) (indent : String) :
    renderAll (indent ++ deep) fs = (renderAll deep fs).map (indentLines indent) := by
  cases fs with
  | nil => rfl
  | cons f fs =>
    obtain ⟨hf, hfs⟩ := List.forall_mem_cons.1 h
    rw [renderAll, renderAll, List.map_cons, render_append hf hdeep indent,
      renderAll_append hfs hdeep indent]

theorem renderFields_append {fields : List (String × Fragment)}
    (hnames : ∀ field ∈ fields, IsLine field.1) (h : ∀ field ∈ fields, Everywhere IsInline field.2)
    {deep : String} (hdeep : IsLine deep) (indent : String) :
    renderFields (indent ++ deep) fields =
      (renderFields deep fields).map fun line => indent ++ indentLines indent line := by
  cases fields with
  | nil => rfl
  | cons field fields =>
    obtain ⟨name, f⟩ := field
    obtain ⟨hname, hnames⟩ := List.forall_mem_cons.1 hnames
    obtain ⟨hf, hfields⟩ := List.forall_mem_cons.1 h
    have hcolon : IsLine ": " := by decide
    rw [renderFields, renderFields, List.map_cons, renderFields_append hnames hfields hdeep indent,
      render_append hf hdeep indent]
    simp only [indentLines_append, indentLines_line indent hdeep, indentLines_line indent hname,
      indentLines_line indent hcolon, String.append_assoc]

theorem renderChain_append {fs : List Fragment} (h : ∀ f ∈ fs, Everywhere IsInline f)
    {deep : String} (hdeep : IsLine deep) (indent : String) (multiline : Bool) :
    renderChain (indent ++ deep) multiline fs = indentLines indent (renderChain deep multiline fs) := by
  cases fs with
  | nil => rw [renderChain, renderChain, indentLines_empty]
  | cons f fs =>
    obtain ⟨hf, hfs⟩ := List.forall_mem_cons.1 h
    -- the indentation of a step on a line of its own follows the line feed
    have hbreak : (if multiline && !f.isAttached then "\n" ++ (indent ++ deep) else "") =
        indentLines indent (if multiline && !f.isAttached then "\n" ++ deep else "") := by
      split
      · rw [indentLines_append, indentLines_newline, indentLines_line indent hdeep,
          String.append_assoc]
      · exact (indentLines_empty indent).symm
    rw [renderChain, renderChain, hbreak, render_append hf hdeep indent,
      renderChain_append hfs hdeep indent multiline]
    simp only [indentLines_append, indentLines_line indent (isLine_link f)]

end

theorem renderLines_append {fs : List Fragment} (h : ∀ f ∈ fs, Everywhere IsInline f)
    {deep : String} (hdeep : IsLine deep) (indent : String) :
    renderLines (indent ++ deep) fs = indentLines indent (renderLines deep fs) := by
  induction fs with
  | nil => rw [renderLines, renderLines, indentLines_empty]
  | cons f fs ih =>
    obtain ⟨hf, hfs⟩ := List.forall_mem_cons.1 h
    rw [renderLines, renderLines, ih hfs, render_append hf hdeep indent]
    simp only [indentLines_append, indentLines_newline, indentLines_line indent hdeep,
      String.append_assoc]

/-- A whole query moves with its first line. -/
theorem render_query {name : String} {params : List (String × String)} {statements : List Fragment}
    {returns : Fragment} (hname : IsLine name) (hparams : ∀ p ∈ params, IsLine p.1 ∧ IsLine p.2)
    (hstatements : ∀ f ∈ statements, Everywhere IsInline f) (hreturns : Everywhere IsInline returns)
    (indent : String) : render indent (query name params statements returns) =
      indent ++ indentLines indent (render "" (query name params statements returns)) := by
  have htab : IsLine tab := by decide
  have hparam : (params.map fun p => p.1 ++ ": " ++ p.2).map (indentLines indent) =
      params.map fun p => p.1 ++ ": " ++ p.2 := by
    rw [List.map_map]
    apply List.map_congr_left
    intro p hp
    apply indentLines_line
    simp only [isLine_append]
    exact ⟨⟨(hparams p hp).1, by decide⟩, (hparams p hp).2⟩
  have hword : IsLine "QUERY " := by decide
  have hopen : IsLine "(" := by decide
  have hcomma : IsLine ", " := by decide
  have hclose : IsLine ") =>" := by decide
  have hreturn : IsLine "RETURN " := by decide
  rw [render, render]
  generalize params.map (fun p => p.1 ++ ": " ++ p.2) = texts at hparam ⊢
  simp only [String.empty_append, indentLines_append, indentLines_newline,
    indentLines_intercalate, hparam, indentLines_line indent hname, indentLines_line indent htab,
    indentLines_line indent hword, indentLines_line indent hopen, indentLines_line indent hcomma,
    indentLines_line indent hclose, indentLines_line indent hreturn,
    renderLines_append hstatements htab indent, render_append hreturns htab indent,
    String.append_assoc]

/-- A fragment of texts on one line, with no query below it, moves to the right as it is: an
indentation stands behind every line feed, and in front of the first line if it is that of a query. -/
theorem render_indent {f : Fragment} (h : Everywhere IsOneLine f)
    (hbelow : ∀ x ∈ f.parts.tail, x.isQuery = false) (indent : String) :
    render indent f = (if f.isQuery then indent else "") ++ indentLines indent (render "" f) := by
  have hinline {g : Fragment} (hg : ∀ x ∈ g.parts, x ∈ f.parts ∧ x.isQuery = false) :
      Everywhere IsInline g :=
    fun x hx => ⟨h x (hg x hx).1, (hg x hx).2⟩
  by_cases hquery : f.isQuery = true
  · cases f with
    | query name params statements returns =>
      obtain ⟨⟨hname, hparams⟩, -⟩ := (everywhere_query ..).1 h
      have hall : ∀ x ∈ allParts statements ++ parts returns,
          x ∈ (query name params statements returns).parts ∧ x.isQuery = false := by
        intro x hx
        exact ⟨List.mem_cons_of_mem _ hx, hbelow x hx⟩
      rw [List.forall_mem_append] at hall
      rw [if_pos hquery]
      refine render_query hname hparams ?_ (hinline hall.2) indent
      refine (forall_mem_allParts statements).1 fun x hx => ?_
      exact ⟨h x (hall.1 x hx).1, (hall.1 x hx).2⟩
    | _ => cases hquery
  · rw [if_neg hquery, String.empty_append]
    have hparts : ∃ rest, f.parts = f :: rest := by
      cases f <;> exact ⟨_, rfl⟩
    obtain ⟨rest, hrest⟩ := hparts
    have hempty : IsLine "" := by decide
    have hall : Everywhere IsInline f := by
      apply hinline
      intro x hx
      refine ⟨hx, ?_⟩
      rw [hrest] at hx hbelow
      rcases List.mem_cons.1 hx with rfl | hx
      · exact Bool.eq_false_iff.2 hquery
      · exact hbelow x hx
    -- the indentation stands in front of the empty one
    have hmoved := render_append hall hempty indent
    rwa [String.append_empty] at hmoved

/-- A query with a projection on lines of its own. -/
def visitQuery : Fragment :=
  query "Visits" [] [
    assignment "v" (source "N" none none [projection [("at", property "at")]] true)] (text "v")

theorem render_indent_visitQuery :
    Everywhere IsOneLine visitQuery ∧ (∀ x ∈ visitQuery.parts.tail, x.isQuery = false) ∧
      render "  " visitQuery = "  QUERY Visits() =>\n      v <- N\n          ::\x7b\n" ++
        "              at: _::\x7bat\x7d\n          \x7d\n      RETURN v" := by
  have hline : Everywhere IsOneLine visitQuery := by decide
  have hbelow : ∀ x ∈ visitQuery.parts.tail, x.isQuery = false := by decide
  refine ⟨hline, hbelow, ?_⟩
  rw [render_indent hline hbelow]
  decide +kernel

end Fragment

end Hql
