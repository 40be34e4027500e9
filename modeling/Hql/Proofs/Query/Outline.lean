import Hql.Proofs.Layout.Document
import Hql.Proofs.Query.Rendering

/-!
Queries as they are found in their text. A query whose fragments are phrases has the tokens of an
outline, so its text can be laid out.
-/

namespace Hql

open Text

namespace Layout

/-! ### Where a text ends -/

/-- A text with a character at its end that is neither blank nor a colon. -/
def Shut (cs : List Char) : Prop := ∃ c ∈ cs.getLast?, isBlank c = false ∧ c ≠ ':'

instance (cs : List Char) : Decidable (Shut cs) :=
  decidable_of_iff ((cs.getLast?.any fun c => !isBlank c && c != ':') = true) (by
    cases h : cs.getLast? <;> simp [Shut, h])

namespace Shut

variable {a b : List Char}

theorem append_left (h : Shut b) (a : List Char) : Shut (a ++ b) := by
  obtain ⟨c, hc, hshut⟩ := h
  have hne : b ≠ [] := by
    rintro rfl
    cases hc
  exact ⟨c, by rwa [List.getLast?_append_of_ne_nil _ hne], hshut⟩

theorem ends (h : Shut a) : Ends a := by
  obtain ⟨c, hc, -, hcolon⟩ := h
  intro heq
  exact hcolon (Option.some.inj (hc.symm.trans heq))

theorem gapAfter_eq (h : Shut a) (gap : Bool) : gapAfter gap a = false := by
  obtain ⟨c, hc, hblank, -⟩ := h
  obtain ⟨front, rfl⟩ := List.getLast?_eq_some_iff.1 hc
  rw [gapAfter_append]
  exact hblank

/-- Text that starts with no word character may follow. -/
theorem tokens_append (h : Shut a) (hb : ∀ c ∈ b.head?, isWordChar c = false) (gap : Bool) :
    tokens gap (a ++ b) = tokens gap a ++ tokens false b := by
  have hseam : Seam a b := by
    cases b with
    | nil => intro _ _ _ hd; cases hd
    | cons c b => exact h.ends.seam (hb c rfl) b
  rw [Layout.tokens_append hseam, h.gapAfter_eq]

end Shut

/-- A blank divides a text. -/
theorem tokens_append_blank {c : Char} (hc : isBlank c = true) (gap : Bool) (a b : List Char) :
    tokens gap (a ++ c :: b) = tokens gap a ++ tokens true b := by
  have hcolon : c ≠ ':' := by
    rintro rfl
    exact absurd hc (by decide)
  rw [tokens_append (seam_of_not_glues (isWordChar_of_isBlank hc) hcolon b), tokens_blank hc]

theorem withGap_tokens (gap : Bool) (cs : List Char) :
    withGap gap (tokens gap cs) = tokens gap cs := by
  cases gap with
  | false => exact withGap_false _
  | true =>
    cases h : tokens true cs with
    | nil => rfl
    | cons x ts =>
      have hx := gap_of_tokens_true h
      rw [withGap, hx]
      rw [Bool.true_or, ← hx]

/-- No gap stands before the first token of a text that starts with no blank. -/
theorem gap_of_tokens_false {cs : List Char} (h : ∀ c ∈ cs.head?, isBlank c = false)
    {x : Bool × Token} {ts : Tokens} (hx : tokens false cs = x :: ts) : x.1 = false := by
  cases cs using tokens_induction with
  | nil => cases hx
  | colons cs =>
    obtain ⟨rfl, -⟩ := List.cons.inj hx
    rfl
  | blank c cs hc =>
    rw [h c rfl] at hc
    cases hc
  | word c cs hc =>
    obtain ⟨w, ts', hjoin⟩ := exists_joinWord false c (tokens false cs)
    rw [tokens_wordChar hc, hjoin] at hx
    obtain ⟨rfl, -⟩ := List.cons.inj hx
    rfl
  | mark c cs hblank hword hcolons =>
    rw [tokens_mark hblank hword hcolons] at hx
    obtain ⟨rfl, -⟩ := List.cons.inj hx
    rfl

/-! ### Tokens -/

/-- A token of a query that stands for itself: a safe word, or a mark that starts no comment. -/
def Token.IsTame : Token → Prop
  | word w => IsSafe w
  | colons => True
  | mark c => c.toNat < 128 ∧ c ≠ '/' ∧ c ≠ '#'

theorem Token.IsTame.ascii {t : Token} (h : t.IsTame) : ∀ c ∈ t.chars, c.toNat < 128 := by
  cases t with
  | word w => exact IsSafe.ascii h
  | colons => decide
  | mark c => exact List.forall_mem_singleton.2 h.1

theorem any_isBlockWord_of_isTame {ts : List Token} (h : ∀ t ∈ ts, t.IsTame) :
    (words ts).any isBlockWord = false := by
  rw [List.any_eq_false]
  intro v hv
  obtain ⟨t, ht, hword⟩ := List.mem_filterMap.1 hv
  have htame := h t ht
  cases t with
  | word w =>
    obtain rfl := Option.some.inj hword
    rw [htame.noBlock]
    decide
  | _ => cases hword

theorem Stands.isTame {P : List Char → Prop} {after before : Option Token} {rest opened : List Bool}
    {ts : List Token} (h : Stands P after rest opened before ts) (hsafe : ∀ w, P w → IsSafe w) :
    ∀ t ∈ ts, t.IsTame := by
  have hmarks : ∀ c ∈ phraseMarks, c.toNat < 128 ∧ c ≠ '/' ∧ c ≠ '#' := by decide
  intro t ht
  cases t with
  | word w => exact hsafe w (h.isOf _ ht)
  | colons => trivial
  | mark c => exact hmarks c (h.isOf _ ht)

theorem Stands.isTame_of_isHarmless {after before : Option Token} {rest opened : List Bool}
    {ts : List Token} (h : Stands IsHarmless after rest opened before ts) : ∀ t ∈ ts, t.IsTame :=
  h.isTame fun _ hw => hw.toIsSafe

/-! ### Names -/

/-- A text of words only does not end with a colon. -/
theorem ends_of_words {cs : List Char} {ws : List (List Char)} (h : lexemes cs = ws.map .word) :
    Ends cs := by
  intro hlast
  have hmem : ':' ∈ withoutBlanks cs := by
    rw [withoutBlanks, List.mem_filter]
    exact ⟨List.mem_of_getLast? hlast, by decide⟩
  rw [← flatMap_chars_lexemes] at hmem
  obtain ⟨t, ht, hchars⟩ := List.mem_flatMap.1 hmem
  obtain ⟨x, hx, rfl⟩ := List.mem_map.1 ht
  have hsound := (fits_tokens false cs).sound x hx
  rw [h] at ht
  obtain ⟨w, -, hw⟩ := List.mem_map.1 ht
  rw [← hw] at hchars hsound
  exact absurd (hsound.2 ':' hchars) (by decide)

/-- A name that is one word, which may stand anywhere, with blanks around it perhaps. -/
def IsName (s : String) : Prop := ∃ w, lexemes s.toList = [.word w] ∧ IsNeutral w

/-- A name that is one word, which may stand where nothing is called and no type stands. -/
def IsLabel (s : String) : Prop := ∃ w, lexemes s.toList = [.word w] ∧ IsPlainWord w

theorem IsName.isLabel {s : String} (h : IsName s) : IsLabel s := by
  obtain ⟨w, hs, hw⟩ := h
  exact ⟨w, hs, hw.isPlainWord⟩

theorem IsLabel.ends {s : String} (h : IsLabel s) : Ends s.toList := by
  obtain ⟨w, hs, -⟩ := h
  have hwords : lexemes s.toList = [w].map .word := hs
  exact ends_of_words hwords

/-- The name of a query: safe words of which the last one is called. -/
structure IsTitle (s : String) (ws : List (List Char)) : Prop where
  lexemes_eq : lexemes s.toList = ws.map .word
  ne_nil : ws ≠ []
  words : ∀ w ∈ ws, IsSafe w ∧ Keeps false false w
  last : ∀ w ∈ ws.getLast?, Keeps true false w

end Layout

namespace Fragment

open Layout

/-! ### Calls and steps -/

/-- A name, its type parameter and its arguments. -/
def callText (indent name : String) (typeParam : Option String) (args : Option (List Fragment)) :
    String :=
  name ++ typeArgument typeParam ++ renderArgs indent args

def callLexed (name : String) (typeParam : Option String) (args : Option (List Fragment)) :
    List Token :=
  lexemes name.toList ++ typeLexed typeParam ++ argsLexed args

/-- A step or projection without the double colon before it. -/
def bodyText (indent : String) : Fragment → String
  | step name typeParam args _ => callText indent name typeParam args
  | f => render indent f

def bodyLexed : Fragment → List Token
  | step name typeParam args _ => callLexed name typeParam args
  | f => lexed f

section Calls

variable {name : String} {typeParam : Option String} {args : Option (List Fragment)}

theorem reads_callText (hname : Ends name.toList) (hargs : ArePlainArgs args) {indent : String}
    (hindent : IsIndent indent) :
    Reads (callText indent name typeParam args).toList (callLexed name typeParam args) := by
  rw [callText, callLexed, String.toList_append, String.toList_append]
  exact reads_call hname typeParam (reads_renderArgs hargs hindent)

theorem render_source (indent origin : String) (steps : List Fragment) (multiline : Bool) :
    render indent (source origin typeParam args steps multiline) =
      callText indent origin typeParam args ++
        renderChain (if multiline then indent ++ tab else indent) multiline steps := by
  rw [render, callText]

/-- A source without steps. -/
theorem render_origin (indent origin : String) (multiline : Bool) :
    render indent (source origin typeParam args [] multiline) =
      callText indent origin typeParam args := by
  rw [render_source, renderChain, String.append_empty]

theorem shut_callText (hname : Shut name.toList) (indent : String) :
    Shut (callText indent name typeParam args).toList := by
  rw [callText, String.toList_append, String.toList_append]
  cases args with
  | some args =>
    rw [renderArgs, String.toList_append]
    exact (Shut.append_left (by decide) _).append_left _
  | none =>
    have hnone : (renderArgs indent none).toList = [] := by simp [renderArgs]
    rw [hnone, List.append_nil, typeArgument]
    split
    · rw [String.toList_append]
      exact (Shut.append_left (by decide) _).append_left _
    · simpa using hname

end Calls

/-- The last character of a step is no blank. -/
def IsShutStep : Fragment → Prop
  | step name _ _ _ => Shut name.toList
  | projection _ => True
  | _ => False

theorem shut_bodyText {f : Fragment} (h : IsShutStep f) (indent : String) :
    Shut (bodyText indent f).toList := by
  cases f with
  | step name typeParam args attached => exact shut_callText h indent
  | projection fields =>
    have hbody : bodyText indent (projection fields) = render indent (projection fields) := rfl
    rw [hbody, render]
    split
    · decide
    · rw [String.toList_append]
      exact Shut.append_left (by decide) _
  | _ => exact absurd h id

/-- What links a step to the chain before it is a double colon. -/
theorem link_append {f : Fragment} (h : IsShutStep f) (indent : String) :
    f.link ++ render indent f = "::" ++ bodyText indent f := by
  cases f with
  | step name typeParam args attached => simp [link, render, bodyText, callText, String.append_assoc]
  | projection fields => rfl
  | _ => exact absurd h id

/-- The first step of a chain, with the line end before it if it does not stay on its line. -/
theorem renderChain_cons {f : Fragment} (h : IsShutStep f) (indent : String) (multiline : Bool)
    (fs : List Fragment) : (renderChain indent multiline (f :: fs)).toList =
      (if multiline && !f.isAttached then '\n' :: indent.toList else []) ++
        ':' :: ':' :: ((bodyText indent f).toList ++ (renderChain indent multiline fs).toList) := by
  have hlink : f.link.toList ++ (render indent f).toList =
      ':' :: ':' :: (bodyText indent f).toList := by
    rw [← String.toList_append, link_append h, String.toList_append]
    rfl
  rw [renderChain, String.toList_append, String.toList_append, String.toList_append,
    List.append_assoc _ f.link.toList, hlink]
  split <;> simp

/-- A step of a chain, as it is found in the text. -/
def chainStep (indent : String) (multiline : Bool) (f : Fragment) : Bool × Tokens :=
  (multiline && !f.isAttached, tokens false (bodyText indent f).toList)

theorem tokens_renderChain {fs : List Fragment} (h : ∀ f ∈ fs, IsShutStep f) {indent : String}
    (hindent : IsIndent indent) (multiline : Bool) :
    tokens false (renderChain indent multiline fs).toList =
        chained (fs.map (chainStep indent multiline)) ∧
      ∀ c ∈ (renderChain indent multiline fs).toList.head?, isWordChar c = false := by
  induction fs with
  | nil => simp [renderChain, chained, tokens]
  | cons f fs ih =>
    obtain ⟨hf, hfs⟩ := List.forall_mem_cons.1 h
    obtain ⟨hrest, hhead⟩ := ih hfs
    have hbody := (shut_bodyText hf indent).tokens_append hhead false
    rw [hrest] at hbody
    rw [renderChain_cons hf]
    constructor
    · rw [tokens_blanks, tokens, hbody, List.map_cons, chainStep]
      · cases hgap : (multiline && !f.isAttached) <;> rfl
      · split
        · exact List.forall_mem_cons.2 ⟨by decide, hindent⟩
        · simp
    · intro c hc
      split at hc
      · obtain rfl := Option.some.inj hc
        decide
      · obtain rfl := Option.some.inj hc
        decide

/-! ### Statements -/

/-- A statement, as it is found in the text. -/
def clause (indent : String) : Fragment → Clause
  | assignment name (source origin typeParam args steps multiline) =>
    .assign name.toList (tokens true (callText indent origin typeParam args).toList)
      (steps.map (chainStep (if multiline then indent ++ tab else indent) multiline))
  | drop target => .drop (tokens true (render indent target).toList)
  | _ => .drop []

/-- A statement that can be read. -/
def IsLegible : Fragment → Prop
  | assignment name (source origin _ _ steps _) =>
    (name.toList ≠ [] ∧ ∀ c ∈ name.toList, isWordChar c = true) ∧ Shut origin.toList ∧
      ∀ f ∈ steps, IsShutStep f
  | drop _ => True
  | _ => False

theorem tokens_statement {f : Fragment} (h : IsLegible f) {indent : String}
    (hindent : IsIndent indent) : tokens true (render indent f).toList = (clause indent f).tokens := by
  cases f with
  | assignment name value =>
    cases value with
    | source origin typeParam args steps multiline =>
      obtain ⟨⟨hne, hname⟩, horigin, hsteps⟩ := h
      have hdeep := hindent.chain multiline
      obtain ⟨hchain, hhead⟩ := tokens_renderChain hsteps hdeep multiline
      have htext : (render indent (assignment name (source origin typeParam args steps
          multiline))).toList = name.toList ++ ' ' :: (['<', '-'] ++ ' ' ::
            ((callText indent origin typeParam args).toList ++
              (renderChain (if multiline then indent ++ tab else indent) multiline steps).toList)) := by
        rw [render, render_source]
        simp
      have hword : tokens true name.toList = [(true, .word name.toList)] :=
        tokens_chars (t := .word name.toList) ⟨hne, hname⟩ true
      have hshut : Shut (callText indent origin typeParam args).toList := shut_callText horigin indent
      have hvalue := hshut.tokens_append hhead true
      have harrow : tokens true ['<', '-'] = [(true, .mark '<'), (false, .mark '-')] := rfl
      rw [htext, tokens_append_blank (by decide), tokens_append_blank (by decide), hword, harrow,
        hvalue, hchain]
      rfl
    | _ => exact absurd h id
  | drop target =>
    have htext : (render indent (drop target)).toList =
        dropWord ++ ' ' :: (render indent target).toList := by
      simp [render, dropWord]
    rw [htext, tokens_append_blank (by decide)]
    rfl
  | _ => exact absurd h id

/-- What follows a line end after statements starts with one, as each statement does. -/
theorem exists_cons_renderLines (indent : String) (fs : List Fragment) (rest : List Char) :
    ∃ more, (renderLines indent fs).toList ++ '\n' :: rest = '\n' :: more := by
  cases fs with
  | nil => exact ⟨rest, rfl⟩
  | cons f fs =>
    refine ⟨indent.toList ++ ((render indent f).toList ++
      ((renderLines indent fs).toList ++ '\n' :: rest)), ?_⟩
    rw [toList_renderLines, List.cons_append, List.append_assoc, List.append_assoc]

/-- Each statement stands on a line of its own. -/
theorem tokens_renderLines {fs : List Fragment} (h : ∀ f ∈ fs, IsLegible f) {indent : String}
    (hindent : IsIndent indent) (gap : Bool) (rest : List Char) :
    tokens gap ((renderLines indent fs).toList ++ '\n' :: rest) =
      (fs.map (clause indent)).flatMap Clause.tokens ++ tokens true rest := by
  induction fs generalizing gap with
  | nil => exact tokens_blank (by decide) gap rest
  | cons f fs ih =>
    obtain ⟨hf, hfs⟩ := List.forall_mem_cons.1 h
    obtain ⟨more, hmore⟩ := exists_cons_renderLines indent fs rest
    have htext : (renderLines indent (f :: fs)).toList ++ '\n' :: rest =
        '\n' :: (indent.toList ++ ((render indent f).toList ++ '\n' :: more)) := by
      rw [← hmore, toList_renderLines, List.cons_append, List.append_assoc, List.append_assoc]
    have hrest := ih hfs true
    rw [hmore, tokens_blank (by decide)] at hrest
    rw [htext, tokens_blank (by decide), tokens_blanks hindent, Bool.true_or,
      tokens_append_blank (by decide), hrest, tokens_statement hf hindent, List.map_cons,
      List.flatMap_cons, List.append_assoc]

/-! ### Phrases -/

/-- An argument that may be laid out. -/
structure IsArgument (f : Fragment) : Prop where
  plain : IsPlain f
  item : IsItem false '(' ')' (lexed f)

/-- A field that may be laid out. -/
structure IsFieldOf (field : String × Fragment) : Prop where
  ends : Ends field.1.toList
  plain : IsPlain field.2
  field : IsField (lexemes field.1.toList ++ .mark ':' :: lexed field.2)

/-- What is called and may be laid out. -/
structure Calls (name : String) (typeParam : Option String) (args : Option (List Fragment)) :
    Prop where
  isName : IsName name
  shut : Shut name.toList
  isTypeName : ∀ t ∈ typeParam, IsName t
  areArguments : ∀ fs ∈ args, ∀ f ∈ fs, IsArgument f
  fielded : ∀ fs ∈ args, Fielded (separated (fs.map lexed))

/-- A step or projection that may be laid out. -/
def IsStep : Fragment → Prop
  | step name typeParam args _ => Calls name typeParam args
  | projection fields => fields ≠ [] ∧ ∀ field ∈ fields, IsFieldOf field
  | _ => False

/-- A statement that may be laid out. -/
def IsStatement : Fragment → Prop
  | assignment name (source origin typeParam args steps _) =>
    (isWord name.toList = true ∧ (∀ c ∈ name.toList, isWordChar c = true) ∧ IsSafe name.toList) ∧
      Calls origin typeParam args ∧ ∀ f ∈ steps, IsStep f
  | drop (source origin typeParam args [] _) => Calls origin typeParam args
  | _ => False

theorem allLexed_eq_map (fs : List Fragment) : allLexed fs = fs.map lexed := by
  induction fs with
  | nil => rfl
  | cons f fs ih => rw [allLexed, ih, List.map_cons]

theorem fieldsLexed_eq_map (fields : List (String × Fragment)) : fieldsLexed fields =
    fields.map fun field => lexemes field.1.toList ++ .mark ':' :: lexed field.2 := by
  induction fields with
  | nil => rfl
  | cons field fields ih => rw [fieldsLexed, ih, List.map_cons]

theorem lexed_projection (fields : List (String × Fragment)) : lexed (projection fields) =
    projected (fields.map fun field => lexemes field.1.toList ++ .mark ':' :: lexed field.2) := by
  rw [projected, lexed, fieldsLexed_eq_map]

theorem arePlain_of_forall {fs : List Fragment} (h : ∀ f ∈ fs, IsPlain f) : ArePlain fs := by
  induction fs with
  | nil => trivial
  | cons f fs ih =>
    obtain ⟨hf, hfs⟩ := List.forall_mem_cons.1 h
    exact ⟨hf, ih hfs⟩

theorem arePlainFields_of_forall {fields : List (String × Fragment)}
    (h : ∀ field ∈ fields, IsFieldOf field) : ArePlainFields fields := by
  induction fields with
  | nil => trivial
  | cons field fields ih =>
    obtain ⟨hfield, hfields⟩ := List.forall_mem_cons.1 h
    exact ⟨⟨hfield.ends, hfield.plain⟩, ih hfields⟩

theorem typeLexed_eq {s : String} {w : List Char} (h : lexemes s.toList = [.word w]) :
    typeLexed (some s) = typeTokens (some w) := by
  have hne : s ≠ "" := by
    rintro rfl
    cases h
  rw [typeLexed, Option.filter_some, if_pos (decide_eq_true hne)]
  dsimp only
  rw [h]
  rfl

namespace Calls

variable {name : String} {typeParam : Option String} {args : Option (List Fragment)}

theorem arePlainArgs (h : Calls name typeParam args) : ArePlainArgs args := by
  cases args with
  | none => trivial
  | some fs => exact arePlain_of_forall fun f hf => (h.areArguments fs rfl f hf).plain

theorem reads (h : Calls name typeParam args) {indent : String} (hindent : IsIndent indent) :
    Reads (callText indent name typeParam args).toList (callLexed name typeParam args) :=
  reads_callText h.isName.isLabel.ends h.arePlainArgs hindent

/-- The tokens of a call. -/
theorem exists_callTokens (h : Calls name typeParam args) : ∃ w t items,
    callLexed name typeParam args = callTokens w t items ∧ IsCall w t items ∧
      ∀ ts ∈ items, Fielded (separated ts) := by
  obtain ⟨w, hname, hw⟩ := h.isName
  obtain ⟨t, htype, ht⟩ : ∃ t, typeLexed typeParam = typeTokens t ∧ ∀ v ∈ t, IsNeutral v := by
    cases htypeParam : typeParam with
    | none => exact ⟨none, rfl, by simp⟩
    | some s =>
      obtain ⟨v, hs, hv⟩ := h.isTypeName s htypeParam
      exact ⟨some v, typeLexed_eq hs, by simpa using hv⟩
  have hargs : argsLexed args = argTokens (args.map (List.map lexed)) := by
    cases args with
    | none => rfl
    | some fs => rw [argsLexed, allLexed_eq_map]; rfl
  refine ⟨w, t, args.map (List.map lexed), ?_, ⟨hw, ht, ?_⟩, ?_⟩
  · rw [callLexed, hname, htype, hargs, callTokens, List.append_assoc]
    rfl
  · intro items hitems ts hts
    obtain ⟨fs, hfs, rfl⟩ := Option.map_eq_some_iff.1 hitems
    obtain ⟨f, hf, rfl⟩ := List.mem_map.1 hts
    exact (h.areArguments fs hfs f hf).item
  · intro items hitems
    obtain ⟨fs, hfs, rfl⟩ := Option.map_eq_some_iff.1 hitems
    exact h.fielded fs hfs

theorem isPhrase (h : Calls name typeParam args) : IsPhrase (callLexed name typeParam args) := by
  obtain ⟨w, t, items, htokens, hcall, hfielded⟩ := h.exists_callTokens
  rw [htokens]
  exact hcall.isPhrase hfielded

theorem stands (h : Calls name typeParam args) (before after : Option Token) :
    Stands IsHarmless after [] [] before (callLexed name typeParam args) := by
  obtain ⟨w, t, items, htokens, hcall, -⟩ := h.exists_callTokens
  rw [htokens]
  exact hcall.stands

end Calls

namespace IsStep

variable {f : Fragment}

theorem isShutStep (h : IsStep f) : IsShutStep f := by
  cases f with
  | step name typeParam args attached => exact h.shut
  | projection fields => trivial
  | _ => exact absurd h id

theorem reads (h : IsStep f) {indent : String} (hindent : IsIndent indent) :
    Reads (bodyText indent f).toList (bodyLexed f) := by
  cases f with
  | step name typeParam args attached => exact Calls.reads h hindent
  | projection fields =>
    have hplain : IsPlain (projection fields) := arePlainFields_of_forall h.2
    exact reads_render hplain hindent
  | _ => exact absurd h id

theorem isPhrase (h : IsStep f) : IsPhrase (bodyLexed f) := by
  cases f with
  | step name typeParam args attached => exact Calls.isPhrase h
  | projection fields =>
    obtain ⟨hne, hfields⟩ := h
    have hbody : bodyLexed (projection fields) = lexed (projection fields) := rfl
    rw [hbody, lexed_projection]
    refine isPhrase_projected (by simpa using hne) ?_
    rw [List.forall_mem_map]
    exact fun field hfield => (hfields field hfield).field
  | _ => exact absurd h id

end IsStep

/-! ### Statements that may be laid out -/

namespace IsStatement

variable {f : Fragment}

/-- A statement assigns a chain, or deletes what a call without steps finds. -/
theorem assigns_or_drops (h : IsStatement f) :
    (∃ name origin typeParam args steps multiline,
      f = assignment name (source origin typeParam args steps multiline) ∧
        (isWord name.toList = true ∧ (∀ c ∈ name.toList, isWordChar c = true) ∧
          IsSafe name.toList) ∧ Calls origin typeParam args ∧ ∀ g ∈ steps, IsStep g) ∨
      ∃ origin typeParam args multiline, f = drop (source origin typeParam args [] multiline) ∧
        Calls origin typeParam args := by
  cases f with
  | assignment name value =>
    cases value with
    | source origin typeParam args steps multiline => exact .inl ⟨_, _, _, _, _, _, rfl, h⟩
    | _ => exact absurd h id
  | drop target =>
    cases target with
    | source origin typeParam args steps multiline =>
      cases steps with
      | nil => exact .inr ⟨_, _, _, _, rfl, h⟩
      | cons g steps => exact absurd h id
    | _ => exact absurd h id
  | _ => exact absurd h id

theorem isLegible (h : IsStatement f) : IsLegible f := by
  obtain ⟨name, origin, typeParam, args, steps, multiline, rfl, ⟨hword, hchars, -⟩, horigin, hsteps⟩ |
    ⟨origin, typeParam, args, multiline, rfl, -⟩ := h.assigns_or_drops
  · refine ⟨⟨?_, hchars⟩, horigin.shut, fun g hg => (hsteps g hg).isShutStep⟩
    intro hnil
    rw [hnil] at hword
    cases hword
  · trivial

/-- The tokens of a call after a deletion. -/
theorem map_snd_drop {origin : String} {typeParam : Option String} {args : Option (List Fragment)}
    (h : Calls origin typeParam args) {indent : String} (hindent : IsIndent indent)
    (multiline : Bool) :
    lexemes (render indent (source origin typeParam args [] multiline)).toList =
      callLexed origin typeParam args := by
  rw [render_origin]
  exact (h.reads hindent).lexemes_eq

theorem isSound_clause (h : IsStatement f) {indent : String} (hindent : IsIndent indent) :
    (clause indent f).IsSound := by
  obtain ⟨name, origin, typeParam, args, steps, multiline, rfl, ⟨hword, -, -⟩, horigin, hsteps⟩ |
    ⟨origin, typeParam, args, multiline, rfl, horigin⟩ := h.assigns_or_drops
  · have hdeep := hindent.chain multiline
    have helement {ts : List Token} (hts : IsPhrase ts) : IsElement ts ∧ .word dropWord ∉ ts :=
      ⟨hts.isElement, fun hmem => (hts.stands.isOf _ hmem).noDrop rfl⟩
    refine ⟨hword, ?_⟩
    rw [List.map_map, List.forall_mem_cons, List.forall_mem_map]
    constructor
    · rw [map_snd_tokens, (horigin.reads hindent).lexemes_eq]
      exact helement horigin.isPhrase
    · intro g hg
      rw [Function.comp_apply, chainStep, map_snd_tokens, ((hsteps g hg).reads hdeep).lexemes_eq]
      exact helement (hsteps g hg).isPhrase
  · have hstands := horigin.stands (some (.word dropWord)) none
    have hdrop : Keeps false false dropWord := by decide +kernel
    refine ⟨?_, ?_, ?_⟩
    all_goals rw [map_snd_tokens, map_snd_drop horigin hindent]
    · refine ⟨hstands.noLooseColon, ⟨?_, hstands.kept⟩, ?_⟩
      · obtain ⟨w, t, items, htokens, -⟩ := horigin.exists_callTokens
        rw [htokens]
        exact hdrop
      · simp only [List.mem_cons, reduceCtorEq, false_or]
        exact ⟨hstands.mark_not_mem (by decide), hstands.mark_not_mem (by decide)⟩
    · exact hstands.mark_not_mem (by decide)
    · exact fun hmem => (hstands.isOf _ hmem).noDrop rfl

/-- Each token of a statement is harmless to the text around it. -/
theorem isTame_clause (h : IsStatement f) {indent : String} (hindent : IsIndent indent) :
    ∀ t ∈ (clause indent f).tokens.map Prod.snd, t.IsTame := by
  obtain ⟨name, origin, typeParam, args, steps, multiline, rfl, ⟨-, -, hsafe⟩, horigin, hsteps⟩ |
    ⟨origin, typeParam, args, multiline, rfl, horigin⟩ := h.assigns_or_drops
  · have hdeep := hindent.chain multiline
    have hfirst := horigin.isPhrase.stands.isTame_of_isHarmless
    rw [clause, Clause.tokens]
    simp only [List.map_cons, List.map_append, map_snd_tokens, Clause.map_snd_chained,
      List.map_map, List.flatMap_map, List.forall_mem_cons, List.forall_mem_append,
      (horigin.reads hindent).lexemes_eq]
    refine ⟨hsafe, ⟨by decide, by decide, by decide⟩, ⟨by decide, by decide, by decide⟩, hfirst,
      fun t ht => ?_⟩
    obtain ⟨g, hg, ht⟩ := List.mem_flatMap.1 ht
    rw [Function.comp_apply, chainStep, map_snd_tokens, ((hsteps g hg).reads hdeep).lexemes_eq] at ht
    rcases List.mem_cons.1 ht with rfl | ht
    · trivial
    · exact (hsteps g hg).isPhrase.stands.isTame_of_isHarmless t ht
  · have hdrop : IsSafe dropWord := by constructor <;> decide
    rw [clause, Clause.tokens, List.map_cons, map_snd_tokens, map_snd_drop horigin hindent]
    exact List.forall_mem_cons.2 ⟨hdrop, horigin.isPhrase.stands.isTame_of_isHarmless⟩

end IsStatement

end Fragment

namespace Query

open Layout Fragment

/-! ### Queries -/

/-- The name and the parameters of a query. -/
def signatureText (q : Query) : String :=
  q.name ++ "(" ++ String.intercalate ", " (q.params.map fun p => p.1 ++ ": " ++ p.2) ++ ")"

/-- A query as it is found in its text. -/
def outline (q : Query) : Outline where
  signature := tokens true q.signatureText.toList
  clauses := q.statements.map (clause tab)
  value := tokens true (q.returns.render tab).toList

theorem text_toList (q : Query) : q.text.toList = queryChars ++ ' ' :: (q.signatureText.toList ++
    ' ' :: (['=', '>'] ++ ((renderLines tab q.statements).toList ++
      '\n' :: (tab.toList ++ (returnChars ++ ' ' :: (q.returns.render tab).toList))))) := by
  simp [text, toFragment, render, signatureText, queryChars, returnChars]

theorem isIndent_tab : IsIndent tab := by
  rw [IsIndent]
  decide

/-- The tokens of a query are those of its parts. -/
theorem tokens_text {q : Query} (h : ∀ f ∈ q.statements, IsLegible f) :
    tokens false q.text.toList = q.outline.tokens := by
  have hhead : tokens false queryChars = [(false, .word queryChars)] := by decide
  have harrow : tokens true ['=', '>'] = [(true, .mark '='), (false, .mark '>')] := by decide
  have hreturn : tokens true returnChars = [(true, .word returnChars)] := by decide
  have hbody (rest : List Char) : tokens true (['=', '>'] ++
      ((renderLines tab q.statements).toList ++ '\n' :: rest)) =
        [(true, .mark '='), (false, .mark '>')] ++
          ((q.statements.map (clause tab)).flatMap Clause.tokens ++ tokens true rest) := by
    have hshut : Shut ['=', '>'] := by decide
    rw [hshut.tokens_append, harrow, tokens_renderLines h isIndent_tab]
    obtain ⟨more, hmore⟩ := exists_cons_renderLines tab q.statements rest
    rw [hmore]
    intro c hc
    obtain rfl := Option.some.inj hc
    decide
  rw [text_toList, tokens_append_blank (by decide), hhead, tokens_append_blank (by decide), hbody,
    tokens_blanks isIndent_tab, Bool.true_or, tokens_append_blank (by decide), hreturn,
    Outline.tokens, Outline.header, Outline.body, outline, withGap_tokens, withGap_tokens]
  simp only [List.append_assoc, List.cons_append, List.nil_append]

/-- What a query returns may be laid out. -/
structure IsValue (f : Fragment) : Prop where
  plain : IsPlain f
  shut : Shut (render tab f).toList
  ne_nil : lexed f ≠ []
  stands : Stands IsHarmless none [] [] none (lexed f)
  noReturn : NoReturn (tokens true (render tab f).toList)

/-- A parameter may be laid out. -/
def IsParam (p : String × String) : Prop :=
  ∃ ts, Reads (p.1 ++ ": " ++ p.2).toList ts ∧ IsItem false '(' ')' ts

/-- A query that may be laid out. -/
structure IsSound (q : Query) : Prop where
  title : ∃ ws, IsTitle q.name ws
  params : ∀ p ∈ q.params, IsParam p
  some_statement : q.statements ≠ []
  statements : ∀ f ∈ q.statements, IsStatement f
  value : IsValue q.returns

/-- The tokens of a signature: words and parameters in parentheses. -/
theorem lexemes_signatureText {q : Query} {ws : List (List Char)} (htitle : IsTitle q.name ws)
    (hparams : ∀ p ∈ q.params, IsParam p) : ∃ items : List (List Token),
      lexemes q.signatureText.toList = ws.map .word ++ .mark '(' :: (separated items ++ [.mark ')']) ∧
        ∀ ts ∈ items, IsItem false '(' ')' ts := by
  obtain ⟨items, hreads, hitems⟩ : ∃ items,
      List.Forall₂ Reads ((q.params.map fun p => p.1 ++ ": " ++ p.2).map String.toList) items ∧
        ∀ ts ∈ items, IsItem false '(' ')' ts := by
    generalize q.params = params at hparams
    induction params with
    | nil => exact ⟨[], .nil, by simp⟩
    | cons p params ih =>
      obtain ⟨⟨ts, hts, hitem⟩, hparams⟩ := List.forall_mem_cons.1 hparams
      obtain ⟨items, hreads, hitems⟩ := ih hparams
      exact ⟨ts :: items, .cons hts hreads, List.forall_mem_cons.2 ⟨hitem, hitems⟩⟩
  have hname : Reads q.name.toList (ws.map .word) :=
    ⟨htitle.lexemes_eq, ends_of_words htitle.lexemes_eq⟩
  have hjoined := Reads.intercalate [' '] (by decide) hreads
  have hclosed := Reads.close (by decide : isBlank ')' = false ∧ isWordChar ')' = false ∧ ')' ≠ ':')
    ([',', ' '].intercalate ((q.params.map fun p => p.1 ++ ": " ++ p.2).map String.toList))
  rw [hjoined.lexemes_eq] at hclosed
  have htext : q.signatureText.toList = q.name.toList ++ '(' :: ([',', ' '].intercalate
      ((q.params.map fun p => p.1 ++ ": " ++ p.2).map String.toList) ++ [')']) := by
    simp [signatureText, String.toList_intercalate]
  refine ⟨items, ?_, hitems⟩
  rw [htext]
  refine (hname.append (Reads.mark (by decide) hclosed) ?_).lexemes_eq
  simp
  decide

theorem stands_signature {ws : List (List Char)} {s : String} (htitle : IsTitle s ws)
    {items : List (List Token)} (hitems : ∀ ts ∈ items, IsItem false '(' ')' ts)
    (after : Option Token) : Stands IsSafe after [] [] (some (.word queryChars))
      (ws.map .word ++ .mark '(' :: (separated items ++ [.mark ')'])) := by
  have hargs (before : Option Token) : Stands IsSafe after [] [] before
      (.mark '(' :: (separated items ++ [.mark ')'])) :=
    (stands_arguments hitems).mono fun w hw => hw.toIsSafe
  have hwords : Stands IsSafe (some (.mark '(')) [] [] (some (.word queryChars)) (ws.map .word) :=
    stands_words htitle.words htitle.last (fun _ => ⟨rfl, rfl⟩) rfl
  exact hwords.append (hargs _)

namespace IsSound

variable {q : Query}

theorem isTame_tokens (h : q.IsSound) : ∃ rest : List Token,
    q.outline.tokens.map Prod.snd = .word queryChars :: rest ∧ ∀ t ∈ rest, t.IsTame := by
  obtain ⟨ws, htitle⟩ := h.title
  obtain ⟨items, hsignature, hitems⟩ := lexemes_signatureText htitle h.params
  have hfront : ∀ t ∈ lexemes q.signatureText.toList, t.IsTame := by
    rw [hsignature]
    exact (stands_signature htitle hitems none).isTame fun _ hw => hw
  have hreturn : IsSafe returnChars := by constructor <;> decide
  refine ⟨(q.outline.tokens.map Prod.snd).tail, rfl, ?_⟩
  rw [Outline.tokens, Outline.header, Outline.body, outline]
  simp only [List.cons_append, List.map_cons, List.map_append, List.tail_cons, map_snd_withGap,
    map_snd_tokens, List.forall_mem_append, List.forall_mem_cons, List.map_flatMap,
    List.map_nil, List.flatMap_map]
  refine ⟨⟨hfront, ⟨by decide, by decide, by decide⟩, ⟨by decide, by decide, by decide⟩, by simp⟩,
    ?_, hreturn, ?_⟩
  · intro t ht
    obtain ⟨f, hf, ht⟩ := List.mem_flatMap.1 ht
    exact (h.statements f hf).isTame_clause isIndent_tab t ht
  · rw [(reads_render h.value.plain isIndent_tab).lexemes_eq]
    exact h.value.stands.isTame_of_isHarmless

theorem outline (h : q.IsSound) : q.outline.IsSound := by
  obtain ⟨ws, htitle⟩ := h.title
  obtain ⟨items, hsignature, hitems⟩ := lexemes_signatureText htitle h.params
  obtain ⟨w, ws, rfl⟩ := List.exists_cons_of_ne_nil htitle.ne_nil
  obtain ⟨rest, htokens, hrest⟩ := h.isTame_tokens
  -- the header and the value are known by their tokens, whatever the gaps between them
  have hstands := stands_signature htitle hitems (some (.mark '='))
  have hlexemes : q.outline.signature.map Prod.snd =
      (w :: ws).map .word ++ .mark '(' :: (separated items ++ [.mark ')']) := by
    rw [← hsignature]
    exact map_snd_tokens _ _
  have hlast : ((w :: ws).map Token.word ++
      Token.mark '(' :: (separated items ++ [Token.mark ')'])).getLast? = some (.mark ')') := by
    rw [List.getLast?_append_of_ne_nil _ (by simp), List.getLast?_cons, List.getLast?_concat]
    rfl
  have hvalue : q.outline.value.map Prod.snd = lexed q.returns := by
    rw [← (reads_render h.value.plain isIndent_tab).lexemes_eq]
    exact map_snd_tokens _ _
  have hheader : q.outline.header.map Prod.snd = .word queryChars ::
      ((w :: ws).map .word ++ .mark '(' :: (separated items ++ [.mark ')'])) ++
        [.mark '=', .mark '>'] := by
    rw [Outline.header, List.map_cons, List.map_append, map_snd_withGap, hlexemes]
    rfl
  have hmarks : .mark '/' ∉ q.outline.tokens.map Prod.snd ∧
      .mark '#' ∉ q.outline.tokens.map Prod.snd := by
    rw [htokens]
    simp only [List.mem_cons, reduceCtorEq, false_or]
    exact ⟨fun hmem => (hrest _ hmem).2.1 rfl, fun hmem => (hrest _ hmem).2.2 rfl⟩
  have hfront {t : Token} (ht : t ∈ q.outline.header.map Prod.snd) :
      t ∈ q.outline.tokens.map Prod.snd := by
    rw [Outline.tokens, List.map_append]
    exact List.mem_append_left _ ht
  exact {
    starts := ⟨w, _, hlexemes⟩
    ends := by rw [hlexemes, hlast]
    equals := by
      rw [hlexemes]
      exact hstands.mark_not_mem (by decide)
    header := by
      rw [hheader]
      refine ⟨?_, ⟨?_, hstands.kept_append (by simp [Kept])⟩, ?_⟩
      · refine List.isChain_append.2 ⟨hstands.noLooseColon, by simp, ?_⟩
        rintro t - u hu ⟨-, rfl⟩
        cases hu
      · exact (by decide +kernel : Keeps false false queryChars)
      · rw [← hheader]
        exact ⟨fun hmem => hmarks.1 (hfront hmem), fun hmem => hmarks.2 (hfront hmem)⟩
    ne_nil := by simpa [Query.outline] using h.some_statement
    clauses := List.forall_mem_map.2 fun f hf => (h.statements f hf).isSound_clause isIndent_tab
    marks := hmarks
    ascii := by
      rw [htokens]
      exact List.forall_mem_cons.2 ⟨by decide, fun t ht => (hrest t ht).ascii⟩
    noBlock := by
      rw [htokens, List.tail_cons]
      exact any_isBlockWord_of_isTame hrest
    some_value := by
      intro hnil
      rw [hnil] at hvalue
      exact h.value.ne_nil hvalue.symm
    value := by
      rw [hvalue]
      exact ⟨h.value.stands.noLooseColon, h.value.stands.kept,
        h.value.stands.mark_not_mem (by decide), h.value.stands.mark_not_mem (by decide)⟩
    noReturn := by
      have hgap : withGap true q.outline.value = q.outline.value := withGap_tokens true _
      rw [hgap]
      exact h.value.noReturn }

theorem shut_text (h : q.IsSound) : Shut q.text.toList := by
  have hvalue : Shut (' ' :: (q.returns.render tab).toList) := h.value.shut.append_left [' ']
  have hbody : Shut (' ' :: (['=', '>'] ++ ((renderLines tab q.statements).toList ++
      '\n' :: (tab.toList ++ (returnChars ++ ' ' :: (q.returns.render tab).toList))))) :=
    (((((hvalue.append_left returnChars).append_left tab.toList).append_left ['\n']).append_left
      (renderLines tab q.statements).toList).append_left ['=', '>']).append_left [' ']
  rw [text_toList]
  exact ((hbody.append_left _).append_left [' ']).append_left _

/-- A sound query is found in a paragraph of its text. -/
theorem holds (h : q.IsSound) {p : Paragraph} (hcomment : ∀ c ∈ p.comment, IsComment c)
    (htext : p.text = q.text.toList) : p.Holds q.outline where
  comment := hcomment
  starts := by
    rw [htext]
    exact ⟨_, q.text_toList⟩
  last := by
    obtain ⟨c, hc, hblank, -⟩ := h.shut_text
    rw [htext, hc]
    rintro d ⟨⟩
    exact hblank
  tokens := by
    rw [htext]
    exact q.tokens_text fun f hf => (h.statements f hf).isLegible
  sound := h.outline

end IsSound

end Query

end Hql
