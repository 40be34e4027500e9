import Hql.Proofs.Layout.Paragraph
import Hql.Proofs.Layout.Phrase
import Hql.Query.Printer

/-!
The tokens of rendered fragments. Indentation and line ends leave no trace in them, so they follow the
structure of a fragment alone.
-/

namespace Hql

open Text

namespace Layout

/-! ### Texts in pieces -/

theorem lexemes_mark {c : Char} (hblank : isBlank c = false) (hword : isWordChar c = false)
    (hcolon : c ≠ ':') (cs : List Char) : lexemes (c :: cs) = .mark c :: lexemes cs := by
  rw [lexemes, tokens_mark hblank hword fun h => hcolon h.1]
  rfl

theorem lexemes_append_mark {c : Char} (hblank : isBlank c = false) (hword : isWordChar c = false)
    (hcolon : c ≠ ':') (a b : List Char) :
    lexemes (a ++ c :: b) = lexemes a ++ .mark c :: lexemes b := by
  rw [lexemes_append (seam_of_not_glues hword hcolon b), lexemes_mark hblank hword hcolon]

theorem lexemes_colons (cs : List Char) : lexemes (':' :: ':' :: cs) = .colons :: lexemes cs := rfl

theorem lexemes_colon_space (cs : List Char) : lexemes (':' :: ' ' :: cs) = .mark ':' :: lexemes cs := by
  rw [lexemes, tokens_mark (by decide) (by decide) (by simp), List.map_cons, map_snd_tokens,
    lexemes_space]

/-- A text that does not end with a colon, so that a colon after it stays by itself. -/
def Ends (cs : List Char) : Prop := cs.getLast? ≠ some ':'

instance (cs : List Char) : Decidable (Ends cs) := inferInstanceAs (Decidable (_ ≠ _))

theorem Ends.append {a b : List Char} (ha : Ends a) (hb : Ends b) : Ends (a ++ b) := by
  cases b with
  | nil => rwa [List.append_nil]
  | cons c b =>
    rw [Ends, List.getLast?_append_of_ne_nil _ (by simp)]
    exact hb

theorem ends_append_mark {c : Char} (hc : c ≠ ':') (a : List Char) : Ends (a ++ [c]) := by
  rw [Ends, List.getLast?_concat]
  exact fun heq => hc (Option.some.inj heq)

theorem Ends.seam {a : List Char} (ha : Ends a) {c : Char} (hc : isWordChar c = false)
    (b : List Char) : Seam a (c :: b) := by
  intro d hd e he
  obtain rfl := Option.some.inj he
  have hcolon : (d == ':') = false := by
    rw [beq_eq_false_iff_ne]
    rintro rfl
    exact ha hd
  rw [glues, hc, hcolon, Bool.and_false]
  rfl

end Layout

namespace Fragment

open Layout

/-! ### The tokens of a fragment -/

/-- The tokens of a type parameter. -/
def typeLexed (typeParam : Option String) : List Token :=
  match typeParam.filter fun t => t ≠ "" with
  | some t => .mark '<' :: (lexemes t.toList ++ [.mark '>'])
  | none => []

/-- The tokens of what links a fragment to the chain before it. -/
def linkLexed : Fragment → List Token
  | projection _ => [.colons]
  | _ => []

mutual

/-- The tokens of a step, an expression, a projection or a source. -/
def lexed : Fragment → List Token
  | text s => lexemes s.toList
  | step name typeParam args _ =>
    .colons :: (lexemes name.toList ++ typeLexed typeParam ++ argsLexed args)
  | expression head callArgs chain => lexemes head.toList ++ argsLexed callArgs ++ chainLexed chain
  | projection fields => .mark '\x7b' :: (separated (fieldsLexed fields) ++ [.mark '\x7d'])
  | source origin typeParam args steps _ =>
    lexemes origin.toList ++ typeLexed typeParam ++ argsLexed args ++ chainLexed steps
  | _ => []

def argsLexed : Option (List Fragment) → List Token
  | none => []
  | some args => .mark '(' :: (separated (allLexed args) ++ [.mark ')'])

def allLexed : List Fragment → List (List Token)
  | [] => []
  | f :: fs => lexed f :: allLexed fs

def fieldsLexed : List (String × Fragment) → List (List Token)
  | [] => []
  | (name, f) :: more => (lexemes name.toList ++ .mark ':' :: lexed f) :: fieldsLexed more

def chainLexed : List Fragment → List Token
  | [] => []
  | f :: fs => linkLexed f ++ lexed f ++ chainLexed fs

end

/-- A chain links steps and projections. -/
def IsLink : Fragment → Prop
  | step .. => True
  | projection _ => True
  | _ => False

mutual

/-- No name in a fragment ends with a colon. -/
def IsPlain : Fragment → Prop
  | text s => Ends s.toList
  | step name _ args _ => name ≠ "" ∧ Ends name.toList ∧ ArePlainArgs args
  | expression head callArgs chain => Ends head.toList ∧ ArePlainArgs callArgs ∧ ArePlainSteps chain
  | projection fields => ArePlainFields fields
  | source origin _ args steps _ => Ends origin.toList ∧ ArePlainArgs args ∧ ArePlainSteps steps
  | _ => False

def ArePlainArgs : Option (List Fragment) → Prop
  | none => True
  | some args => ArePlain args

def ArePlain : List Fragment → Prop
  | [] => True
  | f :: fs => IsPlain f ∧ ArePlain fs

def ArePlainSteps : List Fragment → Prop
  | [] => True
  | f :: fs => (IsLink f ∧ IsPlain f) ∧ ArePlainSteps fs

def ArePlainFields : List (String × Fragment) → Prop
  | [] => True
  | (name, f) :: more => (Ends name.toList ∧ IsPlain f) ∧ ArePlainFields more

end

/-! ### Rendered text -/

/-- A text is read as these tokens, and what follows it is not run into it. -/
structure Reads (cs : List Char) (ts : List Token) : Prop where
  lexemes_eq : lexemes cs = ts
  ends : Ends cs

namespace Reads

variable {a b : List Char} {ts us : List Token}

theorem nil : Reads [] [] := ⟨rfl, by simp [Ends]⟩

theorem of_ends (h : Ends a) : Reads a (lexemes a) := ⟨rfl, h⟩

/-- What starts with no word character may follow any text. -/
theorem append (ha : Reads a ts) (hb : Reads b us) (hhead : ∀ c ∈ b.head?, isWordChar c = false) :
    Reads (a ++ b) (ts ++ us) where
  lexemes_eq := by
    have hseam : Seam a b := by
      cases b with
      | nil => intro _ _ _ hd; cases hd
      | cons c b => exact ha.ends.seam (hhead c rfl) b
    rw [lexemes_append hseam, ha.lexemes_eq, hb.lexemes_eq]
  ends := ha.ends.append hb.ends

theorem blanks (bs : List Char) (hbs : ∀ c ∈ bs, isBlank c = true) (ha : Reads a ts) :
    Reads (bs ++ a) ts where
  lexemes_eq := by rw [lexemes_blanks hbs, ha.lexemes_eq]
  ends := by
    refine Ends.append (fun hlast => ?_) ha.ends
    exact absurd (hbs ':' (List.mem_of_getLast? hlast)) (by decide)

theorem mark {c : Char} (hc : isBlank c = false ∧ isWordChar c = false ∧ c ≠ ':') (hb : Reads b us) :
    Reads (c :: b) (.mark c :: us) where
  lexemes_eq := by rw [lexemes_mark hc.1 hc.2.1 hc.2.2, hb.lexemes_eq]
  ends := (ends_append_mark hc.2.2 []).append hb.ends

theorem colons (hb : Reads b us) (hne : b ≠ []) : Reads (':' :: ':' :: b) (.colons :: us) where
  lexemes_eq := by rw [lexemes_colons, hb.lexemes_eq]
  ends := by
    obtain ⟨c, b, rfl⟩ := List.exists_cons_of_ne_nil hne
    rw [Ends, List.getLast?_cons_cons, List.getLast?_cons_cons]
    exact hb.ends

/-- Texts with a comma and blanks between two. -/
theorem intercalate (blanks : List Char) (hblanks : ∀ c ∈ blanks, isBlank c = true)
    {texts : List (List Char)} {tss : List (List Token)} (h : List.Forall₂ Reads texts tss) :
    Reads ((',' :: blanks).intercalate texts) (separated tss) := by
  have hhead (rest : List (List Char)) : ∀ c ∈ (rest.flatMap ((',' :: blanks) ++ ·)).head?,
      isWordChar c = false := by
    cases rest with
    | nil => simp
    | cons text rest =>
      intro c hc
      obtain rfl := Option.some.inj hc
      decide
  have hmore {rest : List (List Char)} {restTs : List (List Token)}
      (hrest : List.Forall₂ Reads rest restTs) :
      Reads (rest.flatMap ((',' :: blanks) ++ ·)) (restTs.flatMap ([Token.mark ','] ++ ·)) := by
    induction hrest with
    | nil => exact nil
    | cons hfirst _ ih =>
      rw [List.flatMap_cons, List.flatMap_cons, List.cons_append, List.cons_append,
        List.singleton_append, List.cons_append, List.append_assoc]
      exact mark (by decide) (Reads.blanks _ hblanks (hfirst.append ih (hhead _)))
  cases h with
  | nil => exact nil
  | cons hfirst hrest =>
    rw [separated, intercalate_eq_flatMap, intercalate_eq_flatMap]
    exact hfirst.append (hmore hrest) (hhead _)

/-- A mark ends any text. -/
theorem close {c : Char} (hc : isBlank c = false ∧ isWordChar c = false ∧ c ≠ ':')
    (cs : List Char) : Reads (cs ++ [c]) (lexemes cs ++ [.mark c]) where
  lexemes_eq := lexemes_append_mark hc.1 hc.2.1 hc.2.2 cs []
  ends := ends_append_mark hc.2.2 cs

/-- A name and what belongs to it, with a single colon between. -/
theorem field (ha : Ends a) (hb : Reads b us) :
    Reads (a ++ ':' :: ' ' :: b) (lexemes a ++ .mark ':' :: us) where
  lexemes_eq := by
    rw [lexemes_append (ha.seam (by decide) _), lexemes_colon_space, hb.lexemes_eq]
  ends := by
    have h := (ends_append_mark (by decide : ' ' ≠ ':') (a ++ [':'])).append hb.ends
    simpa using h

end Reads

theorem reads_typeArgument (typeParam : Option String) :
    Reads (typeArgument typeParam).toList (typeLexed typeParam) := by
  rw [typeArgument, typeLexed]
  cases typeParam.filter fun t => t ≠ "" with
  | none => exact Reads.nil
  | some t =>
    have hopen : ("<" ++ t ++ ">").toList = '<' :: (t.toList ++ ['>']) := by simp
    dsimp only
    rw [hopen]
    exact Reads.mark (by decide) (Reads.close (by decide) t.toList)

theorem not_isWordChar_head_typeArgument (typeParam : Option String) :
    ∀ c ∈ (typeArgument typeParam).toList.head?, isWordChar c = false := by
  rw [typeArgument]
  split
  · rw [String.toList_append, String.toList_append]
    intro c hc
    obtain rfl := Option.some.inj hc
    decide
  · simp

theorem not_isWordChar_head_renderArgs (indent : String) (args : Option (List Fragment)) :
    ∀ c ∈ (renderArgs indent args).toList.head?, isWordChar c = false := by
  cases args with
  | none => simp [renderArgs]
  | some args =>
    rw [renderArgs, String.toList_append, String.toList_append]
    intro c hc
    obtain rfl := Option.some.inj hc
    decide

/-- A name with its type parameter and its arguments. -/
theorem reads_call {name : String} (hname : Ends name.toList) (typeParam : Option String)
    {indent : String} {args : Option (List Fragment)}
    (hargs : Reads (renderArgs indent args).toList (argsLexed args)) :
    Reads (name.toList ++ (typeArgument typeParam).toList ++ (renderArgs indent args).toList)
      (lexemes name.toList ++ typeLexed typeParam ++ argsLexed args) :=
  ((Reads.of_ends hname).append (reads_typeArgument typeParam)
    (not_isWordChar_head_typeArgument typeParam)).append hargs
      (not_isWordChar_head_renderArgs indent args)

theorem not_isWordChar_head_renderChain (indent : String) (multiline : Bool) {fs : List Fragment}
    (h : ArePlainSteps fs) :
    ∀ c ∈ (renderChain indent multiline fs).toList.head?, isWordChar c = false := by
  cases fs with
  | nil => simp [renderChain]
  | cons f fs =>
    have hlink (rest : List Char) : ∀ c ∈ ((f.link ++ render indent f).toList ++ rest).head?,
        isWordChar c = false := by
      intro c hc
      cases f with
      | step name typeParam args attached =>
        simp only [link, render, String.toList_append, List.append_assoc] at hc
        obtain rfl := Option.some.inj hc
        decide
      | projection fields =>
        simp only [link, String.toList_append, List.append_assoc] at hc
        obtain rfl := Option.some.inj hc
        decide
      | _ => exact absurd h.1.1 id
    rw [renderChain]
    split
    · simp only [String.toList_append, List.append_assoc]
      intro c hc
      obtain rfl := Option.some.inj hc
      decide
    · have htext : ("" ++ f.link ++ render indent f ++ renderChain indent multiline fs).toList =
          (f.link ++ render indent f).toList ++ (renderChain indent multiline fs).toList := by simp
      rw [htext]
      exact hlink _

/-- Indentation is blank. -/
def IsIndent (indent : String) : Prop := ∀ c ∈ indent.toList, isBlank c = true

instance (indent : String) : Decidable (IsIndent indent) :=
  inferInstanceAs (Decidable (∀ c ∈ indent.toList, isBlank c = true))

theorem IsIndent.tab {indent : String} (h : IsIndent indent) : IsIndent (indent ++ tab) := by
  rw [IsIndent, String.toList_append, List.forall_mem_append]
  exact ⟨h, by decide⟩

/-- The indentation of a chain, whose steps may stand on lines of their own. -/
theorem IsIndent.chain {indent : String} (h : IsIndent indent) (multiline : Bool) :
    IsIndent (if multiline then indent ++ Text.tab else indent) := by
  split
  · exact h.tab
  · exact h

mutual

/-- A rendered fragment is read as the tokens of the fragment. -/
theorem reads_render {f : Fragment} (h : IsPlain f) {indent : String} (hindent : IsIndent indent) :
    Reads (render indent f).toList (lexed f) := by
  cases f with
  | text s =>
    rw [render, lexed]
    exact Reads.of_ends h
  | step name typeParam args attached =>
    obtain ⟨hne, hname, hargs⟩ := h
    have hcall := reads_call hname typeParam (reads_renderArgs hargs hindent)
    have htext : (render indent (step name typeParam args attached)).toList =
        ':' :: ':' :: (name.toList ++ (typeArgument typeParam).toList ++
          (renderArgs indent args).toList) := by
      simp [render]
    rw [htext, lexed]
    -- colons at the end of the text would not be told from those that follow it
    exact hcall.colons (by simp [hne])
  | expression head callArgs chain =>
    obtain ⟨hhead, hargs, hchain⟩ := h
    rw [render, lexed, String.toList_append, String.toList_append]
    exact ((Reads.of_ends hhead).append (reads_renderArgs hargs hindent)
      (not_isWordChar_head_renderArgs indent callArgs)).append (reads_renderChain hchain hindent false)
        (not_isWordChar_head_renderChain indent false hchain)
  | projection fields =>
    have hbrace : Reads ['\x7d'] [.mark '\x7d'] := Reads.close (by decide) []
    rw [lexed]
    cases fields with
    | nil =>
      rw [toList_render_braces]
      exact hbrace.mark (by decide)
    | cons field fields =>
      have hfields := Reads.intercalate ['\n'] (by decide) (reads_renderFields h hindent.tab)
      have hclose : Reads ('\n' :: indent.toList ++ ['\x7d']) [.mark '\x7d'] :=
        hbrace.blanks _ (List.forall_mem_cons.2 ⟨by decide, hindent⟩)
      have hbody := (hfields.blanks ['\n'] (by decide)).append hclose
        (by simpa using (by decide : isWordChar '\n' = false))
      rw [toList_render_projection]
      exact hbody.mark (by decide)
  | source origin typeParam args steps multiline =>
    obtain ⟨horigin, hargs, hsteps⟩ := h
    have hdeep := hindent.chain multiline
    rw [render, lexed]
    simp only [String.toList_append]
    exact (reads_call horigin typeParam (reads_renderArgs hargs hindent)).append
      (reads_renderChain hsteps hdeep multiline) (not_isWordChar_head_renderChain _ multiline hsteps)
  | _ => exact absurd h id

theorem reads_renderArgs {args : Option (List Fragment)} (h : ArePlainArgs args) {indent : String}
    (hindent : IsIndent indent) : Reads (renderArgs indent args).toList (argsLexed args) := by
  cases args with
  | none => exact Reads.nil
  | some args =>
    have hjoined := Reads.intercalate [' '] (by decide) (reads_renderAll h hindent)
    rw [toList_renderArgs, argsLexed, ← hjoined.lexemes_eq]
    exact Reads.mark (by decide) (Reads.close (by decide) _)

theorem reads_renderAll {fs : List Fragment} (h : ArePlain fs) {indent : String}
    (hindent : IsIndent indent) :
    List.Forall₂ Reads ((renderAll indent fs).map String.toList) (allLexed fs) := by
  cases fs with
  | nil => exact .nil
  | cons f fs => exact .cons (reads_render h.1 hindent) (reads_renderAll h.2 hindent)

theorem reads_renderFields {fields : List (String × Fragment)} (h : ArePlainFields fields)
    {indent : String} (hindent : IsIndent indent) :
    List.Forall₂ Reads ((renderFields indent fields).map String.toList) (fieldsLexed fields) := by
  cases fields with
  | nil => exact .nil
  | cons field fields =>
    obtain ⟨name, f⟩ := field
    obtain ⟨⟨hname, hf⟩, hfields⟩ := h
    have hfield := (Reads.field hname (reads_render hf hindent)).blanks _ hindent
    rw [renderFields, List.map_cons, fieldsLexed, toList_renderField]
    exact .cons hfield (reads_renderFields hfields hindent)

theorem reads_renderChain {fs : List Fragment} (h : ArePlainSteps fs) {indent : String}
    (hindent : IsIndent indent) (multiline : Bool) :
    Reads (renderChain indent multiline fs).toList (chainLexed fs) := by
  cases fs with
  | nil => exact Reads.nil
  | cons f fs =>
    obtain ⟨⟨hlink, hf⟩, hfs⟩ := h
    have hfirst : Reads (f.link.toList ++ (render indent f).toList) (linkLexed f ++ lexed f) := by
      have hrender := reads_render hf hindent
      cases f with
      | step name typeParam args attached => exact hrender
      | projection fields =>
        have hne : (render indent (projection fields)).toList ≠ [] := by
          rw [render]
          split <;> simp
        have hlinkText : (link (projection fields)).toList = [':', ':'] := by simp [link]
        rw [hlinkText]
        exact hrender.colons hne
      | _ => exact absurd hlink id
    have hbreak : ∀ c ∈ (if multiline && !f.isAttached then "\n" ++ indent else "").toList,
        isBlank c = true := by
      split
      · rw [String.toList_append, List.forall_mem_append]
        exact ⟨by decide, hindent⟩
      · simp
    have hchain := (hfirst.append (reads_renderChain hfs hindent multiline)
      (not_isWordChar_head_renderChain indent multiline hfs)).blanks _ hbreak
    rw [renderChain, chainLexed]
    simpa only [String.toList_append, List.append_assoc] using hchain

end

end Fragment

end Hql
