import Hql.Proofs.Library.Templates
import Hql.Proofs.Query.Measure

/-!
Which queries of a library keep their lines when they are laid out a second time. All do but one: where
an edge has a single property with a name of three characters, the step that writes it is just too long
for one line before its spacing is in order, and short enough afterwards.
-/

namespace Hql

open Text Layout Fragment

namespace Library

/-! ### Steps -/

/-- The tokens of a step of the library start with its name. -/
theorem bodyLexed_step {name : String} (hname : name ∈ libraryWords) (typeParam : Option String)
    (args : Option (List Fragment)) (attached : Bool) :
    bodyLexed (step name typeParam args attached) =
      .word name.toList :: (typeLexed typeParam ++ argsLexed args) := by
  rw [bodyLexed, callLexed, lexemes_of_mem hname]
  rfl

theorem map_snd_tokens_step {f : Fragment} (h : IsStep f) {indent : String}
    (hindent : IsIndent indent) : (tokens false (bodyText indent f).toList).map Prod.snd = bodyLexed f := by
  rw [map_snd_tokens]
  exact (h.reads hindent).lexemes_eq

section Steps

variable {name : String} {typeParam : Option String} {args : Option (List Fragment)} {attached : Bool}
  {indent : String}

/-- A step whose name is among the short ones. -/
theorem steady_of_short_name (hname : name ∈ libraryWords)
    (hstep : IsStep (step name typeParam args attached)) (hindent : IsIndent indent)
    (hshort : ∀ cs, isShortStep (name.toList ++ cs) = true) :
    Steady (tokens false (bodyText indent (step name typeParam args attached)).toList) := by
  have htokens := map_snd_tokens_step hstep hindent
  rw [bodyLexed_step hname] at htokens
  exact steady_of_short htokens hshort

end Steps

/-! ### Statements -/

/-- A statement keeps its lines if its steps stay as short, or as long, as they are. -/
theorem firm_of_steady {name origin : String} {typeParam : Option String}
    {args : Option (List Fragment)} {steps : List Fragment} {multiline : Bool}
    (h : ∀ f ∈ steps, spreads (bodyLexed f) = true ∨
      Steady (tokens false (bodyText (if multiline then tab ++ tab else tab) f).toList))
    (hsteps : ∀ f ∈ steps, IsStep f) :
    (clause tab (assignment name (source origin typeParam args steps multiline))).Firm := by
  have hindent : IsIndent (if multiline then tab ++ tab else tab) := by
    cases multiline
    · exact Query.isIndent_tab
    · exact Query.isIndent_tab.tab
  refine onOneLine_relay ?_
  rw [List.map_map, List.forall_mem_map]
  intro f hf
  rw [Function.comp_apply, chainStep, map_snd_tokens_step (hsteps f hf) hindent]
  exact h f hf

/-- A chain with at most one step stands on one line. -/
theorem firm_of_length_le {name origin : String} {typeParam : Option String}
    {args : Option (List Fragment)} {steps : List Fragment} {multiline : Bool}
    (h : steps.length ≤ 1) :
    (clause tab (assignment name (source origin typeParam args steps multiline))).Firm := by
  rw [clause, Clause.Firm, onOneLine, onOneLine]
  simp [h]

/-! ### Queries -/

variable {e : Entity}

/-- A query keeps its lines if its statements do. -/
theorem firm_iff {q : Query} : q.outline.Firm ↔ ∀ f ∈ q.statements, (clause tab f).Firm := by
  rw [Query.outline, Outline.Firm, List.forall_mem_map]

theorem steady_connectionSteps :
    ∀ f ∈ connectionSteps, Steady (tokens false (bodyText tab f).toList) := by
  simp only [connectionSteps, List.forall_mem_cons]
  exact ⟨by decide, by decide, by simp⟩

theorem firm_connect (e : Entity) : (connect e).outline.Firm :=
  firm_iff.2 <| List.forall_mem_singleton.2 <|
    firm_of_steady (fun f hf => .inr (steady_connectionSteps f hf)) isStep_connectionSteps

theorem firm_allNodes (e : Entity) (proControl : Bool) : (allNodes e proControl).outline.Firm := by
  cases proControl with
  | false => exact firm_iff.2 (List.forall_mem_singleton.2 (firm_of_length_le (Nat.le_refl 1)))
  | true =>
    refine firm_iff.2 (List.forall_mem_singleton.2 (firm_of_steady ?_ ?_))
    · simp only [List.forall_mem_cons]
      exact ⟨.inr (by decide), .inr (by decide), by simp⟩
    · refine List.forall_mem_cons.2 ⟨isStep_typed (by decide) (isName_of_mem (by decide))
        (areArguments_singleton isArgument_identity (.inl (by simp [lexed_identity]))) false,
        List.forall_mem_singleton.2 (isStep_of_mem (by decide)
          (areArguments_texts_of_mem ["offset", "limit"]
            (List.forall_mem_cons.2 ⟨by decide, List.forall_mem_singleton.2 (by decide)⟩)) false)⟩

theorem firm_twoHop (h : IsReadable e) : (twoHop e).outline.Firm := by
  have hop : IsStep (step "Out" (some e.name) none false) :=
    isStep_typed (by decide) h.name areArguments_none false
  have hops : ∀ f ∈ (if e.source == e.target then
      [step "Out" (some e.name) none false, step "Out" (some e.name) none false]
      else [step "Out" (some e.name) none false]), f = step "Out" (some e.name) none false := by
    split <;> simp
  refine firm_iff.2 (List.forall_mem_singleton.2 (firm_of_steady ?_ ?_))
  · rw [List.forall_mem_append]
    refine ⟨fun f hf => .inr ?_, List.forall_mem_singleton.2 (.inr (by decide))⟩
    rw [hops f hf]
    exact steady_of_short_name (by decide) hop Query.isIndent_tab.tab fun _ => rfl
  · rw [List.forall_mem_append]
    refine ⟨fun f hf => ?_, List.forall_mem_singleton.2 isStep_range⟩
    rw [hops f hf]
    exact hop

theorem firm_mutualConnections (h : IsReadable e) : (mutualConnections e).outline.Firm := by
  have hop : IsStep (step "Out" (some e.name) none true) :=
    isStep_typed (by decide) h.name areArguments_none true
  have hwhere : IsStep (step "WHERE" none (some [reciprocal e.name]) false) :=
    isStep_of_mem (by decide)
      (areArguments_singleton (isArgument_reciprocal h.name) (fielded_reciprocal h.name)) false
  refine firm_iff.2 (List.forall_mem_singleton.2 (firm_of_steady ?_ ?_))
  · simp only [List.forall_mem_cons]
    exact ⟨.inr (steady_of_short_name (by decide) hop Query.isIndent_tab.tab fun _ => rfl),
      .inr (steady_of_short_name (by decide) hwhere Query.isIndent_tab.tab fun _ => rfl), by simp⟩
  · exact List.forall_mem_cons.2 ⟨hop, List.forall_mem_singleton.2 hwhere⟩

theorem firm_pathQuery {title : String} {search : Fragment} (hstep : IsStep search)
    (hsearch : Steady (tokens false (bodyText (tab ++ tab) search).toList)) :
    (pathQuery e title search).outline.Firm := by
  refine firm_iff.2 (List.forall_mem_singleton.2 (firm_of_steady ?_ ?_))
  · exact List.forall_mem_cons.2 ⟨.inr hsearch, List.forall_mem_singleton.2 (.inr (by decide))⟩
  · exact List.forall_mem_cons.2 ⟨hstep, List.forall_mem_singleton.2
      (isStep_of_mem (by decide) (areArguments_param (by decide)) true)⟩

theorem firm_shortestPath (h : IsReadable e) : (shortestPath e).outline.Firm := by
  have hstep : IsStep (step "ShortestPathBFS" (some e.name) none false) :=
    isStep_typed (by decide) h.name areArguments_none false
  obtain ⟨w, hname, -⟩ := h.name
  refine firm_pathQuery hstep (steady_of_plain ?_)
  rw [map_snd_tokens_step hstep Query.isIndent_tab.tab, bodyLexed_step (by decide), typeLexed_eq hname,
    argsLexed]
  simp [typeTokens]

theorem firm_weightedPath (h : IsReadable e) {p : Property} (hp : p ∈ e.namedProperties) :
    (weightedPath e p).outline.Firm := by
  have hlabel := (h.properties p hp).1
  have hstep : IsStep (step "ShortestPathDijkstras" (some e.name) (some [property p.name]) false) :=
    isStep_typed (by decide) h.name
      (areArguments_singleton (isArgument_property hlabel) (fielded_property hlabel)) false
  have htokens := map_snd_tokens_step hstep Query.isIndent_tab.tab
  rw [bodyLexed_step (by decide)] at htokens
  refine firm_pathQuery hstep (steady_of_long htokens (fun _ => rfl) ?_)
  rw [htokens, List.flatMap_cons, List.length_append]
  exact Nat.le_trans (by decide) (Nat.le_add_right _ _)

theorem firm_hybridSearch (h : IsReadable e) {prefilter : Option Property}
    (hp : ∀ p ∈ prefilter, p ∈ e.namedProperties) : (hybridSearch e prefilter).outline.Firm := by
  refine firm_iff.2 (List.forall_mem_singleton.2 ?_)
  cases prefilter with
  | none => exact firm_of_length_le (Nat.le_refl 1)
  | some p =>
    have hlabel := (h.properties p (hp p rfl)).1
    have hnarrow : IsStep (step "PREFILTER" none (some [comparison p.name]) false) :=
      isStep_of_mem (by decide)
        (areArguments_singleton (isArgument_comparison hlabel) (fielded_comparison hlabel)) false
    have hrank : IsStep (step "RerankRRF" none (some [text ("k: " ++ toString rankConstant)]) false) :=
      isStep_of_mem (by decide) (areArguments_singleton isArgument_rank
        (.inl (by rw [lexed]; decide))) false
    have htokens := map_snd_tokens_step hnarrow Query.isIndent_tab
    rw [bodyLexed_step (by decide)] at htokens
    have hlong : Steady (tokens false
        (bodyText tab (step "PREFILTER" none (some [comparison p.name]) false)).toList) := by
      refine steady_of_long htokens (fun _ => rfl) ?_
      obtain ⟨w, hname, -⟩ := hlabel
      rw [htokens, argsLexed, allLexed, allLexed, separated_singleton, lexed_comparison hname]
      simp [propertyTokens, stepTokens, Token.chars, typeLexed]
    exact firm_of_steady (List.forall_mem_cons.2 ⟨.inr hlong,
      List.forall_mem_singleton.2 (.inr (by decide))⟩)
      (List.forall_mem_cons.2 ⟨hnarrow, List.forall_mem_singleton.2 hrank⟩)

/-! ### The step that writes the properties of an edge -/

/-- The step that writes some properties of an edge. -/
def writeStep (ps : List Property) : Fragment := step "UpsertE" none (some [assignAll ps]) false

theorem IsReadable.isStep_writeStep (h : IsReadable e) (hne : e.namedProperties ≠ []) :
    IsStep (writeStep e.namedProperties) :=
  isStep_of_mem (by decide) (h.areArguments_assignAll hne) false

/-- Each property that is written is one field. -/
theorem spreads_writeStep (h : IsReadable e) (hne : e.namedProperties ≠ []) :
    spreads (bodyLexed (writeStep e.namedProperties)) = decide (2 ≤ e.namedProperties.length) := by
  have hfields : ∀ ts ∈ (e.namedProperties.map fun p => (p.name, ident p.name)).map
      fun field => lexemes field.1.toList ++ .mark ':' :: lexed field.2, IsField ts :=
    List.forall_mem_map.2 fun field hfield => (h.isFieldOf field hfield).field
  have hshape : bodyLexed (writeStep e.namedProperties) = [.word "UpsertE".toList, .mark '('] ++
      projected ((e.namedProperties.map fun p => (p.name, ident p.name)).map
        fun field => lexemes field.1.toList ++ .mark ':' :: lexed field.2) ++ [.mark ')'] := by
    rw [writeStep, bodyLexed_step (by decide), argsLexed, allLexed, allLexed, separated_singleton,
      assignAll, lexed_projection]
    rfl
  rw [hshape, spreads_projected (by simpa using hne) hfields (by simp)]
  simp

theorem bodyText_writeStep (p : Property) : (bodyText tab (writeStep [p])).toList =
    "UpsertE(\x7b".toList ++ '\n' :: ((tab ++ tab).toList ++ (p.name.toList ++ (':' :: ' ' ::
      (p.name.toList ++ ('\n' :: (tab.toList ++ "\x7d)".toList)))))) := by
  simp [bodyText, writeStep, callText, renderArgs, renderAll, assignAll, render, renderFields,
    typeArgument, ident, renderChain]

theorem tokens_writeStep {p : Property} {w b : List Char} (hname : p.name.toList = w ++ b)
    (hw : isIdentifier w = true) (hb : ∀ c ∈ b, isBlank c = true) :
    tokens false (bodyText tab (writeStep [p])).toList =
      [(false, .word "UpsertE".toList), (false, .mark '('), (false, .mark '\x7b'), (true, .word w),
        (!b.isEmpty, .mark ':'), (true, .word w), (true, .mark '\x7d'), (false, .mark ')')] := by
  have hword {d : Char} (hd : isWordChar d = false) (rest : List Char) :
      tokens true (w ++ (b ++ d :: rest)) = (true, .word w) :: tokens (!b.isEmpty) (d :: rest) := by
    have hchars : tokens true w = [(true, .word w)] :=
      tokens_chars (t := .word w) ⟨Schema.isIdentifier_ne_nil hw, fun c hc =>
        isWordChar_of_isIdentChar (Schema.isIdentChar_of_mem hw c hc)⟩ true
    have hhead : ∀ c ∈ (b ++ d :: rest).head?, isWordChar c = false := by
      intro c hc
      cases b with
      | nil =>
        obtain rfl := Option.some.inj hc
        exact hd
      | cons c' b =>
        obtain rfl := Option.some.inj hc
        exact isWordChar_of_isBlank (hb _ (List.mem_cons_self ..))
    rw [(shut_of_isIdentifier hw).tokens_append hhead, hchars, tokens_blanks hb]
    rfl
  have hopen : tokens false "UpsertE(\x7b".toList =
      [(false, .word "UpsertE".toList), (false, .mark '('), (false, .mark '\x7b')] := by decide
  have hclose (gap : Bool) : tokens gap ('\n' :: (tab.toList ++ "\x7d)".toList)) =
      [(true, .mark '\x7d'), (false, .mark ')')] := by cases gap <;> decide
  have hcolon (gap : Bool) (rest : List Char) :
      tokens gap (':' :: ' ' :: rest) = (gap, .mark ':') :: tokens true rest := by
    rw [tokens_mark (by decide) (by decide) (by simp)]
    rfl
  rw [bodyText_writeStep, tokens_append_blank (by decide), hopen, tokens_blanks (by decide),
    Bool.true_or, hname, List.append_assoc, hword (by decide), hcolon, List.append_assoc,
    hword (by decide), hclose]
  rfl

/-- How long the step is, before its spacing is in order and afterwards. -/
theorem isShortStep_writeStep {p : Property} {w b : List Char} (hname : p.name.toList = w ++ b)
    (hw : isIdentifier w = true) (hb : b = [] ∨ b = ['\n']) :
    isShortStep (written (flush (tokens false (bodyText tab (writeStep [p])).toList))) =
        decide (2 * w.length + b.length < 5) ∧
      isShortStep (written (tight (flush (tokens false (bodyText tab (writeStep [p])).toList)))) =
        decide (2 * w.length + b.length < 7) := by
  have hmeasure (ts : Tokens) : isShortStep (written ((false, .word "UpsertE".toList) :: ts)) =
      decide ((written ts).length < 13) := by
    have hstep (cs : List Char) : isShortStep ("UpsertE".toList ++ cs) =
        decide (("UpsertE".toList ++ cs).length < 20) := rfl
    have hchars : written ((false, .word "UpsertE".toList) :: ts) = "UpsertE".toList ++ written ts := rfl
    rw [hchars, hstep, decide_eq_decide, List.length_append]
    change 7 + _ < _ ↔ _
    omega
  have hblank : ∀ c ∈ b, isBlank c = true := by
    rcases hb with rfl | rfl <;> decide
  rw [tokens_writeStep hname hw hblank]
  rcases hb with rfl | rfl
  all_goals
    constructor
    · refine (hmeasure _).trans ?_
      rw [decide_eq_decide]
      simp [written, gapChars, Token.chars]
      omega
    · refine (hmeasure _).trans ?_
      rw [decide_eq_decide]
      simp [written, gapChars, Token.chars, tightGap, chainGap, regap]
      omega

/-- The step gets a line of its own. -/
theorem not_staysAttached_writeStep {p : Property} {w b : List Char} (hname : p.name.toList = w ++ b)
    (hw : isIdentifier w = true) (hb : ∀ c ∈ b, isBlank c = true)
    (hplain : spreads ((tokens false (bodyText tab (writeStep [p])).toList).map Prod.snd) = false) :
    staysAttached (elementText (tokens false (bodyText tab (writeStep [p])).toList)) = false := by
  rw [elementText_of_not_spreads hplain, tokens_writeStep hname hw hb]
  rfl

/-- The origin of a chain stands on one line. -/
theorem spreads_origin {origin name : String} (horigin : origin ∈ libraryWords) (hname : IsName name) :
    spreads ((tokens true (callText tab origin (some name) none).toList).map Prod.snd) = false := by
  have hcalls : Calls origin (some name) none :=
    calls_of_mem horigin (by simpa using hname) areArguments_none
  obtain ⟨w, hw, -⟩ := hname
  rw [map_snd_tokens]
  refine (congrArg spreads (hcalls.reads Query.isIndent_tab).lexemes_eq).trans
    (spreads_eq_false (.inl ?_))
  rw [callLexed, typeLexed_eq hw, lexemes_of_mem horigin, argsLexed]
  simp [typeTokens]

/-- An edge with a single property, whose name has three characters. -/
def HasShortField (e : Entity) : Prop := ∃ p, e.namedProperties = [p] ∧ p.name.length = 3

instance (e : Entity) : Decidable (HasShortField e) :=
  decidable_of_iff (e.namedProperties.map (fun p => p.name.length) = [3]) List.map_eq_singleton_iff

/-- The name of a stored property in two parts. -/
theorem length_of_isStoredPropertyName {p : Property}
    (h : Validation.isStoredPropertyName p.name.toList = true) : ∃ w b, p.name.toList = w ++ b ∧
      isIdentifier w = true ∧ (b = [] ∨ b = ['\n']) ∧ b.length ≤ 1 ∧ 1 ≤ w.length ∧
        p.name.length = w.length + b.length := by
  obtain ⟨w, b, hname, hw, hb⟩ := exists_of_isStoredPropertyName h
  refine ⟨w, b, hname, hw, hb, ?_, List.length_pos_iff.2 (Schema.isIdentifier_ne_nil hw), ?_⟩
  · rcases hb with rfl | rfl <;> decide
  · rw [← String.length_toList, hname, List.length_append]

section Writing

variable {q : Query} (h : IsReadable e)
  (hstored : ∀ p ∈ e.namedProperties, Validation.isStoredPropertyName p.name.toList = true)
  (hq : upsertEdge? e = some q)

include h hstored hq

/-- The query that writes an edge keeps its lines if its step does. -/
theorem firm_upsertEdge (hshort : ¬ HasShortField e) : q.outline.Firm := by
  obtain ⟨hne, rfl⟩ := upsertEdge?_eq_some hq
  have hwrite : spreads (bodyLexed (writeStep e.namedProperties)) = true ∨
      Steady (tokens false (bodyText tab (writeStep e.namedProperties)).toList) := by
    by_cases hmany : 2 ≤ e.namedProperties.length
    · exact .inl ((spreads_writeStep h hne).trans (decide_eq_true hmany))
    · obtain ⟨p, hp⟩ : ∃ p, e.namedProperties = [p] := by
        rw [← List.length_eq_one_iff]
        have hpos := List.length_pos_iff.2 hne
        omega
      obtain ⟨w, b, hname, hw, hb, hle, hpos, hlength⟩ := length_of_isStoredPropertyName
        (hstored p (by rw [hp]; exact List.mem_singleton_self p))
      obtain ⟨hbefore, hafter⟩ := isShortStep_writeStep hname hw hb
      have hthree : p.name.length ≠ 3 := fun heq => hshort ⟨p, hp, heq⟩
      rw [hp]
      refine .inr (hafter.trans (Eq.trans ?_ hbefore.symm))
      rw [decide_eq_decide]
      omega
  exact firm_iff.2 (List.forall_mem_singleton.2 (firm_of_steady
    (List.forall_mem_cons.2 ⟨hwrite, fun f hf => .inr (steady_connectionSteps f hf)⟩)
    (List.forall_mem_cons.2 ⟨h.isStep_writeStep hne, isStep_connectionSteps⟩)))

/-- The query that writes an edge is drawn together when it is laid out again, if its step is one that
gets short. -/
theorem length_upsertEdge_lt (hshort : HasShortField e) :
    (spaced q.outline.relaid.lay).length < (spaced q.outline.lay).length := by
  obtain ⟨hne, rfl⟩ := upsertEdge?_eq_some hq
  obtain ⟨p, hp, hthree⟩ := hshort
  obtain ⟨w, b, hname, hw, hb, hle, hpos, hlength⟩ := length_of_isStoredPropertyName
    (hstored p (by rw [hp]; exact List.mem_singleton_self p))
  obtain ⟨hbefore, hafter⟩ := isShortStep_writeStep hname hw hb
  have hwrite : spreads (bodyLexed (writeStep [p])) = false := by
    rw [← hp, spreads_writeStep h hne, hp]
    rfl
  have hstep := h.isStep_writeStep hne
  rw [hp] at hstep
  have hplain : ∀ ts ∈ (writeStep [p] :: connectionSteps).map
      (fun f => tokens false (bodyText tab f).toList), spreads (ts.map Prod.snd) = false := by
    refine List.forall_mem_map.2 (List.forall_mem_cons.2 ⟨?_, ?_⟩)
    · rwa [map_snd_tokens_step hstep Query.isIndent_tab]
    · simp only [connectionSteps, List.forall_mem_cons]
      exact ⟨by decide, by decide, by simp⟩
  have hmany : 2 ≤ ((writeStep [p] :: connectionSteps).map
      fun f => tokens false (bodyText tab f).toList).length := Nat.le_succ 2
  have horigin : spreads ((tokens true (callText tab "E" (some e.name) none).toList).map
      Prod.snd) = false := spreads_origin (by decide) h.name
  -- whether the chain gets one line depends on the length of this step alone, which is measured
  -- with all its blanks the first time and with its spacing in order the second time
  obtain ⟨hwide, hnarrow⟩ := onOneLine_of_not_spreads hmany
    (List.forall_mem_cons.2 ⟨horigin, hplain⟩)
  have hsteps : ((writeStep e.namedProperties :: connectionSteps).map (chainStep tab false)).map
      Prod.snd = (writeStep [p] :: connectionSteps).map
        fun f => tokens false (bodyText tab f).toList := by
    rw [List.map_map, hp]
    rfl
  refine Outline.length_lay_relaid_lt rfl (Clause.length_lay_relaid_lt ?_ ?_ ?_)
  · refine (congrArg _ hsteps).trans (hwide.trans ?_)
    rw [List.map_cons, List.all_cons, hbefore, decide_eq_false (by omega), Bool.false_and]
  · refine (congrArg _ (congrArg _ hsteps)).trans (hnarrow.trans ?_)
    rw [List.map_cons, List.all_cons, hafter, decide_eq_true (by omega), Bool.true_and]
    decide
  · have hmem : tokens false (bodyText tab (writeStep [p])).toList ∈
        ((writeStep e.namedProperties :: connectionSteps).map (chainStep tab false)).map Prod.snd := by
      rw [hsteps]
      exact List.mem_cons_self ..
    have hblank : ∀ c ∈ b, isBlank c = true := by
      rcases hb with rfl | rfl <;> decide
    exact ⟨_, hmem,
      not_staysAttached_writeStep hname hw hblank (hplain _ (List.mem_cons_self ..))⟩

end Writing

/-! ### Queries of a library -/

/-- Of all queries of a library, only those that write an edge with a short field do not keep their
lines. -/
theorem Template.firm {config : Config} {model : Model} {q : Query} (h : IsReadable e)
    (hstored : ∀ p ∈ e.namedProperties, Validation.isStoredPropertyName p.name.toList = true)
    (htemplate : Template config model e q) : q.outline.Firm ∨
      (config.crud.upsert = true ∧ e.isConnected = true ∧ HasShortField e ∧ upsertEdge? e = some q) := by
  have hone {f : Fragment} (hf : (clause tab f).Firm) : ∀ g ∈ [f], (clause tab g).Firm :=
    List.forall_mem_singleton.2 hf
  have hzero : ([] : List Fragment).length ≤ 1 := Nat.zero_le 1
  have hsingle (f : Fragment) : [f].length ≤ 1 := Nat.le_refl 1
  -- chains of at most one step always have one line; the others need their steps looked at
  cases htemplate with
  | upsertEdge hflag hconnected hq =>
    by_cases hshort : HasShortField e
    · exact .inr ⟨hflag, hconnected, hshort, hq⟩
    · exact .inl (firm_upsertEdge h hstored hq hshort)
  | upsertNode _ hq =>
    obtain ⟨-, rfl⟩ := upsertNode?_eq_some hq
    exact .inl (firm_iff.2 (List.forall_mem_cons.2 ⟨firm_of_length_le hzero,
      hone (firm_of_length_le (hsingle _))⟩))
  | upsertVector _ hq =>
    obtain ⟨-, rfl⟩ := upsertVector?_eq_some hq
    exact .inl (firm_iff.2 (List.forall_mem_cons.2 ⟨firm_of_length_le hzero,
      hone (firm_of_length_le (hsingle _))⟩))
  | aggregate _ _ hfunction hq =>
    obtain ⟨-, rfl⟩ := aggregate?_eq_some hfunction hq
    exact .inl (firm_iff.2 (hone (firm_of_length_le hzero)))
  | createNode => exact .inl (firm_iff.2 (hone (firm_of_length_le hzero)))
  | nodeById => exact .inl (firm_iff.2 (hone (firm_of_length_le hzero)))
  | nodeByUnique => exact .inl (firm_iff.2 (hone (firm_of_length_le (hsingle _))))
  | allNodes => exact .inl (firm_allNodes e _)
  | deleteNode => exact .inl (firm_iff.2 (hone trivial))
  | connect => exact .inl (firm_connect e)
  | traversal => exact .inl (firm_iff.2 (hone (firm_of_length_le (hsingle _))))
  | twoHop => exact .inl (firm_twoHop h)
  | mutualConnections => exact .inl (firm_mutualConnections h)
  | @vectorSearch prefilter =>
    refine .inl (firm_iff.2 (hone (firm_of_length_le ?_)))
    cases prefilter with
    | none => exact hzero
    | some p => exact hsingle _
  | hybridSearch _ hp => exact .inl (firm_hybridSearch h hp)
  | addVector => exact .inl (firm_iff.2 (hone (firm_of_length_le hzero)))
  | keywordSearch => exact .inl (firm_iff.2 (hone (firm_of_length_le hzero)))
  | shortestPath => exact .inl (firm_shortestPath h)
  | weightedPath _ hp => exact .inl (firm_weightedPath h hp)
  | deepDetail => exact .inl (firm_iff.2 (List.forall_mem_cons.2 ⟨firm_of_length_le hzero,
      hone (firm_of_length_le (hsingle _))⟩))
  | countNodes => exact .inl (firm_iff.2 (hone (firm_of_length_le (hsingle _))))
  | groupBy => exact .inl (firm_iff.2 (hone (firm_of_length_le (hsingle _))))

end Library

end Hql
