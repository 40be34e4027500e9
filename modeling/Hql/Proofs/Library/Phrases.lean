import Hql.Library.Sections
import Hql.Proofs.Query.Outline

/-!
The phrases of the library: the words that its queries are made of, and the arguments, fields, values
and parameters that are put together from them and from names.
-/

namespace Hql

open Text Layout

namespace Library

/-! ### Words -/

/-- The words of the library that no spelling changes wherever they stand. -/
def libraryWords : List String := [
  -- origins and steps
  "N", "E", "V", "AddN", "AddE", "AddV", "SearchV", "SearchBM25", "existing", "origin",
  "From", "To", "Out", "OutE", "InE", "UpsertN", "UpsertE", "UpsertV", "RANGE", "WHERE", "ORDER",
  "PREFILTER", "COUNT", "GROUP_BY", "RerankRRF", "ShortestPathBFS", "ShortestPathDijkstras",
  -- what stands in arguments
  "EXISTS", "EQ", "ID", "Asc", "SUM", "AVG", "_", "0", "60", "k", "from_id", "to_id", "start_id",
  "a_id", "b_id", "node_id", "start", "end", "limit", "offset", "vec", "val", "text", "data",
  "order_field", "is_desc",
  -- variables
  "edge", "results", "network", "mutual", "path", "new_node", "upsert_node", "result", "detail",
  "total", "groups", "new_v", "upsert_v",
  "Deleted", undefinedEnd] ++ Keyword.types

theorem isNeutral_of_mem : ∀ s ∈ libraryWords, IsNeutral s.toList := by decide +kernel

theorem isWordChar_of_mem : ∀ s ∈ libraryWords, s.toList ≠ [] ∧
    ∀ c ∈ s.toList, isWordChar c = true := by decide +kernel

section Words

variable {s : String}

theorem isSound_of_mem (h : s ∈ libraryWords) : (Token.word s.toList).IsSound := isWordChar_of_mem s h

theorem lexemes_of_mem (h : s ∈ libraryWords) : lexemes s.toList = [.word s.toList] :=
  congrArg (List.map Prod.snd) (tokens_chars (isSound_of_mem h) false)

theorem isName_of_mem (h : s ∈ libraryWords) : IsName s :=
  ⟨s.toList, lexemes_of_mem h, isNeutral_of_mem s h⟩

theorem shut_of_mem (h : s ∈ libraryWords) : Shut s.toList := by
  obtain ⟨hne, hword⟩ := isWordChar_of_mem s h
  have hlast := hword _ (List.getLast_mem hne)
  refine ⟨_, List.getLast?_eq_some_getLast hne, not_isBlank_of_isWordChar hlast, fun heq => ?_⟩
  rw [heq] at hlast
  exact absurd hlast (by decide)

end Words

/-- A word of the library that is bound to no case. -/
theorem isPlainWord_id : IsPlainWord "id".toList := by decide +kernel

theorem isLabel_id : IsLabel "id" := ⟨"id".toList, rfl, isPlainWord_id⟩

end Library

namespace Fragment

open Library

/-! ### Arguments -/

theorem isArgument_text {s : String} (h : IsLabel s) : IsArgument (text s) where
  plain := h.ends
  item := by
    obtain ⟨w, hs, hw⟩ := h
    rw [lexed, hs]
    exact {
      ne_nil := by simp
      stands := by
        rintro opened before after ⟨rfl | rfl, rfl | rfl⟩
        all_goals exact ⟨hw.toIsHarmless, hw.keeps, rfl⟩ }

/-- The tokens of the property `p` of a target. -/
def propertyTokens (target p : List Char) : List Token :=
  [.word target, .colons, .mark '\x7b', .word p, .mark '\x7d']

theorem lexed_property {target name : String} (htarget : target ∈ libraryWords) {p : List Char}
    (hname : lexemes name.toList = [.word p]) :
    lexed (property name target) = propertyTokens target.toList p ∧ IsPlain (property name target) := by
  have htext : (target ++ "::\x7b" ++ name ++ "\x7d").toList =
      target.toList ++ (':' :: ':' :: '\x7b' :: (name.toList ++ ['\x7d'])) := by simp
  have hreads : Reads (target.toList ++ (':' :: ':' :: '\x7b' :: (name.toList ++ ['\x7d'])))
      (propertyTokens target.toList p) := by
    have hclose := Reads.close (by decide : isBlank '\x7d' = false ∧ isWordChar '\x7d' = false ∧
      '\x7d' ≠ ':') name.toList
    rw [hname] at hclose
    have hbrace := Reads.colons (Reads.mark (by decide : isBlank '\x7b' = false ∧
      isWordChar '\x7b' = false ∧ '\x7b' ≠ ':') hclose) (by simp)
    have htargetReads := Reads.of_ends (isName_of_mem htarget).isLabel.ends
    rw [lexemes_of_mem htarget] at htargetReads
    refine htargetReads.append hbrace ?_
    simp
    decide
  rw [← htext] at hreads
  constructor
  · rw [property, lexed, argsLexed, chainLexed, List.append_nil, List.append_nil, hreads.lexemes_eq]
  · exact ⟨hreads.ends, trivial, trivial⟩

theorem stands_propertyTokens {target p : List Char} (htarget : IsNeutral target)
    (hp : IsPlainWord p) {opened : List Bool} {before after : Option Token} (hopened : opened ≠ []) :
    Stands IsHarmless after opened opened before (propertyTokens target p) :=
  .neutral_cons htarget (.colons_cons hopened (by simp) (.mark_cons (by decide) (by decide)
    ⟨hp.toIsHarmless, hp.keeps, .mark_cons (by decide) (by decide) rfl⟩))

theorem fielded_propertyTokens {target p : List Char} : Fielded (propertyTokens target p) :=
  have heq : propertyTokens target p =
      [.word target, .colons] ++ .mark '\x7b' :: [.word p] ++ .mark '\x7d' :: [] := rfl
  fielded_of_eq heq (by simp) (by simp) (by simp) (by simp)
    (by simp [splitTokens, depthThrough, consHead])

/-- The tokens of a step with one word as its argument. -/
def stepTokens (name arg : String) : List Token :=
  [.colons, .word name.toList, .mark '(', .word arg.toList, .mark ')']

theorem lexed_step {name arg : String} (hname : name ∈ libraryWords) (harg : arg ∈ libraryWords) :
    lexed (step name none (some [text arg]) false) = stepTokens name arg := by
  rw [lexed, lexemes_of_mem hname, argsLexed, allLexed, lexed, lexemes_of_mem harg]
  rfl

theorem stands_stepTokens {name arg : String} (hname : name ∈ libraryWords)
    (harg : arg ∈ libraryWords) {opened : List Bool} {before after : Option Token}
    (hopened : opened ≠ []) (hbefore : before ≠ some (.mark ':')) :
    Stands IsHarmless after opened opened before (stepTokens name arg) :=
  .colons_cons hopened hbefore (.neutral_cons (isNeutral_of_mem name hname)
    (.mark_cons (by decide) (by decide) (.neutral_cons (isNeutral_of_mem arg harg)
      (.mark_cons (by decide) (by decide) rfl))))

theorem lexed_identity : lexed identity = [.word "_".toList, .colons, .word "ID".toList] := by
  rw [identity, lexed, argsLexed, chainLexed, List.append_nil, List.append_nil]
  rfl

theorem stands_identity {opened : List Bool} {before after : Option Token} (hopened : opened ≠ []) :
    Stands IsHarmless after opened opened before (lexed identity) := by
  rw [lexed_identity]
  exact .neutral_cons (isNeutral_of_mem "_" (by decide)) (.colons_cons hopened (by simp)
    (.neutral_cons (isNeutral_of_mem "ID" (by decide)) rfl))

theorem isPlain_identity : IsPlain identity := ⟨by decide, trivial, trivial⟩

/-! ### Chains of operations -/

theorem chainLexed_append (fs gs : List Fragment) :
    chainLexed (fs ++ gs) = chainLexed fs ++ chainLexed gs := by
  induction fs with
  | nil => rfl
  | cons f fs ih => rw [List.cons_append, chainLexed, ih, chainLexed, ← List.append_assoc]

theorem arePlainSteps_append {fs gs : List Fragment} (hfs : ArePlainSteps fs)
    (hgs : ArePlainSteps gs) : ArePlainSteps (fs ++ gs) := by
  induction fs with
  | nil => exact hgs
  | cons f fs ih => exact ⟨hfs.1, ih hfs.2⟩

section Operations

variable {head : String} {callArgs : Option (List Fragment)} {chain : List Fragment}

theorem lexed_op (name : String) (args : Option (List Fragment)) (typeParam : Option String) :
    lexed ((expression head callArgs chain).op name args typeParam) =
      lexed (expression head callArgs chain) ++ lexed (step name typeParam args false) := by
  simp only [op, lexed, chainLexed_append, chainLexed, linkLexed, List.append_nil, List.nil_append,
    List.append_assoc]

theorem isPlain_op (h : IsPlain (expression head callArgs chain)) {name : String} (hne : name ≠ "")
    (hname : Ends name.toList) {args : Option (List Fragment)} (hargs : ArePlainArgs args)
    (typeParam : Option String) :
    IsPlain ((expression head callArgs chain).op name args typeParam) := by
  obtain ⟨hhead, hcall, hchain⟩ := h
  exact ⟨hhead, hcall, arePlainSteps_append hchain ⟨⟨trivial, hne, hname, hargs⟩, trivial⟩⟩

end Operations

/-- A property of each. -/
theorem isArgument_property {name : String} (h : IsLabel name) : IsArgument (property name) := by
  obtain ⟨p, hname, hp⟩ := h
  obtain ⟨hlexed, hplain⟩ := lexed_property (by decide : "_" ∈ libraryWords) hname
  refine ⟨hplain, ?_⟩
  rw [hlexed]
  exact ⟨by simp [propertyTokens],
    fun _ _ _ _ => stands_propertyTokens (isNeutral_of_mem "_" (by decide)) hp (by simp)⟩

theorem fielded_property {name : String} (h : IsLabel name) : Fielded (lexed (property name)) := by
  obtain ⟨p, hname, -⟩ := h
  rw [(lexed_property (by decide) hname).1]
  exact fielded_propertyTokens

theorem isArgument_identity : IsArgument identity where
  plain := isPlain_identity
  item := ⟨by simp [lexed_identity], fun _ _ _ _ => stands_identity (by simp)⟩

/-- A property of each compared with a parameter. -/
def comparison (name : String) : Fragment := (property name).op "EQ" (some [text "val"])

theorem lexed_comparison {name : String} {p : List Char} (hname : lexemes name.toList = [.word p]) :
    lexed (comparison name) = propertyTokens "_".toList p ++ stepTokens "EQ" "val" := by
  have hlexed := (lexed_property (by decide : "_" ∈ libraryWords) hname).1
  rw [comparison, property, lexed_op, ← property, hlexed, lexed_step (by decide) (by decide)]

theorem isArgument_comparison {name : String} (h : IsLabel name) : IsArgument (comparison name) := by
  obtain ⟨p, hname, hp⟩ := h
  have hplain := (lexed_property (by decide : "_" ∈ libraryWords) hname).2
  have hval : ArePlainArgs (some [text "val"]) := ⟨(isName_of_mem (by decide)).isLabel.ends, trivial⟩
  refine ⟨isPlain_op hplain (by decide) (by decide) hval none, ?_⟩
  rw [lexed_comparison hname]
  refine ⟨by simp [propertyTokens], fun _ _ _ _ => ?_⟩
  exact (stands_propertyTokens (isNeutral_of_mem "_" (by decide)) hp (by simp)).append
    (stands_stepTokens (by decide) (by decide) (by simp) (by simp [propertyTokens]))

theorem fielded_comparison {name : String} (h : IsLabel name) : Fielded (lexed (comparison name)) := by
  obtain ⟨p, hname, -⟩ := h
  rw [lexed_comparison hname]
  exact Fielded.append fielded_propertyTokens (List.not_mem_nil (a := Token.mark '\x7b'))
    (by simp [stepTokens])

/-- The edges `e` that lead back from each, narrowed by a condition. -/
theorem stands_reciprocal {e : List Char} (he : IsNeutral e) {opened : List Bool}
    {condition : List Token} (hcondition : ∀ before after, Stands IsHarmless after (false :: opened)
      (false :: opened) before condition) {before after : Option Token} (hopened : opened ≠ []) :
    Stands IsHarmless after opened opened before ([.word "_".toList, .colons, .word "In".toList,
      .mark '<', .word e, .mark '>', .colons, .word "WHERE".toList, .mark '('] ++
        condition ++ [.mark ')']) := by
  have hin : IsHarmless "In".toList ∧ Keeps true false "In".toList := by decide +kernel
  have hfront (after : Option Token) : Stands IsHarmless after (false :: opened) opened before
      [.word "_".toList, .colons, .word "In".toList, .mark '<', .word e, .mark '>', .colons,
        .word "WHERE".toList, .mark '('] :=
    .neutral_cons (isNeutral_of_mem "_" (by decide)) (.colons_cons hopened (by simp) ⟨hin.1, hin.2,
      .mark_cons (by decide) (by decide) (.neutral_cons he (.mark_cons (by decide) (by decide)
        (.colons_cons hopened (by simp) (.neutral_cons (isNeutral_of_mem "WHERE" (by decide))
          (.mark_cons (by decide) (by decide) rfl)))))⟩)
  have hclose (before : Option Token) :
      Stands IsHarmless after opened (false :: opened) before [.mark ')'] :=
    .mark_cons (by decide) (by decide) rfl
  exact ((hfront _).append (hcondition _ _)).append (hclose _)

/-- Edges that lead back to the node that a parameter gives. -/
def reciprocal (name : String) : Fragment :=
  call "EXISTS" [((ident "_").op "In" none (some name)).op "WHERE"
    (some [identity.op "EQ" (some [text "b_id"])])]

theorem lexed_reciprocal {name : String} {e : List Char} (hname : lexemes name.toList = [.word e]) :
    lexed (reciprocal name) = .word "EXISTS".toList :: .mark '(' :: (([.word "_".toList, .colons,
      .word "In".toList, .mark '<', .word e, .mark '>', .colons, .word "WHERE".toList, .mark '('] ++
        (lexed identity ++ stepTokens "EQ" "b_id") ++ [.mark ')']) ++ [.mark ')']) := by
  have hequals : lexed (identity.op "EQ" (some [text "b_id"])) =
      lexed identity ++ stepTokens "EQ" "b_id" := by
    rw [identity, lexed_op, lexed_step (by decide) (by decide)]
  have hedge : (ident "_").op "In" none (some name) =
      expression "_" none [step "In" (some name) none false] := rfl
  have hstep : lexed (step "In" (some name) none false) =
      [.colons, .word "In".toList, .mark '<', .word e, .mark '>'] := by
    rw [lexed, typeLexed_eq hname, argsLexed]
    rfl
  have hedges : lexed (expression "_" none [step "In" (some name) none false]) =
      .word "_".toList :: [.colons, .word "In".toList, .mark '<', .word e, .mark '>'] := by
    rw [lexed, argsLexed, chainLexed, chainLexed, hstep]
    rfl
  have hnarrow : lexed (step "WHERE" none (some [identity.op "EQ" (some [text "b_id"])]) false) =
      [.colons, .word "WHERE".toList, .mark '('] ++
        (lexed identity ++ stepTokens "EQ" "b_id") ++ [.mark ')'] := by
    rw [lexed, argsLexed, allLexed, allLexed, hequals, separated_singleton]
    rfl
  rw [reciprocal, call, lexed, argsLexed, allLexed, allLexed, chainLexed, hedge, lexed_op, hedges,
    hnarrow, separated_singleton]
  rfl

theorem isArgument_reciprocal {name : String} (h : IsName name) : IsArgument (reciprocal name) := by
  obtain ⟨e, hname, he⟩ := h
  have hany : IsPlain (ident "_") := ⟨by decide, trivial, trivial⟩
  have hb : ArePlainArgs (some [text "b_id"]) := ⟨(isName_of_mem (by decide)).isLabel.ends, trivial⟩
  have hcondition : ArePlainArgs (some [identity.op "EQ" (some [text "b_id"])]) :=
    ⟨isPlain_op isPlain_identity (by decide) (by decide) hb none, trivial⟩
  have hin : "In" ≠ "" := by decide
  have hwhere : "WHERE" ≠ "" := by decide
  have hnone : ArePlainArgs none := trivial
  have hplain := isPlain_op (isPlain_op hany hin (by decide) hnone (some name)) hwhere (by decide)
    hcondition none
  refine ⟨⟨by decide, ⟨hplain, trivial⟩, trivial⟩, ?_⟩
  rw [lexed_reciprocal hname]
  refine ⟨by simp, fun opened before after _ => ?_⟩
  have hstands (before after : Option Token) : Stands IsHarmless after
      (false :: false :: false :: opened) (false :: false :: false :: opened) before
      (lexed identity ++ stepTokens "EQ" "b_id") :=
    (stands_identity (by simp)).append
      (stands_stepTokens (by decide) (by decide) (by simp) (by simp [lexed_identity]))
  have hclose (before : Option Token) :
      Stands IsHarmless after (false :: opened) (false :: false :: opened) before [.mark ')'] :=
    .mark_cons (by decide) (by decide) rfl
  exact .neutral_cons (isNeutral_of_mem "EXISTS" (by decide)) (.mark_cons (by decide) (by decide)
    ((stands_reciprocal he hstands (by simp)).append (hclose _)))

theorem fielded_reciprocal {name : String} (h : IsName name) : Fielded (lexed (reciprocal name)) := by
  obtain ⟨e, hname, -⟩ := h
  left
  rw [lexed_reciprocal hname, lexed_identity]
  simp [stepTokens]

/-- The constant of reciprocal-rank fusion. -/
theorem isArgument_rank : IsArgument (text ("k: " ++ toString rankConstant)) where
  plain := by
    have hends : Ends ("k: " ++ toString rankConstant).toList := by decide
    exact hends
  item := by
    have hlexed : lexed (text ("k: " ++ toString rankConstant)) =
        [.word "k".toList, .mark ':', .word "60".toList] := by
      rw [lexed]
      decide
    rw [hlexed]
    refine ⟨by simp, fun opened before after h => ?_⟩
    refine .neutral_cons (isNeutral_of_mem "k" (by decide)) ⟨by decide, by simp, ?_⟩
    exact .neutral_cons (isNeutral_of_mem "60" (by decide)) rfl

/-! ### Fields -/

theorem lexed_ident (name : String) : lexed (ident name) = lexemes name.toList := by
  rw [ident, lexed, argsLexed, chainLexed, List.append_nil, List.append_nil]

theorem isPlain_ident {name : String} (h : Ends name.toList) : IsPlain (ident name) :=
  ⟨h, trivial, trivial⟩

/-- A property with the parameter of its name. -/
theorem isFieldOf_property {name : String} (h : IsLabel name) : IsFieldOf (name, ident name) where
  ends := h.ends
  plain := isPlain_ident h.ends
  field := by
    obtain ⟨p, hname, hp⟩ := h
    rw [lexed_ident, hname]
    exact {
      ne_nil := by simp
      stands := by
        rintro opened before after ⟨rfl | rfl, rfl | rfl⟩
        all_goals exact ⟨hp.toIsHarmless, hp.keeps, by decide, by simp, hp.toIsHarmless, hp.keeps, rfl⟩
      comma := by simp
      opening := by simp
      closing := by simp
      closed := rfl }

section Projections

variable {fields : List (String × Fragment)}

/-- A projection as an argument. -/
theorem isArgument_projection (hne : fields ≠ []) (h : ∀ field ∈ fields, IsFieldOf field) :
    IsArgument (projection fields) where
  plain := arePlainFields_of_forall h
  item := by
    rw [lexed_projection]
    exact isItem_projected (by simpa using hne)
      (List.forall_mem_map.2 fun field hfield => (h field hfield).field)

theorem fielded_projection (hne : fields ≠ []) (h : ∀ field ∈ fields, IsFieldOf field) :
    Fielded (lexed (projection fields)) := by
  rw [lexed_projection]
  exact fielded_projected (by simpa using hne)
    (List.forall_mem_map.2 fun field hfield => (h field hfield).field)

end Projections

/-- The id of each. -/
theorem isFieldOf_identity : IsFieldOf ("node_id", identity) where
  ends := (isName_of_mem (s := "node_id") (by decide)).isLabel.ends
  plain := isPlain_identity
  field := by
    have hname : lexemes ("node_id", identity).1.toList = [.word "node_id".toList] :=
      lexemes_of_mem (by decide)
    rw [hname, lexed_identity]
    refine ⟨⟨by simp, fun opened before after _ => ?_⟩, by simp, by simp, by simp, rfl⟩
    refine .neutral_cons (isNeutral_of_mem "node_id" (by decide)) ⟨by decide, by simp, ?_⟩
    rw [← lexed_identity]
    exact stands_identity (by simp)

/-- The tokens of the count of the edges `e` at each. -/
def countTokens (direction e : List Char) : List Token :=
  [.word "_".toList, .colons, .word direction, .mark '<', .word e, .mark '>', .colons,
    .word "COUNT".toList]

theorem isField_count {ws : List (List Char)} (hws : ∀ w ∈ ws, IsPlainWord w) (hne : ws ≠ [])
    {direction e : List Char} (hdirection : IsNeutral direction) (he : IsNeutral e) :
    IsField (ws.map .word ++ .mark ':' :: countTokens direction e) where
  ne_nil := by simp
  stands opened before after h := by
    have hcount : Stands IsHarmless after (true :: opened) (true :: opened) (some (.mark ':'))
        (countTokens direction e) :=
      .neutral_cons (isNeutral_of_mem "_" (by decide)) (.colons_cons (by simp) (by simp)
        (.neutral_cons hdirection (.mark_cons (by decide) (by decide) (.neutral_cons he
          (.mark_cons (by decide) (by decide) (.colons_cons (List.cons_ne_nil _ _) (by simp)
            (.neutral_cons (isNeutral_of_mem "COUNT" (by decide)) rfl)))))))
    have hwords : Stands IsHarmless (some (.mark ':')) (true :: opened) (true :: opened) before
        (ws.map .word) := by
      refine stands_words (fun w hw => ⟨(hws w hw).toIsHarmless, (hws w hw).keeps⟩)
        (fun w hw => (hws w (List.mem_of_getLast? hw)).keeps) ?_ rfl
      rcases h with ⟨rfl | rfl, -⟩
      all_goals exact fun _ => ⟨rfl, rfl⟩
    refine hwords.append ⟨by decide, fun _ => ?_, hcount⟩
    rw [List.getLast?_map, ← List.dropLast_concat_getLast hne, List.getLast?_concat]
    simp
  comma := by simp [countTokens]
  opening := by simp [countTokens]
  closing := by simp [countTokens]
  closed := by
    have hwords : (ws.map Token.word).foldl depthThrough 0 = 0 := depthOver_words 0 ws
    rw [depthOver, List.foldl_append, hwords]
    rfl

/-- The count of edges of one type. -/
theorem isFieldOf_count {label direction name : String} {ws : List (List Char)}
    (hlabel : lexemes label.toList = ws.map .word) (hws : ∀ w ∈ ws, IsPlainWord w) (hne : ws ≠ [])
    (hdirection : direction ∈ libraryWords) (hname : IsName name) :
    IsFieldOf (label, ((ident "_").op direction none (some name)).op "COUNT") := by
  obtain ⟨e, hname, he⟩ := hname
  have hany : IsPlain (ident "_") := ⟨by decide, trivial, trivial⟩
  have hdirectionNe : direction ≠ "" := by
    rintro rfl
    exact absurd hdirection (by decide)
  have hcount : "COUNT" ≠ "" := by decide
  have hnone : ArePlainArgs none := trivial
  refine ⟨ends_of_words hlabel, ?_, ?_⟩
  · exact isPlain_op (isPlain_op hany hdirectionNe (isName_of_mem hdirection).isLabel.ends hnone
      (some name)) hcount (by decide) hnone none
  · have hedges : (ident "_").op direction none (some name) =
        expression "_" none [step direction (some name) none false] := rfl
    have hlexed : lexed (((ident "_").op direction none (some name)).op "COUNT") =
        countTokens direction.toList e := by
      rw [hedges, lexed_op, lexed, lexed, chainLexed, chainLexed, lexed, lexemes_of_mem hdirection,
        typeLexed_eq hname, argsLexed]
      rfl
    rw [hlexed, hlabel]
    exact isField_count hws hne (isNeutral_of_mem direction hdirection) he

/-! ### Values -/

theorem isValue_text {s : String} (h : s ∈ libraryWords) : Query.IsValue (text s) where
  plain := (isName_of_mem h).isLabel.ends
  shut := by
    rw [render]
    exact shut_of_mem h
  ne_nil := by
    rw [lexed, lexemes_of_mem h]
    simp
  stands := by
    rw [lexed, lexemes_of_mem h]
    exact .neutral_cons (isNeutral_of_mem s h) rfl
  noReturn := by
    have hupper : ∀ s ∈ libraryWords, upper s.toList ≠ returnChars := by decide +kernel
    have htokens : tokens true s.toList = [(true, .word s.toList)] :=
      tokens_chars (isSound_of_mem h) true
    rw [render, htokens, NoReturn, List.forall_mem_singleton]
    rintro - w ⟨⟩
    exact hupper s h

theorem isValue_deleted : Query.IsValue (literal "Deleted") := by
  have hrender : (render tab (literal "Deleted")).toList = "\"Deleted\"".toList := by decide
  have hlexed : lexed (literal "Deleted") = [.mark '"', .word "Deleted".toList, .mark '"'] := by
    rw [literal, lexed, argsLexed, chainLexed, List.append_nil, List.append_nil]
    decide
  have htokens : tokens true "\"Deleted\"".toList =
      [(true, .mark '"'), (false, .word "Deleted".toList), (false, .mark '"')] := by decide
  refine ⟨⟨by decide, trivial, trivial⟩, ?_, ?_, ?_, ?_⟩
  · rw [hrender]
    decide
  · rw [hlexed]
    simp
  · rw [hlexed]
    exact .mark_cons (by decide) (by decide) (.neutral_cons (isNeutral_of_mem "Deleted" (by decide))
      (.mark_cons (by decide) (by decide) rfl))
  · rw [hrender, htokens]
    simp [NoReturn]

/-- The tokens of a call of a function on a property of the result. The name of the property starts
with no blank, so a gap stands before the function only. -/
theorem tokens_aggregate {function name : String} (hfunction : function = "SUM" ∨ function = "AVG")
    {p : List Char} (hname : lexemes name.toList = [.word p])
    (hhead : ∀ c ∈ name.toList.head?, isBlank c = false) : ∃ gap,
      tokens true (render tab (call function [property name "result"])).toList =
        [(true, .word function.toList), (false, .mark '('), (false, .word "result".toList),
          (false, .colons), (false, .mark '\x7b'), (false, .word p), (gap, .mark '\x7d'),
          (false, .mark ')')] := by
  have htext : (render tab (call function [property name "result"])).toList =
      (function ++ "(result::\x7b").toList ++ (name.toList ++ '\x7d' :: [')']) := by
    simp [call, property, render, renderArgs, renderAll, renderChain]
  have hfront : tokens true (function ++ "(result::\x7b").toList =
      [(true, .word function.toList), (false, .mark '('), (false, .word "result".toList),
        (false, .colons), (false, .mark '\x7b')] ∧ gapAfter true (function ++ "(result::\x7b").toList = false ∧
        (function ++ "(result::\x7b").toList.getLast? = some '\x7b' := by
    rcases hfunction with rfl | rfl <;> decide
  have hseam (b : List Char) : Seam (function ++ "(result::\x7b").toList b := by
    rw [Seam, hfront.2.2]
    rintro c ⟨⟩ d -
    rfl
  obtain ⟨x, hx, hword⟩ := List.map_eq_singleton_iff.1 hname
  have hgap := gap_of_tokens_false hhead hx
  refine ⟨gapAfter false name.toList, ?_⟩
  rw [htext, tokens_append (hseam _), hfront.1, hfront.2.1,
    tokens_append (seam_of_not_glues (by decide) (by decide) _), hx, tokens_mark (by decide) (by decide)
      (by decide)]
  simp only [List.cons_append, List.nil_append, ← hgap, ← hword]
  rfl

theorem isValue_aggregate {function name : String} (hfunction : function = "SUM" ∨ function = "AVG")
    (h : IsLabel name) (hhead : ∀ c ∈ name.toList.head?, isBlank c = false) :
    Query.IsValue (call function [property name "result"]) := by
  obtain ⟨p, hname, hp⟩ := h
  have hmem : function ∈ libraryWords := by rcases hfunction with rfl | rfl <;> decide
  obtain ⟨hlexed, hplain⟩ := lexed_property (by decide : "result" ∈ libraryWords) hname
  have hshape : lexed (call function [property name "result"]) =
      callTokens function.toList none (some [propertyTokens "result".toList p]) := by
    rw [call, lexed, lexemes_of_mem hmem, argsLexed, allLexed, allLexed, hlexed, chainLexed,
      List.append_nil]
    rfl
  refine ⟨⟨(isName_of_mem hmem).isLabel.ends, ⟨hplain, trivial⟩, trivial⟩, ?_, ?_, ?_, ?_⟩
  · have htext : render tab (call function [property name "result"]) =
        callText tab function none (some [property name "result"]) := by
      simp [call, render, renderChain, callText, typeArgument]
    rw [htext]
    exact shut_callText (shut_of_mem hmem) tab
  · rw [hshape]
    simp [callTokens]
  · rw [hshape]
    refine IsCall.stands ⟨isNeutral_of_mem function hmem, by simp, ?_⟩
    simp only [Option.mem_def, Option.some.injEq, forall_eq', List.forall_mem_singleton]
    exact ⟨by simp [propertyTokens], fun _ _ _ _ =>
      stands_propertyTokens (isNeutral_of_mem "result" (by decide)) hp (by simp)⟩
  · obtain ⟨gap, htokens⟩ := tokens_aggregate hfunction hname hhead
    rw [htokens]
    rcases hfunction with rfl | rfl
    all_goals
      simp [NoReturn]
      decide

/-! ### Parameters -/

theorem isParam_name {name type : String} (hname : IsLabel name) (htype : IsName type) :
    Query.IsParam (name, type) := by
  have hends := hname.ends
  obtain ⟨p, hname, hp⟩ := hname
  have htypeEnds := htype.isLabel.ends
  obtain ⟨t, htype, ht⟩ := htype
  have hreads := Reads.field hends (Reads.of_ends htypeEnds)
  rw [hname, htype] at hreads
  refine ⟨[.word p, .mark ':', .word t], ?_, by simp, ?_⟩
  · simpa using hreads
  · rintro opened before after ⟨rfl | rfl, -⟩
    all_goals exact ⟨hp.toIsHarmless, hp.keeps, by decide, by simp, .neutral_cons ht rfl⟩

theorem isParam_list {name type : String} (hname : IsLabel name) (htype : IsName type) :
    Query.IsParam (name, "[" ++ type ++ "]") := by
  have hends := hname.ends
  obtain ⟨p, hname, hp⟩ := hname
  obtain ⟨t, htype, ht⟩ := htype
  have hclose := Reads.close (by decide : isBlank ']' = false ∧ isWordChar ']' = false ∧ ']' ≠ ':')
    type.toList
  have hreads := Reads.field hends (Reads.mark (by decide : isBlank '[' = false ∧
    isWordChar '[' = false ∧ '[' ≠ ':') hclose)
  rw [hname, htype] at hreads
  refine ⟨[.word p, .mark ':', .mark '[', .word t, .mark ']'], ?_, by simp, ?_⟩
  · simpa using hreads
  · have hlist {opened : List Bool} {after : Option Token} : Stands IsHarmless after
        (false :: opened) (false :: opened) (some (.mark ':')) [.mark '[', .word t, .mark ']'] :=
      .mark_cons (by decide) (by decide) (.neutral_cons ht (.mark_cons (by decide) (by decide) rfl))
    rintro opened before after ⟨rfl | rfl, -⟩
    all_goals exact ⟨hp.toIsHarmless, hp.keeps, by decide, by simp, hlist⟩

end Fragment

end Hql
