import Hql.Proofs.Layout.Block

/-!
Phrases: tokens that may stand in a query, whose words all keep their spelling there. A phrase is put
together from smaller ones, which are told what stands next to them and which brackets are open.
-/

namespace Hql.Layout

open Text

/-! ### Words -/

/-- The spelling that is found for a word. -/
def spelling? (called typed : Bool) (w : List Char) : Option String :=
  (if called then Keyword.step? (String.ofList w) else none) <|>
    Keyword.structural? (String.ofList w) <|>
      if typed then Keyword.type? (String.ofList w) else none

theorem keeps_iff {called typed : Bool} {w : List Char} : Keeps called typed w ↔
    directed w = w ∧ (spelling? called typed w).all (fun s => s.toList = w) = true := by
  constructor
  · intro h
    refine ⟨h.directed, ?_⟩
    rw [Option.all_eq_true]
    exact fun s hs => decide_eq_true (h.spelled s hs)
  · rintro ⟨hdirected, hspelled⟩
    refine ⟨hdirected, fun s hs => ?_⟩
    rw [Option.all_eq_true] at hspelled
    exact of_decide_eq_true (hspelled s hs)

instance (called typed : Bool) (w : List Char) : Decidable (Keeps called typed w) :=
  decidable_of_iff' _ keeps_iff

/-- A word of ASCII that starts no query. -/
structure IsSafe (w : List Char) : Prop where
  ascii : ∀ c ∈ w, c.toNat < 128
  noBlock : isBlockWord w = false

/-- A safe word that starts no deletion either. -/
structure IsHarmless (w : List Char) : Prop extends IsSafe w where
  noDrop : w ≠ dropWord

/-- A word that may stand where nothing is called and no type stands. -/
structure IsPlainWord (w : List Char) : Prop extends IsHarmless w where
  keeps : Keeps false false w

/-- A word that may stand anywhere. -/
structure IsNeutral (w : List Char) : Prop extends IsHarmless w where
  keeps : ∀ called typed, Keeps called typed w

instance (w : List Char) : Decidable (IsHarmless w) :=
  decidable_of_iff ((∀ c ∈ w, c.toNat < 128) ∧ isBlockWord w = false ∧ w ≠ dropWord)
    ⟨fun ⟨hascii, hblock, hdrop⟩ => ⟨⟨hascii, hblock⟩, hdrop⟩,
      fun h => ⟨h.ascii, h.noBlock, h.noDrop⟩⟩

instance (w : List Char) : Decidable (IsPlainWord w) :=
  decidable_of_iff (IsHarmless w ∧ Keeps false false w)
    ⟨fun ⟨hharmless, hkeeps⟩ => ⟨hharmless, hkeeps⟩, fun h => ⟨h.toIsHarmless, h.keeps⟩⟩

instance (w : List Char) : Decidable (IsNeutral w) :=
  decidable_of_iff (IsHarmless w ∧ ∀ called typed, Keeps called typed w)
    ⟨fun ⟨hharmless, hkeeps⟩ => ⟨hharmless, hkeeps⟩, fun h => ⟨h.toIsHarmless, h.keeps⟩⟩

theorem IsNeutral.isPlainWord {w : List Char} (h : IsNeutral w) : IsPlainWord w :=
  ⟨h.toIsHarmless, h.keeps false false⟩

/-! ### Phrases in their context -/

/-- The marks of a phrase. -/
def phraseMarks : List Char := ['(', ')', '<', '>', '\x7b', '\x7d', '[', ']', ',', ':', '"']

section Context

variable (ok : List Char → Prop) (after : Option Token) (rest : List Bool)

/-- Tokens whose words are all right and keep their spelling after the token `before` and before the
token `after`. The brackets `opened` are open at their start, the brackets `rest` at their end. Double
colons stand in brackets only. -/
def Stands (opened : List Bool) (before : Option Token) : List Token → Prop
  | [] => opened = rest
  | .word w :: ts => ok w ∧ Keeps (isCalled before (ts.head?.or after))
      (isTyped (opened.headD false) before (ts.head?.or after)) w ∧ Stands opened (some (.word w)) ts
  | .colons :: ts => opened ≠ [] ∧ before ≠ some (.mark ':') ∧ Stands opened (some .colons) ts
  | .mark c :: ts => c ∈ phraseMarks ∧ (c = ':' → before ≠ some .colons) ∧
      Stands (openAfter opened before c) (some (.mark c)) ts

end Context

/-- A token of a phrase. -/
def Token.IsOf (ok : List Char → Prop) : Token → Prop
  | word w => ok w
  | colons => True
  | mark c => c ∈ phraseMarks

namespace Stands

variable {ok : List Char → Prop} {after before : Option Token} {rest opened : List Bool}
  {ts us : List Token}

theorem mark_cons {c : Char} (hc : c ∈ phraseMarks) (hcolon : c ≠ ':')
    (h : Stands ok after rest (openAfter opened before c) (some (.mark c)) ts) :
    Stands ok after rest opened before (.mark c :: ts) :=
  ⟨hc, fun heq => absurd heq hcolon, h⟩

theorem colons_cons (hopened : opened ≠ []) (hbefore : before ≠ some (.mark ':'))
    (h : Stands ok after rest opened (some .colons) ts) :
    Stands ok after rest opened before (.colons :: ts) :=
  ⟨hopened, hbefore, h⟩

theorem neutral_cons {w : List Char} (hw : IsNeutral w)
    (h : Stands IsHarmless after rest opened (some (.word w)) ts) :
    Stands IsHarmless after rest opened before (.word w :: ts) :=
  ⟨hw.toIsHarmless, hw.keeps _ _, h⟩

theorem append {middle : List Bool} (hts : Stands ok (us.head?.or after) middle opened before ts)
    (hus : Stands ok after rest middle (ts.getLast?.or before) us) :
    Stands ok after rest opened before (ts ++ us) := by
  induction ts generalizing opened before with
  | nil =>
    obtain rfl : opened = middle := hts
    exact hus
  | cons t ts ih =>
    have hlast (t : Token) : ((t :: ts).getLast?.or before) = ts.getLast?.or (some t) := by
      rw [List.getLast?_cons]
      cases ts.getLast? <;> rfl
    rw [hlast] at hus
    have hhead : (ts ++ us).head?.or after = ts.head?.or (us.head?.or after) := by
      rw [List.head?_append, Option.or_assoc]
    cases t with
    | word w =>
      obtain ⟨hok, hkeeps, hts⟩ := hts
      refine ⟨hok, ?_, ih hts hus⟩
      rw [List.append_eq, hhead]
      exact hkeeps
    | colons =>
      obtain ⟨hopened, hbefore, hts⟩ := hts
      exact ⟨hopened, hbefore, ih hts hus⟩
    | mark c =>
      obtain ⟨hmark, hcolon, hts⟩ := hts
      exact ⟨hmark, hcolon, ih hts hus⟩

theorem mono {ok' : List Char → Prop} (hok : ∀ w, ok w → ok' w)
    (h : Stands ok after rest opened before ts) : Stands ok' after rest opened before ts := by
  induction ts generalizing opened before with
  | nil => exact h
  | cons t ts ih =>
    cases t with
    | word w => exact ⟨hok w h.1, h.2.1, ih h.2.2⟩
    | colons => exact ⟨h.1, h.2.1, ih h.2.2⟩
    | mark c => exact ⟨h.1, h.2.1, ih h.2.2⟩

/-- Each token of a phrase is one. -/
theorem isOf (h : Stands ok after rest opened before ts) : ∀ t ∈ ts, t.IsOf ok := by
  induction ts generalizing opened before with
  | nil => simp
  | cons t ts ih =>
    cases t with
    | word w => exact List.forall_mem_cons.2 ⟨h.1, ih h.2.2⟩
    | colons => exact List.forall_mem_cons.2 ⟨trivial, ih h.2.2⟩
    | mark c => exact List.forall_mem_cons.2 ⟨h.1, ih h.2.2⟩

theorem mark_not_mem (h : Stands ok after rest opened before ts) {c : Char} (hc : c ∉ phraseMarks) :
    .mark c ∉ ts := fun hmem => hc (h.isOf _ hmem)

/-- The words of a phrase keep their spelling in front of other tokens. -/
theorem kept_append (h : Stands ok us.head? rest opened before ts)
    (hus : Kept rest (ts.getLast?.or before) us) : Kept opened before (ts ++ us) := by
  induction ts generalizing opened before with
  | nil =>
    obtain rfl : opened = rest := h
    exact hus
  | cons t ts ih =>
    have hlast : ((t :: ts).getLast?.or before) = ts.getLast?.or (some t) := by
      rw [List.getLast?_cons]
      cases ts.getLast? <;> rfl
    rw [hlast] at hus
    cases t with
    | word w =>
      obtain ⟨-, hkeeps, hts⟩ := h
      refine ⟨?_, ih hts hus⟩
      rw [List.append_eq, List.head?_append]
      exact hkeeps
    | colons => exact ih h.2.2 hus
    | mark c =>
      obtain ⟨hmark, hcolon, hts⟩ := h
      have hplain : ¬ (c = '=' ∨ c = '-') := by
        rintro (rfl | rfl)
        · exact absurd hmark (by decide)
        · exact absurd hmark (by decide)
      rw [List.cons_append, Kept, if_neg hplain]
      exact ⟨hcolon, ih hts hus⟩

theorem kept (h : Stands ok none rest opened before ts) : Kept opened before ts := by
  have hts : Kept opened before (ts ++ []) := h.kept_append trivial
  rwa [List.append_nil] at hts

theorem noLooseColon (h : Stands ok after rest opened before ts) :
    NoLooseColon (before.toList ++ ts) := by
  induction ts generalizing opened before with
  | nil => cases before <;> simp [NoLooseColon]
  | cons t ts ih =>
    have hrest : NoLooseColon (t :: ts) := by
      cases t with
      | word w => exact ih h.2.2
      | colons => exact ih h.2.2
      | mark c => exact ih h.2.2
    cases before with
    | none => exact hrest
    | some b =>
      refine List.isChain_cons.2 ⟨?_, hrest⟩
      rintro u hu ⟨rfl, rfl⟩
      obtain rfl := Option.some.inj hu
      exact h.2.1 rfl

theorem length_openAfter (opened : List Bool) (before : Option Token) (c : Char) :
    (openAfter opened before c).length = depthThrough opened.length (.mark c) := by
  rw [depthThrough, openAfter]
  by_cases hclose : isCloser c = true
  · rw [not_isOpener_of_isCloser hclose, hclose, if_pos rfl, if_neg (by decide), if_pos rfl, List.length_tail]
  · rw [if_neg hclose, if_neg hclose]
    split <;> rfl

/-- The number of open brackets is known. -/
theorem depthOver_eq (h : Stands ok after rest opened before ts) :
    depthOver opened.length ts = rest.length := by
  induction ts generalizing opened before with
  | nil => exact congrArg List.length h
  | cons t ts ih =>
    cases t with
    | word w => exact ih h.2.2
    | colons => exact ih h.2.2
    | mark c =>
      rw [← ih h.2.2, length_openAfter]
      rfl

theorem whole (h : Stands ok after rest opened before ts) : Whole .colons opened.length ts := by
  induction ts generalizing opened before with
  | nil => trivial
  | cons t ts ih =>
    cases t with
    | word w => exact ⟨by simp, ih h.2.2⟩
    | colons =>
      refine ⟨fun hcut => h.1 (List.length_eq_zero_iff.1 hcut.1), ih h.2.2⟩
    | mark c =>
      refine ⟨by simp, ?_⟩
      rw [← length_openAfter opened before]
      exact ih h.2.2

end Stands

/-- Words next to each other, of which the last may be called. -/
theorem stands_words {ok : List Char → Prop} {ws : List (List Char)}
    (h : ∀ w ∈ ws, ok w ∧ Keeps false false w) {opened : List Bool} {before after : Option Token}
    (hlast : ∀ w ∈ ws.getLast?, Keeps (isCalled none after) false w)
    (hbefore : ∀ after, isCalled before after = isCalled none after ∧
      isTyped (opened.headD false) before after = isTyped (opened.headD false) none after)
    (hafter : isTyped (opened.headD false) none after = false) :
    Stands ok after opened opened before (ws.map .word) := by
  induction ws generalizing before with
  | nil => rfl
  | cons w ws ih =>
    obtain ⟨⟨hok, hkeeps⟩, hws⟩ := List.forall_mem_cons.1 h
    cases ws with
    | nil =>
      refine ⟨hok, ?_, rfl⟩
      have hnone : ((List.map Token.word []).head?.or after) = after := rfl
      rw [hnone, (hbefore after).1, (hbefore after).2, hafter]
      exact hlast w rfl
    | cons v ws =>
      refine ⟨hok, ?_, ih hws hlast fun _ => ⟨rfl, rfl⟩⟩
      have hnext : ((List.map Token.word (v :: ws)).head?.or after) = some (.word v) := rfl
      rw [hnext, (hbefore _).1, (hbefore _).2]
      exact hkeeps

theorem depthOver_words (depth : Nat) (ws : List (List Char)) :
    depthOver depth (ws.map .word) = depth := by
  induction ws with
  | nil => rfl
  | cons w ws ih => exact ih

/-! ### Elements of a chain -/

theorem inside_of_eq {ts a content b : List Token}
    (h : ts = a ++ .mark '\x7b' :: content ++ .mark '\x7d' :: b) (ha : .mark '\x7b' ∉ a)
    (hclose : .mark '\x7d' ∉ content) : inside ts = content := by
  have hskip : (a ++ .mark '\x7b' :: (content ++ .mark '\x7d' :: b)).dropWhile
      (· != .mark '\x7b') = .mark '\x7b' :: (content ++ .mark '\x7d' :: b) := by
    rw [List.dropWhile_append_of_pos]
    · exact List.dropWhile_cons_of_neg (by simp)
    · intro t ht
      rw [bne_iff_ne]
      rintro rfl
      exact ha ht
  have htake : (content ++ .mark '\x7d' :: b).takeWhile (· != .mark '\x7d') = content := by
    rw [List.takeWhile_append_of_pos, List.takeWhile_cons_of_neg (by simp), List.append_nil]
    intro t ht
    rw [bne_iff_ne]
    rintro rfl
    exact hclose ht
  rw [h, inside, List.append_assoc, List.cons_append, hskip, List.drop_one, List.tail_cons, htake]

theorem fielded_of_eq {ts a content b : List Token}
    (h : ts = a ++ .mark '\x7b' :: content ++ .mark '\x7d' :: b) (ha : .mark '\x7b' ∉ a)
    (hopen : .mark '\x7b' ∉ content) (hclose : .mark '\x7d' ∉ content) (hb : .mark '\x7b' ∉ b)
    (hfields : [] ∉ splitTokens id (.mark ',') 0 content) : Fielded ts := by
  refine .inr ⟨a, b, ?_⟩
  rw [inside_of_eq h ha hclose]
  exact ⟨h, ha, hopen, hclose, hb, hfields⟩

/-- Tokens without braces may stand around fields. -/
theorem Fielded.append {ts : List Token} (h : Fielded ts) {a b : List Token}
    (ha : .mark '\x7b' ∉ a) (hb : .mark '\x7b' ∉ b) : Fielded (a ++ ts ++ b) := by
  rcases h with hnone | ⟨front, back, heq, hfront, hopen, hclose, hback, hfields⟩
  · left
    simp only [List.mem_append, not_or]
    exact ⟨⟨ha, hnone⟩, hb⟩
  · have hparts : a ++ ts ++ b = (a ++ front) ++ .mark '\x7b' :: inside ts ++
        .mark '\x7d' :: (back ++ b) := by
      conv_lhs => rw [heq]
      simp only [List.append_assoc, List.cons_append]
    refine fielded_of_eq hparts ?_ hopen hclose ?_ hfields
    · rw [List.mem_append, not_or]
      exact ⟨ha, hfront⟩
    · rw [List.mem_append, not_or]
      exact ⟨hback, hb⟩

/-- The tokens of an element whose words are harmless. -/
structure IsPhrase (ts : List Token) : Prop where
  ne_nil : ts ≠ []
  stands : Stands IsHarmless none [] [] none ts
  fielded : Fielded ts
  last : ts.getLast? ≠ some (.mark ':')

theorem IsPhrase.isElement {ts : List Token} (h : IsPhrase ts) : IsElement ts where
  ne_nil := h.ne_nil
  tidy := ⟨h.stands.noLooseColon, h.stands.kept, h.stands.mark_not_mem (by decide),
    h.stands.mark_not_mem (by decide)⟩
  minus := h.stands.mark_not_mem (by decide)
  fielded := h.fielded
  whole := h.stands.whole
  closed := h.stands.depthOver_eq
  last := h.last

/-! ### Arguments and fields -/

/-- Lists of tokens with a comma between two. -/
def separated (ts : List (List Token)) : List Token := [Token.mark ','].intercalate ts

theorem separated_singleton (ts : List Token) : separated [ts] = ts := by simp [separated]

theorem separated_cons (ts us : List Token) (items : List (List Token)) :
    separated (ts :: us :: items) = ts ++ .mark ',' :: separated (us :: items) := by
  simp [separated, List.intercalate]

/-- What may stand next to an argument, or a field, within its brackets. -/
def besides (opener closer : Char) (before after : Option Token) : Prop :=
  (before = some (.mark opener) ∨ before = some (.mark ',')) ∧
    (after = some (.mark ',') ∨ after = some (.mark closer))

/-- Tokens that stand between commas within brackets. -/
structure IsItem (inner : Bool) (opener closer : Char) (ts : List Token) : Prop where
  ne_nil : ts ≠ []
  stands : ∀ opened before after, besides opener closer before after →
    Stands IsHarmless after (inner :: opened) (inner :: opened) before ts

theorem stands_separated {inner : Bool} {opener closer : Char} {items : List (List Token)}
    (h : ∀ ts ∈ items, IsItem inner opener closer ts) (hne : items ≠ []) (opened : List Bool)
    {before : Option Token} (hbefore : before = some (.mark opener) ∨ before = some (.mark ',')) :
    Stands IsHarmless (some (.mark closer)) (inner :: opened) (inner :: opened) before
      (separated items) := by
  induction items generalizing before with
  | nil => exact absurd rfl hne
  | cons ts items ih =>
    obtain ⟨hts, hitems⟩ := List.forall_mem_cons.1 h
    cases items with
    | nil =>
      rw [separated_singleton]
      exact hts.stands opened before _ ⟨hbefore, .inr rfl⟩
    | cons us items =>
      have hrest := ih hitems (by simp) (.inr rfl)
      rw [separated_cons]
      exact (hts.stands opened before _ ⟨hbefore, .inl rfl⟩).append
        (.mark_cons (by decide) (by decide) hrest)

/-- Arguments in their parentheses, outside all other brackets. -/
theorem stands_arguments {args : List (List Token)} (h : ∀ ts ∈ args, IsItem false '(' ')' ts)
    {before after : Option Token} :
    Stands IsHarmless after [] [] before (.mark '(' :: (separated args ++ [.mark ')'])) := by
  have hclose (before : Option Token) : Stands IsHarmless after [] [false] before [.mark ')'] :=
    .mark_cons (by decide) (by decide) rfl
  refine .mark_cons (by decide) (by decide) ?_
  cases args with
  | nil => exact hclose _
  | cons ts args => exact (stands_separated h (by simp) [] (.inl rfl)).append (hclose _)

/-! ### Fields -/

/-- A field between the braces of a projection. -/
structure IsField (ts : List Token) : Prop extends IsItem true '\x7b' '\x7d' ts where
  comma : .mark ',' ∉ ts
  opening : .mark '\x7b' ∉ ts
  closing : .mark '\x7d' ∉ ts
  closed : depthOver 0 ts = 0

theorem mem_separated {t : Token} {items : List (List Token)} (ht : t ≠ .mark ',')
    (h : ∀ ts ∈ items, t ∉ ts) : t ∉ separated items := by
  cases items with
  | nil => simp [separated]
  | cons ts items =>
    rw [separated, intercalate_eq_flatMap, List.mem_append, not_or, List.mem_flatMap]
    refine ⟨h ts (List.mem_cons_self ..), ?_⟩
    rintro ⟨us, hus, hmem⟩
    rcases List.mem_cons.1 hmem with heq | hmem
    · exact ht heq
    · exact h us (List.mem_cons_of_mem _ hus) hmem

/-- Fields are divided at the commas between them. -/
theorem splitTokens_separated {fields : List (List Token)} (hne : fields ≠ [])
    (h : ∀ ts ∈ fields, .mark ',' ∉ ts ∧ depthOver 0 ts = 0) :
    splitTokens id (.mark ',') 0 (separated fields) = fields := by
  induction fields with
  | nil => exact absurd rfl hne
  | cons ts fields ih =>
    obtain ⟨⟨hcomma, hclosed⟩, hfields⟩ := List.forall_mem_cons.1 h
    have hwhole : Whole (.mark ',') 0 (ts.map id) := by
      rw [List.map_id]
      exact whole_of_not_mem hcomma 0
    cases fields with
    | nil =>
      rw [separated_singleton]
      exact splitTokens_of_whole hwhole
    | cons us fields =>
      rw [separated_cons, splitTokens_append (.inr rfl) hwhole (by rwa [List.map_id]) rfl, ih (by simp) hfields]

/-- The tokens of a projection. -/
def projected (fields : List (List Token)) : List Token :=
  .mark '\x7b' :: (separated fields ++ [.mark '\x7d'])

theorem fielded_projected {fields : List (List Token)} (hne : fields ≠ [])
    (h : ∀ ts ∈ fields, IsField ts) : Fielded (projected fields) := by
  refine fielded_of_eq (a := []) (b := []) rfl (by simp) ?_ ?_ (by simp) ?_
  · exact mem_separated (by simp) fun ts hts => (h ts hts).opening
  · exact mem_separated (by simp) fun ts hts => (h ts hts).closing
  · rw [splitTokens_separated hne fun ts hts => ⟨(h ts hts).comma, (h ts hts).closed⟩]
    exact fun hmem => (h [] hmem).ne_nil rfl

/-- A projection is spread if it has several fields. -/
theorem spreads_projected {fields : List (List Token)} (hne : fields ≠ [])
    (h : ∀ ts ∈ fields, IsField ts) {a b : List Token} (ha : .mark '\x7b' ∉ a) :
    spreads (a ++ projected fields ++ b) = decide (2 ≤ fields.length) := by
  have hshape : a ++ projected fields ++ b =
      a ++ .mark '\x7b' :: separated fields ++ .mark '\x7d' :: b := by simp [projected]
  have hclose : .mark '\x7d' ∉ separated fields :=
    mem_separated (by simp) fun ts hts => (h ts hts).closing
  rw [spreads, inside_of_eq hshape ha hclose,
    splitTokens_separated hne fun ts hts => ⟨(h ts hts).comma, (h ts hts).closed⟩]

/-- A projection opens a value. -/
theorem stands_projected {fields : List (List Token)} (hne : fields ≠ [])
    (h : ∀ ts ∈ fields, IsField ts) {opened : List Bool} {before after : Option Token}
    (hvalue : opensValue before '\x7b' = true) :
    Stands IsHarmless after opened opened before (projected fields) := by
  have hclose (before : Option Token) :
      Stands IsHarmless after opened (true :: opened) before [.mark '\x7d'] :=
    .mark_cons (by decide) (by decide) rfl
  have hopen : openAfter opened before '\x7b' = true :: opened := by
    rw [← hvalue]
    rfl
  refine .mark_cons (by decide) (by decide) ?_
  rw [hopen]
  exact (stands_separated (fun ts hts => (h ts hts).toIsItem) hne opened (.inl rfl)).append (hclose _)

theorem isPhrase_projected {fields : List (List Token)} (hne : fields ≠ [])
    (h : ∀ ts ∈ fields, IsField ts) : IsPhrase (projected fields) where
  ne_nil := by simp [projected]
  stands := stands_projected hne h rfl
  fielded := fielded_projected hne h
  last := by rw [projected, List.getLast?_cons, List.getLast?_concat]; simp

theorem isItem_projected {fields : List (List Token)} (hne : fields ≠ [])
    (h : ∀ ts ∈ fields, IsField ts) : IsItem false '(' ')' (projected fields) where
  ne_nil := by simp [projected]
  stands opened before after hbesides := by
    refine stands_projected hne h ?_
    rcases hbesides.1 with rfl | rfl <;> rfl

/-! ### Calls -/

/-- The tokens of a type parameter. -/
def typeTokens : Option (List Char) → List Token
  | some t => [.mark '<', .word t, .mark '>']
  | none => []

/-- The tokens of arguments. -/
def argTokens : Option (List (List Token)) → List Token
  | some items => .mark '(' :: (separated items ++ [.mark ')'])
  | none => []

/-- The tokens of what is called, with its type parameter and its arguments. -/
def callTokens (name : List Char) (typeParam : Option (List Char))
    (args : Option (List (List Token))) : List Token :=
  .word name :: (typeTokens typeParam ++ argTokens args)

/-- What is called may stand anywhere outside brackets. -/
structure IsCall (name : List Char) (typeParam : Option (List Char))
    (args : Option (List (List Token))) : Prop where
  name : IsNeutral name
  typeParam : ∀ t ∈ typeParam, IsNeutral t
  items : ∀ items ∈ args, ∀ ts ∈ items, IsItem false '(' ')' ts

section Calls

variable {name : List Char} {typeParam : Option (List Char)} {args : Option (List (List Token))}

theorem IsCall.stands (h : IsCall name typeParam args) {before after : Option Token} :
    Stands IsHarmless after [] [] before (callTokens name typeParam args) := by
  have htype : ∀ before after, Stands IsHarmless after [] [] before (typeTokens typeParam) := by
    intro before after
    cases typeParam with
    | none => rfl
    | some t =>
      exact .mark_cons (by decide) (by decide) (.neutral_cons (h.typeParam t rfl)
        (.mark_cons (by decide) (by decide) rfl))
  have hargs : ∀ before, Stands IsHarmless after [] [] before (argTokens args) := by
    intro before
    cases args with
    | none => rfl
    | some items => exact stands_arguments (h.items items rfl)
  exact .neutral_cons h.name ((htype _ _).append (hargs _))

theorem IsCall.isPhrase (h : IsCall name typeParam args)
    (hfielded : ∀ items ∈ args, Fielded (separated items)) :
    IsPhrase (callTokens name typeParam args) where
  ne_nil := by simp [callTokens]
  stands := h.stands
  fielded := by
    have hfront : Token.mark '\x7b' ∉ (.word name :: typeTokens typeParam) := by
      cases typeParam <;> simp [typeTokens]
    cases args with
    | none =>
      rw [callTokens, argTokens, List.append_nil]
      exact .inl hfront
    | some items =>
      have hshape : callTokens name typeParam (some items) =
          ((.word name :: typeTokens typeParam) ++ [.mark '(']) ++ separated items ++ [.mark ')'] := by
        simp [callTokens, argTokens]
      rw [hshape]
      refine (hfielded items rfl).append ?_ (by simp)
      rw [List.mem_append, not_or]
      exact ⟨hfront, by simp⟩
  last := by
    cases args with
    | none => cases typeParam <;> simp [callTokens, typeTokens, argTokens]
    | some items =>
      rw [callTokens, argTokens, List.getLast?_cons, List.getLast?_append_of_ne_nil _ (by simp),
        List.getLast?_cons, List.getLast?_concat]
      simp

end Calls

end Hql.Layout
