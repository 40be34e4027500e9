import Hql.Proofs.Library.Origin
import Hql.Proofs.Validation.ErrorFree
import Mathlib.Data.List.Nodup

/-!
The names of queries. A name is put together of a word, the name of an entity in Pascal case, and what
the query is about: a property, the start of an edge, or a fixed ending. Such names can meet. They do
not if Pascal case tells the names of the model apart and no name of an entity goes on where another
one ends with what the templates write there.
-/

namespace Hql.Library

open Naming

/-! ### Titles -/

/-- Queries that are named by a word and an entity alone. -/
inductive Action where
  | create | delete | count | connect | shortestPath | weightedPath | explore | add
  deriving DecidableEq

namespace Action

def word : Action → String
  | create => "Create"
  | delete => "Delete"
  | count => "Count"
  | connect => "Connect"
  | shortestPath => "ShortestPath"
  | weightedPath => "WeightedPath"
  | explore => "Explore"
  | add => "Add"

def ending : Action → String
  | explore => "Network"
  | add => "Vector"
  | _ => ""

end Action

/-- Queries that read. -/
inductive View where
  | keyed (property : String)
  | following (source : String)
  | all
  | reciprocal
  | detail
  deriving DecidableEq

/-- What a query does, as far as its name says it. -/
inductive Title where
  | plain (a : Action)
  | upsert (isVector : Bool)
  | aggregate (isAverage : Bool) (property : String)
  | group (property : String)
  | search (isHybrid : Bool) (property : Option String)
  | get (v : View)
  deriving DecidableEq

/-- What is written after the word `Get`. -/
def View.rest (name : String) : View → String
  | keyed property => name ++ "By" ++ property
  | following source => name ++ "Of" ++ source
  | all => "All" ++ name
  | reciprocal => "Mutual" ++ name
  | detail => name ++ "DeepDetail"

namespace Title

/-- The word at the front of a name. -/
def word : Title → String
  | plain a => a.word
  | upsert _ => "Upsert"
  | aggregate isAverage _ => if isAverage then "Avg" else "Sum"
  | group _ => "GroupBy"
  | search isHybrid _ => if isHybrid then "HybridSearch" else "Search"
  | get _ => "Get"

/-- What is written after the word, about an entity of this name. -/
def rest (name : String) : Title → String
  | plain a => name ++ a.ending
  | upsert isVector => if isVector then name ++ "Vector" else name
  | aggregate _ property => name ++ property
  | group property => name ++ "By" ++ property
  | search _ none => name
  | search _ (some property) => name ++ "By" ++ property
  | get v => v.rest name

/-- The name of a query about an entity of this name. -/
def text (name : String) (t : Title) : String := t.word ++ t.rest name

end Title

/-! ### The titles of an entity -/

section Entities

def uniqueProperties (node : Entity) : List Property := node.namedProperties.filter Property.isUnique

def numericProperties (node : Entity) : List Property :=
  node.namedProperties.filter fun p => !p.isArray && p.type.isNumeric

def groupedProperties (node : Entity) : List Property :=
  node.namedProperties.filter fun p => !p.isArray && (p.type == .string || p.type == .boolean)

/-- The titles of a node. -/
def nodeTitles (node : Entity) : List Title :=
  ([.plain .create] ++ [.upsert false] ++ (.get (.keyed "Id") ::
      (uniqueProperties node).map (fun p => .get (.keyed (pascalCase p.name))) ++ [.get .all]) ++
    [.plain .delete]) ++ [.search false (some "Keyword")] ++ [.get .detail] ++
  ((.plain .count :: (numericProperties node).flatMap fun p =>
      [.aggregate false (pascalCase p.name), .aggregate true (pascalCase p.name)]) ++
    (groupedProperties node).map fun p => .group (pascalCase p.name))

/-- The titles of an edge. -/
def edgeTitles (edge : Entity) : List Title :=
  ([.plain .connect] ++ [.upsert false] ++ [.get (.following (pascalCase (edge.source.getD "")))]) ++
    ([.plain .explore] ++ [.get .reciprocal]) ++ ([.plain .shortestPath] ++ [.plain .weightedPath])

/-- The titles of a vector. -/
def vectorTitles (vector : Entity) : List Title :=
  ([.search false none, .search true none] ++ (prefilterProperties vector).flatMap fun p =>
      [.search false (some (pascalCase p.name)), .search true (some (pascalCase p.name))]) ++
    (.plain .add :: [.upsert true]) ++ [.search false (some "Keyword")]

/-- The titles of an entity under all flags. -/
def titles (e : Entity) : List Title :=
  match e.kind with
  | .node => nodeTitles e
  | .edge => edgeTitles e
  | .vector => vectorTitles e

end Entities

/-! ### Names and titles -/

section Names

variable {qs rs : List Query} {ns ms : List String}

theorem names_whenOn {flag : Bool} (h : (qs.map Query.name).Sublist ns) :
    ((whenOn flag qs).map Query.name).Sublist ns := by
  cases flag with
  | false => exact List.nil_sublist _
  | true => exact h

theorem names_toList {q : Option Query} {n : String} (h : ∀ r ∈ q, r.name = n) :
    (q.toList.map Query.name).Sublist [n] := by
  cases q with
  | none => exact List.nil_sublist _
  | some r => rw [Option.toList_some, List.map_singleton, h r rfl]

theorem names_append (hq : (qs.map Query.name).Sublist ns) (hr : (rs.map Query.name).Sublist ms) :
    ((qs ++ rs).map Query.name).Sublist (ns ++ ms) := by
  rw [List.map_append]
  exact hq.append hr

variable {config : Config} {model : Model} {e : Entity}

/-- Titles as names of queries about an entity. -/
def texts (e : Entity) (ts : List Title) : List String := ts.map (Title.text (pascalCase e.name))

attribute [local simp] texts Title.text Title.word Title.rest View.rest Action.word Action.ending
  String.append_assoc

theorem texts_append (ts us : List Title) : texts e (ts ++ us) = texts e ts ++ texts e us :=
  List.map_append

theorem names_nodeCrud (flags : CrudFlags) (node : Entity) :
    ((nodeCrud flags node).map Query.name).Sublist (texts node ([.plain .create] ++ [.upsert false] ++
      (.get (.keyed "Id") ::
        (uniqueProperties node).map (fun p => .get (.keyed (pascalCase p.name))) ++ [.get .all]) ++
      [.plain .delete])) := by
  have hupsert : ∀ q ∈ upsertNode? node, q.name = "Upsert" ++ pascalCase node.name := by
    intro q hq
    rw [(upsertNode?_eq_some hq).2]
  rw [texts_append, texts_append, texts_append]
  refine names_append (names_append (names_append (names_whenOn ?_) (names_whenOn ?_))
    (names_whenOn ?_)) (names_whenOn ?_)
  · simp [createNode]
  · exact names_toList hupsert
  · have hall : (allNodes node flags.proControl).name = "Get" ++ ("All" ++ pascalCase node.name) := by
      rw [← String.append_assoc, allNodes]
      split <;> rfl
    simp [hall, nodeById, uniqueProperties, Function.comp_def, nodeByUnique]
  · simp [deleteNode]

theorem names_edgeCrud (flags : CrudFlags) (edge : Entity) :
    ((edgeCrud flags edge).map Query.name).Sublist (texts edge ([.plain .connect] ++ [.upsert false] ++
      [.get (.following (pascalCase (edge.source.getD "")))])) := by
  have hupsert : ∀ q ∈ upsertEdge? edge, q.name = "Upsert" ++ pascalCase edge.name := by
    intro q hq
    rw [(upsertEdge?_eq_some hq).2]
  rw [texts_append, texts_append]
  refine names_append (names_append (names_whenOn ?_) (names_whenOn ?_)) (names_whenOn ?_)
  · simp [connect]
  · exact names_toList hupsert
  · simp [traversal]

theorem names_edgeDiscovery (flags : DiscoveryFlags) (edge : Entity) :
    ((edgeDiscovery flags edge).map Query.name).Sublist
      (texts edge ([.plain .explore] ++ [.get .reciprocal])) := by
  rw [texts_append]
  refine names_append (names_whenOn ?_) (names_whenOn ?_)
  · simp [twoHop]
  · have hname : (mutualConnections edge).name = "Get" ++ ("Mutual" ++ pascalCase edge.name) := by
      rw [← String.append_assoc]
      rfl
    simp [hname]

theorem names_vectorDiscovery (flags : DiscoveryFlags) (vector : Entity) :
    ((vectorDiscovery flags vector).map Query.name).Sublist (texts vector
      (([.search false none, .search true none] ++ (prefilterProperties vector).flatMap fun p =>
        [.search false (some (pascalCase p.name)), .search true (some (pascalCase p.name))]) ++
      (.plain .add :: [.upsert true]))) := by
  have hupsert : ∀ q ∈ upsertVector? vector,
      q.name = "Upsert" ++ pascalCase vector.name ++ "Vector" := by
    intro q hq
    rw [(upsertVector?_eq_some hq).2]
  rw [texts_append, texts_append]
  refine names_append (names_whenOn (names_append ?_ (names_whenOn ?_))) (names_whenOn ?_)
  · simp [vectorSearch, hybridSearch, prefilterSuffix]
  · simp [vectorSearch, hybridSearch, prefilterSuffix, List.map_flatMap]
  · have hadd : ([addVector vector].map Query.name).Sublist (texts vector [.plain .add]) := by
      simp [addVector]
    exact names_append hadd (names_toList (by simpa using hupsert))

theorem names_analytics (flags : AnalyticsFlags) (node : Entity) :
    ((whenOn flags.aggregation (aggregationQueries node) ++
      whenOn flags.grouping (groupingQueries node)).map Query.name).Sublist (texts node
        ((.plain .count :: (numericProperties node).flatMap fun p =>
            [.aggregate false (pascalCase p.name), .aggregate true (pascalCase p.name)]) ++
          (groupedProperties node).map fun p => .group (pascalCase p.name))) := by
  rw [texts_append]
  refine names_append (names_whenOn ?_) (names_whenOn ?_)
  · have hsum : titleCase "SUM" = "Sum" := by decide
    have havg : titleCase "AVG" = "Avg" := by decide
    simp [hsum, havg, aggregationQueries, countNodes, numericProperties, List.map_flatMap, aggregates, aggregate?]
  · simp [groupingQueries, groupedProperties, groupBy, Function.comp_def]

/-- The names of the queries about an entity are titles of the entity, in order. -/
theorem names_sublist (config : Config) (model : Model) (e : Entity) :
    ((Group.all ⟨e, sectionQueries config model e⟩).map Query.name).Sublist (texts e (titles e)) := by
  have hall : Group.all ⟨e, sectionQueries config model e⟩ =
      crudQueries config.crud e ++ discoveryQueries config.discovery e ++
        pathfindingQueries config.pathfinding e ++ intelligenceQueries config.intelligence model e ++
          analyticsQueries config.analytics e := by
    simp [Group.all, Section.all, sectionQueries]
  have hon (qs : List Query) : whenOn true qs = qs := rfl
  have hoff (qs : List Query) : whenOn false qs = [] := rfl
  rw [hall]
  simp only [crudQueries, discoveryQueries, pathfindingQueries, intelligenceQueries,
    analyticsQueries, titles, Entity.isConnected, Entity.isNode, Entity.isEdge, Entity.isVector]
  -- the sections for the other kinds of entities are empty
  cases e.kind with
  | node =>
    simp only [nodeTitles, decide_true, reduceCtorEq, decide_false, hon, hoff, List.append_nil,
      List.nil_append, Bool.true_or, Bool.true_and, Bool.false_and]
    rw [texts_append, texts_append, texts_append]
    refine names_append (names_append (names_append (names_nodeCrud _ e) (names_whenOn ?_))
      (names_whenOn ?_)) (names_analytics _ e)
    · simp [keywordSearch]
    · simp [deepDetail]
  | edge =>
    simp only [edgeTitles, decide_true, reduceCtorEq, decide_false, hon, hoff, List.append_nil,
      List.nil_append, Bool.false_or, Bool.false_and]
    rw [texts_append, texts_append, texts_append _ [Title.plain .weightedPath]]
    refine names_append (names_append (names_whenOn (names_edgeCrud _ e))
      (names_whenOn (names_edgeDiscovery _ e))) (names_append (names_whenOn ?_) (names_whenOn ?_))
    · simp [shortestPath, pathQuery]
    · cases weightProperty? e with
      | none => exact List.nil_sublist _
      | some p => simp [weightedPath, pathQuery]
  | vector =>
    simp only [vectorTitles, decide_true, reduceCtorEq, decide_false, hon, hoff, List.append_nil,
      List.nil_append, Bool.false_or, Bool.false_and]
    rw [texts_append]
    refine names_append (names_vectorDiscovery _ e) (names_whenOn ?_)
    simp [keywordSearch]

end Names

/-! ### Names that meet -/

section Texts

variable {α : Type} {a b x y w : List α} {c d : α}

/-- A text that goes on after a name where another begins with a word. -/
theorem split_word {c : α} (h : a ++ c :: x = w ++ b) (hc : c ∉ w) :
    ∃ z, a = w ++ z ∧ b = z ++ c :: x := by
  rcases List.append_eq_append_iff.1 h with ⟨z, rfl, hz⟩ | ⟨z, ha, hb⟩
  · cases z with
    | nil => exact ⟨[], by simp, by simpa using hz.symm⟩
    | cons e z =>
      obtain ⟨rfl, -⟩ := List.cons.inj hz
      exact absurd (List.mem_append_right a List.mem_cons_self) hc
  · exact ⟨z, ha, hb⟩

/-- Two names that go on with two letters each. Either the names are the same, or one goes on where the
other has its letters. -/
theorem split_marks {c' d' : α} (h : a ++ c :: d :: x = b ++ c' :: d' :: y) (hcd : c' ≠ d)
    (hdc : c ≠ d') : a = b ∨ a ++ [c, d] <+: b ∨ b ++ [c', d'] <+: a := by
  rcases List.append_eq_append_iff.1 h with ⟨z, rfl, hz⟩ | ⟨z, rfl, hz⟩
  · match z with
    | [] => exact .inl (by simp)
    | [e] => exact absurd (by simpa using (List.cons.inj (List.cons.inj hz).2).1) hcd.symm
    | e :: f :: z =>
      obtain ⟨rfl, htail⟩ := List.cons.inj hz
      obtain ⟨rfl, -⟩ := List.cons.inj htail
      exact .inr (.inl ⟨z, by simp⟩)
  · match z with
    | [] => exact .inl (by simp)
    | [e] => exact absurd (by simpa using ((List.cons.inj (List.cons.inj hz).2).1).symm) hdc
    | e :: f :: z =>
      obtain ⟨rfl, htail⟩ := List.cons.inj hz
      obtain ⟨rfl, -⟩ := List.cons.inj htail
      exact .inr (.inr ⟨z, by simp⟩)

/-- A name that goes on with two letters and one that goes on with a word without them. -/
theorem split_ending (h : a ++ c :: d :: x = b ++ w) (hc : c ∉ w) (hd : d ∉ w) :
    a ++ [c, d] <+: b := by
  rcases List.append_eq_append_iff.1 h with ⟨z, rfl, hz⟩ | ⟨z, rfl, rfl⟩
  · match z with
    | [] =>
      obtain rfl : c :: d :: x = w := by simpa using hz
      exact absurd List.mem_cons_self hc
    | [e] =>
      obtain rfl := (List.cons.inj hz).2
      exact absurd List.mem_cons_self hd
    | e :: f :: z =>
      obtain ⟨rfl, htail⟩ := List.cons.inj hz
      obtain ⟨rfl, -⟩ := List.cons.inj htail
      exact ⟨z, by simp⟩
  · exact absurd (List.mem_append_right z List.mem_cons_self) hc

end Texts

/-- The places in a name where another name may go on: its end, also without a leading All or Mutual. -/
def stems (name : List Char) : List (List Char) :=
  name :: ["All".toList, "Mutual".toList].filterMap name.dropPrefix?

/-- The second name does not go on where the first one ends with what the templates may write there. -/
structure Apart (name other : List Char) : Prop where
  marked : ∀ z ∈ stems name, ¬ z ++ ['B', 'y'] <+: other ∧ ¬ z ++ ['O', 'f'] <+: other
  detailed : ∀ z ∈ (stems name).tail, other ≠ z ++ "DeepDetail".toList

instance (name other : List Char) : Decidable (Apart name other) :=
  decidable_of_iff (_ ∧ _) ⟨fun h => ⟨h.1, h.2⟩, fun h => ⟨h.marked, h.detailed⟩⟩

/-- The marks of properties and of sources. -/
def IsMark (c d : Char) : Prop := (c = 'B' ∧ d = 'y') ∨ (c = 'O' ∧ d = 'f')

/-- The words before the name of an entity. -/
def IsFront (word : List Char) : Prop := word = "All".toList ∨ word = "Mutual".toList

section Apart

variable {a b x y word : List Char} {c d c' d' : Char}

theorem mem_stems (hword : IsFront word) (z : List Char) : z ∈ (stems (word ++ z)).tail := by
  rw [stems, List.tail_cons, List.mem_filterMap]
  refine ⟨word, by rcases hword with rfl | rfl <;> simp, ?_⟩
  rw [List.dropPrefix?_eq_some_iff]
  exact ⟨word, rfl, beq_self_eq_true word⟩

/-- A name that goes on with a letter which neither All nor Mutual has. -/
theorem exists_stem (hword : IsFront word) (hc : c ∉ "AllMutual".toList)
    (h : a ++ c :: x = word ++ b) : ∃ z ∈ (stems a).tail, b = z ++ c :: x := by
  have hmem : c ∉ word := by
    rcases hword with rfl | rfl <;> simp at hc ⊢ <;> simp [hc]
  obtain ⟨z, rfl, hb⟩ := split_word h hmem
  exact ⟨z, mem_stems hword z, hb⟩

theorem Apart.not_mark {z : List Char} (h : Apart a b) (hz : z ∈ stems a) (hmark : IsMark c d) :
    ¬ z ++ [c, d] <+: b := by
  rcases hmark with ⟨rfl, rfl⟩ | ⟨rfl, rfl⟩
  · exact (h.marked z hz).1
  · exact (h.marked z hz).2

theorem eq_of_marks (hab : Apart a b) (hba : Apart b a) (hmark : IsMark c d) (hmark' : IsMark c' d')
    (h : a ++ c :: d :: x = b ++ c' :: d' :: y) : a = b := by
  have hcd : c' ≠ d ∧ c ≠ d' := by
    rcases hmark with ⟨rfl, rfl⟩ | ⟨rfl, rfl⟩ <;> rcases hmark' with ⟨rfl, rfl⟩ | ⟨rfl, rfl⟩ <;>
      decide
  rcases split_marks h hcd.1 hcd.2 with heq | hext | hext
  · exact heq
  · exact absurd hext (hab.not_mark List.mem_cons_self hmark)
  · exact absurd hext (hba.not_mark List.mem_cons_self hmark')

theorem mark_ne_front (hab : Apart a b) (hmark : IsMark c d) (hword : IsFront word) :
    a ++ c :: d :: x ≠ word ++ b := by
  intro heq
  have hc : c ∉ "AllMutual".toList := by rcases hmark with ⟨rfl, -⟩ | ⟨rfl, -⟩ <;> decide
  obtain ⟨z, hz, rfl⟩ := exists_stem hword hc heq
  exact hab.not_mark (List.mem_of_mem_tail hz) hmark ⟨x, by simp⟩

theorem mark_ne_detail (hab : Apart a b) (hmark : IsMark c d) :
    a ++ c :: d :: x ≠ b ++ "DeepDetail".toList := by
  intro heq
  have hletters : c ∉ "DeepDetail".toList ∧ d ∉ "DeepDetail".toList := by
    rcases hmark with ⟨rfl, rfl⟩ | ⟨rfl, rfl⟩ <;> decide
  exact hab.not_mark List.mem_cons_self hmark (split_ending heq hletters.1 hletters.2)

theorem detail_ne_front (hab : Apart a b) (hword : IsFront word) :
    a ++ "DeepDetail".toList ≠ word ++ b := by
  intro heq
  have hdetail : "DeepDetail".toList = 'D' :: "eepDetail".toList := by decide
  rw [hdetail] at heq
  obtain ⟨z, hz, hb⟩ := exists_stem hword (by decide) heq
  exact hab.detailed z hz (hdetail ▸ hb)

end Apart

namespace View

@[simp] theorem toList_keyed (n x : String) :
    ((keyed x).rest n).toList = n.toList ++ 'B' :: 'y' :: x.toList := by simp [rest]

@[simp] theorem toList_following (n x : String) :
    ((following x).rest n).toList = n.toList ++ 'O' :: 'f' :: x.toList := by simp [rest]

@[simp] theorem toList_all (n : String) : (all.rest n).toList = "All".toList ++ n.toList := by
  simp [rest]

@[simp] theorem toList_reciprocal (n : String) :
    (reciprocal.rest n).toList = "Mutual".toList ++ n.toList := by simp [rest]

@[simp] theorem toList_detail (n : String) :
    (detail.rest n).toList = n.toList ++ "DeepDetail".toList := by simp [rest]

/-- Names of views do not meet. -/
theorem injective {m n : String} (hmn : Apart m.toList n.toList) (hnm : Apart n.toList m.toList)
    {v w : View} (h : v.rest m = w.rest n) : m = n ∧ v = w := by
  have hlist : (v.rest m).toList = (w.rest n).toList := congrArg String.toList h
  have hby : IsMark 'B' 'y' := .inl ⟨rfl, rfl⟩
  have hof : IsMark 'O' 'f' := .inr ⟨rfl, rfl⟩
  have hall : IsFront "All".toList := .inl rfl
  have hmutual : IsFront "Mutual".toList := .inr rfl
  -- views of one kind give back the names; views of different kinds would put a mark, the front
  -- word or the ending of one into the name of the other entity, which names that are apart rule
  -- out
  cases v with
  | keyed x =>
    rw [toList_keyed] at hlist
    cases w with
    | keyed y =>
      rw [toList_keyed] at hlist
      obtain rfl := String.toList_inj.1 (eq_of_marks hmn hnm hby hby hlist)
      simpa [String.toList_inj] using hlist
    | following y =>
      rw [toList_following] at hlist
      simp [eq_of_marks hmn hnm hby hof hlist] at hlist
    | all => exact absurd (hlist.trans (toList_all n)) (mark_ne_front hmn hby hall)
    | reciprocal => exact absurd (hlist.trans (toList_reciprocal n)) (mark_ne_front hmn hby hmutual)
    | detail => exact absurd (hlist.trans (toList_detail n)) (mark_ne_detail hmn hby)
  | following x =>
    rw [toList_following] at hlist
    cases w with
    | keyed y =>
      rw [toList_keyed] at hlist
      simp [eq_of_marks hmn hnm hof hby hlist] at hlist
    | following y =>
      rw [toList_following] at hlist
      obtain rfl := String.toList_inj.1 (eq_of_marks hmn hnm hof hof hlist)
      simpa [String.toList_inj] using hlist
    | all => exact absurd (hlist.trans (toList_all n)) (mark_ne_front hmn hof hall)
    | reciprocal => exact absurd (hlist.trans (toList_reciprocal n)) (mark_ne_front hmn hof hmutual)
    | detail => exact absurd (hlist.trans (toList_detail n)) (mark_ne_detail hmn hof)
  | all =>
    rw [toList_all] at hlist
    cases w with
    | keyed y => exact absurd (hlist.trans (toList_keyed n y)).symm (mark_ne_front hnm hby hall)
    | following y => exact absurd (hlist.trans (toList_following n y)).symm (mark_ne_front hnm hof hall)
    | all => simpa [String.toList_inj] using hlist
    | reciprocal => simp at hlist
    | detail => exact absurd (hlist.trans (toList_detail n)).symm (detail_ne_front hnm hall)
  | reciprocal =>
    rw [toList_reciprocal] at hlist
    cases w with
    | keyed y => exact absurd (hlist.trans (toList_keyed n y)).symm (mark_ne_front hnm hby hmutual)
    | following y =>
      exact absurd (hlist.trans (toList_following n y)).symm (mark_ne_front hnm hof hmutual)
    | all => simp at hlist
    | reciprocal => simpa [String.toList_inj] using hlist
    | detail => exact absurd (hlist.trans (toList_detail n)).symm (detail_ne_front hnm hmutual)
  | detail =>
    rw [toList_detail] at hlist
    cases w with
    | keyed y => exact absurd (hlist.trans (toList_keyed n y)).symm (mark_ne_detail hnm hby)
    | following y => exact absurd (hlist.trans (toList_following n y)).symm (mark_ne_detail hnm hof)
    | all => exact absurd (hlist.trans (toList_all n)) (detail_ne_front hmn hall)
    | reciprocal => exact absurd (hlist.trans (toList_reciprocal n)) (detail_ne_front hmn hmutual)
    | detail => simpa [String.toList_inj] using hlist

end View

/-! ### Names of titles -/

/-- The words at the front of names. -/
def frontWords : List String :=
  ["Create", "Delete", "Count", "Connect", "ShortestPath", "WeightedPath", "Explore", "Add", "Upsert",
    "Avg", "Sum", "GroupBy", "HybridSearch", "Search", "Get"]

theorem Title.word_mem (t : Title) : t.word ∈ frontWords := by
  cases t with
  | plain a => cases a <;> simp [word, Action.word, frontWords]
  | aggregate isAverage x => cases isAverage <;> simp [word, frontWords]
  | search isHybrid x => cases isHybrid <;> simp [word, frontWords]
  | _ => simp [word, frontWords]

/-- No word at the front of names begins with another one. -/
theorem eq_of_frontWords_append {v w : String} (hv : v ∈ frontWords) (hw : w ∈ frontWords)
    {x y : List Char} (h : v.toList ++ x = w.toList ++ y) : v = w := by
  have hfree : ∀ v ∈ frontWords, ∀ w ∈ frontWords, v.toList <+: w.toList → v = w := by
    decide +kernel
  rcases List.prefix_or_prefix_of_prefix (List.prefix_append v.toList x)
    (h ▸ List.prefix_append w.toList y) with hle | hle
  · exact hfree v hv w hw hle
  · exact (hfree w hw v hv hle).symm

/-- Titles of the same shape, whose names begin with the same word. -/
inductive Alike : Title → Title → Prop
  | plain (a : Action) : Alike (.plain a) (.plain a)
  | upsert (v w : Bool) : Alike (.upsert v) (.upsert w)
  | aggregate (isAverage : Bool) (x y : String) :
      Alike (.aggregate isAverage x) (.aggregate isAverage y)
  | group (x y : String) : Alike (.group x) (.group y)
  | search (isHybrid : Bool) (x y : Option String) : Alike (.search isHybrid x) (.search isHybrid y)
  | get (v w : View) : Alike (.get v) (.get w)

/-- A title without what stands after its word. -/
def Title.shape : Title → Title
  | plain a => plain a
  | upsert _ => upsert false
  | aggregate isAverage _ => aggregate isAverage ""
  | group _ => group ""
  | search isHybrid _ => search isHybrid none
  | get _ => get .all

/-- The shapes of titles, one for each word. -/
def titleShapes : List Title :=
  [.create, .delete, .count, .connect, .shortestPath, .weightedPath, .explore, .add].map .plain ++
  [.upsert false, .aggregate false "", .aggregate true "", .group "", .search false none,
    .search true none, .get .all]

namespace Title

variable {s t : Title}

theorem shape_mem (t : Title) : t.shape ∈ titleShapes := by
  cases t with
  | plain a => cases a <;> simp [shape, titleShapes]
  | aggregate isAverage x => cases isAverage <;> simp [shape, titleShapes]
  | search isHybrid x => cases isHybrid <;> simp [shape, titleShapes]
  | _ => simp [shape, titleShapes]

theorem word_shape (t : Title) : t.shape.word = t.word := by cases t <;> rfl

theorem alike_of_shape (h : s.shape = t.shape) : Alike s t := by
  cases s <;> cases t <;> cases h <;> constructor

end Title

/-- The word at the front of a name tells the shape of its title. -/
theorem alike_of_word {s t : Title} (h : s.word = t.word) : Alike s t := by
  have hwords : ∀ s ∈ titleShapes, ∀ t ∈ titleShapes, s.word = t.word → s = t := by decide +kernel
  refine Title.alike_of_shape (hwords _ s.shape_mem _ t.shape_mem ?_)
  rw [s.word_shape, t.word_shape, h]

/-- The names of two entities do not make names of queries meet. -/
structure KeepApart (a b : Entity) : Prop where
  apart : Apart (pascalCase a.name).toList (pascalCase b.name).toList
  vectors : a.isVector = true → b.isVector = false →
    pascalCase b.name ≠ pascalCase a.name ++ "Vector"
  sums : a.isNode = true → b.isNode = true → ∀ p ∈ numericProperties a, ∀ r ∈ numericProperties b,
    pascalCase a.name ++ pascalCase p.name = pascalCase b.name ++ pascalCase r.name →
      pascalCase a.name = pascalCase b.name

instance (a b : Entity) : Decidable (KeepApart a b) :=
  decidable_of_iff (_ ∧ _ ∧ _)
    ⟨fun h => ⟨h.1, h.2.1, h.2.2⟩, fun h => ⟨h.apart, h.vectors, h.sums⟩⟩

section Entities

variable {a b e : Entity} {s t : Title}

theorem isVector_of_mem_titles {isVector : Bool} (h : .upsert isVector ∈ titles e) :
    e.isVector = isVector := by
  rw [titles] at h
  rw [Entity.isVector]
  cases hkind : e.kind with
  | node => simpa [hkind, nodeTitles] using h
  | edge => simpa [hkind, edgeTitles] using h
  | vector => simpa [hkind, vectorTitles] using h

theorem numeric_of_mem_titles {isAverage : Bool} {x : String}
    (h : .aggregate isAverage x ∈ titles e) :
    e.isNode = true ∧ ∃ p ∈ numericProperties e, pascalCase p.name = x := by
  rw [titles] at h
  cases hkind : e.kind with
  | node =>
    simp only [hkind, nodeTitles, List.mem_append, List.mem_cons, List.mem_map, List.mem_flatMap,
      reduceCtorEq, Title.aggregate.injEq, List.not_mem_nil, false_or, or_false, and_false,
      exists_false] at h
    obtain ⟨p, hp, ⟨-, rfl⟩ | ⟨-, rfl⟩⟩ := h
    · exact ⟨decide_eq_true hkind, p, hp, rfl⟩
    · exact ⟨decide_eq_true hkind, p, hp, rfl⟩
  | edge => simp [hkind, edgeTitles] at h
  | vector => simp [hkind, vectorTitles] at h

theorem eq_of_keyed {m n x y : String} (hmn : Apart m.toList n.toList)
    (hnm : Apart n.toList m.toList) (h : m ++ "By" ++ x = n ++ "By" ++ y) : m = n ∧ x = y := by
  obtain ⟨hname, hview⟩ := View.injective (v := .keyed x) (w := .keyed y) hmn hnm h
  exact ⟨hname, View.keyed.inj hview⟩

theorem ne_keyed {m n x : String} (hnm : Apart n.toList m.toList) : m ≠ n ++ "By" ++ x := by
  intro heq
  have hlist : m.toList = n.toList ++ 'B' :: 'y' :: x.toList :=
    (congrArg String.toList heq).trans (View.toList_keyed n x)
  exact absurd ⟨x.toList, by simp [hlist]⟩ (hnm.not_mark List.mem_cons_self (.inl ⟨rfl, rfl⟩))

/-- Names of titles of entities that keep apart do not meet. -/
theorem eq_of_text (hab : KeepApart a b) (hba : KeepApart b a) (hs : s ∈ titles a)
    (ht : t ∈ titles b) (h : s.text (pascalCase a.name) = t.text (pascalCase b.name)) :
    pascalCase a.name = pascalCase b.name ∧ s = t := by
  have hlist : s.word.toList ++ (s.rest (pascalCase a.name)).toList =
      t.word.toList ++ (t.rest (pascalCase b.name)).toList := by
    simpa only [Title.text, String.toList_append] using congrArg String.toList h
  have hword : s.word = t.word := eq_of_frontWords_append s.word_mem t.word_mem hlist
  have hrest : s.rest (pascalCase a.name) = t.rest (pascalCase b.name) := by
    rw [hword] at hlist
    exact String.toList_inj.1 (List.append_cancel_left hlist)
  -- the word leaves only titles of one shape to compare
  cases alike_of_word hword with
  | plain act => exact ⟨by simpa [Title.rest] using hrest, rfl⟩
  | upsert v w =>
    have hv := isVector_of_mem_titles hs
    have hw := isVector_of_mem_titles ht
    cases v with
    | false =>
      cases w with
      | false => exact ⟨hrest, rfl⟩
      | true => exact absurd hrest (hba.vectors hw hv)
    | true =>
      cases w with
      | false => exact absurd hrest.symm (hab.vectors hv hw)
      | true => exact ⟨by simpa [Title.rest] using hrest, rfl⟩
  | aggregate f x y =>
    obtain ⟨ha, p, hp, rfl⟩ := numeric_of_mem_titles hs
    obtain ⟨hb, r, hr, rfl⟩ := numeric_of_mem_titles ht
    have hname := hab.sums ha hb p hp r hr hrest
    simp only [Title.rest, hname, String.append_right_inj] at hrest
    exact ⟨hname, congrArg _ hrest⟩
  | group x y =>
    obtain ⟨hname, rfl⟩ := eq_of_keyed hab.apart hba.apart hrest
    exact ⟨hname, rfl⟩
  | search f x y =>
    cases x with
    | none =>
      cases y with
      | none => exact ⟨hrest, rfl⟩
      | some y => exact absurd hrest (ne_keyed hba.apart)
    | some x =>
      cases y with
      | none => exact absurd hrest.symm (ne_keyed hab.apart)
      | some y =>
        obtain ⟨hname, rfl⟩ := eq_of_keyed hab.apart hba.apart hrest
        exact ⟨hname, rfl⟩
  | get v w =>
    obtain ⟨hname, rfl⟩ := View.injective hab.apart hba.apart hrest
    exact ⟨hname, rfl⟩

/-- Properties in Pascal case. -/
def propertyNames (ps : List Property) : List String := ps.map fun p => pascalCase p.name

/-- The names of the properties of an entity do not make names of its queries meet. -/
structure KeepsProperties (e : Entity) : Prop where
  unique : e.isNode = true → ("Id" :: propertyNames (uniqueProperties e)).Nodup
  numeric : e.isNode = true → (propertyNames (numericProperties e)).Nodup
  grouped : e.isNode = true → (propertyNames (groupedProperties e)).Nodup
  prefiltered : e.isVector = true → ("Keyword" :: propertyNames (prefilterProperties e)).Nodup

instance (e : Entity) : Decidable (KeepsProperties e) :=
  decidable_of_iff (_ ∧ _ ∧ _ ∧ _) ⟨fun h => ⟨h.1, h.2.1, h.2.2.1, h.2.2.2⟩,
    fun h => ⟨h.unique, h.numeric, h.grouped, h.prefiltered⟩⟩

/-- Two titles for each property. -/
theorem nodup_flatMap_pair {f g : String → Title} (hf : Function.Injective f)
    (hg : Function.Injective g) (hfg : ∀ x y, f x ≠ g y) {ps : List Property}
    (h : (propertyNames ps).Nodup) :
    (ps.flatMap fun p => [f (pascalCase p.name), g (pascalCase p.name)]).Nodup := by
  induction ps with
  | nil => exact List.nodup_nil
  | cons p ps ih =>
    obtain ⟨hp, hps⟩ := List.nodup_cons.1 h
    have hnew : ∀ r ∈ ps, pascalCase p.name ≠ pascalCase r.name :=
      fun r hr heq => hp (List.mem_map.2 ⟨r, hr, heq.symm⟩)
    simpa [ih hps, hfg, fun x y => (hfg y x).symm, hf.eq_iff, hg.eq_iff] using hnew

theorem nodup_nodeTitles (h : KeepsProperties e) (he : e.isNode = true) : (nodeTitles e).Nodup := by
  obtain ⟨hid, hunique⟩ := List.nodup_cons.1 (h.unique he)
  have hkeyed := hunique.map (f := fun x => Title.get (.keyed x)) fun x y hxy => by simpa using hxy
  have hgrouped := (h.grouped he).map (f := Title.group) fun x y hxy => by simpa using hxy
  have hnumeric := nodup_flatMap_pair (f := .aggregate false) (g := .aggregate true)
    (fun x y hxy => by simpa using hxy) (fun x y hxy => by simpa using hxy) (by simp) (h.numeric he)
  rw [propertyNames, List.map_map] at hkeyed hgrouped
  have hids : ∀ p ∈ uniqueProperties e, pascalCase p.name ≠ "Id" :=
    fun p hp heq => hid (List.mem_map.2 ⟨p, hp, heq⟩)
  have hgroup : ∀ t p, p ∈ numericProperties e →
      t = .aggregate false (pascalCase p.name) ∨ t = .aggregate true (pascalCase p.name) →
        ∀ r ∈ groupedProperties e, t ≠ Title.group (pascalCase r.name) := by
    rintro t p - (rfl | rfl) r - <;> simp
  have hget : ∀ p ∈ uniqueProperties e, ∀ t, ((∃ r ∈ numericProperties e,
      t = .aggregate false (pascalCase r.name) ∨ t = .aggregate true (pascalCase r.name)) ∨
        ∃ r ∈ groupedProperties e, .group (pascalCase r.name) = t) →
          Title.get (.keyed (pascalCase p.name)) ≠ t := by
    rintro p - t (⟨r, -, rfl | rfl⟩ | ⟨r, -, rfl⟩) <;> simp
  simpa [nodeTitles, List.nodup_append] using
    ⟨hids, hkeyed, ⟨hnumeric, hgrouped, hgroup⟩, hget⟩

theorem nodup_edgeTitles : (edgeTitles e).Nodup := by
  simp [edgeTitles]

theorem nodup_vectorTitles (h : KeepsProperties e) (he : e.isVector = true) :
    (vectorTitles e).Nodup := by
  obtain ⟨hkeyword, hnames⟩ := List.nodup_cons.1 (h.prefiltered he)
  have hsearch := nodup_flatMap_pair (f := fun x => .search false (some x))
    (g := fun x => .search true (some x)) (fun x y hxy => by simpa using hxy)
    (fun x y hxy => by simpa using hxy) (by simp) hnames
  have hkeywords : ∀ p ∈ prefilterProperties e, pascalCase p.name ≠ "Keyword" :=
    fun p hp heq => hkeyword (List.mem_map.2 ⟨p, hp, heq⟩)
  have hrest : ∀ (t : Title) (p : Property), p ∈ prefilterProperties e →
      t = .search false (some (pascalCase p.name)) ∨ t = .search true (some (pascalCase p.name)) →
        t ≠ .plain .add ∧ t ≠ .upsert true ∧ t ≠ .search false (some "Keyword") := by
    rintro t p hp (rfl | rfl) <;> simp [hkeywords p hp]
  simpa [vectorTitles, List.nodup_append] using ⟨hsearch, hrest⟩

theorem nodup_titles (h : KeepsProperties e) : (titles e).Nodup := by
  rw [titles]
  cases hkind : e.kind with
  | node => exact nodup_nodeTitles h (decide_eq_true hkind)
  | edge => exact nodup_edgeTitles
  | vector => exact nodup_vectorTitles h (decide_eq_true hkind)

/-- An edge and a vector have no title in common. -/
theorem not_mem_titles_vector (he : a.isEdge = true) (hv : b.isVector = true) (ht : t ∈ titles a) :
    t ∉ titles b := by
  have hedge : a.kind = .edge := of_decide_eq_true he
  have hvector : b.kind = .vector := of_decide_eq_true hv
  rw [titles, hedge] at ht
  rw [titles, hvector]
  simp only [edgeTitles, List.mem_append, List.mem_singleton, or_assoc] at ht
  rcases ht with rfl | rfl | rfl | rfl | rfl | rfl | rfl <;> simp [vectorTitles]

end Entities

/-- Pascal case tells the names of a model apart, and no name goes on where another one ends. -/
structure KeepsNames (model : Model) : Prop where
  entities : model.entities.Pairwise fun a b => pascalCase a.name = pascalCase b.name →
    (a.isEdge = true ∧ b.isVector = true) ∨ (a.isVector = true ∧ b.isEdge = true)
  apart : ∀ a ∈ model.entities, ∀ b ∈ model.entities, KeepApart a b
  properties : ∀ e ∈ model.entities, KeepsProperties e

instance (model : Model) : Decidable (KeepsNames model) :=
  decidable_of_iff (_ ∧ _ ∧ _)
    ⟨fun h => ⟨h.1, h.2.1, h.2.2⟩, fun h => ⟨h.entities, h.apart, h.properties⟩⟩

/-- The names of all queries of a library are different if the names of the model are kept apart. -/
theorem nodup_names {model : Model} (h : KeepsNames model) (config : Config) :
    ((build config model).flatMap fun g => g.all.map Query.name).Nodup := by
  have htitle {e : Entity} {n : String}
      (hn : n ∈ (Group.all ⟨e, sectionQueries config model e⟩).map Query.name) :
      ∃ t ∈ titles e, t.text (pascalCase e.name) = n :=
    List.mem_map.1 ((names_sublist config model e).subset hn)
  rw [build, List.flatMap_map, List.nodup_flatMap]
  constructor
  · intro e he
    refine (names_sublist config model e).nodup ((nodup_titles (h.properties e he)).map_on ?_)
    intro s hs t ht heq
    exact (eq_of_text (h.apart e he e he) (h.apart e he e he) hs ht heq).2
  · refine h.entities.imp_of_mem fun {a b} ha hb hab n hna hnb => ?_
    obtain ⟨s, hs, rfl⟩ := htitle hna
    obtain ⟨t, ht, heq⟩ := htitle hnb
    obtain ⟨hname, rfl⟩ := eq_of_text (h.apart a ha b hb) (h.apart b hb a ha) hs ht heq.symm
    rcases hab hname with ⟨hedge, hvector⟩ | ⟨hvector, hedge⟩
    · exact not_mem_titles_vector hedge hvector hs ht
    · exact not_mem_titles_vector hedge hvector ht hs

theorem nodup_names_socialModel : KeepsNames socialModel ∧
    ((build (Config.uniform true) socialModel).flatMap fun g => g.all.map Query.name).Nodup := by
  have h : KeepsNames socialModel := by decide +kernel
  exact ⟨h, nodup_names h (Config.uniform true)⟩

/-- A node with two properties that differ in the way their words are joined. -/
def spellingsModel : Model := [
  some { id := "u", name := "User", kind := .node
         properties := [some { name := "user_name", isUnique := true },
           some { name := "userName", isUnique := true }] }]

/-- Pascal case gives different names of properties one form. -/
theorem not_nodup_names : ¬ ∀ (config : Config) (model : Model),
    Validation.ErrorFree (Validation.validate model) →
      ((build config model).flatMap fun g => g.all.map Query.name).Nodup :=
  fun h => absurd (h {} spellingsModel (by decide +kernel)) (by decide +kernel)

end Hql.Library
