import Hql.Proofs.Schema.Outcome
import Hql.Proofs.Schema.Offset

/-!
Schemas one after another. At the end of a definition nothing but the complete entities is kept, so a
schema that follows another one on a line of its own is read as if it stood alone: its entities count
on from those before it, and its faults stand further down.
-/

namespace Hql

/-- The entity with the id that it has at a position of a text. -/
def Entity.atPosition (e : Entity) (position : Nat) : Entity :=
  { e with id := e.kind.lowerName ++ "-" ++ toString position }

/-- Entities with the ids that they have after so many others. -/
def Entity.countFrom (n : Nat) (es : List Entity) : List Entity :=
  es.mapIdx fun i e => e.atPosition (n + i)

theorem Entity.countFrom_concat (n : Nat) (es : List Entity) (e : Entity) :
    countFrom n (es ++ [e]) = countFrom n es ++ [e.atPosition (n + es.length)] :=
  List.mapIdx_concat

namespace Schema

/-- Places where the field that is being read has a type that has not been looked up. -/
def Place.namesType : Place → Bool
  | itemTypeEnd _ | afterType _ => true
  | _ => false

/-- The draft of a text that follows other definitions, with another offset for the type that is being
read. -/
def Draft.after (es : List Entity) (n : Nat) (d : Draft) : Draft :=
  { d with
    entities := es ++ Entity.countFrom es.length d.entities
    field := { d.field with typeOffset := n } }

theorem Draft.after_finish (es : List Entity) (n : Nat) (d : Draft) :
    (d.after es n).finish = d.finish.after es n := by
  have hid : (d.after es n).entity = d.entity.atPosition (es.length + d.entities.length) := by
    have hlen : (es ++ Entity.countFrom es.length d.entities).length =
        es.length + d.entities.length := by
      rw [List.length_append, Entity.countFrom, List.length_mapIdx]
    simp only [entity, after, hlen]
    rfl
  have hentities : (d.after es n).entities ++ [(d.after es n).entity] =
      (d.finish.after es n).entities := by
    rw [hid]
    simp only [after, finish, Entity.countFrom_concat, List.append_assoc]
  rw [finish, hentities]
  rfl

theorem Draft.after_resolveType (es : List Entity) (k : Nat) (d : Draft) :
    (d.after es (d.field.typeOffset + k)).resolveType =
      match d.resolveType with
      | .ok d₁ => .ok (d₁.after es (d.field.typeOffset + k))
      | .error fault => .error (fault.shift k) := by
  simp only [resolveType, after]
  cases PropertyType.ofName? d.field.typeName <;> rfl

theorem Draft.after_finishField (es : List Entity) (n : Nat) (d : Draft) :
    (d.after es n).finishField = d.finishField.after es 0 := rfl

theorem Draft.after_endField (es : List Entity) (n : Nat) (d : Draft) (o : Owner) (m : Mark) :
    (d.after es n).endField o m = (d.endField o m).after es 0 := by
  rw [endField, endField, after_finishField, after_finish]
  split <;> rfl

/-- How a token changes a draft that follows other definitions, `k` characters further on. -/
inductive Draft.Follows (es : List Entity) (k : Nat) (q : Place) :
    Except Fault Draft → Except Fault Draft → Prop
  | ok (d : Draft) (n : Nat) (hn : q.namesType = true → n = d.field.typeOffset + k) :
      Follows es k q (.ok d) (.ok (d.after es n))
  | error (fault : Fault) : Follows es k q (.error fault) (.error (fault.shift k))

namespace Draft

theorem Follows.of_not {q : Place} (hq : q.namesType = false) (es : List Entity) (k : Nat)
    (d : Draft) (n : Nat) : Follows es k q (.ok d) (.ok (d.after es n)) :=
  .ok d n fun h => absurd h (by rw [hq]; exact Bool.false_ne_true)

theorem Follows.of_finish (es : List Entity) (k : Nat) (d : Draft) (n : Nat) :
    Follows es k .outside (.ok d.finish) (.ok (d.after es n).finish) := by
  rw [after_finish]
  exact .of_not rfl es k _ n

theorem namesType_of_afterField {o : Owner} {m : Mark} {q : Place}
    (h : Place.afterField o m = some q) : q.namesType = false := by
  rcases Place.afterField_eq_some h with ⟨-, rfl⟩ | ⟨-, rfl⟩
  · rfl
  · cases o <;> rfl

theorem Follows.of_endField {o : Owner} {m : Mark} {q : Place} (h : Place.afterField o m = some q)
    (es : List Entity) (k : Nat) (d : Draft) (n : Nat) :
    Follows es k q (.ok (d.endField o m)) (.ok ((d.after es n).endField o m)) := by
  rw [after_endField]
  exact .of_not (namesType_of_afterField h) es k _ 0

/-- Behind other definitions a token changes a draft as it does alone, or is refused for the same
fault further on. -/
theorem push_after {p q : Place} {t : Terminal} (hnext : p.next t = some q)
    (es : List Entity) (k : Nat) {d : Draft} {n : Nat}
    (hn : p.namesType = true → n = d.field.typeOffset + k) (cs : List Char) (offset : Nat) :
    Follows es k q (d.push ⟨p, t, cs, offset⟩) ((d.after es n).push ⟨p, t, cs, offset + k⟩) := by
  unfold Place.next at hnext
  split at hnext
  all_goals try obtain rfl := Option.some.inj hnext
  -- a token that is no type and ends no field or definition leaves offsets and entities alone
  all_goals
    try first
    | exact .of_not rfl es k _ n
    | exact .of_not rfl es k _ 0
    | exact .ok _ (offset + k) fun _ => rfl
  -- the clauses of an edge
  · exact .of_finish es k d n
  · next side => cases side <;> exact .of_not rfl es k _ n
  · exact .of_finish es k d n
  -- the end of a list of fields, and that of a list type
  · next o =>
    cases o with
    | plain => exact .of_finish es k d n
    | edge => exact .of_not rfl es k d n
  · exact .ok d n hn
  -- a type that is looked up: its offset is known here, so the fault is where it should be
  · next o =>
    have hresolve := d.after_resolveType es k
    rw [← hn rfl] at hresolve
    change Follows es k _ d.resolveType (d.after es n).resolveType
    rw [hresolve]
    cases d.resolveType with
    | ok d₁ => exact .of_not rfl es k d₁ n
    | error fault => exact .error fault
  · next o m _ =>
    have hresolve := d.after_resolveType es k
    rw [← hn rfl] at hresolve
    have hpush (d' : Draft) (offset' : Nat) : d'.push ⟨.afterType o, .mark m, cs, offset'⟩ =
        d'.resolveType.map fun d₁ => d₁.endField o m := by
      rcases Place.afterField_eq_some hnext with ⟨rfl, -⟩ | ⟨rfl, -⟩ <;> rfl
    rw [hpush, hpush, hresolve]
    cases d.resolveType with
    | ok d₁ => exact .of_endField hnext es k d₁ n
    | error fault => exact .error fault
  · exact .of_endField hnext es k d n
  · cases hnext

end Draft

theorem Leads.foldlM_after {rest cs : List Char} {p q : Place} {offset : Nat} {ts : List Token}
    (h : Leads rest p offset cs ts q) (es : List Entity) (k : Nat) {d : Draft} {n : Nat}
    (hn : p.namesType = true → n = d.field.typeOffset + k) :
    Draft.Follows es k q (ts.foldlM Draft.push d)
      ((ts.map (Token.shift k)).foldlM Draft.push (d.after es n)) := by
  induction h generalizing d n with
  | nil p offset => exact .ok d n hn
  | @cons p q r offset gap lexeme more t ts _ hfind _ ih =>
    have hpush := Draft.push_after (Place.find_eq_some hfind).2 es k hn lexeme (offset + gap.length)
    rw [List.map_cons, List.foldlM_cons, List.foldlM_cons]
    dsimp only [Token.shift] at hpush ⊢
    revert hpush
    generalize Draft.push d _ = x
    generalize (d.after es n).push _ = y
    rintro (⟨d₁, n₁, hn₁⟩ | fault)
    · exact ih hn₁
    · exact .error fault

/-- A definition starts anew: of the definitions before it only the entities are kept. -/
theorem foldlM_push_outside {d d' : Draft} (hentities : d.entities = d'.entities) (offset : Nat)
    (cs : List Char) :
    ((scan .outside offset cs).1.foldlM Draft.push d).map Draft.entities =
      ((scan .outside offset cs).1.foldlM Draft.push d').map Draft.entities := by
  obtain ⟨front, rest, q, -, hleads, -⟩ := exists_leads .outside offset cs
  generalize (scan .outside offset cs).1 = ts at hleads
  cases hleads with
  | nil => exact congrArg Except.ok hentities
  | @cons _ r _ _ gap lexeme more t ts _ hfind _ =>
    have hnext := (Place.find_eq_some hfind).2
    have hstart (k : EntityKind) : d.start k = d'.start k := by
      rw [Draft.start, Draft.start, hentities]
    have hpush : d.push ⟨.outside, t, lexeme, offset + gap.length⟩ =
        d'.push ⟨.outside, t, lexeme, offset + gap.length⟩ := by
      cases t with
      | mark m =>
        cases m with
        | node | edge | vector => exact congrArg Except.ok (hstart _)
        | _ => cases hnext
      | _ => cases hnext
    rw [List.foldlM_cons, List.foldlM_cons, hpush]

/-- The entities of a text with other definitions before it. -/
theorem entities_foldlM_append {ts : List Token} {d : Draft} (h : ts.foldlM Draft.push {} = .ok d)
    (offset k : Nat) (cs : List Char) :
    ((ts ++ (scan .outside (offset + k) cs).1).foldlM Draft.push {}).map Draft.entities =
      match ((scan .outside offset cs).1.foldlM Draft.push {}).map Draft.entities with
      | .ok fs => .ok (d.entities ++ Entity.countFrom d.entities.length fs)
      | .error fault => .error (fault.shift k) := by
  -- the next definition starts from the entities alone, so the rest of the draft may be left out
  have hentities : d.entities = (({} : Draft).after d.entities 0).entities :=
    (List.append_nil _).symm
  have hsame := foldlM_push_outside hentities (offset + k) cs
  have hfold : (ts ++ (scan .outside (offset + k) cs).1).foldlM Draft.push {} =
      (scan .outside (offset + k) cs).1.foldlM Draft.push d := by
    rw [List.foldlM_append, h]
    rfl
  obtain ⟨front, rest, q, -, hleads, -⟩ := exists_leads .outside offset cs
  have hfollows := hleads.foldlM_after d.entities k (d := {}) (n := 0) (fun h => nomatch h)
  rw [hfold, hsame, scan_shift]
  revert hfollows
  generalize List.foldlM Draft.push {} _ = x
  generalize List.foldlM Draft.push (Draft.after _ _ _) _ = y
  rintro (⟨d₁, n, -⟩ | fault) <;> rfl

/-- The tokens of a text count on from a text with its last definition complete. -/
theorem entitiesOf_append {ts : List Token} {es : List Entity}
    (h : entitiesOf ts .complete = .ok es) (offset k : Nat) (cs : List Char) :
    entitiesOf (ts ++ (scan .outside (offset + k) cs).1) (scan .outside (offset + k) cs).2 =
      match entitiesOf (scan .outside offset cs).1 (scan .outside offset cs).2 with
      | .ok fs => .ok (es ++ Entity.countFrom es.length fs)
      | .error fault => .error (fault.shift k) := by
  obtain ⟨d, hd, rfl⟩ : ∃ d, ts.foldlM Draft.push {} = .ok d ∧ d.entities = es := by
    rw [entitiesOf_eq] at h
    cases hd : ts.foldlM Draft.push {} with
    | ok d =>
      rw [hd] at h
      exact ⟨d, rfl, Except.ok.inj h⟩
    | error fault =>
      rw [hd] at h
      cases h
  rw [entitiesOf_eq, entitiesOf_eq, entities_foldlM_append hd]
  cases ((scan .outside offset cs).1.foldlM Draft.push {}).map Draft.entities with
  | error fault => rfl
  | ok fs =>
    have hunfinished := @tokens_of_unfinished offset cs
    rw [scan_shift]
    generalize scan .outside offset cs = r at hunfinished ⊢
    obtain ⟨us, ending⟩ := r
    cases ending with
    | complete => rfl
    | unexpected n => rfl
    | unfinished =>
      -- the fault is at the last token, and that is one of the new ones
      obtain ⟨front, t, rfl⟩ := (List.eq_nil_or_concat us).resolve_left (hunfinished rfl)
      simp [Except.bind, Ending.shift, Token.shift, Fault.shift]

/-- Alone, the entities of a text count from zero. -/
theorem countFrom_of_entitiesOf {offset : Nat} {cs : List Char} {es : List Entity}
    (h : entitiesOf (scan .outside offset cs).1 (scan .outside offset cs).2 = .ok es) :
    es = Entity.countFrom 0 es := by
  -- the text is read behind no definitions, which must not change it
  have happend := @entitiesOf_append [] [] rfl offset 0 cs
  rw [Nat.add_zero, h, List.nil_append, h] at happend
  exact Except.ok.inj happend

/-! ### Texts and positions -/

theorem Position.ofOffset_newline (a b : List Char) (offset : Nat) :
    ofOffset (a ++ '\n' :: b) (offset + (a.length + 1)) =
      ⟨(ofOffset b offset).line + (a.count '\n' + 1), (ofOffset b offset).column⟩ := by
  have htake : (a ++ '\n' :: b).take (offset + (a.length + 1)) = a ++ '\n' :: b.take offset := by
    have hcons : a ++ '\n' :: b = (a ++ ['\n']) ++ b := by simp
    have hlen : offset + (a.length + 1) = (a ++ ['\n']).length + offset := by
      rw [List.length_append, List.length_singleton]
      omega
    rw [hcons, hlen, List.take_length_add_append, List.append_assoc, List.singleton_append]
  have hline : (a ++ '\n' :: b.take offset).count '\n' + 1 =
      (b.take offset).count '\n' + 1 + (a.count '\n' + 1) := by
    rw [List.count_append, List.count_cons_self]
    omega
  -- the line feed between the texts ends the line that is counted back from the position
  have hcolumn : ((a ++ '\n' :: b.take offset).reverse.takeWhile (· != '\n')) =
      (b.take offset).reverse.takeWhile (· != '\n') := by
    rw [List.reverse_append, List.reverse_cons, List.append_assoc, List.singleton_append]
    generalize (b.take offset).reverse = line
    induction line with
    | nil => rfl
    | cons c line ih =>
      rw [List.cons_append, List.takeWhile_cons, List.takeWhile_cons, ih]
  simp only [ofOffset, htake, hline, hcolumn]

theorem entities?_append_newline {a b : List Char} {es : List Entity} (ha : entities? a = .ok es)
    (haempty : isEmptyText a = false) (hbempty : isEmptyText b = false) :
    entities? (a ++ '\n' :: b) =
      match entities? b with
      | .ok fs => .ok (es ++ Entity.countFrom es.length fs)
      | .error fault => .error (fault.shift (a.length + 1)) := by
  have hempty : isEmptyText (a ++ '\n' :: b) = false := by
    rw [Bool.eq_false_iff]
    intro h
    rcases isEmptyText_newline h with h | h
    · exact Bool.false_ne_true (haempty.symm.trans h)
    · exact Bool.false_ne_true (hbempty.symm.trans h)
  rw [entities?, haempty, if_neg Bool.false_ne_true] at ha
  dsimp only at ha
  have hcomplete := complete_of_entitiesOf ha
  rw [hcomplete] at ha
  have hends : ∀ n, (scan .outside 0 a).2 ≠ .unexpected n := by
    intro n h
    cases hcomplete.symm.trans h
  obtain ⟨q, hq, hscan⟩ := exists_scan_newline hends
  rw [hq hcomplete, Nat.add_assoc] at hscan
  rw [entities?, hempty, if_neg Bool.false_ne_true, entities?, hbempty, if_neg Bool.false_ne_true,
    hscan]
  exact entitiesOf_append ha 0 (a.length + 1) b

/-- Reading is compositional: a text on the lines after a complete schema gives the entities that it
gives alone, counted on, or goes wrong where it goes wrong alone. -/
theorem read_append_newline {a b : String} {es : List Entity} (ha : read a = .ok es)
    (haempty : isEmptyText a.toList = false) (hbempty : isEmptyText b.toList = false) :
    (∀ fs, read b = .ok fs → fs = Entity.countFrom 0 fs ∧
        read (a ++ "\n" ++ b) = .ok (es ++ Entity.countFrom es.length fs)) ∧
      ∀ e, read b = .error e → read (a ++ "\n" ++ b) = .error
        ⟨e.fault.shift (a.length + 1),
          e.position.line + (a.toList.count '\n' + 1), e.position.column⟩ := by
  have htext : (a ++ "\n" ++ b).toList = a.toList ++ '\n' :: b.toList := by
    rw [String.toList_append, String.toList_append, List.append_assoc]
    rfl
  have hentities := entities?_append_newline (read_eq_ok_iff.1 ha) haempty hbempty
  rw [← htext] at hentities
  constructor
  · intro fs hb
    rw [read_eq_ok_iff] at hb
    rw [hb] at hentities
    rw [entities?, hbempty, if_neg Bool.false_ne_true] at hb
    exact ⟨countFrom_of_entitiesOf hb, read_eq_ok_iff.2 hentities⟩
  · intro e hb
    obtain ⟨hfault, hposition⟩ := read_eq_error_iff.1 hb
    rw [hfault] at hentities
    rw [read, hentities]
    dsimp only
    rw [Fault.offset_shift, htext, ← String.length_toList, Position.ofOffset_newline,
      hposition]

/-- A node without fields. -/
def bareNode : String := "N::A\x7b\x7d"

theorem read_append_newline_bareNode :
    read (bareNode ++ "\n" ++ "E::B\x7b\x7d") = .ok [
        { id := "node-0", name := "A", kind := .node },
        { id := "edge-1", name := "B", kind := .edge }] ∧
      read (bareNode ++ "\n" ++ "N::B\x7bx: Int\x7d") = .error
        ⟨.unknownType "Int" 15, ⟨2, 9⟩⟩ := by
  have hnode : read bareNode = .ok [{ id := "node-0", name := "A", kind := .node }] := by
    decide +kernel
  have hedge : read "E::B\x7b\x7d" = .ok [{ id := "edge-0", name := "B", kind := .edge }] := by
    decide +kernel
  have hfault : read "N::B\x7bx: Int\x7d" = .error ⟨.unknownType "Int" 8, ⟨1, 9⟩⟩ := by
    decide +kernel
  have hgood := (read_append_newline hnode (by decide) (b := "E::B\x7b\x7d") (by decide)).1 _ hedge
  have hbad := (read_append_newline hnode (by decide) (b := "N::B\x7bx: Int\x7d") (by decide)).2 _
    hfault
  exact ⟨hgood.2, hbad⟩

end Schema

end Hql
