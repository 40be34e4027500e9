import Hql.Proofs.Schema.Outcome
import Hql.Proofs.Schema.Offset

/-!
Faults are reported at the first place where a text goes wrong. What stands before the place can be
continued to a schema, and what is written after it does not change the report.
-/

namespace Hql.Schema

open Text

/-! ### How to go on from a place -/

/-- The closing braces from the fields of an owner to the end of the definition. -/
def Owner.closing : Owner → String
  | plain => "\x7d"
  | edge => "\x7d\x7d"

/-- A text that completes the definition that a place stands in. -/
def Place.completion : Place → String
  | outside => ""
  | letter _ => "::A\x7b\x7d"
  | entityName _ => "A\x7b\x7d"
  | head _ | uniqueHead => "\x7b\x7d"
  | clauses | clauseEnd => "\x7d"
  | sideColon _ => ":A\x7d"
  | sideName _ => "A\x7d"
  | propertiesColon => ":\x7b\x7d\x7d"
  | propertiesBody => "\x7b\x7d\x7d"
  | afterUnique o => "INDEX a:ID" ++ o.closing
  | fieldName o => "a:ID" ++ o.closing
  | fieldColon o => ":ID" ++ o.closing
  | fieldType o => "ID" ++ o.closing
  | itemType o => "ID]" ++ o.closing
  | fieldDefault o => "0" ++ o.closing
  | itemTypeEnd o | firstItem o | afterItem o => "]" ++ o.closing
  | nextItem o => "0]" ++ o.closing
  | fields o | afterType o | fieldEnd o => o.closing

theorem Place.scan_completion (p : Place) (offset : Nat) :
    (scan p offset p.completion.toList).2 = .complete := by
  have hzero : (scan p 0 p.completion.toList).2 = .complete := by
    cases p with
    | letter k | entityName k | head k => cases k <;> decide +kernel
    | sideColon s | sideName s => cases s <;> decide +kernel
    | outside | uniqueHead | clauses | propertiesColon | propertiesBody | clauseEnd => decide +kernel
    | _ o => cases o <;> decide +kernel
  have hshift := scan_shift offset p 0 p.completion.toList
  rw [Nat.zero_add] at hshift
  rw [hshift]
  dsimp only
  rw [hzero]
  rfl

/-! ### Faults of drafts -/

/-- Faults of the syntax, whatever the types of the fields are called. -/
def Fault.isSyntax : Fault → Bool
  | unexpected _ | unfinished _ => true
  | unknownType _ _ => false

theorem exists_of_foldlM_eq_error {α β ε : Type} {f : β → α → Except ε β} {xs : List α} {b : β}
    {e : ε} (h : xs.foldlM f b = .error e) :
    ∃ ys x zs c, xs = ys ++ [x] ++ zs ∧ ys.foldlM f b = .ok c ∧ f c x = .error e := by
  induction xs generalizing b with
  | nil => cases h
  | cons x xs ih =>
    rw [List.foldlM_cons] at h
    cases hx : f b x with
    | error e' =>
      rw [hx] at h
      obtain rfl := Except.error.inj h
      exact ⟨[], x, xs, b, rfl, rfl, hx⟩
    | ok b' =>
      rw [hx] at h
      obtain ⟨ys, y, zs, c, rfl, hys, hy⟩ := ih h
      refine ⟨x :: ys, y, zs, c, rfl, ?_, hy⟩
      rw [List.foldlM_cons, hx]
      exact hys

theorem foldlM_eq_error {α β ε : Type} {f : β → α → Except ε β} {ys : List α} {x : α} {b c : β}
    {e : ε} (hys : ys.foldlM f b = .ok c) (hx : f c x = .error e) (zs : List α) :
    (ys ++ [x] ++ zs).foldlM f b = .error e := by
  have hcons : (x :: zs).foldlM f c = .error e := by
    rw [List.foldlM_cons, hx]
    rfl
  rw [List.append_assoc, List.foldlM_append, hys]
  exact hcons

theorem Draft.resolveType_eq_error {d : Draft} {fault : Fault} (h : d.resolveType = .error fault) :
    fault = .unknownType d.field.typeName d.field.typeOffset := by
  rw [resolveType] at h
  split at h
  · cases h
  · exact (Except.error.inj h).symm

/-- Only a mark after a type is refused, for the type. -/
theorem Draft.push_eq_error {d : Draft} {t : Token} {fault : Fault} (h : d.push t = .error fault) :
    (∃ o m, t.place = .afterType o ∧ t.terminal = .mark m) ∧
      fault = .unknownType d.field.typeName d.field.typeOffset := by
  unfold Draft.push at h
  dsimp only at h
  split at h
  all_goals try cases h
  · next o hplace hmark => exact ⟨⟨o, .default, hplace, hmark⟩, resolveType_eq_error h⟩
  · next o m _ hplace hmark =>
    refine ⟨⟨o, m, hplace, hmark⟩, resolveType_eq_error ?_⟩
    cases hresolve : d.resolveType with
    | ok d₁ =>
      rw [hresolve] at h
      cases h
    | error fault' =>
      rw [hresolve] at h
      exact congrArg Except.error (Except.error.inj h)

theorem Draft.endField_typeOffset (d : Draft) (o : Owner) (m : Mark) :
    (d.endField o m).field.typeOffset = 0 := by
  rw [endField]
  split <;> rfl

theorem Draft.push_typeOffset {d d' : Draft} {t : Token} (h : d.push t = .ok d') :
    d'.field.typeOffset ≤ max d.field.typeOffset t.offset := by
  unfold Draft.push at h
  dsimp only at h
  split at h
  all_goals
    try first
    | (obtain rfl := Except.ok.inj h; first
        | exact Nat.le_max_left _ _
        | exact Nat.le_max_right _ _
        | exact Nat.zero_le _)
  · obtain ⟨type, -, rfl⟩ := resolveType_eq_ok h
    exact Nat.le_max_left _ _
  · obtain ⟨d₁, -, rfl⟩ := push_endType h
    rw [endField_typeOffset]
    exact Nat.zero_le _
  · obtain rfl := Except.ok.inj h
    rw [endField_typeOffset]
    exact Nat.zero_le _

/-- The type that a draft reads stands in the text that has been read. -/
theorem Leads.typeOffset_le {rest cs : List Char} {p q : Place} {offset : Nat} {ts : List Token}
    (h : Leads rest p offset cs ts q) {d d' : Draft} (hd : d.field.typeOffset ≤ offset)
    (hts : ts.foldlM Draft.push d = .ok d') : d'.field.typeOffset ≤ offset + cs.length := by
  induction h generalizing d with
  | nil p offset =>
    obtain rfl := Except.ok.inj hts
    exact hd
  | @cons p q r offset gap lexeme more t ts _ _ _ ih =>
    rw [List.foldlM_cons] at hts
    cases hpush : d.push ⟨p, t, lexeme, offset + gap.length⟩ with
    | error fault =>
      rw [hpush] at hts
      cases hts
    | ok d₁ =>
      rw [hpush] at hts
      have hstep := Draft.push_typeOffset hpush
      have hrec := ih (d := d₁) (by dsimp only at hstep; omega) hts
      simp only [List.length_append]
      omega

/-- Behind a token that names an unknown type the text does not count. -/
theorem Leads.exchange_of_error {rest cs : List Char} {p q : Place} {offset : Nat} {ts : List Token}
    {t : Token} (h : Leads rest p offset cs (ts ++ [t]) q) {d : Draft} {fault : Fault}
    (hpush : d.push t = .error fault) (s : List Char) : Leads s p offset cs (ts ++ [t]) q := by
  refine h.exchange fun t' ht' => ?_
  obtain rfl : t = t' := by simpa using ht'
  obtain ⟨⟨o, m, hplace, hmark⟩, -⟩ := Draft.push_eq_error hpush
  have hfind := h.last.1
  have hspells := (Place.spells_of_find hfind).1
  have hnext := (Place.find_eq_some hfind).2
  dsimp only at hspells hnext
  rw [hmark] at hspells hnext ⊢
  have hlexeme : t.lexeme = m.text.toList := hspells
  rw [hlexeme]
  -- names may not stand after a type, so no mark runs into one there
  exact Place.find_mark hnext fun hname => by
    rw [hplace] at hname
    cases hname

/-! ### The three kinds of faults -/

/-! ### Characters where no token may stand -/

theorem unexpected_offset {p : Place} {offset n : Nat} {cs : List Char}
    (h : (scan p offset cs).2 = .unexpected n) :
    ∃ front gap body q, cs = front ++ (gap ++ body) ∧ IsGap gap ∧
      Leads (gap ++ body) p offset front (scan p offset cs).1 q ∧
      n = offset + (front ++ gap).length := by
  obtain ⟨front, rest, q, hcs, hleads, hend⟩ := exists_leads p offset cs
  rw [h] at hend
  rcases scan_eq_nil hend with ⟨-, hending⟩ | ⟨gap, body, hgap, rfl, -, -, -, hending⟩
  · split at hending <;> cases hending
  · refine ⟨front, gap, body, q, hcs, hgap, hleads, ?_⟩
    rw [Ending.unexpected.inj hending, List.length_append, Nat.add_assoc]

/-- What stands before the character can be continued. -/
theorem exists_complete_of_unexpected {n : Nat} {cs : List Char}
    (h : (scan .outside 0 cs).2 = .unexpected n) :
    ∃ more, (scan .outside 0 (cs.take n ++ more)).2 = .complete := by
  obtain ⟨front, gap, body, q, hcs, hgap, hleads, rfl⟩ := unexpected_offset h
  have htake : cs.take (0 + (front ++ gap).length) = front ++ gap := by
    rw [hcs, ← List.append_assoc, Nat.zero_add, List.take_left]
  -- a line end keeps what is written next from running into the last token
  have hline := hgap.newline
  have hapart := hline.apart (by simp) q.completion.toList
  refine ⟨'\n' :: q.completion.toList, ?_⟩
  have htext : cs.take (0 + (front ++ gap).length) ++ '\n' :: q.completion.toList =
      front ++ (gap ++ ['\n'] ++ q.completion.toList) := by
    rw [htake]
    simp
  rw [htext, (hleads.before hapart).scan_eq, scan_gap hline]
  exact q.scan_completion _

/-- After the end of the line the text does not count. -/
theorem scan_append_of_unexpected {n : Nat} {cs : List Char}
    (h : (scan .outside 0 cs).2 = .unexpected n) (hline : '\n' ∈ cs.drop n) (more : List Char) :
    scan .outside 0 (cs ++ more) = scan .outside 0 cs := by
  obtain ⟨x, y, hdrop⟩ := List.append_of_mem hline
  have hcs : cs = (cs.take n ++ x) ++ '\n' :: y := by
    rw [List.append_assoc, ← hdrop, List.take_append_drop]
  generalize hfirst : cs.take n ++ x = first at hcs
  by_cases hbad : ∃ m, (scan .outside 0 first).2 = .unexpected m
  · obtain ⟨m, hm⟩ := hbad
    rw [hcs, List.append_assoc, List.cons_append, scan_newline_of_unexpected hm,
      scan_newline_of_unexpected hm]
  · -- otherwise the character would stand on a later line
    obtain ⟨q, -, hscan⟩ := exists_scan_newline fun m hm => hbad ⟨m, hm⟩
    rw [hcs, hscan] at h
    obtain ⟨front, gap, body, -, -, -, -, hn⟩ := unexpected_offset h
    have hlen : n ≤ first.length := by
      have hle : n ≤ cs.length := by
        by_contra hlt
        rw [List.drop_eq_nil_of_le (by omega)] at hline
        cases hline
      rw [← hfirst, List.length_append, List.length_take]
      omega
    omega

/-! ### Ends of text within a definition -/

/-- A text without a character that is out of place can be continued. -/
theorem exists_complete_append {cs : List Char} (h : ∀ n, (scan .outside 0 cs).2 ≠ .unexpected n) :
    ∃ more, (scan .outside 0 (cs ++ more)).2 = .complete := by
  obtain ⟨q, -, hscan⟩ := exists_scan_newline h
  refine ⟨'\n' :: q.completion.toList, ?_⟩
  rw [hscan]
  exact q.scan_completion _

/-! ### Unknown types -/

theorem isSyntax_of_foldlM {ts : List Token} {d : Draft} {fault : Fault}
    (h : ts.foldlM Draft.push d = .error fault) : fault.isSyntax = false := by
  obtain ⟨us, t, vs, d₁, -, -, hpush⟩ := exists_of_foldlM_eq_error h
  obtain ⟨-, rfl⟩ := Draft.push_eq_error hpush
  rfl

/-- The token after an unknown type is found in front of any text, with the same fault. -/
theorem foldlM_scan_append {cs : List Char} {fault : Fault}
    (h : (scan .outside 0 cs).1.foldlM Draft.push {} = .error fault) (more : List Char) :
    (scan .outside 0 (cs ++ more)).1.foldlM Draft.push {} = .error fault ∧
      fault.offset ≤ cs.length := by
  -- the tokens up to the one that is refused are those of a front of the text
  obtain ⟨us, t, vs, d, hts, hus, hpush⟩ := exists_of_foldlM_eq_error h
  obtain ⟨front, rest, q, hcs, hleads, -⟩ := exists_leads .outside 0 cs
  rw [hts] at hleads
  obtain ⟨a, b, m, rfl, ha, -⟩ := hleads.split
  constructor
  · have hscan := (ha.exchange_of_error hpush (b ++ rest ++ more)).scan_eq
    have htext : a ++ (b ++ rest ++ more) = cs ++ more := by
      rw [hcs]
      simp only [List.append_assoc]
    rw [← htext, hscan]
    exact foldlM_eq_error hus hpush _
  · obtain ⟨a', b', m', rfl, ha', -⟩ := ha.split
    have hle := ha'.typeOffset_le (Nat.le_refl 0) hus
    obtain ⟨-, rfl⟩ := Draft.push_eq_error hpush
    change d.field.typeOffset ≤ cs.length
    rw [hcs]
    simp only [List.length_append]
    omega

theorem ending_of_unexpected {ts : List Token} {e : Ending} {n : Nat}
    (h : entitiesOf ts e = .error (.unexpected n)) : e = .unexpected n := by
  rcases entitiesOf_eq_error h with hfold | ⟨m, rfl, hm⟩ | ⟨m, -, hm⟩
  · cases isSyntax_of_foldlM hfold
  · rw [Fault.unexpected.inj hm]
  · cases hm

theorem ending_of_unfinished {ts : List Token} {e : Ending} {n : Nat}
    (h : entitiesOf ts e = .error (.unfinished n)) : e = .unfinished := by
  rcases entitiesOf_eq_error h with hfold | ⟨m, -, hm⟩ | ⟨m, rfl, -⟩
  · cases isSyntax_of_foldlM hfold
  · cases hm
  · rfl

theorem foldlM_of_unknownType {ts : List Token} {e : Ending} {name : String} {n : Nat}
    (h : entitiesOf ts e = .error (.unknownType name n)) :
    ts.foldlM Draft.push {} = .error (.unknownType name n) := by
  rcases entitiesOf_eq_error h with hfold | ⟨m, -, hm⟩ | ⟨m, -, hm⟩
  · exact hfold
  · cases hm
  · cases hm

/-! ### Reports -/

/-- The only thing that may be wrong with a text is that a type of it is unknown. -/
def IsWellFormed (text : String) : Prop := ∀ e, read text = .error e → e.fault.isSyntax = false

theorem isWellFormed_of_complete {text : String} (h : (scan .outside 0 text.toList).2 = .complete) :
    IsWellFormed text := by
  intro e he
  have hentities := (read_eq_error_iff.1 he).1
  rw [entities?_of_complete h] at hentities
  rcases entitiesOf_eq_error hentities with hfold | ⟨n, hn, -⟩ | ⟨n, hn, -⟩
  · exact isSyntax_of_foldlM hfold
  · cases hn
  · cases hn

theorem Position.ofOffset_append {cs : List Char} {offset : Nat} (h : offset ≤ cs.length)
    (more : List Char) : ofOffset (cs ++ more) offset = ofOffset cs offset := by
  rw [ofOffset, ofOffset, List.take_append_of_le_length h]

theorem read_append_eq_error {t w : String} {e : ReadError} (h : read t = .error e)
    (hlen : e.fault.offset ≤ t.toList.length)
    (hentities : entities? (t.toList ++ w.toList) = .error e.fault) :
    read (t ++ w) = .error e := by
  have hposition := (read_eq_error_iff.1 h).2
  rw [read_eq_error_iff, String.toList_append, Position.ofOffset_append hlen]
  exact ⟨hentities, hposition⟩

theorem entities?_append_of_unexpected {cs more : List Char} {n : Nat}
    (h : entities? cs = .error (.unexpected n)) (hline : '\n' ∈ cs.drop n)
    (hpair : trim (cs ++ more) ≠ empty.toList) :
    entities? (cs ++ more) = .error (.unexpected n) := by
  rw [entities?_eq_error_iff] at h ⊢
  obtain ⟨hempty, hentities⟩ := h
  refine ⟨?_, ?_⟩
  · rw [Bool.eq_false_iff]
    intro happend
    exact Bool.false_ne_true (hempty.symm.trans (isEmptyText_of_append happend hpair))
  · rwa [scan_append_of_unexpected (ending_of_unexpected hentities) hline]

theorem entities?_append_of_unknownType {cs : List Char} {name : String} {n : Nat}
    (h : entities? cs = .error (.unknownType name n)) (more : List Char) :
    entities? (cs ++ more) = .error (.unknownType name n) ∧ n ≤ cs.length := by
  rw [entities?_eq_error_iff] at h ⊢
  have hfold := foldlM_of_unknownType h.2
  obtain ⟨happend, hle⟩ := foldlM_scan_append hfold more
  refine ⟨⟨?_, ?_⟩, hle⟩
  · have htokens : (scan .outside 0 (cs ++ more)).1 ≠ [] := by
      intro hnil
      rw [hnil] at happend
      cases happend
    exact isEmptyText_of_token htokens
  · rw [entitiesOf_eq, happend]
    rfl

/-- A fault is reported where a text goes wrong first. A character that is out of place has a text
before it that can be continued, and is reported whatever comes after its line, unless the whole is
an empty pair of braces. A text that ends too early can be continued itself. An unknown type is
reported whatever comes after the text. -/
theorem read_first_fault {t : String} {e : ReadError} (h : read t = .error e) :
    match e.fault with
    | .unexpected n =>
      (∃ w, IsWellFormed (String.ofList (t.toList.take n) ++ w)) ∧
        ('\n' ∈ t.toList.drop n → ∀ w, trim (t ++ w).toList ≠ empty.toList →
          read (t ++ w) = .error e)
    | .unfinished _ => ∃ w, IsWellFormed (t ++ w)
    | .unknownType _ _ => ∀ w, read (t ++ w) = .error e := by
  obtain ⟨fault, position⟩ := e
  have hfault : entities? t.toList = .error fault := (read_eq_error_iff.1 h).1
  have hentities := (entities?_eq_error_iff.1 hfault).2
  cases fault with
  | unexpected n =>
    have hending := ending_of_unexpected hentities
    constructor
    · obtain ⟨more, hmore⟩ := exists_complete_of_unexpected hending
      refine ⟨String.ofList more, isWellFormed_of_complete ?_⟩
      rwa [String.toList_append, String.toList_ofList, String.toList_ofList]
    · intro hline w hpair
      have hlen : n ≤ t.toList.length := by
        by_contra hlt
        rw [List.drop_eq_nil_of_le (by omega)] at hline
        cases hline
      rw [String.toList_append] at hpair
      exact read_append_eq_error h hlen (entities?_append_of_unexpected hfault hline hpair)
  | unfinished n =>
    have hending := ending_of_unfinished hentities
    -- whatever is read before the end is a start of a well-formed text
    have hends : ∀ m, (scan .outside 0 t.toList).2 ≠ .unexpected m := by
      intro m hm
      cases hending.symm.trans hm
    obtain ⟨more, hmore⟩ := exists_complete_append hends
    refine ⟨String.ofList more, isWellFormed_of_complete ?_⟩
    rwa [String.toList_append, String.toList_ofList]
  | unknownType name n =>
    intro w
    obtain ⟨happend, hle⟩ := entities?_append_of_unknownType hfault w.toList
    exact read_append_eq_error h hle happend

/-- A node whose letter has one colon behind it. -/
def singleColon : String := "N:A\x7b\x7d\nN::B\x7b\x7d"

theorem read_first_fault_singleColon :
    read singleColon = .error ⟨.unexpected 1, 1, 2⟩ ∧
      (∃ w, IsWellFormed (String.ofList (singleColon.toList.take 1) ++ w)) ∧
      ∀ w, trim (singleColon ++ w).toList ≠ empty.toList →
        read (singleColon ++ w) = .error ⟨.unexpected 1, 1, 2⟩ := by
  have hread : read singleColon = .error ⟨.unexpected 1, 1, 2⟩ := by decide +kernel
  have h := read_first_fault hread
  exact ⟨hread, h.1, h.2 (by decide)⟩

/-- An opening brace behind a blank that is no layout. -/
def halfPair : String := "\u00a0\n\x7b"

/-- The missing brace turns the text into an empty pair. -/
theorem not_read_append_of_unexpected :
    ¬ ∀ (t : String) (e : ReadError) (n : Nat), read t = .error e → e.fault = .unexpected n →
      '\n' ∈ t.toList.drop (n + 1) → ∀ w, read (t ++ w) = .error e := by
  intro h
  have hread : read halfPair = .error ⟨.unexpected 0, 1, 1⟩ := by decide +kernel
  have hpair : read (halfPair ++ "\x7d") = .ok [] := by decide +kernel
  have hstays := h halfPair _ 0 hread rfl (by decide) "\x7d"
  cases hpair.symm.trans hstays

end Hql.Schema
