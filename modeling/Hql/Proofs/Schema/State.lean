import Hql.Proofs.Schema.SignedNumber
import Hql.Schema.Reader
import Mathlib.Tactic.Set

/-!
Reading as one walk over the text. A state is a place with the draft made so far; reading on from a
state takes one token after another and looks at nothing but the text ahead. A text is the schema of
exactly the entities that the walk from the start ends with.
-/

namespace Hql.Schema

/-- What is known between two tokens of a schema. -/
structure State where
  place : Place := .outside
  draft : Draft := {}

namespace State

/-- The state after a token. Offsets only say where faults are, so they are left out here. -/
def accept (s : State) (f : Found) : Option State :=
  (s.draft.push ⟨s.place, f.terminal, f.lexeme, 0⟩).toOption.map fun draft => ⟨f.place, draft⟩

/-- The state after all tokens of a text, if the text can be read from here. -/
def advance (s : State) (cs : List Char) : Option State :=
  if (skipLayout false cs).isEmpty then some s
  else
    match _h : s.place.find (skipLayout false cs) with
    | none => none
    | some found =>
      match s.accept found with
      | none => none
      | some next => next.advance found.rest
termination_by cs.length
decreasing_by
  exact Nat.lt_of_lt_of_le (Place.find_rest_length _h) (skipLayout_length_le false cs)

theorem advance_of_layout {s : State} {cs : List Char} (h : skipLayout false cs = []) :
    s.advance cs = some s := by
  rw [advance, h]
  rfl

theorem advance_of_find {s : State} {cs : List Char} {f : Found}
    (h : s.place.find (skipLayout false cs) = some f) :
    s.advance cs = (s.accept f).bind fun next => next.advance f.rest := by
  have hne : ¬ (skipLayout false cs).isEmpty = true := by
    intro hnil
    have hlen := Place.find_rest_length h
    rw [List.isEmpty_iff.1 hnil] at hlen
    exact Nat.not_lt_zero _ hlen
  rw [advance, if_neg hne]
  split
  · next hnone => rw [h] at hnone; cases hnone
  · next found hfound =>
    obtain rfl := Option.some.inj (h.symm.trans hfound)
    cases s.accept f <;> rfl

theorem advance_of_find_none {s : State} {cs : List Char} (hne : skipLayout false cs ≠ [])
    (h : s.place.find (skipLayout false cs) = none) : s.advance cs = none := by
  rw [advance, if_neg (by rwa [List.isEmpty_iff])]
  split
  · rfl
  · next found hfound => rw [h] at hfound; cases hfound

/-- A text is read in one of two ways: it has no token, or a token and the rest after it. -/
theorem advance_eq_some {s t : State} {cs : List Char} (h : s.advance cs = some t) :
    (skipLayout false cs = [] ∧ t = s) ∨
      ∃ f next, s.place.find (skipLayout false cs) = some f ∧ s.accept f = some next ∧
        next.advance f.rest = some t := by
  by_cases hnil : skipLayout false cs = []
  · rw [advance_of_layout hnil] at h
    exact .inl ⟨hnil, (Option.some.inj h).symm⟩
  · cases hf : s.place.find (skipLayout false cs) with
    | none =>
      rw [advance_of_find_none hnil hf] at h
      cases h
    | some f =>
      rw [advance_of_find hf] at h
      obtain ⟨next, hnext, hrest⟩ := Option.bind_eq_some_iff.1 h
      exact .inr ⟨f, next, rfl, hnext, hrest⟩

theorem skipLayout_suffix (inComment : Bool) (cs : List Char) :
    skipLayout inComment cs <:+ cs := by
  induction cs generalizing inComment with
  | nil => simp [skipLayout]
  | cons c cs ih =>
    rw [skipLayout]
    split
    · exact (ih _).trans (List.suffix_cons c cs)
    · split
      · exact (ih _).trans (List.suffix_cons c cs)
      · split
        · exact (ih _).trans (List.suffix_cons c cs)
        · exact List.suffix_refl _

theorem rest_suffix {p : Place} {cs : List Char} {f : Found} (h : p.find cs = some f) :
    f.rest <:+ cs :=
  ⟨f.lexeme, (Place.find_eq_some h).1.1⟩

/-- What every token of a text preserves, the text preserves. -/
theorem advance_preserves {P : State → Prop} {s t : State} {cs : List Char}
    (h : s.advance cs = some t) (hs : P s)
    (step : ∀ (u v : State) (f : Found) (ahead : List Char), ahead <:+ cs → P u →
      u.place.find ahead = some f → u.accept f = some v → P v) : P t := by
  induction hn : cs.length using Nat.strong_induction_on generalizing s cs with
  | _ n ih =>
    rcases advance_eq_some h with ⟨-, rfl⟩ | ⟨f, next, hf, hnext, hrest⟩
    · exact hs
    · -- the text after the token is shorter, and still ends the whole text
      have hskip := skipLayout_suffix false cs
      have hsuffix : f.rest <:+ cs := (rest_suffix hf).trans hskip
      have hlen : f.rest.length < n := by
        have hlt := Place.find_rest_length hf
        have hle := hskip.length_le
        omega
      exact ih f.rest.length hlen hrest (step s next f _ hskip hs hf hnext)
        (fun u v g ahead ha => step u v g ahead (ha.trans hsuffix)) rfl

end State

/-! ### The walk and the entities of a text -/

/-- The draft without the offset of the type that it is reading. -/
def Draft.withoutOffset (d : Draft) : Draft := d.withField fun f => { f with typeOffset := 0 }

theorem Draft.resolveType_withoutOffset (d : Draft) :
    d.withoutOffset.resolveType.toOption = d.resolveType.toOption.map Draft.withoutOffset := by
  simp only [resolveType, withoutOffset, withField]
  split <;> rfl

theorem Draft.endField_withoutOffset (d : Draft) (o : Owner) (m : Mark) :
    (d.withoutOffset.endField o m) = (d.endField o m).withoutOffset := by
  simp only [endField]
  split <;> rfl

/-- The offset of a token only reaches the fault and the field that is being read. -/
theorem Draft.push_withoutOffset (d : Draft) (t : Token) :
    (d.withoutOffset.push { t with offset := 0 }).toOption =
      (d.push t).toOption.map Draft.withoutOffset := by
  have hresolve := d.resolveType_withoutOffset
  unfold Draft.push
  dsimp only
  split
  all_goals try rfl
  -- only the tokens after a type look the offset up, and only to report it
  · exact hresolve
  · cases hr : d.resolveType with
    | error fault =>
      cases hw : d.withoutOffset.resolveType with
      | error fault' => rfl
      | ok d' => rw [hr, hw] at hresolve; cases hresolve
    | ok d₁ =>
      cases hw : d.withoutOffset.resolveType with
      | error fault' => rw [hr, hw] at hresolve; cases hresolve
      | ok d₂ =>
        rw [hr, hw] at hresolve
        obtain rfl := Option.some.inj hresolve
        exact congrArg some (d₁.endField_withoutOffset _ _)
  · exact congrArg some (d.endField_withoutOffset _ _)

theorem State.accept_withoutOffset {s : State} {d : Draft} (hd : d.withoutOffset = s.draft)
    (f : Found) (offset : Nat) :
    s.accept f = (d.push ⟨s.place, f.terminal, f.lexeme, offset⟩).toOption.map
      fun d' => ⟨f.place, d'.withoutOffset⟩ := by
  have h := d.push_withoutOffset ⟨s.place, f.terminal, f.lexeme, offset⟩
  rw [State.accept, ← hd, h, Option.map_map]
  rfl

/-- The tokens of a text give a draft with these entities exactly when the walk does. -/
theorem scan_iff_advance (s : State) (d : Draft) (hd : d.withoutOffset = s.draft) (offset : Nat)
    (cs : List Char) (es : List Entity) :
    (∃ d', (scan s.place offset cs).1.foldlM Draft.push d = .ok d' ∧
        (scan s.place offset cs).2 = .complete ∧ d'.entities = es) ↔
      ∃ t, s.advance cs = some t ∧ t.place = .outside ∧ t.draft.entities = es := by
  -- both go on with the text after a token; their drafts differ in an offset that is not read
  induction hn : cs.length using Nat.strong_induction_on generalizing s d offset cs with
  | _ n ih =>
    rw [scan]
    dsimp only
    by_cases hnil : skipLayout false cs = []
    · have hentities : s.draft.entities = d.entities := by rw [← hd]; rfl
      rw [if_pos (by rw [hnil]; rfl), State.advance_of_layout hnil]
      -- at the end only the place decides
      by_cases hplace : s.place = .outside
      · rw [if_pos hplace]
        constructor
        · rintro ⟨d', h, -, rfl⟩
          obtain rfl := Except.ok.inj h
          exact ⟨s, rfl, hplace, hentities⟩
        · rintro ⟨t, h, -, rfl⟩
          obtain rfl := Option.some.inj h
          exact ⟨d, rfl, rfl, hentities.symm⟩
      · rw [if_neg hplace]
        constructor
        · rintro ⟨d', -, h, -⟩
          cases h
        · rintro ⟨t, h, ht, -⟩
          obtain rfl := Option.some.inj h
          exact absurd ht hplace
    · rw [if_neg (by rwa [List.isEmpty_iff])]
      split
      · next hfind =>
        rw [State.advance_of_find_none hnil hfind]
        constructor
        · rintro ⟨d', -, h, -⟩
          cases h
        · rintro ⟨t, h, -⟩
          cases h
      · next found hfind =>
        set start := offset + (cs.length - (skipLayout false cs).length) with hstart
        rw [State.advance_of_find hfind, State.accept_withoutOffset hd found start]
        cases hpush : d.push ⟨s.place, found.terminal, found.lexeme, start⟩ with
        | error fault =>
          -- a draft that refuses the token stops both
          constructor
          · rintro ⟨d', h, -⟩
            rw [List.foldlM_cons, hpush] at h
            cases h
          · rintro ⟨t, h, -⟩
            cases h
        | ok d₁ =>
          have hlen : found.rest.length < n := hn ▸ Place.find_skipLayout_rest_length hfind
          have hrec := ih found.rest.length hlen ⟨found.place, d₁.withoutOffset⟩ d₁ rfl
            (start + found.lexeme.length) found.rest rfl
          simp only [List.foldlM_cons, hpush]
          exact hrec

theorem entities?_eq_ok_iff {cs : List Char} {es : List Entity} :
    entities? cs = .ok es ↔
      (isEmptyText cs = true ∧ es = []) ∨
        (isEmptyText cs = false ∧
          ∃ t, State.advance {} cs = some t ∧ t.place = .outside ∧ t.draft.entities = es) := by
  have hscan := scan_iff_advance {} {} rfl 0 cs es
  rw [← hscan, entities?]
  cases isEmptyText cs with
  | true => simp [eq_comm]
  | false =>
    simp only [Bool.false_eq_true, if_false, false_and, false_or, true_and, entitiesOf]
    cases (scan .outside 0 cs).1.foldlM Draft.push {} with
    | error fault => simp [bind, Except.bind]
    | ok d =>
      cases (scan .outside 0 cs).2 with
      | complete => simp [bind, Except.bind]
      | unexpected offset => simp [bind, Except.bind]
      | unfinished => simp [bind, Except.bind]

theorem read_eq_ok_iff {text : String} {es : List Entity} :
    read text = .ok es ↔ entities? text.toList = .ok es := by
  rw [read]
  cases entities? text.toList with
  | ok es' => simp
  | error fault => simp

end Hql.Schema
