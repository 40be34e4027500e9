import Hql.Proofs.Schema.Leading

/-!
Offsets are relative: a text that stands further on has the same tokens, faults and entities, with the
offsets raised by the same number.
-/

namespace Hql.Schema

def Token.shift (k : Nat) (t : Token) : Token := { t with offset := t.offset + k }

def Ending.shift (k : Nat) : Ending → Ending
  | unexpected n => unexpected (n + k)
  | complete => complete
  | unfinished => unfinished

def Fault.shift (k : Nat) : Fault → Fault
  | unexpected n => unexpected (n + k)
  | unfinished n => unfinished (n + k)
  | unknownType name n => unknownType name (n + k)

@[simp] theorem Fault.offset_shift (k : Nat) (f : Fault) : (f.shift k).offset = f.offset + k := by
  cases f <;> rfl

theorem scan_shift (k : Nat) (p : Place) (offset : Nat) (cs : List Char) :
    scan p (offset + k) cs =
      ((scan p offset cs).1.map (Token.shift k), (scan p offset cs).2.shift k) := by
  induction hn : cs.length using Nat.strong_induction_on generalizing p offset cs with
  | _ n ih =>
    by_cases hnil : skipLayout false cs = []
    · rw [scan_of_layout hnil, scan_of_layout hnil]
      split <;> rfl
    · obtain ⟨gap, hgap, hcs⟩ := exists_gap hnil
      have hoffset : offset + k + gap.length = offset + gap.length + k := by omega
      rw [hcs, scan_gap hgap, scan_gap hgap, hoffset]
      cases hf : p.find (skipLayout false cs) with
      | none =>
        have hskip := skipLayout_skipLayout false cs
        rw [scan_of_find_none hnil hskip hf, scan_of_find_none hnil hskip hf]
        rfl
      | some f =>
        have hlen : f.rest.length < n := hn ▸ Place.find_skipLayout_rest_length hf
        have hmore := ih f.rest.length hlen f.place (offset + gap.length + f.lexeme.length) f.rest rfl
        have hnext : offset + gap.length + k + f.lexeme.length =
            offset + gap.length + f.lexeme.length + k := by omega
        rw [scan_of_find hf, scan_of_find hf, hnext, hmore]
        rfl

/-! ### Entities do not depend on offsets -/

def Token.withoutOffset (t : Token) : Token := { t with offset := 0 }

theorem Token.withoutOffset_shift (k : Nat) (t : Token) :
    (t.shift k).withoutOffset = t.withoutOffset := rfl

theorem foldlM_push_withoutOffset (ts : List Token) (d : Draft) :
    ((ts.map Token.withoutOffset).foldlM Draft.push d.withoutOffset).toOption =
      (ts.foldlM Draft.push d).toOption.map Draft.withoutOffset := by
  induction ts generalizing d with
  | nil => rfl
  | cons t ts ih =>
    have hpush : (d.withoutOffset.push t.withoutOffset).toOption =
        (d.push t).toOption.map Draft.withoutOffset := d.push_withoutOffset t
    rw [List.map_cons, List.foldlM_cons, List.foldlM_cons]
    cases hd : d.push t with
    | error fault =>
      cases hw : d.withoutOffset.push t.withoutOffset with
      | error fault' => rfl
      | ok d' =>
        rw [hd, hw] at hpush
        cases hpush
    | ok d₁ =>
      cases hw : d.withoutOffset.push t.withoutOffset with
      | error fault' =>
        rw [hd, hw] at hpush
        cases hpush
      | ok d₂ =>
        rw [hd, hw] at hpush
        obtain rfl := Option.some.inj hpush
        exact ih d₁

theorem entitiesOf_complete_eq_ok_iff {ts : List Token} {es : List Entity} :
    entitiesOf ts .complete = .ok es ↔
      ((ts.map Token.withoutOffset).foldlM Draft.push {}).toOption.map Draft.entities = some es := by
  have hfold := foldlM_push_withoutOffset ts {}
  have hempty : Draft.withoutOffset {} = {} := rfl
  rw [hempty] at hfold
  rw [hfold, entitiesOf]
  cases ts.foldlM Draft.push {} with
  | error fault => constructor <;> intro h <;> cases h
  | ok d =>
    constructor
    · intro h
      exact congrArg some (Except.ok.inj h)
    · intro h
      exact congrArg Except.ok (Option.some.inj h)

/-- Tokens that differ in their offsets alone define the same entities. -/
theorem entitiesOf_of_same_tokens {ts us : List Token}
    (h : ts.map Token.withoutOffset = us.map Token.withoutOffset) {es : List Entity} :
    entitiesOf ts .complete = .ok es ↔ entitiesOf us .complete = .ok es := by
  rw [entitiesOf_complete_eq_ok_iff, entitiesOf_complete_eq_ok_iff, h]

end Hql.Schema
