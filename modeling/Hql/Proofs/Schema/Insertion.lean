import Hql.Proofs.Schema.Outcome
import Hql.Proofs.Schema.Offset

/-!
Layout between tokens. A gap that is put where two tokens meet neither lengthens nor shortens a token,
nor makes another one of it, so the text defines the same entities as before.
-/

namespace Hql.Schema

/-- The grammar accepts a text when its tokens end with the last definition, whatever the types in it
are called. -/
def IsGrammatical (text : String) : Prop := (scan .outside 0 text.toList).2 = .complete

instance (text : String) : Decidable (IsGrammatical text) :=
  inferInstanceAs (Decidable (_ = _))

/-- An offset where tokens meet: only layout stands between it and the start of the text or the end of
a token. The last comment of a text may lack its line end, so the end of the text counts anyway. -/
def IsBoundary (text : String) (offset : Nat) : Prop :=
  offset = text.length ∨
    ∃ start, (start = 0 ∨
        ∃ t ∈ (scan .outside 0 text.toList).1, start = t.offset + t.lexeme.length) ∧
      start ≤ offset ∧ IsGap ((text.toList.take offset).drop start)

theorem isBoundary_end {text : String} {t : Token} (h : t ∈ (scan .outside 0 text.toList).1) :
    IsBoundary text (t.offset + t.lexeme.length) := by
  refine .inr ⟨_, .inr ⟨t, h, rfl⟩, Nat.le_refl _, ?_⟩
  rw [List.drop_take, Nat.sub_self, List.take_zero]
  exact .nil

theorem isBoundary_start {text : String} {t : Token} (h : t ∈ (scan .outside 0 text.toList).1) :
    IsBoundary text t.offset := by
  obtain ⟨front, rest, q, hcs, hleads, -⟩ := exists_leads .outside 0 text.toList
  obtain ⟨ts, us, hsplit⟩ := List.append_of_mem h
  rw [hsplit] at hleads
  obtain ⟨a, b, m, rfl, ha, hb⟩ := hleads.split
  cases hb with
  | @cons _ r _ _ gap lexeme more kind _ hgap hfind hmore =>
    have hstart : a.length = 0 ∨ ∃ t' ∈ (scan .outside 0 text.toList).1,
        a.length = t'.offset + t'.lexeme.length := by
      rcases List.eq_nil_or_concat' ts with rfl | ⟨ts', t', rfl⟩
      · obtain ⟨rfl, -⟩ := ha.nil_of_nil
        exact .inl rfl
      · refine .inr ⟨t', by rw [hsplit]; simp, ?_⟩
        have hlast := ha.last.2
        omega
    refine .inr ⟨a.length, hstart, by simp, ?_⟩
    have hgapped : (text.toList.take (0 + a.length + gap.length)).drop a.length = gap := by
      rw [hcs, Nat.zero_add]
      simp only [List.append_assoc]
      rw [← List.append_assoc a, ← List.length_append, List.take_left, List.drop_left]
    rw [hgapped]
    exact hgap

/-- The tokens after an insertion are those before it, from some point on moved by its length. -/
structure Moved (k : Nat) (before after : List Token × Ending) : Prop where
  tokens : ∃ ts us, before.1 = ts ++ us ∧ after.1 = ts ++ us.map (Token.shift k)
  ending : before.2 = .complete → after.2 = .complete

/-- A gap behind tokens and a gap. -/
theorem moved_of_leads {p q : Place} {offset : Nat} {cs gap inserted rest : List Char}
    {ts : List Token} (hgap : IsGap gap) (hinserted : IsGap inserted)
    (h : Leads (gap ++ rest) p offset cs ts q) :
    Moved inserted.length (scan p offset (cs ++ (gap ++ rest)))
      (scan p offset (cs ++ (gap ++ (inserted ++ rest)))) := by
  -- with no layout at all nothing has changed; any other layout lets the last token end where it did
  have hafter : Leads (gap ++ (inserted ++ rest)) p offset cs ts q := by
    by_cases hnil : gap ++ inserted = []
    · obtain ⟨rfl, rfl⟩ := List.append_eq_nil_iff.1 hnil
      exact h
    · have hapart := (hgap.append hinserted).apart hnil rest
      rw [List.append_assoc] at hapart
      exact h.before hapart
  have hshift := scan_shift inserted.length q (offset + cs.length + gap.length) rest
  rw [h.scan_eq, hafter.scan_eq, scan_gap hgap, scan_gap hgap, scan_gap hinserted, hshift]
  refine ⟨⟨_, _, rfl, rfl⟩, fun hcomplete => ?_⟩
  dsimp only at hcomplete ⊢
  rw [hcomplete]
  rfl

/-- A gap at the end of a text, where the last comment may still be open. -/
theorem moved_of_end {cs inserted : List Char} (hinserted : IsGap inserted)
    (h : (scan .outside 0 cs).2 = .complete) :
    Moved inserted.length (scan .outside 0 cs) (scan .outside 0 (cs ++ inserted)) := by
  obtain ⟨front, rest, q, hcs, hleads, hend⟩ := exists_leads .outside 0 cs
  rw [h] at hend
  -- the text after the last token is layout, but no gap if its last comment is open
  rcases scan_eq_nil hend with ⟨hrest, hplace⟩ | ⟨_, _, -, -, -, -, -, hending⟩
  · have hskip := skipLayout_append_gap hinserted hrest
    have hapart : Apart inserted := by
      by_cases hnil : inserted = []
      · rw [hnil]
        exact apart_nil
      · have hapart := hinserted.apart hnil []
        rwa [List.append_nil] at hapart
    have hscan := (hleads.before (apart_of_skipLayout hrest hapart)).scan_eq
    rw [← List.append_assoc, ← hcs, scan_of_layout hskip, ← hplace, List.append_nil] at hscan
    rw [hscan]
    exact ⟨⟨(scan .outside 0 cs).1, [], by simp, by simp⟩, fun _ => rfl⟩
  · cases hending

/-- The text up to the end of a token, with the tokens in it. -/
theorem exists_leads_of_mem {p : Place} {cs : List Char} {t : Token} (h : t ∈ (scan p 0 cs).1) :
    ∃ a b ts q, cs = a ++ b ∧ Leads b p 0 a ts q ∧ a.length = t.offset + t.lexeme.length := by
  obtain ⟨front, rest, q, hcs, hleads, -⟩ := exists_leads p 0 cs
  obtain ⟨ts, us, hsplit⟩ := List.append_of_mem h
  have hts : (scan p 0 cs).1 = ts ++ [t] ++ us := by rw [hsplit, List.append_assoc, List.singleton_append]
  rw [hts] at hleads
  obtain ⟨a, b, m, rfl, ha, -⟩ := hleads.split
  have hend := ha.last.2
  exact ⟨a, b ++ rest, ts ++ [t], m, by rw [hcs, List.append_assoc], ha, by omega⟩

theorem moved_of_isBoundary {before inserted after : String}
    (hgrammar : IsGrammatical (before ++ after))
    (hboundary : IsBoundary (before ++ after) before.length) (hinserted : IsGap inserted.toList) :
    Moved inserted.length (scan .outside 0 (before ++ after).toList)
      (scan .outside 0 (before ++ inserted ++ after).toList) := by
  have htake : (before ++ after).toList.take before.length = before.toList := by
    rw [String.toList_append, ← String.length_toList, List.take_left]
  rw [IsGrammatical] at hgrammar
  rcases hboundary with hlast | ⟨start, hstart, hle, hgap⟩
  · have hafter : after = "" := by
      rw [String.length_append] at hlast
      exact String.length_eq_zero_iff.1 (by omega)
    subst hafter
    rw [String.append_empty] at hgrammar ⊢
    rw [String.append_empty, String.toList_append]
    exact moved_of_end hinserted hgrammar
  · rw [htake] at hgap
    obtain ⟨cs, more, ts, q, htext, hleads, hlen⟩ : ∃ cs more ts q,
        (before ++ after).toList = cs ++ more ∧ Leads more .outside 0 cs ts q ∧
          cs.length = start := by
      rcases hstart with rfl | ⟨t, ht, rfl⟩
      · exact ⟨[], _, [], .outside, rfl, .nil _ _, rfl⟩
      · exact exists_leads_of_mem ht
    -- the text before the insertion is the tokens and a gap
    have hfront : before.toList.take start = cs := by
      rw [← htake, htext, List.take_take, Nat.min_eq_left hle, ← hlen, List.take_left]
    have hbefore : before.toList = cs ++ before.toList.drop start := by
      rw [← hfront, List.take_append_drop]
    rw [String.toList_append, hbefore, List.append_assoc] at htext
    rw [← List.append_cancel_left htext] at hleads
    simp only [String.toList_append]
    rw [hbefore, List.append_assoc, List.append_assoc, List.append_assoc]
    exact moved_of_leads hgap hinserted hleads

/-- Layout and comments never change what a text defines, wherever they are put between tokens. -/
theorem read_insert_gap {before inserted after : String}
    (hgrammar : IsGrammatical (before ++ after))
    (hboundary : IsBoundary (before ++ after) before.length) (hinserted : IsGap inserted.toList) :
    IsGrammatical (before ++ inserted ++ after) ∧
      ∀ es, read (before ++ inserted ++ after) = .ok es ↔ read (before ++ after) = .ok es := by
  have hmoved := moved_of_isBoundary hgrammar hboundary hinserted
  have hcomplete := hmoved.ending hgrammar
  obtain ⟨ts, us, hbefore, hafter⟩ := hmoved.tokens
  refine ⟨hcomplete, fun es => ?_⟩
  rw [read_eq_ok_iff, read_eq_ok_iff, entities?_of_complete hgrammar,
    entities?_of_complete hcomplete, hbefore, hafter]
  apply entitiesOf_of_same_tokens
  simp only [List.map_append, List.map_map, Function.comp_def, Token.withoutOffset_shift]

/-- A node with a field whose name runs into the words before it. -/
def joinedField : String := "N::A\x7bUNIQUE INDEX" ++ "key: I32\x7d"

def joinedEntity : Entity where
  id := "node-0"
  name := "A"
  kind := .node
  properties := [some { name := "key", type := .i32, isUnique := true }]

theorem read_insert_gap_joinedField :
    read joinedField = .ok [joinedEntity] ∧
      read ("N::A\x7bUNIQUE INDEX" ++ " // the key\n" ++ "key: I32\x7d") = .ok [joinedEntity] := by
  have hboundary : IsBoundary joinedField "N::A\x7bUNIQUE INDEX".length := by
    refine .inr ⟨17, .inr ⟨⟨.afterUnique .plain, .mark .index, "INDEX".toList, 12⟩, ?_⟩, ?_⟩
    · decide +kernel
    · exact ⟨by decide, .nil⟩
  have hgap : IsGap " // the key\n".toList :=
    .blank (by decide) (@IsGap.comment " the key".toList [] (by decide) .nil)
  have h := (read_insert_gap (by decide +kernel : IsGrammatical joinedField) hboundary hgap).2
  have hread : read joinedField = .ok [joinedEntity] := by decide +kernel
  exact ⟨hread, (h [joinedEntity]).2 hread⟩

end Hql.Schema
