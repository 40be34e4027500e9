import Hql.Proofs.Query.Outline

/-!
How steps are measured. A chain keeps its lines when it is laid out again if each of its steps is as
short, or as long, as it was before. A step that starts with one of the short words is short whatever
follows; any other is measured by its characters, of which a layout takes spaces only.
-/

namespace Hql

open Text

namespace Layout

/-! ### Steps of a chain -/

instance (e : Tokens) : Decidable (Steady e) := inferInstanceAs (Decidable (_ = _))

theorem written_flush {e : Tokens} {t : Token} {ts : List Token}
    (h : e.map Prod.snd = t :: ts) : ∃ rest, written (flush e) = t.chars ++ written rest ∧
      rest.map Prod.snd = ts := by
  obtain ⟨x, rest, rfl, rfl, hrest⟩ := List.map_eq_cons_iff.1 h
  exact ⟨rest, rfl, hrest⟩

/-- The characters of tokens are all written. -/
theorem length_chars_le (ts : Tokens) :
    ((ts.map Prod.snd).flatMap Token.chars).length ≤ (written ts).length := by
  induction ts with
  | nil => exact Nat.le_refl _
  | cons x ts ih =>
    rw [List.map_cons, List.flatMap_cons, written, List.length_append, List.length_append,
      List.length_append]
    omega

section Steady

variable {e : Tokens} {w : List Char} {ts : List Token}

/-- A step that starts with a short word is short. -/
theorem steady_of_short (h : e.map Prod.snd = .word w :: ts)
    (hw : ∀ cs, isShortStep (w ++ cs) = true) : Steady e := by
  have htight : (tight (flush e)).map Prod.snd = .word w :: ts := by
    rw [map_snd_tight, map_snd_flush, h]
  have hflush : flush (tight (flush e)) = tight (flush e) := flush_tight e
  obtain ⟨rest, hrest, -⟩ := written_flush h
  obtain ⟨rest', hrest', -⟩ := written_flush htight
  rw [hflush] at hrest'
  rw [Steady, hrest, hrest']
  exact (hw _).trans (hw _).symm

/-- A step of many characters is long. -/
theorem steady_of_long (h : e.map Prod.snd = .word w :: ts)
    (hw : ∀ cs, isShortStep (w ++ cs) = decide ((w ++ cs).length < 20))
    (hlong : 20 ≤ ((e.map Prod.snd).flatMap Token.chars).length) : Steady e := by
  have hlength {e' : Tokens} (he' : e'.map Prod.snd = e.map Prod.snd) (hflush : flush e' = e') :
      isShortStep (written e') = false := by
    rw [h] at he'
    obtain ⟨rest, hrest, -⟩ := written_flush he'
    have hle := length_chars_le e'
    rw [he', ← h] at hle
    rw [hflush] at hrest
    rw [hrest] at hle ⊢
    rw [Token.chars] at hle ⊢
    rw [hw, decide_eq_false_iff_not]
    omega
  rw [Steady, hlength (by simp) (flush_tight e), hlength (by simp) (flush_flush e)]

/-- A step without round brackets, braces and double colons has its spacing in order. -/
theorem steady_of_plain (h : ∀ t ∈ e.map Prod.snd, t ≠ .colons ∧ t ≠ .mark '(' ∧ t ≠ .mark ')' ∧
    t ≠ .mark '\x7b' ∧ t ≠ .mark '\x7d') : Steady e := by
  have hregap (ts : Tokens) (before : Option Token) (hbefore : ∀ t ∈ before, t ∈ e.map Prod.snd)
      (hts : ∀ t ∈ ts.map Prod.snd, t ∈ e.map Prod.snd) : regap tightGap before ts = ts := by
    induction ts generalizing before with
    | nil => rfl
    | cons x ts ih =>
      rw [List.map_cons, List.forall_mem_cons] at hts
      have hkeeps : tightGap before x.2 = true := by
        obtain ⟨hcolons, -, hclose, -, hbrace⟩ := h x.2 hts.1
        have hprevious : before ≠ some .colons ∧ before ≠ some (.mark '(') ∧
            before ≠ some (.mark '\x7b') := by
          refine ⟨?_, ?_, ?_⟩ <;> rintro rfl
          · exact (h _ (hbefore _ rfl)).1 rfl
          · exact (h _ (hbefore _ rfl)).2.1 rfl
          · exact (h _ (hbefore _ rfl)).2.2.2.1 rfl
        simp [tightGap, chainGap, hprevious, hcolons, hclose, hbrace]
      rw [regap, hkeeps, Bool.and_true, ih (some x.2) (by simpa using hts.1) hts.2]
  rw [Steady, tight, hregap _ none (by simp) (by simp)]

end Steady

/-! ### Chains that are drawn together -/

/-- A chain of several steps, none of which takes several lines, is measured by its steps. -/
theorem onOneLine_of_not_spreads {first : Tokens} {steps : List Tokens} (hmany : 2 ≤ steps.length)
    (h : ∀ e ∈ first :: steps, spreads (e.map Prod.snd) = false) :
    onOneLine first steps = steps.all (fun e => isShortStep (written (flush e))) ∧
      onOneLine (relay first) (steps.map relay) =
        steps.all fun e => isShortStep (written (tight (flush e))) := by
  have hspreads : (first :: steps).all (fun e => !spreads (e.map Prod.snd)) = true :=
    List.all_eq_true.2 fun e he => by rw [h e he]; rfl
  have hrelaid : (relay first :: steps.map relay).all (fun e => !spreads (e.map Prod.snd)) = true := by
    rw [← List.map_cons, List.all_map, ← hspreads]
    exact congrArg (List.all (first :: steps)) (funext fun e => by rw [Function.comp_apply, map_snd_relay])
  have hlength : decide (steps.length ≤ 1) = false := decide_eq_false (by omega)
  constructor
  · rw [onOneLine, hspreads, hlength, Bool.false_or, Bool.true_and]
  · rw [onOneLine, hrelaid, List.length_map, hlength, Bool.false_or, Bool.true_and, List.all_map]
    rw [Bool.eq_iff_iff, List.all_eq_true, List.all_eq_true]
    refine forall₂_congr fun e he => ?_
    rw [Function.comp_apply, flush_relay, relay_of_not_spreads (h e (List.mem_cons_of_mem _ he))]

/-- On one line a chain is shorter than on several. -/
theorem length_layChain_lt {es : List Tokens}
    (h : ∃ e ∈ es, staysAttached (elementText e) = false) :
    (spaced (layChain true es)).length < (spaced (layChain false es)).length := by
  have hbreak (e : Tokens) : (stepBreak true (elementText e)).length ≤
      (stepBreak false (elementText e)).length := Nat.zero_le _
  have hle (es : List Tokens) : (spaced (layChain true es)).length ≤
      (spaced (layChain false es)).length := by
    induction es with
    | nil => exact Nat.le_refl _
    | cons e es ih =>
      rw [spaced_layChain, spaced_layChain] at ih ⊢
      have he := hbreak e
      simp only [List.map_cons, List.flatMap_cons, List.length_append, List.length_cons] at ih ⊢
      omega
  obtain ⟨e, he, hattached⟩ := h
  have hone : (stepBreak true (elementText e)).length < (stepBreak false (elementText e)).length := by
    rw [stepBreak, stepBreak, hattached]
    decide
  obtain ⟨front, back, rfl⟩ := List.append_of_mem he
  have hfront := hle front
  have hback := hle back
  simp only [spaced_layChain, List.map_append, List.map_cons, List.flatMap_append, List.flatMap_cons,
    List.length_append, List.length_cons] at hfront hback ⊢
  omega

/-- A chain whose steps become short is drawn together when it is laid out again. -/
theorem Clause.length_lay_relaid_lt {name : List Char} {first : Tokens}
    {steps : List (Bool × Tokens)} (h : onOneLine first (steps.map Prod.snd) = false)
    (h' : onOneLine (relay first) ((steps.map Prod.snd).map relay) = true)
    (hstep : ∃ e ∈ steps.map Prod.snd, staysAttached (elementText e) = false) :
    (spaced (assign name first steps).relaid.lay).length <
      (spaced (assign name first steps).lay).length := by
  have hchain := length_layChain_lt hstep
  rw [lay_relaid_assign, lay, h, h']
  simp only [spaced, spaced_append, List.length_append]
  omega

theorem Outline.length_lay_relaid_lt {q : Outline} {c : Clause} (h : q.clauses = [c])
    (hc : (spaced c.relaid.lay).length < (spaced c.lay).length) :
    (spaced q.relaid.lay).length < (spaced q.lay).length := by
  rw [Outline.lay_relaid, Outline.lay, h, List.flatMap_singleton, List.flatMap_singleton,
    Function.comp_apply]
  simp only [spaced_append, List.length_append]
  omega

end Layout

end Hql
