import Hql.Text.Word

/-!
The lexemes of schema text: layout, names, texts between quotes, and numbers. Each reader gives the
lexeme at the start of a text with what follows it, and together they are the text again.
-/

namespace Hql.Schema

open Text

/-- Blanks between tokens are spaces, tabs, form feeds and line ends. -/
def isLayoutChar (c : Char) : Bool :=
  c == ' ' || c == '\t' || c == '\x0c' || c == '\r' || c == '\n'

/-- The text after its layout: blanks, and comments from `//` to the end of the line. `inComment`
says that the text starts inside a comment. -/
def skipLayout (inComment : Bool) : List Char → List Char
  | [] => []
  | c :: cs =>
    if inComment then skipLayout (c != '\n') cs
    else if isLayoutChar c then skipLayout false cs
    else if c == '/' && cs.head? == some '/' then skipLayout true cs
    else c :: cs

/-- A name at the start of a text. -/
def name? (cs : List Char) : Option (List Char × List Char) :=
  match cs with
  | [] => none
  | c :: _ =>
    if isIdentStart c then some (cs.takeWhile isIdentChar, cs.dropWhile isIdentChar) else none

/-- The rest of a quoted text up to its closing quote, all on one line. A quote after a backslash
does not close; `marked` says that a backslash came before. -/
def closeQuote? (marked : Bool) : List Char → Option (List Char × List Char)
  | [] => none
  | c :: cs =>
    if c = '\n' then none
    else if c = '"' && !marked then some ([c], cs)
    else (closeQuote? (c == '\\' && !marked) cs).map fun p => (c :: p.1, p.2)

/-- A quoted text at the start of a text. -/
def quoted? : List Char → Option (List Char × List Char)
  | [] => none
  | c :: cs => if c = '"' then (closeQuote? false cs).map fun p => (c :: p.1, p.2) else none

/-- The sign at the start of a text. -/
def leadingSign : List Char → List Char
  | [] => []
  | c :: _ => if c = '+' || c = '-' then [c] else []

/-- The digits at the start of a text. -/
def leadingDigits (cs : List Char) : List Char := cs.takeWhile Char.isDigit

/-- The exponent at the start of a text. -/
def leadingExponent : List Char → List Char
  | [] => []
  | c :: cs =>
    let sign := leadingSign cs
    let digits := leadingDigits (cs.drop sign.length)
    if (c = 'e' || c = 'E') && !digits.isEmpty then c :: sign ++ digits else []

/-- The fraction at the start of a text: a point and the digits after it. -/
def leadingFraction : List Char → List Char
  | [] => []
  | c :: cs => if c = '.' then c :: leadingDigits cs else []

/-- The number without a sign at the start of a text. It has digits before or after its point; an
exponent stands directly after the digits or after the fraction. -/
def leadingUnsigned (cs : List Char) : List Char :=
  let whole := leadingDigits cs
  let afterWhole := cs.drop whole.length
  let fraction := leadingFraction afterWhole
  if whole.isEmpty && fraction.length < 2 then []
  else whole ++ fraction ++ leadingExponent (afterWhole.drop fraction.length)

/-- A number at the start of a text. -/
def number? (cs : List Char) : Option (List Char × List Char) :=
  let sign := leadingSign cs
  let afterSign := cs.drop sign.length
  let digits := leadingUnsigned afterSign
  if digits.isEmpty then none else some (sign ++ digits, afterSign.drop digits.length)

/-- A fixed text at the start of a text. -/
def fixed? (expected cs : List Char) : Option (List Char × List Char) :=
  if expected.isPrefixOf cs then some (expected, cs.drop expected.length) else none

theorem skipLayout_length_le (inComment : Bool) (cs : List Char) :
    (skipLayout inComment cs).length ≤ cs.length := by
  induction cs generalizing inComment with
  | nil => simp [skipLayout]
  | cons c cs ih =>
    rw [skipLayout]
    split
    · exact Nat.le_succ_of_le (ih _)
    · split
      · exact Nat.le_succ_of_le (ih _)
      · split
        · exact Nat.le_succ_of_le (ih _)
        · exact Nat.le_refl _

/-- A lexeme takes at least one character from a text. -/
def Shortens (cs : List Char) (lexeme : List Char × List Char) : Prop :=
  lexeme.1 ++ lexeme.2 = cs ∧ lexeme.1 ≠ []

theorem name?_shortens {cs : List Char} {x : List Char × List Char} (h : name? cs = some x) :
    Shortens cs x := by
  unfold name? at h
  split at h
  · simp at h
  · rename_i c r
    split at h
    · rename_i hc
      obtain rfl := Option.some.inj h
      refine ⟨List.takeWhile_append_dropWhile, ?_⟩
      have : Text.isIdentChar c = true := by
        simp only [Text.isIdentStart, Text.isIdentChar, Char.isAlphanum, Bool.or_eq_true] at hc ⊢
        rcases hc with hc | hc
        · exact .inl (.inl hc)
        · exact .inr hc
      simp [this]
    · simp at h

theorem closeQuote?_append {marked : Bool} {cs : List Char} {x : List Char × List Char}
    (h : closeQuote? marked cs = some x) : x.1 ++ x.2 = cs := by
  induction cs generalizing marked x with
  | nil => simp [closeQuote?] at h
  | cons c cs ih =>
    rw [closeQuote?] at h
    split at h
    · simp at h
    · split at h
      · obtain rfl := Option.some.inj h
        simp
      · obtain ⟨y, hy, rfl⟩ := Option.map_eq_some_iff.1 h
        simp [ih hy]

theorem quoted?_shortens {cs : List Char} {x : List Char × List Char} (h : quoted? cs = some x) :
    Shortens cs x := by
  unfold quoted? at h
  split at h
  · simp at h
  · split at h
    · obtain ⟨y, hy, rfl⟩ := Option.map_eq_some_iff.1 h
      exact ⟨by simp [closeQuote?_append hy], by simp⟩
    · simp at h

theorem leadingSign_append_drop (cs : List Char) :
    leadingSign cs ++ cs.drop (leadingSign cs).length = cs := by
  unfold leadingSign
  split
  · rfl
  · split <;> simp

theorem takeWhile_append_drop (p : Char → Bool) (cs : List Char) :
    cs.takeWhile p ++ cs.drop (cs.takeWhile p).length = cs := by
  induction cs with
  | nil => rfl
  | cons c cs ih => by_cases h : p c <;> simp [h, ih]

theorem leadingDigits_append_drop (cs : List Char) :
    leadingDigits cs ++ cs.drop (leadingDigits cs).length = cs :=
  takeWhile_append_drop _ cs

theorem leadingExponent_append_drop (cs : List Char) :
    leadingExponent cs ++ cs.drop (leadingExponent cs).length = cs := by
  unfold leadingExponent
  split
  · rfl
  · rename_i c r
    dsimp only
    split
    · have h₁ := leadingSign_append_drop r
      have h₂ := leadingDigits_append_drop (r.drop (leadingSign r).length)
      rw [List.drop_drop] at h₂
      simp only [List.cons_append, List.length_cons, List.length_append, List.drop_succ_cons,
        List.append_assoc, List.cons.injEq, true_and]
      rw [h₂, h₁]
    · rfl

theorem leadingFraction_append_drop (cs : List Char) :
    leadingFraction cs ++ cs.drop (leadingFraction cs).length = cs := by
  unfold leadingFraction
  split
  · rfl
  · split
    · simp [leadingDigits_append_drop]
    · rfl

theorem leadingUnsigned_append_drop (cs : List Char) :
    leadingUnsigned cs ++ cs.drop (leadingUnsigned cs).length = cs := by
  unfold leadingUnsigned
  dsimp only
  split
  · rfl
  · have h₁ := leadingDigits_append_drop cs
    have h₂ := leadingFraction_append_drop (cs.drop (leadingDigits cs).length)
    have h₃ := leadingExponent_append_drop ((cs.drop (leadingDigits cs).length).drop
      (leadingFraction (cs.drop (leadingDigits cs).length)).length)
    simp only [List.length_append, List.append_assoc, ← List.drop_drop]
    rw [h₃, h₂, h₁]

theorem number?_shortens {cs : List Char} {x : List Char × List Char} (h : number? cs = some x) :
    Shortens cs x := by
  unfold number? at h
  dsimp only at h
  split at h
  · simp at h
  · rename_i hd
    obtain rfl := Option.some.inj h
    refine ⟨?_, ?_⟩
    · rw [List.append_assoc, leadingUnsigned_append_drop, leadingSign_append_drop]
    · intro hnil
      simp only [List.append_eq_nil_iff] at hnil
      simp [hnil.2] at hd

theorem fixed?_shortens {expected cs : List Char} {x : List Char × List Char}
    (h : fixed? expected cs = some x) (hne : expected ≠ []) : Shortens cs x := by
  unfold fixed? at h
  split at h
  · rename_i hp
    obtain rfl := Option.some.inj h
    obtain ⟨r, rfl⟩ := List.isPrefixOf_iff_prefix.1 hp
    exact ⟨by simp, hne⟩
  · simp at h

end Hql.Schema
