import Hql.Schema.Lexeme
import Hql.Schema.Place

/-!
The tokens of a schema text. Which token a text starts with depends on the place: only what may
come next is looked for, and a fixed word is a name wherever a name may stand, unless the whole name
is a fixed word that may stand there too.
-/

namespace Hql.Schema

/-- A token found at the start of a text: its kind, its text, what follows it, and the place that it
leads to. -/
structure Found where
  terminal : Terminal
  lexeme : List Char
  rest : List Char
  place : Place

/-- The lexeme as a token of this kind, if one may stand here. -/
def Place.take (p : Place) (terminal : Terminal) (lexeme : List Char × List Char) : Option Found :=
  (p.next terminal).map fun place => ⟨terminal, lexeme.1, lexeme.2, place⟩

/-- The fixed text that may stand here and equals a word. -/
def Place.markOf? (p : Place) (word : List Char) : Option Mark :=
  Mark.all.find? fun m => p.accepts (.mark m) && m.text.toList == word

/-- The fixed text that may stand here and that the text starts with. -/
def Place.leadingMark? (p : Place) (cs : List Char) : Option Mark :=
  Mark.all.find? fun m => p.accepts (.mark m) && m.text.toList.isPrefixOf cs

/-- The fixed text at the start of a text. -/
def Place.findMark (p : Place) (cs : List Char) : Option Found := do
  let m ← p.leadingMark? cs
  p.take (.mark m) (← fixed? m.text.toList cs)

/-- The name at the start of a text, or the fixed word that it is. -/
def Place.findName (p : Place) (cs : List Char) : Option Found := do
  let name ← name? cs
  match p.markOf? name.1 with
  | some m => p.take (.mark m) name
  | none => p.take .name name

/-- The quoted text at the start of a text. -/
def Place.findQuoted (p : Place) (cs : List Char) : Option Found := do
  p.take .quoted (← quoted? cs)

/-- The number at the start of a text. -/
def Place.findNumber (p : Place) (cs : List Char) : Option Found := do
  p.take .number (← number? cs)

/-- The token at the start of a text without layout there. -/
def Place.find (p : Place) (cs : List Char) : Option Found :=
  (if p.accepts .name then p.findName cs else none) <|>
    p.findQuoted cs <|> p.findNumber cs <|> p.findMark cs

/-- A token of a schema, with the place where it stands and the number of characters of the text
before it. -/
structure Token where
  place : Place
  terminal : Terminal
  lexeme : List Char
  offset : Nat
  deriving DecidableEq, Repr

/-- How the tokens of a text end: with the last definition, at a character that no token starts
with, or inside a definition. -/
inductive Ending where
  | complete
  | unexpected (offset : Nat)
  | unfinished
  deriving DecidableEq, Repr

theorem Mark.text_ne_nil (m : Mark) : m.text.toList ≠ [] := by cases m <;> decide

theorem Place.take_eq_some {p : Place} {t : Terminal} {x : List Char × List Char} {f : Found}
    (h : p.take t x = some f) :
    f.lexeme = x.1 ∧ f.rest = x.2 ∧ p.next f.terminal = some f.place := by
  obtain ⟨q, hq, rfl⟩ := Option.map_eq_some_iff.1 h
  exact ⟨rfl, rfl, hq⟩

/-- What is found at the start of a text is a token that may stand there, and takes at least one
character. -/
theorem Place.find_eq_some {p : Place} {cs : List Char} {f : Found} (h : p.find cs = some f) :
    Shortens cs (f.lexeme, f.rest) ∧ p.next f.terminal = some f.place := by
  have key {t : Terminal} {x : List Char × List Char} (hx : Shortens cs x)
      (hf : p.take t x = some f) :
      Shortens cs (f.lexeme, f.rest) ∧ p.next f.terminal = some f.place := by
    obtain ⟨h₁, h₂, h₃⟩ := Place.take_eq_some hf
    exact ⟨by rw [h₁, h₂]; exact hx, h₃⟩
  simp only [Place.find, Option.orElse_eq_orElse, Option.orElse_eq_or, Option.or_eq_some_iff] at h
  rcases h with h | ⟨_, h | ⟨_, h | ⟨_, h⟩⟩⟩
  · split at h
    · obtain ⟨x, hx, h⟩ := Option.bind_eq_some_iff.1 h
      split at h <;> exact key (name?_shortens hx) h
    · simp at h
  · obtain ⟨x, hx, h⟩ := Option.bind_eq_some_iff.1 h
    exact key (quoted?_shortens hx) h
  · obtain ⟨x, hx, h⟩ := Option.bind_eq_some_iff.1 h
    exact key (number?_shortens hx) h
  · obtain ⟨m, _, h⟩ := Option.bind_eq_some_iff.1 h
    obtain ⟨x, hx, h⟩ := Option.bind_eq_some_iff.1 h
    exact key (fixed?_shortens hx m.text_ne_nil) h

theorem Place.find_rest_length {p : Place} {cs : List Char} {f : Found} (h : p.find cs = some f) :
    f.rest.length < cs.length := by
  obtain ⟨⟨h, hne⟩, _⟩ := Place.find_eq_some h
  have := List.length_pos_iff.2 hne
  rw [← h, List.length_append]
  dsimp only at this ⊢
  omega

theorem Place.find_skipLayout_rest_length {p : Place} {cs : List Char} {f : Found}
    (h : p.find (skipLayout false cs) = some f) : f.rest.length < cs.length :=
  Nat.lt_of_lt_of_le (Place.find_rest_length h) (skipLayout_length_le false cs)

/-- The tokens of a text that starts at a place, after `offset` characters, and how they end. -/
def scan (p : Place) (offset : Nat) (cs : List Char) : List Token × Ending :=
  let body := skipLayout false cs
  let start := offset + (cs.length - body.length)
  if body.isEmpty then ([], if p = .outside then .complete else .unfinished)
  else
    match _h : p.find body with
    | none => ([], .unexpected start)
    | some found =>
      let more := scan found.place (start + found.lexeme.length) found.rest
      (⟨p, found.terminal, found.lexeme, start⟩ :: more.1, more.2)
termination_by cs.length
decreasing_by
  exact Nat.lt_of_lt_of_le (Place.find_rest_length _h) (skipLayout_length_le false cs)

end Hql.Schema
