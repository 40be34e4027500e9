import Hql.Proofs.Layout.Statement

/-!
Queries laid out: a header, statements and a returned value, told apart by their tokens. What is laid
out has the same tokens, so it is laid out again in the same way; it stays as it is if every chain of
it keeps its lines.
-/

namespace Hql

namespace Text

/-! ### Upper case in ASCII -/

theorem upper_of_ascii {cs : List Char} (h : ∀ c ∈ cs, c.toNat < 128) :
    upper cs = cs.map Char.toUpper := by
  induction cs with
  | nil => rfl
  | cons c cs ih =>
    obtain ⟨hc, hcs⟩ := List.forall_mem_cons.1 h
    rw [upper_cons, upperChar, if_pos hc, ih hcs]
    rfl

theorem isWordChar_toUpper {c : Char} (h : c.toNat < 128) :
    isWordChar c.toUpper = isWordChar c := by
  have hall : ∀ n < 128, isWordChar (Char.ofNat n).toUpper = isWordChar (Char.ofNat n) := by
    decide +kernel
  rw [← Char.ofNat_toNat c]
  exact hall _ h

theorem toUpper_of_not_isWordChar {c : Char} (h : isWordChar c = false) : c.toUpper = c := by
  refine dif_neg fun hsmall => ?_
  have hlower : c.isLower = true := by
    delta Char.isLower
    simpa using hsmall
  have hletter : c.isAlpha = true := Bool.or_eq_true_iff.2 (.inr hlower)
  rw [isWordChar_of_isAlpha hletter] at h
  cases h

/-! ### The last occurrence of a text -/

theorem lastIndex?_append {sought b : List Char} (hstart : sought.isPrefixOf b = true)
    (hb : b ≠ []) (h : lastIndex? sought (b.drop 1) = none) (a : List Char) :
    lastIndex? sought (a ++ b) = some a.length := by
  induction a with
  | nil =>
    obtain ⟨c, cs, rfl⟩ := List.exists_cons_of_ne_nil hb
    have hrest : lastIndex? sought cs = none := h
    rw [List.nil_append, lastIndex?, hrest]
    dsimp only
    rw [if_pos hstart]
    rfl
  | cons d a ih =>
    rw [List.cons_append, lastIndex?, ih]
    rfl

theorem lastIndex?_cons_eq_none {sought cs : List Char} {c : Char}
    (h : lastIndex? sought cs = none) (hstart : ¬ sought.isPrefixOf (c :: cs) = true) :
    lastIndex? sought (c :: cs) = none := by
  rw [lastIndex?, h]
  dsimp only
  rw [if_neg hstart]

theorem lastIndex?_append_eq_none {sought a b : List Char} (hb : lastIndex? sought b = none)
    (ha : ∀ c ∈ a, sought.head? ≠ some c) (hne : sought ≠ []) :
    lastIndex? sought (a ++ b) = none := by
  induction a with
  | nil => exact hb
  | cons c a ih =>
    obtain ⟨hc, ha⟩ := List.forall_mem_cons.1 ha
    refine lastIndex?_cons_eq_none (ih ha) fun hstart => hc ?_
    obtain ⟨d, sought, rfl⟩ := List.exists_cons_of_ne_nil hne
    rw [List.isPrefixOf_iff_prefix] at hstart
    exact congrArg some (List.cons_prefix_cons.1 hstart).1

end Text

namespace Layout

open Text

/-! ### The returned value -/

/-- The characters of some tokens are those of ASCII. -/
def IsAscii (ts : List Token) : Prop := ∀ t ∈ ts, ∀ c ∈ t.chars, c.toNat < 128

theorem ascii_written {ts : Tokens} (h : IsAscii (ts.map Prod.snd)) :
    ∀ c ∈ written ts, c.toNat < 128 := by
  induction ts with
  | nil => simp [written]
  | cons x ts ih =>
    obtain ⟨hx, hts⟩ := List.forall_mem_cons.1 h
    have hgap : ∀ c ∈ gapChars x.1, c.toNat < 128 := by cases x.1 <;> decide
    rw [written, List.forall_mem_append, List.forall_mem_append]
    exact ⟨⟨hgap, hx⟩, ih hts⟩

/-- The word before the returned value. -/
def returnChars : List Char := ['R', 'E', 'T', 'U', 'R', 'N']

/-- No gap stands before the word `RETURN`, whatever its case. -/
def NoReturn (ts : Tokens) : Prop := ∀ x ∈ ts, x.1 = true → ∀ w, x.2 = .word w → upper w ≠ returnChars

/-- A word of upper-case text at its start. -/
theorem takeWhile_upper {w : List Char} {ts : Tokens} (h : Fits ((false, .word w) :: ts))
    (hascii : IsAscii (((false, Token.word w) :: ts).map Prod.snd)) :
    (upper w ++ upper (written ts)).takeWhile isWordChar = upper w := by
  obtain ⟨⟨-, hw⟩, hfirst, hrest⟩ := Fits.cons_iff.1 h
  obtain ⟨hchars, hasciiRest⟩ := List.forall_mem_cons.1 hascii
  have hchars : ∀ c ∈ w, c.toNat < 128 := hchars
  have hupperWord : ∀ c ∈ upper w, isWordChar c = true := by
    rw [upper_of_ascii hchars, List.forall_mem_map]
    exact fun c hc => (isWordChar_toUpper (hchars c hc)).trans (hw c hc)
  have hhead := not_isWordChar_head_written hrest hfirst
  have hrestAscii := ascii_written hasciiRest
  rw [List.takeWhile_append_of_pos hupperWord]
  cases hts : written ts with
  | nil => simp
  | cons c cs =>
    rw [hts] at hhead hrestAscii
    have hc := hhead c rfl
    rw [upper_of_ascii hrestAscii, List.map_cons, toUpper_of_not_isWordChar hc,
      List.takeWhile_cons_of_neg (by rw [hc]; decide), List.append_nil]

theorem NoReturn.regap {ts : Tokens} (h : NoReturn ts) (keeps : Option Token → Token → Bool)
    (before : Option Token) : NoReturn (regap keeps before ts) := by
  induction ts generalizing before with
  | nil => exact h
  | cons x ts ih =>
    obtain ⟨hx, hts⟩ := List.forall_mem_cons.1 h
    exact List.forall_mem_cons.2 ⟨fun hgap => hx (Bool.and_eq_true_iff.1 hgap).1, ih hts _⟩

theorem lastIndex?_returnWord {ts : Tokens} (h : Fits ts) (hascii : IsAscii (ts.map Prod.snd))
    (hreturn : NoReturn ts) : lastIndex? returnWord (upper (written ts)) = none := by
  induction ts with
  | nil => rfl
  | cons x ts ih =>
    obtain ⟨gap, t⟩ := x
    obtain ⟨ht, hfirst, hrest⟩ := Fits.cons_iff.1 h
    obtain ⟨hchars, hasciiRest⟩ := List.forall_mem_cons.1 hascii
    obtain ⟨hword, hreturnRest⟩ := List.forall_mem_cons.1 hreturn
    have hnext := ih hrest hasciiRest hreturnRest
    -- a character and its upper-case form are both word characters or the same
    have hsame {c d : Char} (hc : c ∈ t.chars) (heq : d = c.toUpper) :
        isWordChar c = isWordChar d ∧ (isWordChar d = false → c = d) := by
      have hkind := isWordChar_toUpper (hchars c hc)
      rw [← heq] at hkind
      exact ⟨hkind.symm, fun hd => (toUpper_of_not_isWordChar (hkind.symm.trans hd)).symm.trans heq.symm⟩
    have hupper : ∀ c ∈ upper t.chars, returnWord.head? ≠ some c := by
      rw [upper_of_ascii hchars, List.forall_mem_map]
      intro c hc heq
      have hspace : c = ' ' := (hsame hc (Option.some.inj heq)).2 (by decide)
      exact absurd (ht.not_isBlank c hc) (by rw [hspace]; decide)
    have htoken : lastIndex? returnWord (upper t.chars ++ upper (written ts)) = none :=
      lastIndex?_append_eq_none hnext hupper (by decide)
    rw [written, List.append_assoc, upper_append, upper_append]
    cases gap with
    | false => exact htoken
    | true =>
      refine lastIndex?_cons_eq_none htoken fun hstart => ?_
      have hreturnWord : returnWord = ' ' :: (returnChars ++ [' ']) := by decide
      rw [List.isPrefixOf_iff_prefix, hreturnWord] at hstart
      obtain ⟨rest, hrestEq⟩ := (List.cons_prefix_cons.1 hstart).2
      rw [List.append_assoc] at hrestEq
      cases t with
      | colons => exact absurd (List.cons.inj hrestEq).1 (by decide)
      | mark c =>
        rw [upper_of_ascii hchars] at hrestEq
        have hkind := (hsame (List.mem_singleton_self c) (List.cons.inj hrestEq).1).1
        rw [ht.2] at hkind
        exact absurd hkind (by decide)
      | word w =>
        have htake := takeWhile_upper (Fits.cons_iff.2 ⟨ht, hfirst, hrest⟩) hascii
        have hreturnTake : (returnChars ++ ([' '] ++ rest)).takeWhile isWordChar = returnChars := by
          rw [List.takeWhile_append_of_pos (by decide), List.singleton_append,
            List.takeWhile_cons_of_neg (by decide), List.append_nil]
        exact hword rfl w rfl (htake.symm.trans ((congrArg _ hrestEq.symm).trans hreturnTake))

/-! ### Texts in pieces -/

theorem written_withGap {ts : Tokens} (h : ts ≠ []) :
    written (withGap true ts) = ' ' :: written (flush ts) := by
  cases ts with
  | nil => exact absurd rfl h
  | cons x ts => rfl

theorem flush_tight (ts : Tokens) : flush (tight (flush ts)) = tight (flush ts) := by
  cases ts <;> rfl

theorem trim_written_flush {ts : Tokens} (h : Fits (flush ts)) :
    trim (written (flush ts)) = written (flush ts) := by
  have htrim := trim_written h false
  rwa [flush_flush, gapChars, if_neg (by decide), List.append_nil] at htrim

theorem ended_flatMap {α : Type} (f : α → List (List Char)) (as : List α) :
    ended (as.flatMap f) = as.flatMap fun a => ended (f a) := List.flatMap_assoc

theorem spaced_flatMap {α : Type} (f : α → List (List Char × Token)) (as : List α) :
    spaced (as.flatMap f) = as.flatMap fun a => spaced (f a) := by
  induction as with
  | nil => rfl
  | cons a as ih => rw [List.flatMap_cons, List.flatMap_cons, spaced_append, ih]

/-- A text without the marks that start comments is one piece. -/
theorem cutAtComments_of_not_mem {cs : List Char} (h : ∀ c ∈ cs, c ≠ '/' ∧ c ≠ '#') :
    cutAtComments cs = [cs] := by
  have hcut (afterWord : Bool) : cutWhere (fun _ rest => startsComment rest) afterWord cs = [cs] := by
    induction cs generalizing afterWord with
    | nil => rfl
    | cons c cs ih =>
      obtain ⟨hc, hcs⟩ := List.forall_mem_cons.1 h
      rw [cutWhere_cons (startsComment_eq_false hc.1 hc.2 cs), ih hcs]
      rfl
  rw [cutAtComments, hcut]
  split
  · rename_i heq
    cases heq
  · rfl

/-! ### Queries -/

/-- The words among some tokens. -/
def words (ts : List Token) : List (List Char) :=
  ts.filterMap fun
    | .word w => some w
    | _ => none

/-- The word that starts a query. -/
def queryChars : List Char := ['Q', 'U', 'E', 'R', 'Y']

/-- The parts of a query, as tokens. A gap stands before the signature and before the value. -/
structure Outline where
  signature : Tokens
  clauses : List Clause
  value : Tokens

namespace Outline

def header (q : Outline) : Tokens :=
  (false, .word queryChars) :: (withGap true q.signature ++ [(true, .mark '='), (false, .mark '>')])

def body (q : Outline) : Tokens :=
  q.clauses.flatMap Clause.tokens ++ (true, .word returnChars) :: withGap true q.value

def tokens (q : Outline) : Tokens := q.header ++ q.body

/-- A query whose parts can be told apart. -/
structure IsSound (q : Outline) : Prop where
  starts : ∃ w ts, q.signature.map Prod.snd = .word w :: ts
  ends : (q.signature.map Prod.snd).getLast? = some (.mark ')')
  equals : .mark '=' ∉ q.signature.map Prod.snd
  header : Tidy (q.header.map Prod.snd)
  ne_nil : q.clauses ≠ []
  clauses : ∀ c ∈ q.clauses, c.IsSound
  marks : .mark '/' ∉ q.tokens.map Prod.snd ∧ .mark '#' ∉ q.tokens.map Prod.snd
  ascii : IsAscii (q.tokens.map Prod.snd)
  noBlock : (words (q.tokens.map Prod.snd).tail).any isBlockWord = false
  some_value : q.value ≠ []
  value : Tidy (q.value.map Prod.snd)
  noReturn : NoReturn (withGap true q.value)

end Outline

/-- The gaps that are kept in a signature. -/
def signatureGap (before : Option Token) (t : Token) : Bool :=
  t != .mark '(' && tightGap before t

/-- A signature laid out. -/
def relaySignature : Tokens → Tokens
  | [] => []
  | (_, t) :: ts => (true, t) :: regap signatureGap (some t) ts

namespace Outline

/-- A query laid out. -/
def lay (q : Outline) : List (List Char × Token) :=
  singleSpaced ((false, .word queryChars) ::
      (relaySignature q.signature ++ [(true, .mark '='), (false, .mark '>')])) ++
    (q.clauses.flatMap Clause.lay ++ ('\n' :: indent, .word returnChars) ::
      singleSpaced (withGap true (tight (flush q.value))))

/-- Nothing but breaks stands before the tokens of a query laid out. -/
theorem broken_lay (q : Outline) : Broken q.lay := by
  have hclauses : Broken (q.clauses.flatMap Clause.lay) := by
    intro x hx
    obtain ⟨c, -, hx⟩ := List.mem_flatMap.1 hx
    exact c.broken_lay x hx
  exact List.forall_mem_append.2 ⟨broken_singleSpaced _, List.forall_mem_append.2
    ⟨hclauses, List.forall_mem_cons.2 ⟨by decide, broken_singleSpaced _⟩⟩⟩

/-- A query as it stands when it is laid out. -/
def relaid (q : Outline) : Outline where
  signature := relaySignature q.signature
  clauses := q.clauses.map Clause.relaid
  value := tight (flush q.value)

variable {q : Outline}

/-! ### The header -/

/-- The gaps that are kept where an opening bracket stands directly after its name. -/
def callGap (_ : Option Token) (t : Token) : Bool := t != .mark '('

theorem regap_header (h : q.IsSound) : regap signatureGap none q.header =
    (false, .word queryChars) ::
      (relaySignature q.signature ++ [(true, .mark '='), (false, .mark '>')]) := by
  obtain ⟨w, ts, hsignature⟩ := h.starts
  obtain ⟨⟨g, t⟩, rest, hq, rfl, rfl⟩ := List.map_eq_cons_iff.1 hsignature
  have hlast : ((rest.map Prod.snd).getLast?.or (some (.word w))) = some (.mark ')') := by
    have hends := h.ends
    rw [hq, List.map_cons, List.getLast?_cons] at hends
    cases hrest : (rest.map Prod.snd).getLast? with
    | none =>
      rw [hrest] at hends
      cases hends
    | some t =>
      rw [hrest] at hends
      exact hends
  rw [header, hq, withGap, relaySignature, List.cons_append, regap, regap, regap_append, hlast]
  rfl

theorem fits_regap_callGap {ts : Tokens} (h : Fits ts) (hcolon : NoLooseColon (ts.map Prod.snd))
    (before : Option Token) : Fits (regap callGap before ts) := by
  refine h.regap_of_keeps (hcolon.imp fun t u _ hclings => ?_) before
  rw [callGap, bne_iff_ne]
  rintro rfl
  cases t <;> simp [Token.clings] at hclings

theorem fits_signature (hfits : Fits q.header) : Fits (flush q.signature) := by
  have hgap : Fits (withGap true q.signature) := hfits.of_isInfix
    ⟨[(false, .word queryChars)], [(true, .mark '='), (false, .mark '>')], rfl⟩
  rw [← flush_withGap true]
  exact hgap.flush

/-- The header of a query laid out. -/
theorem tidy_header (h : q.IsSound) (hfits : Fits q.header) :
    tidy (upper queryChars ++ ' ' :: closeBefore '(' (written (flush q.signature)) ++
      [' ', '=', '>']) =
      written ((false, .word queryChars) ::
        (relaySignature q.signature ++ [(true, .mark '='), (false, .mark '>')])) := by
  have htext : upper queryChars ++ ' ' :: closeBefore '(' (written (flush q.signature)) ++
      [' ', '=', '>'] = written (regap callGap none q.header) := by
    obtain ⟨w, ts, hlexemes⟩ := h.starts
    obtain ⟨⟨g, t⟩, rest, hq, rfl, rfl⟩ := List.map_eq_cons_iff.1 hlexemes
    have hupper : upper queryChars = queryChars := by decide
    have hclose : closeBefore '(' (written (flush q.signature)) =
        written (regap callGap none (flush q.signature)) :=
      closeBefore_written (by decide) (by decide) (fits_signature hfits).sound none
    have htail (before : Option Token) :
        written (regap callGap before [(true, .mark '='), (false, .mark '>')]) = [' ', '=', '>'] := rfl
    have hgap : ((true || g) && callGap (some (.word queryChars)) (.word w)) = true := rfl
    rw [hupper, hclose, header, hq, withGap, List.cons_append, regap, regap, regap_append, written,
      written, written_append, htail, hgap, flush, regap, written]
    simp only [List.append_assoc, List.cons_append]
    rfl
  have hcallGap := fits_regap_callGap hfits h.header.colons none
  rw [htext, tidy_written hcallGap (by rw [map_snd_regap]; exact h.header), tight, regap_regap,
    ← regap_header h]
  rfl

/-! ### The body -/

theorem fits_clauses (hfits : Fits q.body) : Fits (q.clauses.flatMap Clause.tokens) :=
  hfits.of_isInfix (List.prefix_append ..).isInfix

theorem fits_value (hfits : Fits q.body) : Fits (withGap true q.value) :=
  hfits.of_isInfix ⟨q.clauses.flatMap Clause.tokens ++ [(true, .word returnChars)], [], by simp [body]⟩

theorem mem_tokens_of_clauses {t : Token} (h : t ∈ (q.clauses.flatMap Clause.tokens).map Prod.snd) :
    t ∈ q.tokens.map Prod.snd := by
  rw [tokens, body, List.map_append, List.map_append, List.mem_append, List.mem_append]
  exact .inr (.inl h)

theorem mem_tokens_of_value {t : Token} (h : t ∈ q.value.map Prod.snd) :
    t ∈ q.tokens.map Prod.snd := by
  rw [tokens, body, List.map_append, List.map_append, List.map_cons, map_snd_withGap,
    List.mem_append, List.mem_append]
  exact .inr (.inr (List.mem_cons_of_mem _ h))

theorem clauses_ne_nil (h : q.IsSound) : q.clauses.flatMap Clause.tokens ≠ [] := by
  obtain ⟨c, cs, hcs⟩ := List.exists_cons_of_ne_nil h.ne_nil
  obtain ⟨w, more, hmore⟩ := c.tokens_head
  rw [hcs, List.flatMap_cons, hmore]
  simp

/-- A body is divided at the word before its value. -/
theorem lastIndex?_body (h : q.IsSound) (hfits : Fits q.body) :
    lastIndex? returnWord (upper (written (flush (q.clauses.flatMap Clause.tokens)) ++
      (returnWord ++ written (flush q.value)))) =
        some (written (flush (q.clauses.flatMap Clause.tokens))).length := by
  have hascii : ∀ c ∈ written (flush (q.clauses.flatMap Clause.tokens)), c.toNat < 128 :=
    ascii_written (by rw [map_snd_flush]; exact fun t ht => h.ascii t (mem_tokens_of_clauses ht))
  have hlength : (upper (written (flush (q.clauses.flatMap Clause.tokens)))).length =
      (written (flush (q.clauses.flatMap Clause.tokens))).length := by
    rw [upper_of_ascii hascii, List.length_map]
  have hupper : upper returnWord = returnWord := by decide
  have hvalue : returnWord.drop 1 ++ upper (written (flush q.value)) =
      upper (written ((false, .word returnChars) :: withGap true q.value)) := by
    rw [written, written_withGap h.some_value]
    rfl
  -- after its first letter the word before the value is another word, and the value has no such
  -- word
  have hnone : lastIndex? returnWord (returnWord.drop 1 ++ upper (written (flush q.value))) = none := by
    rw [hvalue]
    have hreturn : Fits ((true, .word returnChars) :: withGap true q.value) :=
      hfits.of_isInfix ⟨q.clauses.flatMap Clause.tokens, [], List.append_nil _⟩
    refine lastIndex?_returnWord ?_ ?_ ?_
    · exact hreturn.flush
    · rw [List.map_cons, map_snd_withGap]
      exact List.forall_mem_cons.2 ⟨by decide, fun t ht => h.ascii t (mem_tokens_of_value ht)⟩
    · exact List.forall_mem_cons.2 ⟨by simp, h.noReturn⟩
  have hstart : returnWord.isPrefixOf (returnWord ++ upper (written (flush q.value))) = true :=
    List.isPrefixOf_iff_prefix.2 (List.prefix_append ..)
  have hne : returnWord ++ upper (written (flush q.value)) ≠ [] :=
    List.append_ne_nil_of_left_ne_nil (by decide) _
  have hdrop : (returnWord ++ upper (written (flush q.value))).drop 1 =
      returnWord.drop 1 ++ upper (written (flush q.value)) := rfl
  have hlast := lastIndex?_append hstart hne (hdrop ▸ hnone)
    (upper (written (flush (q.clauses.flatMap Clause.tokens))))
  rw [hlength] at hlast
  rw [upper_append, upper_append, hupper, hlast]

/-- The lines of a body. -/
theorem ended_bodyLines (h : q.IsSound) (hfits : Fits q.body) :
    ended (bodyLines (written (flush q.body))) =
      spaced (q.clauses.flatMap Clause.lay ++ ('\n' :: indent, .word returnChars) ::
        singleSpaced (withGap true (tight (flush q.value)))) := by
  have hclauses := fits_clauses hfits
  have hvalue : Fits (flush q.value) := by
    have hflush := (fits_value hfits).flush
    rwa [flush_withGap] at hflush
  have htext : written (flush q.body) = written (flush (q.clauses.flatMap Clause.tokens)) ++
      (returnWord ++ written (flush q.value)) := by
    rw [body, flush_append (clauses_ne_nil h), written_append, written, written_withGap h.some_value]
    rfl
  -- the body is cut at its last RETURN: the statements before it and the value behind it are laid
  -- out apart
  have hlaid : ended ((q.clauses.map fun c => written (flush c.tokens)).flatMap statementLines) =
      spaced (q.clauses.flatMap Clause.lay) := by
    rw [List.flatMap_map, ended_flatMap, spaced_flatMap]
    refine congrArg List.flatten (List.map_congr_left fun c hc => ?_)
    obtain ⟨before, after, hsplit⟩ := List.append_of_mem hc
    refine Clause.ended_statementLines (h.clauses c hc) (hclauses.of_isInfix
      ⟨before.flatMap Clause.tokens, after.flatMap Clause.tokens, ?_⟩)
    rw [hsplit]
    simp
  have hreturn : ended (returnLines (written (flush q.value))) =
      '\n' :: indent ++ returnChars ++ ' ' :: written (tight (flush q.value)) := by
    have hcut : cutAtComments (written (flush q.value)) = [written (flush q.value)] := by
      refine cutAtComments_of_not_mem (not_mem_comment hvalue ?_)
      rw [map_snd_flush]
      exact h.value.marks
    have htidy : tidy (written (flush q.value)) = written (tight (flush q.value)) :=
      tidy_written hvalue (by rw [map_snd_flush]; exact h.value)
    rw [returnLines, hcut]
    dsimp only
    rw [trim_written_flush hvalue, htidy]
    simp [ended, returnChars]
  have htight : tight (flush q.value) ≠ [] := by
    obtain ⟨x, ts, hx⟩ := List.exists_cons_of_ne_nil h.some_value
    rw [hx]
    simp [flush, tight, regap]
  rw [htext, bodyLines, lastIndex?_body h hfits]
  dsimp only
  rw [List.take_left, trim_written_flush hclauses.flush, statements_written h.clauses hclauses
      ⟨mt mem_tokens_of_clauses h.marks.1, mt mem_tokens_of_clauses h.marks.2⟩,
    ended_append, hlaid, spaced_append, ← List.append_assoc, ← List.length_append, List.drop_left,
    trim_written_flush hvalue, hreturn, spaced, spaced_singleSpaced, written_withGap htight,
    flush_tight, Token.chars, List.append_assoc]

theorem written_header (h : q.IsSound) : written q.header =
    queryChars ++ ' ' :: (written (flush q.signature) ++ [' '] ++ ['=', '>']) := by
  have hne : q.signature ≠ [] := by
    obtain ⟨w, ts, hlexemes⟩ := h.starts
    rintro hnil
    rw [hnil] at hlexemes
    cases hlexemes
  rw [header, written, written_append, written_withGap hne]
  simp only [List.append_assoc]
  rfl

/-- The parts of a query are found in its text. -/
theorem ofRuns?_eq (h : q.IsSound) (hfits : Fits q.tokens) (gap : Bool) :
    Block.ofRuns? (runs (written q.tokens ++ gapChars gap)) =
      some ⟨queryChars, written (flush q.signature), written (flush q.body)⟩ := by
  have hheader : Fits q.header := hfits.of_isInfix (List.prefix_append ..).isInfix
  have hbody : Fits q.body := hfits.of_isInfix (List.suffix_append ..).isInfix
  have hsignature := fits_signature hheader
  have htext : written q.tokens ++ gapChars gap = queryChars ++
      (' ' :: (written (flush q.signature) ++ [' '] ++ ['=', '>'] ++
        (written q.body ++ gapChars gap))) := by
    rw [tokens, written_append, written_header h]
    simp only [List.append_assoc, List.cons_append]
  have hequals : '=' ∉ written (flush q.signature) ++ [' '] := by
    rw [List.mem_append, not_or]
    refine ⟨mt (mark_mem_of_mem_written hsignature.sound (by decide) (by decide) (by decide)) ?_,
      by decide⟩
    rw [map_snd_flush]
    exact h.equals
  have hcut := splitFirst?_append hequals ['>'] (written q.body ++ gapChars gap)
  have htrim : trim (written (flush q.signature) ++ [' ']) = written (flush q.signature) := by
    have htrim := trim_written hsignature true
    rwa [flush_flush] at htrim
  have hblock : isBlockWord queryChars = true := by decide
  have hspace (cs : List Char) : ∀ d ∈ (' ' :: cs).head?, isWordChar d = false := by simp; decide
  have hstart (cs : List Char) : [' '].isPrefixOf (' ' :: cs) = true := rfl
  rw [htext, runs_word (by decide) (by decide) (hspace _), Block.ofRuns?, hblock, flatten_runs,
    hstart, if_pos (by decide), List.drop_one, List.tail_cons, hcut, Option.map_some, htrim,
    trim_written hbody]

/-- The lines of a query. -/
theorem blockLines_eq (h : q.IsSound) {ls : List (List Char)}
    (htokens : Layout.tokens false (oneLine ls) = q.tokens) :
    ['\n'].intercalate (blockLines ls) = spaced q.lay := by
  have hfits : Fits q.tokens := htokens ▸ fits_tokens false (oneLine ls)
  have hheader : Fits q.header := hfits.of_isInfix (List.prefix_append ..).isInfix
  have hbody : Fits q.body := hfits.of_isInfix (List.suffix_append ..).isInfix
  have hsqueeze : squeeze false (oneLine ls) =
      written q.tokens ++ gapChars (gapAfter false (oneLine ls)) := by
    rw [← htokens, ← squeeze_eq_written]
    rfl
  have hline : [' '].intercalate ls = oneLine ls := rfl
  rw [blockLines, hline, hsqueeze, ofRuns?_eq h hfits]
  dsimp only
  rw [Block.header, intercalate_newline, tidy_header h hheader, ended_bodyLines h hbody,
    lay, spaced_append (singleSpaced _), spaced_singleSpaced]

/-! ### Queries that are laid out already -/

theorem noted_flatMap_lay (cs : List Clause) : noted (cs.flatMap Clause.lay) =
    (cs.map Clause.relaid).flatMap Clause.tokens := by
  rw [noted, List.map_flatMap, List.flatMap_map]
  exact congrArg List.flatten (List.map_congr_left fun c _ => c.noted_lay)

theorem withGap_relaySignature (ts : Tokens) :
    withGap true (relaySignature ts) = relaySignature ts := by
  cases ts <;> rfl

/-- The tokens of a query laid out. -/
theorem noted_lay (q : Outline) : noted q.lay = q.relaid.tokens := by
  rw [lay, noted_append, noted_append, noted_flatMap_lay, noted_singleSpaced, tokens, header, body,
    relaid, withGap_relaySignature, noted, List.map_cons, ← noted, noted_singleSpaced]
  rfl

@[simp] theorem map_snd_relaySignature (ts : Tokens) :
    (relaySignature ts).map Prod.snd = ts.map Prod.snd := by
  cases ts with
  | nil => rfl
  | cons x ts => rw [relaySignature, List.map_cons, map_snd_regap, List.map_cons]

theorem map_snd_flatMap_relaid (cs : List Clause) :
    ((cs.map Clause.relaid).flatMap Clause.tokens).map Prod.snd =
      (cs.flatMap Clause.tokens).map Prod.snd := by
  rw [List.flatMap_map, List.map_flatMap, List.map_flatMap]
  simp only [Clause.map_snd_relaid]

@[simp] theorem map_snd_relaid (q : Outline) :
    q.relaid.tokens.map Prod.snd = q.tokens.map Prod.snd := by
  simp only [tokens, header, body, relaid, List.map_append, List.map_cons, map_snd_withGap,
    map_snd_relaySignature, map_snd_flatMap_relaid, map_snd_tight, map_snd_flush]

theorem IsSound.relaid (h : q.IsSound) : q.relaid.IsSound where
  starts := by simpa only [Outline.relaid, map_snd_relaySignature] using h.starts
  ends := by simpa only [Outline.relaid, map_snd_relaySignature] using h.ends
  equals := by simpa only [Outline.relaid, map_snd_relaySignature] using h.equals
  header := by
    simpa only [Outline.relaid, Outline.header, List.map_cons, List.map_append, map_snd_withGap,
      map_snd_relaySignature] using h.header
  ne_nil := by simpa only [Outline.relaid, ne_eq, List.map_eq_nil_iff] using h.ne_nil
  clauses := List.forall_mem_map.2 fun c hc => (h.clauses c hc).relaid
  marks := by
    rw [map_snd_relaid]
    exact h.marks
  ascii := by
    rw [map_snd_relaid]
    exact h.ascii
  noBlock := by
    rw [map_snd_relaid]
    exact h.noBlock
  some_value := by
    intro hnil
    have hlexemes : (tight (flush q.value)).map Prod.snd = [] := congrArg (List.map Prod.snd) hnil
    rw [map_snd_tight, map_snd_flush, List.map_eq_nil_iff] at hlexemes
    exact h.some_value hlexemes
  value := by simpa only [Outline.relaid, map_snd_tight, map_snd_flush] using h.value
  noReturn := by
    obtain ⟨⟨g, t⟩, ts, hvalue⟩ := List.exists_cons_of_ne_nil h.some_value
    have hnoReturn := h.noReturn
    rw [hvalue, withGap] at hnoReturn
    obtain ⟨hfirst, hrest⟩ := List.forall_mem_cons.1 hnoReturn
    rw [Outline.relaid, hvalue, flush, tight, Layout.regap, withGap]
    exact List.forall_mem_cons.2 ⟨fun _ => hfirst rfl, NoReturn.regap hrest _ _⟩

theorem fits_flatMap {cs : List Clause} (h : ∀ c ∈ cs, Fits c.tokens) {rest : Tokens}
    (hrest : Fits rest) (hgap : ∀ x ∈ rest.head?, x.1 = true) :
    Fits (cs.flatMap Clause.tokens ++ rest) := by
  induction cs with
  | nil => exact hrest
  | cons c cs ih =>
    obtain ⟨hc, hcs⟩ := List.forall_mem_cons.1 h
    rw [List.flatMap_cons, List.append_assoc]
    refine hc.append (ih hcs) fun _ _ y hy _ => ?_
    cases cs with
    | nil => exact hgap y hy
    | cons d cs =>
      obtain ⟨w, more, hmore⟩ := d.tokens_head
      rw [List.flatMap_cons, hmore] at hy
      obtain rfl := Option.some.inj hy
      rfl

theorem fits_relaid_header (h : q.IsSound) (hfits : Fits q.header) : Fits q.relaid.header := by
  have hrelaid : q.relaid.header = regap signatureGap none q.header := by
    rw [regap_header h, header, relaid, withGap_relaySignature]
  rw [hrelaid]
  refine hfits.regap_of_keeps (h.header.colons.imp fun t u hloose hclings => ?_) none
  have hcall : u ≠ .mark '(' := by
    rintro rfl
    cases t <;> simp [Token.clings] at hclings
  rw [signatureGap, tightGap_of_clings hclings hloose, bne_iff_ne.2 hcall]
  rfl

theorem fits_relaid (h : q.IsSound) (hfits : Fits q.tokens) : Fits q.relaid.tokens := by
  have hbody : Fits q.body := hfits.of_isInfix (List.suffix_append ..).isInfix
  have hclauses : ∀ c ∈ q.clauses.map Clause.relaid, Fits c.tokens := by
    rw [List.forall_mem_map]
    intro c hc
    obtain ⟨before, after, hsplit⟩ := List.append_of_mem hc
    refine Clause.fits_relaid (h.clauses c hc) ((fits_clauses hbody).of_isInfix
      ⟨before.flatMap Clause.tokens, after.flatMap Clause.tokens, ?_⟩)
    rw [hsplit]
    simp
  have hflush : Fits (flush q.value) := by
    have hvalue := (fits_value hbody).flush
    rwa [flush_withGap] at hvalue
  have hvalue : Fits ((true, .word returnChars) :: withGap true (tight (flush q.value))) := by
    refine Fits.cons_iff.2 ⟨⟨by decide, by decide⟩, fun y hy _ => ?_, ?_⟩
    · cases hlay : tight (flush q.value) with
      | nil =>
        rw [hlay] at hy
        cases hy
      | cons x ts =>
        rw [hlay] at hy
        obtain rfl := Option.some.inj hy
        rfl
    · exact (hflush.tight (by rw [map_snd_flush]; exact h.value.colons)).withGap true
  refine (fits_relaid_header h (hfits.of_isInfix (List.prefix_append ..).isInfix)).append
    (fits_flatMap hclauses hvalue (by simp)) fun x hx y _ hclings => ?_
  -- the header ends in an arrow, to which nothing clings
  have harrow : x = (false, .mark '>') := by
    rw [header, ← List.cons_append, List.getLast?_append_of_ne_nil _ (by simp)] at hx
    exact (Option.some.inj hx).symm
  rw [harrow] at hclings
  exact absurd (head_of_clings hclings).1 (by decide)

/-- Every chain of a query keeps its lines. -/
def Firm (q : Outline) : Prop := ∀ c ∈ q.clauses, c.Firm

theorem relaySignature_relaySignature (ts : Tokens) :
    relaySignature (relaySignature ts) = relaySignature ts := by
  cases ts with
  | nil => rfl
  | cons x ts =>
    rw [relaySignature, relaySignature, regap_regap]
    simp only [Bool.and_self]

theorem lay_relaid (q : Outline) : q.relaid.lay =
    singleSpaced ((false, .word queryChars) ::
      (relaySignature q.signature ++ [(true, .mark '='), (false, .mark '>')])) ++
    (q.clauses.flatMap (Clause.lay ∘ Clause.relaid) ++ ('\n' :: indent, .word returnChars) ::
      singleSpaced (withGap true (tight (flush q.value)))) := by
  rw [lay, relaid, relaySignature_relaySignature, flush_tight, tight_tight, List.flatMap_map]
  rfl

/-- A query stays as it is if its chains keep their lines. -/
theorem Firm.lay_relaid (h : q.Firm) : q.relaid.lay = q.lay := by
  have hclauses : q.clauses.flatMap (Clause.lay ∘ Clause.relaid) = q.clauses.flatMap Clause.lay :=
    congrArg List.flatten (List.map_congr_left fun c hc => (h c hc).lay_relaid)
  rw [Outline.lay_relaid, hclauses, lay]

end Outline

end Layout

end Hql
