import Hql.Proofs.Validation.Keys
import Hql.Proofs.Validation.Places

/-!
The names that the checks offer in place of those they find fault with. Main statement: an offered name
is another one, and where it takes the place of the old one the checks no longer find what it was
offered for. Offers are tried for their form alone, so the name of an entity may turn into a word of the
language, and that of a property into a field of the database.
-/

namespace Hql

open Text

/-! ### Renaming -/

/-- The model with another name for the entity at a position. -/
def Model.renameEntity (model : Model) (position : Nat) (name : String) : Model :=
  model.modify position (Option.map fun e => { e with name := name })

/-- The entity with another name for the property at an index. -/
def Entity.renameProperty (e : Entity) (index : Nat) (name : String) : Entity :=
  { e with properties := e.properties.modify index (Option.map fun p => { p with name := name }) }

/-- The model with another name for the property at an index of the entity at a position. -/
def Model.renameProperty (model : Model) (position index : Nat) (name : String) : Model :=
  model.modify position (Option.map fun e => e.renameProperty index name)

section Renaming

variable {model : Model} {position index : Nat} {e : Entity} {p : Property}

theorem Model.getElem?_renameEntity (h : model[position]? = some (some e)) (name : String) :
    (model.renameEntity position name)[position]? = some (some { e with name := name }) := by
  rw [Model.renameEntity, List.getElem?_modify_eq, h]
  rfl

theorem Model.getElem?_renameProperty (h : model[position]? = some (some e)) (name : String) :
    (model.renameProperty position index name)[position]? =
      some (some (e.renameProperty index name)) := by
  rw [Model.renameProperty, List.getElem?_modify_eq, h]
  rfl

theorem Entity.getElem?_renameProperty (h : e.properties[index]? = some (some p)) (name : String) :
    (e.renameProperty index name).properties[index]? = some (some { p with name := name }) := by
  rw [Entity.renameProperty, List.getElem?_modify_eq, h]
  rfl

end Renaming

/-! ### Letters and digits -/

namespace Text

/-- What is dropped at the front may as well be left out. -/
theorem filter_dropWhile {p q : Char → Bool} (h : ∀ c, q c = true → p c = false) (cs : List Char) :
    (cs.dropWhile q).filter p = cs.filter p := by
  induction cs with
  | nil => rfl
  | cons c cs ih =>
    rw [List.dropWhile_cons]
    split
    · next hc =>
      rw [ih, List.filter_cons, if_neg (by rw [h c hc]; decide)]
    · rfl

theorem filter_reverse_dropWhile {p q : Char → Bool} (h : ∀ c, q c = true → p c = false)
    (cs : List Char) : (cs.reverse.dropWhile q).reverse.filter p = cs.filter p := by
  rw [List.filter_reverse, filter_dropWhile h, ← List.filter_reverse, List.reverse_reverse]

/-- The ASCII letters and digits of a text. -/
def alphanumerics (s : String) : String := String.ofList (s.toList.filter Char.isAlphanum)

theorem alphanumerics_trimmed (s : String) : alphanumerics (trimmed s) = alphanumerics s := by
  have hblank : ∀ c, isBlank c = true → c.isAlphanum = false := by
    intro c hc
    rw [Bool.eq_false_iff]
    intro halnum
    rw [not_isBlank_of_isWordChar (isWordChar_of_isAlphanum halnum)] at hc
    cases hc
  rw [alphanumerics, trimmed, String.toList_ofList, trim, trimEnd, filter_reverse_dropWhile hblank,
    trimStart, filter_dropWhile hblank, alphanumerics]

end Text

namespace Validation

theorem filter_isAlphanum_underscoreRuns (inRun : Bool) (cs : List Char) :
    (underscoreRuns inRun cs).filter Char.isAlphanum = cs.filter Char.isAlphanum := by
  induction cs generalizing inRun with
  | nil => rfl
  | cons c cs ih =>
    rw [underscoreRuns]
    split
    · rw [List.filter_cons, List.filter_cons, ih]
    · next hc =>
      have hother : c.isAlphanum = false := (Bool.or_eq_false_iff.1 (Bool.eq_false_iff.2 hc)).1
      have hunderscore : Char.isAlphanum '_' = false := by decide
      have hfilter (inRun : Bool) : (underscoreRuns inRun cs).filter Char.isAlphanum =
          (c :: cs).filter Char.isAlphanum := by
        rw [ih, List.filter_cons, hother, if_neg (by decide)]
      split
      · exact hfilter true
      · rw [List.filter_cons, hunderscore, if_neg (by decide), hfilter]

/-- The identifier nearest to a text has its letters and digits. -/
theorem alphanumerics_identifierOf (name : String) :
    alphanumerics (identifierOf name) = alphanumerics name := by
  have hunderscore : ∀ c, (c == '_') = true → c.isAlphanum = false := by
    intro c hc
    obtain rfl := beq_iff_eq.1 hc
    decide
  rw [alphanumerics, identifierOf, String.toList_ofList, trimUnderscores,
    filter_reverse_dropWhile hunderscore, filter_dropWhile hunderscore,
    filter_isAlphanum_underscoreRuns, alphanumerics]

theorem isIdentChar_underscoreRuns (inRun : Bool) (cs : List Char) :
    ∀ c ∈ underscoreRuns inRun cs, isIdentChar c = true := by
  induction cs generalizing inRun with
  | nil => exact List.forall_mem_nil _
  | cons c cs ih =>
    rw [underscoreRuns]
    split
    · next hc => exact List.forall_mem_cons.2 ⟨hc, ih false⟩
    · split
      · exact ih true
      · exact List.forall_mem_cons.2 ⟨by decide, ih true⟩

theorem isIdentChar_identifierOf (name : String) :
    ∀ c ∈ (identifierOf name).toList, isIdentChar c = true := by
  intro c hc
  rw [identifierOf, String.toList_ofList, trimUnderscores, List.mem_reverse] at hc
  have hmem := (List.dropWhile_sublist _).mem hc
  exact isIdentChar_underscoreRuns false _ c ((List.dropWhile_sublist _).mem (List.mem_reverse.1 hmem))

/-- Pascal case changes a name by case and underscores only. -/
theorem uppercase_pascalCase {name : String} (h : ∀ c ∈ name.toList, isIdentChar c = true) :
    uppercase (Naming.pascalCase name) = uppercase (alphanumerics name) := by
  have hcase : ∀ n < 128, (Char.ofNat n).toUpper.toUpper = (Char.ofNat n).toUpper := by decide +kernel
  have hupper {c : Char} (hc : isIdentChar c = true) : upper (upperChar c) = upperChar c := by
    have hascii := toNat_lt_of_isIdentChar hc
    have hletter := (isIdentChar_toUpper hc).1
    rw [upperChar, if_pos hascii, upper_cons, upperChar, if_pos (toNat_lt_of_isIdentChar hletter),
      ← Char.ofNat_toNat c, hcase _ hascii]
    rfl
  have hfrom (cs : List Char) (hcs : ∀ c ∈ cs, isIdentChar c = true) (atStart : Bool) :
      upper (Naming.pascalFrom atStart cs) = upper (cs.filter Char.isAlphanum) := by
    -- underscores are dropped on both sides; letters and digits stay, up to their case
    induction cs generalizing atStart with
    | nil => rfl
    | cons c cs ih =>
      obtain ⟨hc, hrest⟩ := List.forall_mem_cons.1 hcs
      rw [Naming.pascalFrom]
      split
      · next hunderscore =>
        subst hunderscore
        rw [List.filter_cons, if_neg (by decide), ih hrest]
      · next hunderscore =>
        have halnum : c.isAlphanum = true :=
          (Bool.or_eq_true_iff.1 hc).resolve_right (by simpa using hunderscore)
        rw [List.filter_cons, if_pos halnum, upper_append, upper_cons, ih hrest]
        cases atStart with
        | false => rw [if_neg (by decide), upper_cons, upper_nil, List.append_nil]
        | true => rw [if_pos rfl, hupper hc]
  rw [uppercase, uppercase, Naming.pascalCase, alphanumerics, String.toList_ofList,
    String.toList_ofList, hfrom _ h]

/-! ### Keys that end with a word -/

/-- Blanks are left out of a text in front of the word at its end only. -/
theorem trim_append {w : List Char} (hne : w ≠ []) (hw : ∀ c ∈ w, isBlank c = false)
    (cs : List Char) : trim (cs ++ w) = trimStart cs ++ w := by
  -- blanks are dropped up to the word at most
  have hstart : trimStart (cs ++ w) = trimStart cs ++ w := by
    induction cs with
    | nil => exact dropWhile_of_head fun c hc => hw c (List.mem_of_head? hc)
    | cons c cs ih =>
      rw [trimStart, trimStart, List.cons_append, List.dropWhile_cons, List.dropWhile_cons]
      split
      · exact ih
      · rfl
  have hend : ∀ c ∈ (trimStart cs ++ w).reverse.head?, isBlank c = false := by
    intro c hc
    rw [List.head?_reverse, List.getLast?_append_of_ne_nil _ hne] at hc
    exact hw c (List.mem_of_getLast? hc)
  rw [trim, hstart, trimEnd, dropWhile_of_head hend, List.reverse_reverse]

/-- The word at the end of a text is lowered by itself. What stands in front of it is not, since a sigma
looks at what comes after it. -/
theorem exists_lowerAfter_append (cs w before : List Char) :
    ∃ front, lowerAfter before (cs ++ w) = front ++ lowerAfter (cs.reverse ++ before) w := by
  induction cs generalizing before with
  | nil => exact ⟨[], rfl⟩
  | cons c cs ih =>
    obtain ⟨front, hfront⟩ := ih (c :: before)
    rw [List.cons_append, lowerAfter, hfront, ← List.append_assoc, List.reverse_cons,
      List.append_assoc cs.reverse, List.singleton_append]
    exact ⟨_, rfl⟩

/-- The key of a text that ends with a word ends with the word in lower case. -/
theorem exists_nameKey_append {w : String} (hne : w.toList ≠ [])
    (hw : ∀ c ∈ w.toList, isIdentChar c = true) (s : String) :
    ∃ front, (nameKey (s ++ w)).toList = front ++ w.toList.map Char.toLower := by
  have hsigma : 'Σ' ∉ w.toList := fun hmem => absurd (hw _ hmem) (by decide)
  have hplain : ∀ c ∈ w.toList, isBlank c = false :=
    fun c hc => not_isBlank_of_isIdentChar (hw c hc)
  obtain ⟨front, hfront⟩ := exists_lowerAfter_append (trimStart s.toList) w.toList []
  refine ⟨front, ?_⟩
  rw [nameKey, lowercase, trimmed, String.toList_ofList, String.toList_ofList, String.toList_append,
    trim_append hne hplain, lower, hfront, Library.lowerAfter_eq_flatMap hsigma,
    Library.flatMap_lowerChar_word hw]

/-! ### What is offered -/

section Offers

variable {e : Entity} {name s : String}

theorem suggestEntityName?_eq_some (h : suggestEntityName? name = some s) :
    s = Naming.pascalCase (identifierOf name) ∧ isEntityName s.toList = true ∧ s ≠ name := by
  rw [suggestEntityName?] at h
  split at h
  · next hoffer =>
    obtain rfl := Option.some.inj h
    simpa using hoffer
  · cases h

theorem suggestPropertyName?_eq_some (h : suggestPropertyName? name = some s) :
    s = identifierOf name ∧ isPropertyName s.toList = true ∧ s ≠ name := by
  rw [suggestPropertyName?] at h
  split at h
  · next hoffer =>
    obtain rfl := Option.some.inj h
    simpa using hoffer
  · cases h

theorem ne_empty_of_isIdentifier (h : isIdentifier s.toList = true) : s ≠ "" := by
  rintro rfl
  cases h

theorem hasPropertyForm_of_isPropertyName (h : isPropertyName s.toList = true) : HasPropertyForm s :=
  (isStoredPropertyName_iff s).1 (Bool.or_eq_true_iff.2 (.inl h))

/-- A name of an entity in front of a field of the database. -/
theorem reservedFix?_eq_some {key : String} (h : reservedFix? e key = some s) :
    s = lowercase e.name ++ "_" ++ key := by
  rw [reservedFix?] at h
  split at h
  · cases h
  · exact (Option.some.inj h).symm

/-- Fields of the database are words in lower case, and none ends with an underscore and another. -/
theorem reservedField_ending {kind : EntityKind} {key : String} (hkey : key ∈ kind.reservedFields) :
    (∀ c ∈ ("_" ++ key).toList, isIdentChar c = true) ∧
      ("_" ++ key).toList.map Char.toLower = ("_" ++ key).toList ∧
      ∀ field ∈ kind.reservedFields, ¬ ("_" ++ key).toList <:+ field.toList := by
  have hall : ∀ kind ∈ EntityKind.all, ∀ key ∈ kind.reservedFields,
      (∀ c ∈ ("_" ++ key).toList, isIdentChar c = true) ∧
        ("_" ++ key).toList.map Char.toLower = ("_" ++ key).toList ∧
        ∀ field ∈ kind.reservedFields, ¬ ("_" ++ key).toList <:+ field.toList := by decide
  exact hall kind (by cases kind <;> decide) key hkey

/-- With a name and an underscore in front of it a field of the database is none any more. -/
theorem not_mem_reservedFields {kind : EntityKind} {key : String} (hkey : key ∈ kind.reservedFields)
    (s : String) : nameKey (s ++ "_" ++ key) ∉ kind.reservedFields := by
  obtain ⟨hident, hlower, hending⟩ := reservedField_ending hkey
  obtain ⟨front, hfront⟩ := exists_nameKey_append (by simp) hident s
  rw [hlower] at hfront
  rw [String.append_assoc]
  exact fun hmem => hending _ hmem ⟨front, hfront.symm⟩

end Offers

/-! ### What an offer mends -/

/-- In place of the name of an entity, the offer has the right form. It is a word of the language if
the letters and digits of the name make one. -/
structure MendsEntity (model : Model) (position : Nat) (e : Entity) (s : String) : Prop where
  other : s ≠ e.name
  form : ¬ FoundAt (model.renameEntity position s) position none .entityNameForm
  reserved : (∃ name, FoundAt (model.renameEntity position s) position none
    (.entityNameReserved name)) ↔ Keyword.isReserved (alphanumerics e.name) = true

/-- In place of the name of a property that has the wrong form, the offer has the right one. It is a
field of the database if the identifier nearest to the name is one. -/
structure MendsForm (model : Model) (position : Nat) (e : Entity) (i : Nat) (p : Property)
    (s : String) : Prop where
  other : s ≠ p.name
  form : ¬ FoundAt (model.renameProperty position i s) position (some i) .propertyNameForm
  reserved : (∃ name, FoundAt (model.renameProperty position i s) position (some i)
    (.propertyNameReserved name)) ↔ lowercase (identifierOf p.name) ∈ e.kind.reservedFields

/-- In place of the name of a property that the database keeps for itself, the offer is free. It has
the right form if the name of the entity has it in lower case. -/
structure MendsReserved (model : Model) (position : Nat) (e : Entity) (i : Nat) (p : Property)
    (s : String) : Prop where
  other : s ≠ p.name
  form : isPropertyName (lowercase e.name).toList = true →
    ¬ FoundAt (model.renameProperty position i s) position (some i) .propertyNameForm
  reserved : ∀ name, ¬ FoundAt (model.renameProperty position i s) position (some i)
    (.propertyNameReserved name)

section Mending

variable {model : Model} {position i : Nat} {e : Entity} {p : Property} {s : String}
  (hentity : model[position]? = some (some e))

include hentity

theorem mendsEntity (hfix : suggestEntityName? (trimmed e.name) = some s) :
    MendsEntity model position e s := by
  obtain ⟨hs, hform, hother⟩ := suggestEntityName?_eq_some hfix
  have hident := isIdentifier_of_isEntityName hform
  have htrimmed := Library.trimmed_of_isIdentifier hident
  have hrenamed := Model.getElem?_renameEntity hentity s
  have hupper : uppercase s = uppercase (alphanumerics e.name) := by
    rw [hs, uppercase_pascalCase (isIdentChar_identifierOf _), alphanumerics_identifierOf,
      alphanumerics_trimmed]
  refine ⟨?_, ?_, ?_⟩
  · -- an offer has no blanks around it, so it is not even the name with its blanks
    rintro rfl
    exact hother htrimmed.symm
  · rw [foundAt_entityNameForm_iff hrenamed, htrimmed]
    exact fun hfound => hfound.2 ((isEntityName_iff s).1 hform)
  · simp only [foundAt_entityNameReserved_iff hrenamed, htrimmed, Keyword.isReserved, hupper]
    constructor
    · rintro ⟨name, -, hreserved, -⟩
      exact hreserved
    · exact fun hreserved => ⟨s, ne_empty_of_isIdentifier hident, hreserved, rfl⟩

variable (hproperty : e.properties[i]? = some (some p))

include hproperty

theorem foundAt_renamed_form_iff :
    FoundAt (model.renameProperty position i s) position (some i) .propertyNameForm ↔
      trimmed s ≠ "" ∧ ¬ HasPropertyForm s := by
  rw [foundAt_propertyNameForm_iff (Model.getElem?_renameProperty hentity s),
    Entity.getElem?_renameProperty hproperty s]
  simp

theorem foundAt_renamed_reserved_iff {name : String} :
    FoundAt (model.renameProperty position i s) position (some i) (.propertyNameReserved name) ↔
      trimmed s ≠ "" ∧ nameKey s ∈ e.kind.reservedFields ∧ s = name := by
  rw [foundAt_propertyNameReserved_iff (Model.getElem?_renameProperty hentity s),
    Entity.getElem?_renameProperty hproperty s]
  simp [Entity.renameProperty, nameKey]

theorem mendsForm (hfix : suggestPropertyName? p.name = some s) :
    MendsForm model position e i p s := by
  obtain ⟨hs, hform, hother⟩ := suggestPropertyName?_eq_some hfix
  have hident := isIdentifier_of_isPropertyName hform
  have htrimmed := Library.trimmed_of_isIdentifier hident
  refine ⟨hother, ?_, ?_⟩
  · rw [foundAt_renamed_form_iff hentity hproperty]
    exact fun hfound => hfound.2 (hasPropertyForm_of_isPropertyName hform)
  · simp only [foundAt_renamed_reserved_iff hentity hproperty, nameKey, htrimmed, ← hs]
    constructor
    · rintro ⟨name, -, hreserved, -⟩
      exact hreserved
    · exact fun hreserved => ⟨s, ne_empty_of_isIdentifier hident, hreserved, rfl⟩

theorem mendsReserved (hkey : nameKey p.name ∈ e.kind.reservedFields)
    (hfix : reservedFix? e (nameKey p.name) = some s) : MendsReserved model position e i p s := by
  have hs := reservedFix?_eq_some hfix
  have hfree : nameKey s ∉ e.kind.reservedFields := by
    rw [hs]
    exact not_mem_reservedFields hkey _
  refine ⟨?_, ?_, ?_⟩
  · -- the old name has the key of a field, the offer has not
    rintro rfl
    exact hfree hkey
  · intro hname
    rw [foundAt_renamed_form_iff hentity hproperty]
    refine fun hfound => hfound.2 (hasPropertyForm_of_isPropertyName ?_)
    obtain ⟨c, cs, heq, hletter, hrest⟩ := (isPropertyName_iff _).1 hname
    rw [hs, String.append_assoc, String.toList_append, heq, isPropertyName_iff]
    exact ⟨c, _, rfl, hletter, List.forall_mem_append.2 ⟨hrest, (reservedField_ending hkey).1⟩⟩
  · intro name hfound
    exact hfree ((foundAt_renamed_reserved_iff hentity hproperty).1 hfound).2.1

end Mending

/-- A fix is offered for the name of an entity, or for that of a property of wrong form, or for that of
a property that the database keeps for itself; and it mends that name. -/
inductive IsMended (model : Model) (position : Nat) (d : Diagnostic) (s : String) : Prop
  | entity {e : Entity} (hentity : model[position]? = some (some e))
      (hplace : d.propertyIndex = none ∧ d.finding = .entityNameForm)
      (h : MendsEntity model position e s) : IsMended model position d s
  | form {e : Entity} {i : Nat} {p : Property} (hentity : model[position]? = some (some e))
      (hproperty : e.properties[i]? = some (some p))
      (hplace : d.propertyIndex = some i ∧ d.finding = .propertyNameForm)
      (h : MendsForm model position e i p s) : IsMended model position d s
  | reserved {e : Entity} {i : Nat} {p : Property} (hentity : model[position]? = some (some e))
      (hproperty : e.properties[i]? = some (some p))
      (hplace : d.propertyIndex = some i ∧ d.finding = .propertyNameReserved p.name)
      (h : MendsReserved model position e i p s) : IsMended model position d s

section Fixes

variable {model : Model} {position : Nat} {e : Entity} {d : Diagnostic} {s : String}

theorem isMended_of_mem_dueForName (hentity : model[position]? = some (some e))
    (hd : d ∈ dueForName (model.take position) e) (hfix : d.fix = some s) :
    IsMended model position d s := by
  obtain ⟨-, rfl⟩ | ⟨-, ⟨-, rfl⟩ | ⟨-, rfl⟩ | ⟨-, rfl⟩⟩ := eq_of_mem_nameChecks hd
  · cases hfix
  · dsimp only at hfix
    exact .entity hentity ⟨rfl, rfl⟩ (mendsEntity hentity hfix)
  · cases hfix
  · cases hfix

theorem isMended_of_mem_dueForProperty (hentity : model[position]? = some (some e)) {i : Nat}
    {p : Property} (hproperty : e.properties[i]? = some (some p))
    (hd : d ∈ dueForProperty e (e.properties.take i) i p) (hfix : d.fix = some s) :
    IsMended model position d s := by
  obtain ⟨-, rfl⟩ | ⟨-, ⟨-, rfl⟩ | ⟨hkey, rfl⟩ | ⟨-, rfl⟩⟩ := eq_of_mem_nameChecks hd
  · cases hfix
  · dsimp only at hfix
    exact .form hentity hproperty ⟨rfl, rfl⟩ (mendsForm hentity hproperty hfix)
  · dsimp only at hfix
    exact .reserved hentity hproperty ⟨rfl, rfl⟩
      (mendsReserved hentity hproperty (of_decide_eq_true hkey) hfix)
  · cases hfix

end Fixes

/-- The diagnostics of a model are those of its positions, and every fix in them mends the name that it
is offered for. -/
theorem isMended_of_fix (model : Model) :
    validate model = (List.range model.length).flatMap (reportsAt model) ∧
    ∀ position, ∀ d ∈ reportsAt model position, ∀ s, d.fix = some s → IsMended model position d s := by
  refine ⟨(flatMap_reportsAt model).symm, fun position d hd s hfix => ?_⟩
  obtain ⟨e, hentity⟩ : ∃ e, model[position]? = some (some e) := by
    rw [reportsAt] at hd
    split at hd
    · next e hentity => exact ⟨e, hentity⟩
    · cases hd
  -- nothing is offered for the ends of edges
  rcases (mem_reportsAt hentity).1 hd with hname | ⟨-, hends⟩ | ⟨i, p, hproperty, hd⟩
  · exact isMended_of_mem_dueForName hentity hname hfix
  · rw [(mem_dueForEnds hends).2.2] at hfix
    cases hfix
  · exact isMended_of_mem_dueForProperty hentity hproperty hd hfix

/-- A node whose names are all to be mended. -/
def draftModel : Model := [
  some { id := "u", name := "user_profile", kind := .node
         properties := [some { name := "first-name" }, none, some { name := "Label" }] }]

theorem isMended_draftModel : ∀ s ∈ ["UserProfile", "first_name", "user_profile_label"],
    ∃ d ∈ reportsAt draftModel 0, d.fix = some s ∧ IsMended draftModel 0 d s := by
  intro s hs
  have hoffered : ∀ s ∈ ["UserProfile", "first_name", "user_profile_label"],
      ∃ d ∈ reportsAt draftModel 0, d.fix = some s := by decide +kernel
  obtain ⟨d, hd, hfix⟩ := hoffered s hs
  exact ⟨d, hd, hfix, (isMended_of_fix draftModel).2 0 d hd s hfix⟩

/-- A node that is called like a word of the language. -/
def wordModel : Model := [some { id := "q", name := "query", kind := .node }]

/-- What is offered for the name of an entity may be a word of the language, and what is offered for
that of a property a field of the database. -/
theorem not_accepted_of_fix : ¬ ∀ (model : Model) (position : Nat) (e : Entity),
    model[position]? = some (some e) → ∀ d ∈ reportsAt model position, ∀ s, d.fix = some s →
      (d.propertyIndex = none → s ≠ e.name ∧
        ¬ FoundAt (model.renameEntity position s) position none .entityNameForm ∧
        ∀ name, ¬ FoundAt (model.renameEntity position s) position none (.entityNameReserved name)) ∧
      (∀ i p, d.propertyIndex = some i → e.properties[i]? = some (some p) → s ≠ p.name ∧
        ¬ FoundAt (model.renameProperty position i s) position (some i) .propertyNameForm ∧
        ∀ name, ¬ FoundAt (model.renameProperty position i s) position (some i)
          (.propertyNameReserved name)) := by
  intro h
  have hoffer : ∃ d ∈ reportsAt wordModel 0, d.fix = some "Query" ∧ d.propertyIndex = none := by
    decide +kernel
  obtain ⟨d, hd, hfix, hindex⟩ := hoffer
  have hreserved : FoundAt (wordModel.renameEntity 0 "Query") 0 none (.entityNameReserved "Query") := by
    rw [FoundAt]
    decide +kernel
  exact ((h wordModel 0 _ rfl d hd "Query" hfix).1 hindex).2.2 "Query" hreserved

end Validation

end Hql
