import TreeTypes.Proofs.Generation.Stages
import TreeTypes.Proofs.Text.ReadingBack

/-!
# When two constructors have the same name

The name of a constructor is put together without any separator of its own:
the rule's name in upper case, the infix from the settings, and the number of
the alternative. Within one variant the first two parts are the same for all
constructors, so the numbers keep them apart, whatever the infix is.

Across rules it is a question of where the parts end. The rule's name may hold
the infix or end in digits, so nothing can be said from the left. From the
right there is the numeral, and it is determined as the longest run of digits
at the end, provided that the infix does not end in a digit itself. Then equal
names have equal numbers and equal rule names in upper case, and a collision
is one of rule names that differ in case only. With an infix that ends in a
digit, or with none, other rules collide too.

## Main definitions

* `TypeDecl.HasConstructor` — a declaration has an alternative with a number and
  a name.

## Main results

* `Text.append_numeral_inj` — a numeral at the end can be told from what stands
  before it.
* `Settings.constructorName_inj` — which names are equal.
* `Grammar.constructorNames_of_types` — the names in the block of a grammar.
-/

namespace TreeTypes

namespace Text

/-- A numeral at the end is determined if no digit stands before it. -/
theorem append_numeral_inj {s t : Text} {i j : Nat} (hs : ∀ p ∈ s.getLast?, p.isDigit = false)
    (ht : ∀ p ∈ t.getLast?, p.isDigit = false) (h : s ++ numeral i = t ++ numeral j) :
    s = t ∧ i = j := by
  -- Read from the right, the numeral is a run of digits that something else ends.
  have hReversed := congrArg List.reverse h
  rw [List.reverse_append, List.reverse_append] at hReversed
  have hDigits : ∀ n, ∀ p ∈ (numeral n).reverse, p.isDigit = true := fun n p hp =>
    isDigit_of_mem_numeral (List.mem_reverse.1 hp)
  have hStops : Stops CodePoint.isDigit s.reverse := fun p hp => hs p (List.head?_reverse ▸ hp)
  have hStops' : Stops CodePoint.isDigit t.reverse := fun p hp => ht p (List.head?_reverse ▸ hp)
  obtain ⟨hNumeral, hBefore⟩ :=
    append_inj_of_stops (hDigits i) (hDigits j) hStops hStops' hReversed
  exact ⟨List.reverse_injective hBefore, numeral_injective (List.reverse_injective hNumeral)⟩

end Text

namespace Settings

variable (settings : Settings)

/-- Constructors of one rule have different names. -/
theorem constructorName_inj_index {rule : Text} {i j : Nat}
    (h : settings.constructorName rule i = settings.constructorName rule j) : i = j := by
  rw [constructorName_natCast, constructorName_natCast] at h
  exact Text.numeral_injective (List.append_cancel_left h)

/-- If the infix ends in something else than a digit, names of constructors collide only if their
rules have the same name in upper case. -/
theorem constructorName_inj (hInfix : settings.constructorInfix ≠ [])
    (hLast : ∀ p ∈ settings.constructorInfix.getLast?, p.isDigit = false) {rule other : Text}
    {i j : Nat} : settings.constructorName rule i = settings.constructorName other j ↔
      i = j ∧ rule.uppercase = other.uppercase := by
  have hStem : ∀ rule : Text, ∀ p ∈ (rule.uppercase ++ settings.constructorInfix).getLast?,
      p.isDigit = false := by
    intro rule p hp
    rw [List.getLast?_append_of_ne_nil _ hInfix] at hp
    exact hLast p hp
  rw [constructorName_natCast, constructorName_natCast]
  constructor
  · intro h
    obtain ⟨hStems, hIndex⟩ := Text.append_numeral_inj (hStem rule) (hStem other) h
    exact ⟨hIndex, List.append_cancel_right hStems⟩
  · rintro ⟨rfl, hUpper⟩
    rw [hUpper]

/-- An infix that ends in a digit takes part in the number. -/
example : constructorName { constructorInfix := "1" } "a" 10 =
    constructorName { constructorInfix := "1" } "a1" 0 := by decide

end Settings

/-! ## Constructors of a declaration -/

/-- The alternative with this number, in a declaration of a variant, has this name. -/
def TypeDecl.HasConstructor (decl : TypeDecl) (i : Nat) (name : Text) : Prop :=
  ∃ constructors c, decl.shape = .variant constructors ∧ constructors[i]? = some c ∧ c.name = name

/-- Constructors are numbered one after another. -/
theorem Shape.map_name_constructors (settings : Settings) (rule : Text) (payloads : List TypeExpr) :
    ∀ index, (constructors settings rule index payloads).map Constructor.name =
      (List.range' index payloads.length).map fun i : Nat => settings.constructorName rule i := by
  induction payloads with
  | nil => intro index; rfl
  | cons payload rest ih =>
      intro index
      rw [constructors, List.map_cons, ih, List.length_cons, List.range'_succ, List.map_cons]

/-- The constructors of a body that becomes a variant. -/
theorem Shape.exists_payloads_of_ofBody {settings : Settings} {rule : Text} {body : Expr}
    {alternatives : List Constructor}
    (h : ofBody settings rule body = .ok (.variant alternatives)) :
    ∃ payloads, alternatives = constructors settings rule 0 payloads := by
  cases formed_of_ofBody h with
  | choice hPayloads => exact ⟨_, rfl⟩

namespace TypeDecl

variable {settings : Settings} {rule : Rule} {decl : TypeDecl}

/-- The constructors of a declaration bear the name of the declaration and their numbers. -/
theorem names_constructors_of_ofRule (h : ofRule settings rule = .ok decl)
    {constructors : List Constructor} (hShape : decl.shape = .variant constructors) :
    constructors.map Constructor.name = (List.range constructors.length).map fun i : Nat =>
      settings.constructorName decl.name i := by
  rw [ofRule] at h
  split at h
  · rename_i shape hBody
    obtain rfl := Except.ok.inj h
    have hVariant : shape = .variant constructors := hShape
    rw [hVariant] at hBody
    obtain ⟨payloads, rfl⟩ := Shape.exists_payloads_of_ofBody hBody
    rw [Shape.map_name_constructors, Shape.length_constructors, List.range_eq_range']
  · exact absurd h (by simp)

theorem HasConstructor.name_eq (hDecl : ofRule settings rule = .ok decl) {i : Nat} {name : Text}
    (h : decl.HasConstructor i name) : name = settings.constructorName decl.name i := by
  obtain ⟨constructors, c, hShape, hConstructor, rfl⟩ := h
  have hNames := congrArg (·[i]?) (names_constructors_of_ofRule hDecl hShape)
  have hi := (List.getElem?_eq_some_iff.1 hConstructor).1
  simpa [hConstructor, List.getElem?_range hi] using hNames

end TypeDecl

/-! ## The block of a grammar -/

namespace Grammar

/-- Declarations of a grammar are declarations of rules. -/
theorem exists_ofRule_of_types {g : Grammar} {settings : Settings} {decls : List TypeDecl}
    (hTypes : g.types settings = .ok decls) :
    ∀ decl ∈ decls, ∃ rule, TypeDecl.ofRule settings rule = .ok decl := by
  intro decl hDecl
  rw [types] at hTypes
  split at hTypes
  · rename_i hoisted hHoisted
    rw [typesOfHoisted] at hTypes
    split at hTypes
    · obtain ⟨rule, -, hRule⟩ := (ofRule_of_typeDecls hTypes).2 decl hDecl
      exact ⟨rule, hRule⟩
    · exact absurd hTypes (by simp)
  · exact absurd hTypes (by simp)

/-- The names of the constructors in the block of a grammar. In one variant no two are the same. If
the infix is not empty and does not end in a digit, then two constructors anywhere in the block have
the same name exactly if they have the same number and the names of their rules are the same in
upper case. -/
theorem constructorNames_of_types {g : Grammar} {settings : Settings} {decls : List TypeDecl}
    (hTypes : g.types settings = .ok decls) :
    (∀ decl ∈ decls, ∀ constructors, decl.shape = .variant constructors →
      (constructors.map Constructor.name).Nodup) ∧
    (settings.constructorInfix ≠ [] →
      (∀ p ∈ settings.constructorInfix.getLast?, p.isDigit = false) →
      ∀ decl ∈ decls, ∀ other ∈ decls, ∀ i j name otherName, decl.HasConstructor i name →
        other.HasConstructor j otherName →
        (name = otherName ↔ i = j ∧ decl.name.uppercase = other.name.uppercase)) := by
  have hRules := exists_ofRule_of_types hTypes
  constructor
  · intro decl hDecl constructors hShape
    obtain ⟨rule, hRule⟩ := hRules decl hDecl
    rw [TypeDecl.names_constructors_of_ofRule hRule hShape]
    exact List.nodup_range.map fun _ _ hName => settings.constructorName_inj_index hName
  · intro hInfix hLast decl hDecl other hOther i j name otherName hName hOtherName
    obtain ⟨rule, hRule⟩ := hRules decl hDecl
    obtain ⟨otherRule, hOtherRule⟩ := hRules other hOther
    rw [hName.name_eq hRule, hOtherName.name_eq hOtherRule]
    exact settings.constructorName_inj hInfix hLast

/-- Two rules whose names differ in case, and one that is named like a constructor of theirs. -/
def shouting : Grammar where
  name := "shouting"
  root := "a"
  rules := [
    { name := "a", body := .choice [.symbol "A", .symbol "a_ctor_1"] },
    { name := "A", body := .choice [.blank, .symbol "a"] },
    { name := "a_ctor_1", body := .choice [.blank] }]
  extras := []

/-- The declarations of `shouting` in the order of the block. -/
def shouted : List TypeDecl := [
  ⟨"a", .variant [⟨"A_CTOR_0", .named "A"⟩, ⟨"A_CTOR_1", .named "a_ctor_1"⟩]⟩,
  ⟨"A", .variant [⟨"A_CTOR_0", .named "string"⟩, ⟨"A_CTOR_1", .named "a"⟩]⟩,
  ⟨"a_ctor_1", .variant [⟨"A_CTOR_1_CTOR_0", .named "string"⟩]⟩]

theorem types_shouting : shouting.types {} = .ok shouted := by
  have hHoist : shouting.hoist {} = .ok shouting := by decide +kernel
  have hRefs : References.ofGrammar shouting = .ok (References.collect shouting).graph := by
    decide +kernel
  have hOrder : shouting.emissionOrder (References.collect shouting).graph =
      ["a", "A", "a_ctor_1"] := by decide +kernel
  simp only [types, hHoist, typesOfHoisted, hRefs, hOrder]
  rfl

/-- In the block of `shouting` the second constructors of `a` and `A` collide. That of `a_ctor_1`
collides with none of `a`. -/
theorem constructorNames_of_types_shouting :
    shouting.types {} = .ok shouted ∧ ({} : Settings).constructorInfix ≠ [] ∧
      (∀ p ∈ ({} : Settings).constructorInfix.getLast?, p.isDigit = false) ∧
      (∃ name otherName, shouted[0].HasConstructor 1 name ∧
        shouted[1].HasConstructor 1 otherName ∧ name = otherName) ∧
      ∃ last, shouted[2].HasConstructor 0 last ∧
        ∀ i name, shouted[0].HasConstructor i name → name ≠ last := by
  have hSome : ({} : Settings).constructorInfix ≠ [] := by decide
  have hLast : ∀ p ∈ ({} : Settings).constructorInfix.getLast?, p.isDigit = false := by decide
  have hCollide := (constructorNames_of_types types_shouting).2 hSome hLast
  have hLower : shouted[0].HasConstructor 1 "A_CTOR_1" := ⟨_, _, rfl, rfl, rfl⟩
  have hUpper : shouted[1].HasConstructor 1 "A_CTOR_1" := ⟨_, _, rfl, rfl, rfl⟩
  have hThird : shouted[2].HasConstructor 0 "A_CTOR_1_CTOR_0" := ⟨_, _, rfl, rfl, rfl⟩
  refine ⟨types_shouting, hSome, hLast, ⟨_, _, hLower, hUpper, ?_⟩, _, hThird, ?_⟩
  · exact (hCollide _ (List.getElem_mem _) _ (List.getElem_mem _) 1 1 _ _ hLower hUpper).2
      ⟨rfl, by decide⟩
  · intro i name hName hSame
    have hRules := ((hCollide _ (List.getElem_mem _) _ (List.getElem_mem _) i 0 name _ hName
      hThird).1 hSame).2
    exact absurd hRules (by decide)

end Grammar

end TreeTypes
