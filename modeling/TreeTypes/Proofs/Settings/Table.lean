import TreeTypes.Diagnostic
import TreeTypes.Proofs.Settings.Section

/-!
# Tables of settings

A table is accepted exactly if each of its members is a group's name with a
section that this group admits. Missing groups and settings are no obstacle:
they keep their defaults, and what is given replaces them. The order in which
sections and keys stand does not show in the settings.

Every other table is refused with one fault, and which one is a property of
the table alone: all names that no group has, else what is wrong with the
section about the grammar, and only then what is wrong with the output.

## Main results

* `Settings.exists_ofTable_of_admissible`, `Settings.of_ofTable_eq_ok` — which
  tables are accepted, and what they say.
* `Settings.ofTable_eq_error_iff` — the faults.
* `Settings.ofTable_outcome` — all of these, and that order does not matter.
-/

namespace TreeTypes

namespace Settings

/-! ## What is accepted, given and refused -/

/-- Some group has the name. -/
def IsGroup (name : Text) : Prop := ∃ group : Group, group.name = name

/-- Each member is the name of a group with a section that the group admits. -/
def Admissible (table : List (Text × Datum)) : Prop :=
  ∀ member ∈ table, ∃ group : Group, group.name = member.1 ∧ group.Admits member.2

/-- The value that a table gives a setting, if it has the group and this has the key. -/
def given? (table : List (Text × Datum)) (item : Item) : Option Datum :=
  entry? item.key (Datum.lookup item.group.name table)

/--
The fault of a table that is not admissible: names that no group has; else a
fault of the section about the grammar; else one of the section about the output.
-/
inductive Refuses (table : List (Text × Datum)) : Fault → Prop
  | unknownGroups {names : List Text} (hNames : AreStrangers IsGroup table names) :
      Refuses table (.unknownGroups names)
  | grammar {datum : Datum} {fault : Fault} (hKnown : ∀ member ∈ table, IsGroup member.1)
      (hDatum : (Group.grammar.name, datum) ∈ table)
      (hFault : Group.grammar.Refuses datum fault) : Refuses table fault
  | output {datum : Datum} {fault : Fault} (hKnown : ∀ member ∈ table, IsGroup member.1)
      (hGrammar : ∀ datum, (Group.grammar.name, datum) ∈ table → Group.grammar.Admits datum)
      (hDatum : (Group.output.name, datum) ∈ table)
      (hFault : Group.output.Refuses datum fault) : Refuses table fault

/-- The same sections with the same keys and values, the sections and the keys in any order. -/
inductive Rearranged : List (Text × Datum) → List (Text × Datum) → Prop
  | sections {table other : List (Text × Datum)} (h : table.Perm other) : Rearranged table other
  | keys {before after members others : List (Text × Datum)} {name : Text}
      (h : members.Perm others) :
      Rearranged (before ++ (name, .object members) :: after)
        (before ++ (name, .object others) :: after)
  | trans {table other third : List (Text × Datum)} (h : Rearranged table other)
      (hNext : Rearranged other third) : Rearranged table third

/-! ## One group of a table -/

section Lookup

variable {group : Group} {settings : Settings} {table : List (Text × Datum)}

theorem readGroup_lookup_eq_error_iff (hKeys : (Datum.object table).DistinctKeys) {fault : Fault} :
    readGroup group settings (Datum.lookup group.name table) = .error fault ↔
      ∃ datum, (group.name, datum) ∈ table ∧ group.Refuses datum fault := by
  simp only [← Datum.lookup_eq_some_iff hKeys.1]
  cases hFound : Datum.lookup group.name table with
  | none => simp [readGroup]
  | some datum => simp [readGroup_eq_error_iff]

theorem exists_readGroup_lookup (hKeys : (Datum.object table).DistinctKeys)
    (h : ∀ datum, (group.name, datum) ∈ table → group.Admits datum) (settings : Settings) :
    ∃ changed, readGroup group settings (Datum.lookup group.name table) = .ok changed := by
  cases hFound : Datum.lookup group.name table with
  | none => exact ⟨settings, rfl⟩
  | some datum =>
      exact exists_readGroup_of_admits (h datum ((Datum.lookup_eq_some_iff hKeys.1).1 hFound))

theorem of_readGroup_lookup_eq_ok (hKeys : (Datum.object table).DistinctKeys) {changed : Settings}
    (h : readGroup group settings (Datum.lookup group.name table) = .ok changed) :
    (∀ datum, (group.name, datum) ∈ table → group.Admits datum) ∧
      ∀ item : Item, changed.value item =
        (if item.group = group then given? table item else none).getD (settings.value item) := by
  simp only [← Datum.lookup_eq_some_iff hKeys.1]
  cases hFound : Datum.lookup group.name table with
  | none =>
      rw [hFound] at h
      cases h
      refine ⟨by simp, fun item => ?_⟩
      split
      · rename_i hItem
        simp [given?, hItem, hFound, entry?]
      · rfl
  | some datum =>
      rw [hFound] at h
      obtain ⟨hAdmits, hValue⟩ := of_readGroup_eq_ok (Datum.distinctKeys_of_lookup hKeys hFound) h
      refine ⟨fun _ hSame => Option.some.inj hSame ▸ hAdmits, fun item => ?_⟩
      rw [hValue item]
      split
      · rename_i hItem
        rw [given?, hItem, hFound]
      · rfl

end Lookup

/-! ## The whole table -/

section Table

variable {table : List (Text × Datum)}

theorem isGroup_iff (name : Text) :
    decide (name = Group.grammar.name ∨ name = Group.output.name) = true ↔ IsGroup name := by
  rw [decide_eq_true_iff]
  constructor
  · rintro (rfl | rfl)
    · exact ⟨.grammar, rfl⟩
    · exact ⟨.output, rfl⟩
  · rintro ⟨group, rfl⟩
    cases group
    · exact .inl rfl
    · exact .inr rfl

theorem ofTable_of_grammar_ok (hKnown : ∀ member ∈ table, IsGroup member.1) {first : Settings}
    (h : readGroup .grammar {} (Datum.lookup Group.grammar.name table) = .ok first) :
    ofTable table = readGroup .output first (Datum.lookup Group.output.name table) := by
  simp only [ofTable, (strangers_eq_nil_iff isGroup_iff).2 hKnown, h]

theorem ofTable_of_grammar_error (hKnown : ∀ member ∈ table, IsGroup member.1) {fault : Fault}
    (h : readGroup .grammar {} (Datum.lookup Group.grammar.name table) = .error fault) :
    ofTable table = .error fault := by
  simp only [ofTable, (strangers_eq_nil_iff isGroup_iff).2 hKnown, h]

theorem ofTable_of_strangers {names : List Text} (h : AreStrangers IsGroup table names) :
    ofTable table = .error (.unknownGroups names) := by
  obtain ⟨hStrangers, hNe⟩ := (areStrangers_iff isGroup_iff).1 h
  rw [ofTable, hStrangers]
  cases names with
  | nil => exact absurd rfl hNe
  | cons => rfl

/-- The faults of a table are those that reading it reports. -/
theorem ofTable_eq_error_iff (hKeys : (Datum.object table).DistinctKeys) {fault : Fault} :
    ofTable table = .error fault ↔ Refuses table fault := by
  constructor
  · intro h
    obtain hKnown | ⟨names, hNames⟩ := known_or_strangers isGroup_iff table
    · cases hGrammar : readGroup .grammar {} (Datum.lookup Group.grammar.name table) with
      | ok settings =>
          rw [ofTable_of_grammar_ok hKnown hGrammar] at h
          obtain ⟨hAdmits, -⟩ := of_readGroup_lookup_eq_ok hKeys hGrammar
          obtain ⟨datum, hDatum, hFault⟩ := (readGroup_lookup_eq_error_iff hKeys).1 h
          exact .output hKnown hAdmits hDatum hFault
      | error found =>
          cases h.symm.trans (ofTable_of_grammar_error hKnown hGrammar)
          obtain ⟨datum, hDatum, hFault⟩ := (readGroup_lookup_eq_error_iff hKeys).1 hGrammar
          exact .grammar hKnown hDatum hFault
    · cases h.symm.trans (ofTable_of_strangers hNames)
      exact .unknownGroups hNames
  · intro h
    cases h with
    | unknownGroups hNames => exact ofTable_of_strangers hNames
    | grammar hKnown hDatum hFault =>
        exact ofTable_of_grammar_error hKnown
          ((readGroup_lookup_eq_error_iff hKeys).2 ⟨_, hDatum, hFault⟩)
    | output hKnown hGrammar hDatum hFault =>
        obtain ⟨settings, hSettings⟩ := exists_readGroup_lookup hKeys hGrammar {}
        rw [ofTable_of_grammar_ok hKnown hSettings]
        exact (readGroup_lookup_eq_error_iff hKeys).2 ⟨_, hDatum, hFault⟩

/-- A table that is read is admissible, and every setting is as given or has its default. -/
theorem of_ofTable_eq_ok (hKeys : (Datum.object table).DistinctKeys) {settings : Settings}
    (h : ofTable table = .ok settings) :
    Admissible table ∧
      ∀ item, settings.value item = (given? table item).getD (({} : Settings).value item) := by
  obtain hKnown | ⟨names, hNames⟩ := known_or_strangers isGroup_iff table
  · cases hRead : readGroup .grammar {} (Datum.lookup Group.grammar.name table) with
    | ok first =>
        rw [ofTable_of_grammar_ok hKnown hRead] at h
        obtain ⟨hGrammar, hFirst⟩ := of_readGroup_lookup_eq_ok hKeys hRead
        obtain ⟨hOutput, hSecond⟩ := of_readGroup_lookup_eq_ok hKeys h
        constructor
        · rintro ⟨name, datum⟩ hMember
          obtain ⟨group, rfl⟩ := hKnown _ hMember
          cases group with
          | grammar => exact ⟨.grammar, rfl, hGrammar datum hMember⟩
          | output => exact ⟨.output, rfl, hOutput datum hMember⟩
        · intro item
          rw [hSecond, hFirst]
          cases hItem : item.group <;> simp
    | error found => cases h.symm.trans (ofTable_of_grammar_error hKnown hRead)
  · cases h.symm.trans (ofTable_of_strangers hNames)

theorem name_injective : Function.Injective Group.name := by
  intro group other h
  cases group <;> cases other <;> first | rfl | exact absurd h (by decide)

theorem exists_ofTable_of_admissible (hKeys : (Datum.object table).DistinctKeys)
    (h : Admissible table) : ∃ settings, ofTable table = .ok settings := by
  have hKnown : ∀ member ∈ table, IsGroup member.1 := fun member hMember => by
    obtain ⟨group, hName, -⟩ := h member hMember
    exact ⟨group, hName⟩
  have hAdmits : ∀ group : Group, ∀ datum, (group.name, datum) ∈ table → group.Admits datum := by
    intro group datum hMember
    obtain ⟨other, hName, hOther⟩ := h _ hMember
    exact name_injective hName ▸ hOther
  obtain ⟨first, hFirst⟩ := exists_readGroup_lookup hKeys (hAdmits .grammar) {}
  obtain ⟨settings, hSettings⟩ := exists_readGroup_lookup hKeys (hAdmits .output) first
  exact ⟨settings, (ofTable_of_grammar_ok hKnown hFirst).trans hSettings⟩

end Table

/-! ## The order of sections and keys -/

section Order

variable {table other : List (Text × Datum)}

theorem Rearranged.distinctKeys (h : Rearranged table other)
    (hKeys : (Datum.object table).DistinctKeys) : (Datum.object other).DistinctKeys := by
  induction h with
  | sections h => exact Datum.distinctKeys_perm hKeys h
  | keys h =>
      obtain ⟨hNames, hValues⟩ := hKeys
      refine ⟨by simpa using hNames, ?_⟩
      rw [Datum.distinctKeysMembers_iff, List.forall_mem_append, List.forall_mem_cons] at hValues ⊢
      exact ⟨hValues.1, Datum.distinctKeys_perm hValues.2.1 h, hValues.2.2⟩
  | trans _ _ ihFirst ihNext => exact ihNext (ihFirst hKeys)

theorem Rearranged.admissible (h : Rearranged table other) (hTable : Admissible table) :
    Admissible other := by
  induction h with
  | sections h => exact fun member hMember => hTable member (h.mem_iff.2 hMember)
  | keys h =>
      unfold Admissible at *
      rw [List.forall_mem_append, List.forall_mem_cons] at hTable ⊢
      obtain ⟨hBefore, ⟨group, hName, hAdmits⟩, hAfter⟩ := hTable
      exact ⟨hBefore, ⟨group, hName, hAdmits.perm h⟩, hAfter⟩
  | trans _ _ ihFirst ihNext => exact ihNext (ihFirst hTable)

/-- What is found under a key of a section does not depend on the order. -/
theorem Rearranged.given?_eq (h : Rearranged table other)
    (hKeys : (Datum.object table).DistinctKeys) (item : Item) :
    given? other item = given? table item := by
  induction h with
  | sections h => rw [given?, given?, Datum.lookup_perm hKeys.1 h]
  | @keys before after members others name h =>
      have hMembers : (members.map (·.1)).Nodup :=
        (Datum.distinctKeysMembers_iff.1 hKeys.2 (name, .object members) (by simp)).1
      clear hKeys
      -- The section that changed is found under its own name or not at all.
      induction before with
      | nil =>
          simp only [given?, List.nil_append, Datum.lookup]
          split
          · exact (Datum.lookup_perm hMembers h).symm
          · rfl
      | cons member rest ih =>
          simp only [given?, List.cons_append, Datum.lookup] at ih ⊢
          split
          · rfl
          · exact ih
  | trans hFirst _ ihFirst ihNext =>
      rw [ihNext (hFirst.distinctKeys hKeys), ihFirst hKeys]

/-- Sections and keys in another order give the same settings. -/
theorem Rearranged.ofTable_eq_ok (h : Rearranged table other)
    (hKeys : (Datum.object table).DistinctKeys) {settings : Settings}
    (hTable : ofTable table = .ok settings) : ofTable other = .ok settings := by
  obtain ⟨hAdmissible, hValue⟩ := of_ofTable_eq_ok hKeys hTable
  have hOther := h.distinctKeys hKeys
  obtain ⟨found, hFound⟩ := exists_ofTable_of_admissible hOther (h.admissible hAdmissible)
  have hSame : found = settings := eq_of_value fun item => by
    rw [(of_ofTable_eq_ok hOther hFound).2, h.given?_eq hKeys, hValue]
  rw [hFound, hSame]

end Order

/-! ## Every table -/

/--
A table is read exactly if it is admissible. Then each setting has the value
that the table gives it, or its default if it gives none, and the order of the
sections and of the keys does not matter. Any other table is refused with the
fault that it has, as a diagnostic about the settings.
-/
theorem ofTable_outcome {table : List (Text × Datum)} (hKeys : (Datum.object table).DistinctKeys) :
    ((∃ settings, ofTable table = .ok settings) ↔ Admissible table) ∧
      (∀ settings, ofTable table = .ok settings →
        (∀ item, settings.value item = (given? table item).getD (({} : Settings).value item)) ∧
          ∀ other, Rearranged table other → ofTable other = .ok settings) ∧
      (∀ fault, ofTable table = .error fault ↔ Refuses table fault) ∧
      ∀ source fault, (Cause.unsuitableSettings source fault).kind = .settings := by
  refine ⟨⟨?_, exists_ofTable_of_admissible hKeys⟩, ?_, fun _ => ofTable_eq_error_iff hKeys,
    fun _ _ => rfl⟩
  · rintro ⟨settings, h⟩
    exact (of_ofTable_eq_ok hKeys h).1
  · intro settings h
    exact ⟨(of_ofTable_eq_ok hKeys h).2, fun other hOther => hOther.ofTable_eq_ok hKeys h⟩

/-- A table with the output first that leaves two settings out. -/
def sparse : List (Text × Datum) :=
  [("output", .object [("list_type", .text "seq")]),
    ("grammar", .object [("strip_precedence", .bool true)])]

/-- A table with two bad values in the output and a number in place of the flag. -/
def crowded : List (Text × Datum) :=
  [("output", .object [("list_type", .text []), ("primitive_type", .int 1)]),
    ("grammar", .object [("strip_precedence", .int 1)])]

/-- One table is read in any order; of the three faults of the other, the grammar's is reported. -/
theorem ofTable_outcome_sparse_crowded :
    (Datum.object sparse).DistinctKeys ∧ (Datum.object crowded).DistinctKeys ∧
      Admissible sparse ∧
      (∀ other, Rearranged sparse other →
        ofTable other = .ok { stripPrecedence := true, listType := "seq" }) ∧
      ¬ Admissible crowded ∧ Refuses crowded (.wrongKind .stripPrecedence .bool .int) := by
  have hSparse : (Datum.object sparse).DistinctKeys :=
    ⟨by decide, ⟨by decide, trivial, trivial⟩, ⟨by decide, trivial, trivial⟩, trivial⟩
  have hCrowded : (Datum.object crowded).DistinctKeys :=
    ⟨by decide, ⟨by decide, trivial, trivial, trivial⟩, ⟨by decide, trivial, trivial⟩, trivial⟩
  have hRead : ofTable sparse = .ok { stripPrecedence := true, listType := "seq" } := by cbv
  have hRefused : ofTable crowded = .error (.wrongKind .stripPrecedence .bool .int) := by cbv
  obtain ⟨hAdmissible, hOk, -, -⟩ := ofTable_outcome hSparse
  obtain ⟨hIff, -, hError, -⟩ := ofTable_outcome hCrowded
  refine ⟨hSparse, hCrowded, hAdmissible.1 ⟨_, hRead⟩, (hOk _ hRead).2, ?_, (hError _).1 hRefused⟩
  intro h
  obtain ⟨settings, hFound⟩ := hIff.2 h
  cases hFound.symm.trans hRefused

end Settings

end TreeTypes
