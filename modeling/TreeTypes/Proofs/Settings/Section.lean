import TreeTypes.Proofs.Json.Keys
import TreeTypes.Proofs.Text.Order
import TreeTypes.Settings

/-!
# One group of settings

What a group accepts is said member by member: the key is that of a setting of
the group, and the value is one that this setting can be given. The flag takes
a truth value and no number, and every other setting takes a text that is not
empty. Reading a group agrees with that. It succeeds on what the group accepts,
the settings it names then have their new values, and all others are left alone.

What is refused is described without the functions that refuse. Unknown keys
are one ascending list, and a bad value has only good ones before it. Each
fault so described is what reading reports.

## Main results

* `Settings.of_assign_eq_ok`, `Settings.assign_eq_error_iff` — one setting.
* `Settings.readGroup_eq_error_iff` — the faults of a group.
* `Settings.exists_readGroup_of_admits`, `Settings.of_readGroup_eq_ok` — a group
  that is accepted, and what it sets.
-/

namespace TreeTypes

/-! ## Members under distinct keys -/

namespace Datum

/-- With distinct keys, looking up is membership. -/
theorem lookup_eq_some_iff {key : Text} {value : Datum} {members : List (Text × Datum)}
    (h : (members.map (·.1)).Nodup) :
    lookup key members = some value ↔ (key, value) ∈ members := by
  induction members with
  | nil => simp [lookup]
  | cons member rest ih =>
      obtain ⟨k, found⟩ := member
      rw [List.map_cons, List.nodup_cons] at h
      rw [lookup, List.mem_cons, Prod.mk.injEq]
      by_cases hKey : k = key
      · subst hKey
        have hRest : (k, value) ∉ rest := fun hMem => h.1 (List.mem_map.2 ⟨_, hMem, rfl⟩)
        simp [hRest, eq_comm]
      · rw [if_neg hKey, ih h.2]
        exact (or_iff_right fun hFirst => hKey hFirst.1.symm).symm

/-- With distinct keys, the order of the members does not matter. -/
theorem lookup_perm {key : Text} {members others : List (Text × Datum)}
    (h : (members.map (·.1)).Nodup) (hPerm : members.Perm others) :
    lookup key members = lookup key others := by
  have hOthers : (others.map (·.1)).Nodup := (hPerm.map _).nodup_iff.1 h
  refine Option.ext fun value => ?_
  rw [lookup_eq_some_iff h, lookup_eq_some_iff hOthers, hPerm.mem_iff]

theorem distinctKeys_perm {members others : List (Text × Datum)}
    (h : (object members).DistinctKeys) (hPerm : members.Perm others) :
    (object others).DistinctKeys := by
  refine ⟨(hPerm.map _).nodup_iff.1 h.1, distinctKeysMembers_iff.2 fun member hMember => ?_⟩
  exact distinctKeysMembers_iff.1 h.2 member (hPerm.mem_iff.2 hMember)

end Datum

namespace Settings

/-! ## What is accepted -/

/-- The value that a setting has, as a table would give it. -/
def value (settings : Settings) : Item → Datum
  | .stripPrecedence => .bool settings.stripPrecedence
  | .primitiveType => .text settings.primitiveType
  | .listType => .text settings.listType
  | .constructorInfix => .text settings.constructorInfix

/-- Settings are determined by the values of all of them. -/
theorem eq_of_value {settings others : Settings}
    (h : ∀ item, settings.value item = others.value item) : settings = others := by
  have hFlag := h .stripPrecedence
  have hPrimitive := h .primitiveType
  have hList := h .listType
  have hInfix := h .constructorInfix
  simp only [value, Datum.bool.injEq, Datum.text.injEq] at hFlag hPrimitive hList hInfix
  cases settings
  cases others
  simp_all

/-- What a setting can be given: a truth value or, in the output, a text that is not empty. -/
def Item.Suits (item : Item) (value : Datum) : Prop :=
  match item.group with
  | .grammar => ∃ flag, value = .bool flag
  | .output => ∃ text, value = .text text ∧ text ≠ []

/-- The group has a setting with the key. -/
def Group.Knows (group : Group) (key : Text) : Prop :=
  ∃ item : Item, item.group = group ∧ item.key = key

/-- The member gives a setting of the group a value that suits it. -/
def Group.Takes (group : Group) (member : Text × Datum) : Prop :=
  ∃ item : Item, item.group = group ∧ item.key = member.1 ∧ item.Suits member.2

/-- The datum is a table of which the group takes every member. -/
def Group.Admits (group : Group) (datum : Datum) : Prop :=
  ∃ members, datum = .object members ∧ ∀ member ∈ members, group.Takes member

theorem Group.Admits.perm {group : Group} {members others : List (Text × Datum)}
    (h : group.Admits (.object members)) (hPerm : members.Perm others) :
    group.Admits (.object others) := by
  obtain ⟨_, hSame, hTakes⟩ := h
  cases hSame
  exact ⟨others, rfl, fun member hMember => hTakes member (hPerm.mem_iff.2 hMember)⟩

/-! ## What is refused -/

/-- The fault of a value that does not suit a setting. -/
inductive Item.Refuses : Item → Datum → Fault → Prop
  | notTruth {item : Item} {value : Datum} (hItem : item.group = .grammar)
      (hKind : value.kind ≠ .bool) : Refuses item value (.wrongKind item .bool value.kind)
  | notText {item : Item} {value : Datum} (hItem : item.group = .output)
      (hKind : value.kind ≠ .text) : Refuses item value (.wrongKind item .text value.kind)
  | empty {item : Item} (hItem : item.group = .output) : Refuses item (.text []) (.emptyText item)

/-- The names are the keys of the table that are not known: all of them, ascending, and some. -/
structure AreStrangers (known : Text → Prop) (table : List (Text × Datum)) (names : List Text) :
    Prop where
  ne_nil : names ≠ []
  ascending : names.Pairwise Text.Precedes
  mem_iff : ∀ name, name ∈ names ↔ name ∈ table.map (·.1) ∧ ¬ known name

/--
The fault of a datum that a group does not admit: it is no table; else its
unknown keys; else the value of the first member that the group does not take.
-/
inductive Group.Refuses (group : Group) : Datum → Fault → Prop
  | notATable {datum : Datum} (hKind : datum.kind ≠ .object) :
      Refuses group datum (.notATable group)
  | unknownKeys {members : List (Text × Datum)} {keys : List Text}
      (hKeys : AreStrangers group.Knows members keys) :
      Refuses group (.object members) (.unknownKeys group keys)
  | badValue {before later : List (Text × Datum)} {item : Item} {value : Datum} {fault : Fault}
      (hItem : item.group = group)
      (hKnown : ∀ member ∈ before ++ (item.key, value) :: later, group.Knows member.1)
      (hBefore : ∀ member ∈ before, group.Takes member) (hFault : item.Refuses value fault) :
      Refuses group (.object (before ++ (item.key, value) :: later)) fault

/-! ## Names that are not known -/

section Strangers

variable {accepted : Text → Bool} {known : Text → Prop} {table : List (Text × Datum)}

theorem strangers_eq_iff (h : ∀ key, accepted key = true ↔ known key) {names : List Text} :
    strangers accepted table = names ↔
      names.Pairwise Text.Precedes ∧
        ∀ name, name ∈ names ↔ name ∈ table.map (·.1) ∧ ¬ known name := by
  have hMem : ∀ name, name ∈ (table.map (·.1)).filter (!accepted ·) ↔
      name ∈ table.map (·.1) ∧ ¬ known name := fun name => by
    rw [List.mem_filter, ← h, Bool.not_eq_true', Bool.not_eq_true]
  rw [strangers, Text.sorted_distinct_eq_iff]
  simp only [hMem]

theorem strangers_eq_nil_iff (h : ∀ key, accepted key = true ↔ known key) :
    strangers accepted table = [] ↔ ∀ member ∈ table, known member.1 := by
  rw [strangers_eq_iff h]
  simp only [List.Pairwise.nil, true_and, List.not_mem_nil, false_iff, not_and_not_right,
    List.forall_mem_map]

theorem areStrangers_iff (h : ∀ key, accepted key = true ↔ known key) {names : List Text} :
    AreStrangers known table names ↔ strangers accepted table = names ∧ names ≠ [] := by
  rw [strangers_eq_iff h]
  constructor
  · rintro ⟨hNe, hAscending, hMem⟩
    exact ⟨⟨hAscending, hMem⟩, hNe⟩
  · rintro ⟨⟨hAscending, hMem⟩, hNe⟩
    exact ⟨hNe, hAscending, hMem⟩

/-- All keys of a table are known, or the others can be listed. -/
theorem known_or_strangers (h : ∀ key, accepted key = true ↔ known key)
    (table : List (Text × Datum)) :
    (∀ member ∈ table, known member.1) ∨ ∃ names, AreStrangers known table names := by
  by_cases hNone : strangers accepted table = []
  · exact .inl ((strangers_eq_nil_iff h).1 hNone)
  · exact .inr ⟨_, (areStrangers_iff h).2 ⟨rfl, hNone⟩⟩

end Strangers

/-! ## One setting -/

theorem find?_eq_some_iff {group : Group} {key : Text} {item : Item} :
    Item.find? group key = some item ↔ item.group = group ∧ item.key = key := by
  constructor
  · intro h
    simpa using List.find?_some h
  · rintro ⟨rfl, rfl⟩
    cases item <;> rfl

/-- In a group, a setting is determined by its key. -/
theorem eq_of_key {item other : Item} (hGroup : item.group = other.group)
    (hKey : item.key = other.key) : item = other :=
  Option.some.inj ((find?_eq_some_iff.2 ⟨hGroup, hKey⟩).symm.trans (find?_eq_some_iff.2 ⟨rfl, rfl⟩))

theorem isSome_find?_iff (group : Group) (key : Text) :
    (Item.find? group key).isSome = true ↔ group.Knows key := by
  rw [Option.isSome_iff_exists]
  exact exists_congr fun _ => find?_eq_some_iff

theorem truth_of_kind_ne {item : Item} {value : Datum} (h : value.kind ≠ .bool) :
    truth item value = .error (.wrongKind item .bool value.kind) := by
  cases value with
  | bool flag => exact absurd rfl h
  | _ => rfl

theorem nonEmptyText_of_kind_ne {item : Item} {value : Datum} (h : value.kind ≠ .text) :
    nonEmptyText item value = .error (.wrongKind item .text value.kind) := by
  cases value with
  | text given => exact absurd rfl h
  | _ => rfl

/-- A value suits a setting, or there is a fault that says why not. -/
theorem suits_or_refuses (item : Item) (value : Datum) :
    item.Suits value ∨ ∃ fault, item.Refuses value fault := by
  unfold Item.Suits
  cases hItem : item.group with
  | grammar =>
      by_cases hKind : value.kind = .bool
      · cases value with
        | bool flag => exact .inl ⟨flag, rfl⟩
        | _ => cases hKind
      · exact .inr ⟨_, .notTruth hItem hKind⟩
  | output =>
      by_cases hKind : value.kind = .text
      · cases value with
        | text given =>
            by_cases hEmpty : given = []
            · subst hEmpty
              exact .inr ⟨_, .empty hItem⟩
            · exact .inl ⟨given, rfl, hEmpty⟩
        | _ => cases hKind
      · exact .inr ⟨_, .notText hItem hKind⟩

/-- A suitable value becomes that of its setting and of no other. -/
theorem exists_assign_of_suits (settings : Settings) {item : Item} {value : Datum}
    (h : item.Suits value) :
    ∃ changed, settings.assign item value = .ok changed ∧
      ∀ other, changed.value other = if other = item then value else settings.value other := by
  cases item with
  | stripPrecedence =>
      obtain ⟨flag, rfl⟩ := h
      exact ⟨{ settings with stripPrecedence := flag }, rfl, fun other => by cases other <;> rfl⟩
  | primitiveType =>
      obtain ⟨text, rfl, hText⟩ := h
      refine ⟨{ settings with primitiveType := text }, ?_, fun other => by cases other <;> rfl⟩
      rw [assign, nonEmptyText, if_neg hText]
      rfl
  | listType =>
      obtain ⟨text, rfl, hText⟩ := h
      refine ⟨{ settings with listType := text }, ?_, fun other => by cases other <;> rfl⟩
      rw [assign, nonEmptyText, if_neg hText]
      rfl
  | constructorInfix =>
      obtain ⟨text, rfl, hText⟩ := h
      refine ⟨{ settings with constructorInfix := text }, ?_, fun other => by cases other <;> rfl⟩
      rw [assign, nonEmptyText, if_neg hText]
      rfl

theorem assign_of_refuses (settings : Settings) {item : Item} {value : Datum} {fault : Fault}
    (h : item.Refuses value fault) : settings.assign item value = .error fault := by
  cases h with
  | notTruth hItem hKind =>
      cases item with
      | stripPrecedence => rw [assign, truth_of_kind_ne hKind]; rfl
      | _ => cases hItem
  | notText hItem hKind =>
      cases item with
      | stripPrecedence => cases hItem
      | _ => rw [assign, nonEmptyText_of_kind_ne hKind]; rfl
  | empty hItem =>
      cases item with
      | stripPrecedence => cases hItem
      | _ => rfl

theorem assign_eq_error_iff {settings : Settings} {item : Item} {value : Datum} {fault : Fault} :
    settings.assign item value = .error fault ↔ item.Refuses value fault := by
  refine ⟨fun h => ?_, assign_of_refuses settings⟩
  obtain hSuits | ⟨found, hFound⟩ := suits_or_refuses item value
  · obtain ⟨changed, hChanged, -⟩ := exists_assign_of_suits settings hSuits
    cases h.symm.trans hChanged
  · cases h.symm.trans (assign_of_refuses settings hFound)
    exact hFound

theorem of_assign_eq_ok {settings changed : Settings} {item : Item} {value : Datum}
    (h : settings.assign item value = .ok changed) :
    item.Suits value ∧
      ∀ other, changed.value other = if other = item then value else settings.value other := by
  obtain hSuits | ⟨fault, hFault⟩ := suits_or_refuses item value
  · obtain ⟨found, hFound, hValue⟩ := exists_assign_of_suits settings hSuits
    cases h.symm.trans hFound
    exact ⟨hSuits, hValue⟩
  · cases h.symm.trans (assign_of_refuses settings hFault)

/-! ## The settings of a group -/

section Members

variable {group : Group} {settings : Settings}

theorem assignAll_cons_of_ok {item : Item} {value : Datum} {rest : List (Text × Datum)}
    {next : Settings} (hItem : item.group = group) (h : settings.assign item value = .ok next) :
    assignAll group settings ((item.key, value) :: rest) = assignAll group next rest := by
  simp only [assignAll, find?_eq_some_iff.2 ⟨hItem, rfl⟩, h]

theorem assignAll_cons_of_error {item : Item} {value : Datum} {rest : List (Text × Datum)}
    {fault : Fault} (hItem : item.group = group) (h : settings.assign item value = .error fault) :
    assignAll group settings ((item.key, value) :: rest) = .error fault := by
  simp only [assignAll, find?_eq_some_iff.2 ⟨hItem, rfl⟩, h]

/-- Members that the group takes are assigned, and what follows them is read after that. -/
theorem exists_assignAll_append (settings : Settings) {before : List (Text × Datum)}
    (h : ∀ member ∈ before, group.Takes member) :
    ∃ changed, ∀ later,
      assignAll group settings (before ++ later) = assignAll group changed later := by
  induction before generalizing settings with
  | nil => exact ⟨settings, fun _ => rfl⟩
  | cons member rest ih =>
      obtain ⟨hFirst, hRest⟩ := List.forall_mem_cons.1 h
      obtain ⟨key, value⟩ := member
      obtain ⟨item, hItem, rfl, hSuits⟩ := hFirst
      obtain ⟨next, hNext, -⟩ := exists_assign_of_suits settings hSuits
      obtain ⟨changed, hChanged⟩ := ih next hRest
      refine ⟨changed, fun later => ?_⟩
      rw [List.cons_append, assignAll_cons_of_ok hItem hNext, hChanged later]

/-- If some known member is refused, there is a first one, and it is refused with that fault. -/
theorem exists_refused_of_assignAll {members : List (Text × Datum)} {fault : Fault}
    (hKnown : ∀ member ∈ members, group.Knows member.1)
    (h : assignAll group settings members = .error fault) :
    ∃ before item value later, members = before ++ (Item.key item, value) :: later ∧
      item.group = group ∧ (∀ member ∈ before, group.Takes member) ∧ item.Refuses value fault := by
  induction members generalizing settings with
  | nil => cases h
  | cons member rest ih =>
      obtain ⟨hFirst, hRest⟩ := List.forall_mem_cons.1 hKnown
      obtain ⟨key, value⟩ := member
      obtain ⟨item, hItem, rfl⟩ := hFirst
      cases hAssign : settings.assign item value with
      | ok next =>
          obtain ⟨hSuits, -⟩ := of_assign_eq_ok hAssign
          rw [assignAll_cons_of_ok hItem hAssign] at h
          obtain ⟨before, bad, found, later, rfl, hBad, hBefore, hFault⟩ := ih hRest h
          refine ⟨(item.key, value) :: before, bad, found, later, rfl, hBad, ?_, hFault⟩
          exact List.forall_mem_cons.2 ⟨⟨item, hItem, rfl, hSuits⟩, hBefore⟩
      | error found =>
          cases h.symm.trans (assignAll_cons_of_error hItem hAssign)
          exact ⟨[], item, value, rest, rfl, hItem, by simp, assign_eq_error_iff.1 hAssign⟩

/--
Members that are all assigned are taken by the group, and change the settings
that they name. The keys are distinct, so that no member is assigned twice.
-/
theorem of_assignAll_eq_ok {members : List (Text × Datum)} {changed : Settings}
    (hKnown : ∀ member ∈ members, group.Knows member.1) (hKeys : (members.map (·.1)).Nodup)
    (h : assignAll group settings members = .ok changed) :
    (∀ member ∈ members, group.Takes member) ∧
      ∀ item : Item, changed.value item =
        (if item.group = group then Datum.lookup item.key members else none).getD
          (settings.value item) := by
  induction members generalizing settings with
  | nil =>
      cases h
      simp [Datum.lookup]
  | cons member rest ih =>
      obtain ⟨hFirst, hRest⟩ := List.forall_mem_cons.1 hKnown
      obtain ⟨key, value⟩ := member
      obtain ⟨item, hItem, rfl⟩ := hFirst
      rw [List.map_cons, List.nodup_cons] at hKeys
      cases hAssign : settings.assign item value with
      | ok next =>
          obtain ⟨hSuits, hNext⟩ := of_assign_eq_ok hAssign
          rw [assignAll_cons_of_ok hItem hAssign] at h
          obtain ⟨hTakes, hValue⟩ := ih hRest hKeys.2 h
          refine ⟨List.forall_mem_cons.2 ⟨⟨item, hItem, rfl, hSuits⟩, hTakes⟩, fun other => ?_⟩
          rw [hValue other, hNext other, Datum.lookup]
          -- Looking up stops at the first member, assigning goes on: no later one has its key.
          by_cases hSame : other = item
          · subst hSame
            rw [Datum.lookup_eq_none_iff.2 hKeys.1]
            simp [hItem]
          · by_cases hOther : other.group = group
            · have hKey : item.key ≠ other.key := fun hKey =>
                hSame (eq_of_key (hItem.trans hOther.symm) hKey).symm
              simp [hSame, hOther, hKey]
            · simp [hSame, hOther]
      | error found => cases h.symm.trans (assignAll_cons_of_error hItem hAssign)

end Members

/-! ## One group -/

section Group

variable {group : Group} {settings : Settings} {members : List (Text × Datum)}

theorem readGroup_of_known (hKnown : ∀ member ∈ members, group.Knows member.1) :
    readGroup group settings (some (.object members)) = assignAll group settings members := by
  rw [readGroup, (strangers_eq_nil_iff (isSome_find?_iff group)).2 hKnown]

theorem readGroup_of_strangers {keys : List Text} (h : AreStrangers group.Knows members keys) :
    readGroup group settings (some (.object members)) = .error (.unknownKeys group keys) := by
  obtain ⟨hStrangers, hNe⟩ := (areStrangers_iff (isSome_find?_iff group)).1 h
  rw [readGroup, hStrangers]
  cases keys with
  | nil => exact absurd rfl hNe
  | cons => rfl

theorem readGroup_of_kind_ne {datum : Datum} (h : datum.kind ≠ .object) :
    readGroup group settings (some datum) = .error (.notATable group) := by
  cases datum with
  | object members => exact absurd rfl h
  | _ => rfl

/-- A datum is a table with known keys, or it is refused whatever the values in it are. -/
theorem known_or_refused (group : Group) (datum : Datum) :
    (∃ members, datum = .object members ∧ ∀ member ∈ members, group.Knows member.1) ∨
      ∃ fault, group.Refuses datum fault ∧
        ∀ settings, readGroup group settings (some datum) = .error fault := by
  by_cases hKind : datum.kind = .object
  · cases datum with
    | object members =>
        obtain hKnown | ⟨keys, hKeys⟩ := known_or_strangers (isSome_find?_iff group) members
        · exact .inl ⟨members, rfl, hKnown⟩
        · exact .inr ⟨_, .unknownKeys hKeys, fun _ => readGroup_of_strangers hKeys⟩
    | _ => cases hKind
  · exact .inr ⟨_, .notATable hKind, fun _ => readGroup_of_kind_ne hKind⟩

/-- The faults of a group are those that reading it reports. -/
theorem readGroup_eq_error_iff {datum : Datum} {fault : Fault} :
    readGroup group settings (some datum) = .error fault ↔ group.Refuses datum fault := by
  constructor
  · intro h
    obtain ⟨members, rfl, hKnown⟩ | ⟨found, hFound, hRead⟩ := known_or_refused group datum
    · rw [readGroup_of_known hKnown] at h
      obtain ⟨before, item, value, later, rfl, hItem, hBefore, hFault⟩ :=
        exists_refused_of_assignAll hKnown h
      exact .badValue hItem hKnown hBefore hFault
    · cases h.symm.trans (hRead settings)
      exact hFound
  · intro h
    cases h with
    | notATable hKind => exact readGroup_of_kind_ne hKind
    | unknownKeys hKeys => exact readGroup_of_strangers hKeys
    | badValue hItem hKnown hBefore hFault =>
        obtain ⟨changed, hChanged⟩ := exists_assignAll_append settings hBefore
        rw [readGroup_of_known hKnown, hChanged,
          assignAll_cons_of_error hItem (assign_of_refuses changed hFault)]

/-- The value of a key in a datum, if this is there and a table. -/
def entry? (key : Text) : Option Datum → Option Datum
  | some (.object members) => Datum.lookup key members
  | _ => none

theorem exists_readGroup_of_admits {datum : Datum} (h : group.Admits datum) :
    ∃ changed, readGroup group settings (some datum) = .ok changed := by
  obtain ⟨members, rfl, hMembers⟩ := h
  have hKnown : ∀ member ∈ members, group.Knows member.1 := fun member hMember => by
    obtain ⟨item, hItem, hKey, -⟩ := hMembers member hMember
    exact ⟨item, hItem, hKey⟩
  obtain ⟨changed, hChanged⟩ := exists_assignAll_append settings hMembers
  refine ⟨changed, ?_⟩
  rw [readGroup_of_known hKnown, ← List.append_nil members, hChanged, assignAll]

/-- A group that is read admits what it was given, and what it sets has the values given. -/
theorem of_readGroup_eq_ok {datum : Datum} {changed : Settings} (hKeys : datum.DistinctKeys)
    (h : readGroup group settings (some datum) = .ok changed) :
    group.Admits datum ∧
      ∀ item : Item, changed.value item =
        (if item.group = group then entry? item.key (some datum) else none).getD
          (settings.value item) := by
  obtain ⟨members, rfl, hKnown⟩ | ⟨fault, -, hRead⟩ := known_or_refused group datum
  · rw [readGroup_of_known hKnown] at h
    obtain ⟨hTakes, hValue⟩ := of_assignAll_eq_ok hKnown hKeys.1 h
    exact ⟨⟨members, rfl, hTakes⟩, hValue⟩
  · cases h.symm.trans (hRead settings)

end Group

end Settings

end TreeTypes
