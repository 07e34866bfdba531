import TreeTypes.Proofs.Expr.Decoding

/-!
# Which fault is reported

A body may have many faults at once, of two sorts and at any depth, and one of
them is reported. The scan comes first: it reports the first node, in
pre-order, that it cannot take, even if an earlier node lacks its name or its
value. Only a body whose nodes all pass is checked, and then the question is
no longer where a fault stands but whether there is one.

Both sorts are stated here for a single node. `Body.Refuses` has one
constructor for each reason to stop the scan, with the failure that it gives,
in terms of the tags as they are spelled. `Datum.Incomplete` and
`Datum.Garbled` say what the check finds wrong; besides, no node may stand
inside too many others. No position is skipped: a body is decoded exactly if
none of this is true of any node at the places that are looked at
(`Expr.exists_decode_iff`).

## Main definitions

* `Body.Refuses` — the scan stops at a node, and how it fails.
* `Datum.Incomplete`, `Datum.Garbled` — what the check finds wrong with a node.

## Main results

* `Body.fault_eq_some_iff` — the scan stops for the stated reasons only.
* `Expr.exists_decode_iff` — when a body is decoded, node by node.
* `Expr.decode_first_fault` — which fault is reported.
* `Expr.decode_garbled` — a text that is there and not empty can be a fault.
-/

namespace TreeTypes

/-! ## Tags by their spelling -/

/-- The tags of the nodes that stand for expressions. -/
def modelledTags : List Text :=
  ["SYMBOL", "STRING", "PATTERN", "BLANK", "SEQ", "CHOICE", "REPEAT", "REPEAT1"]

/-- The tags of the constructs that are known but not modelled. -/
def foreignTags : List Text := ["FIELD", "ALIAS", "TOKEN", "IMMEDIATE_TOKEN"]

theorem mem_foreignTags_iff {tag : Text} :
    tag ∈ foreignTags ↔ ∃ construct, tag = (Tag.foreign construct).text := by
  constructor
  · intro h
    simp only [foreignTags, List.mem_cons, List.not_mem_nil, or_false] at h
    rcases h with rfl | rfl | rfl | rfl
    · exact ⟨.label, rfl⟩
    · exact ⟨.renaming, rfl⟩
    · exact ⟨.token, rfl⟩
    · exact ⟨.immediateToken, rfl⟩
  · rintro ⟨construct, rfl⟩
    cases construct <;> decide

/-- The known tags are those of the three sorts. -/
theorem Tag.ofText?_eq_none_iff {spelling : Text} :
    ofText? spelling = none ↔
      spelling ∉ modelledTags ∧ spelling ∉ precedenceTags ∧ spelling ∉ foreignTags := by
  have hTags : all.map text = modelledTags ++ (precedenceTags ++ foreignTags) := by decide
  rw [← not_or, ← not_or, ← List.mem_append, ← List.mem_append, ← hTags, ofText?,
    List.find?_eq_none, List.mem_map]
  simp only [decide_eq_true_eq, not_exists, not_and]

/-- Tags are told apart by their spelling. -/
theorem Tag.text_injective {first second : Tag} (h : first.text = second.text) :
    first = second := by
  rw [← Option.some.injEq, ← ofText?_text first, h, ofText?_text]

namespace Datum

/-- The tag of a node is one of the given ones. -/
def HasTag (members : List (Text × Datum)) (tags : List Text) : Prop :=
  ∃ tag ∈ tags, lookup "type" members = some (.text tag)

theorem hasTag_iff {members : List (Text × Datum)} {tag : Text}
    (h : lookup "type" members = some (.text tag)) {tags : List Text} :
    HasTag members tags ↔ tag ∈ tags := by
  simp [HasTag, h]

end Datum

/-! ## Reasons to stop the scan -/

namespace Body

variable (body : Body)

/-- A tag that is refused as such; the tags that attach a precedence are among them unless it is
unwrapped. -/
def Unsupported (tag : Text) : Prop :=
  tag ∈ foreignTags ∨ body.settings.stripPrecedence = false ∧ tag ∈ precedenceTags

/-- A tag whose node holds its part in its member `content`. -/
def Wraps (tag : Text) : Prop :=
  tag ∈ (["REPEAT", "REPEAT1"] : List Text) ∨
    body.settings.stripPrecedence = true ∧ tag ∈ precedenceTags

open Datum (lookup) in
/-- The scan stops at a node, with this failure, whatever the parts of the node are. -/
inductive Refuses : Datum → Failure → Prop
  | notObject {node : Datum} (hNode : ∀ members, node ≠ .object members) :
      Refuses node (body.failure (.nodeNotObject node.kind))
  | tagNotText {members : List (Text × Datum)}
      (hTag : ∀ tag, lookup "type" members ≠ some (.text tag)) :
      Refuses (.object members) (body.tagNotText (lookup "type" members))
  | unsupported {members : List (Text × Datum)} {tag : Text}
      (hTag : lookup "type" members = some (.text tag)) (hUnsupported : body.Unsupported tag) :
      Refuses (.object members) (.diagnosed
        (.unsupported tag (some body.rule) body.source (.unsupportedConstruct tag)))
  | unknownTag {members : List (Text × Datum)} {tag : Text}
      (hTag : lookup "type" members = some (.text tag))
      (hUnknown : tag ∉ modelledTags ∧ tag ∉ precedenceTags ∧ tag ∉ foreignTags) :
      Refuses (.object members) (body.failure (.unknownTag tag))
  | withoutMembers {members : List (Text × Datum)} {tag : Tag}
      (hTag : lookup "type" members = some (.text tag.text))
      (hParts : tag.text ∈ (["SEQ", "CHOICE"] : List Text))
      (hNone : ∀ items, lookup "members" members ≠ some (.array items)) :
      Refuses (.object members) (body.failure (.withoutMembers tag))
  | withoutContent {members : List (Text × Datum)} {tag : Tag}
      (hTag : lookup "type" members = some (.text tag.text)) (hWraps : body.Wraps tag.text)
      (hNone : lookup "content" members = none) :
      Refuses (.object members) (body.failure (.withoutContent tag))

variable {body}

theorem refuses_of_tagFault {members : List (Text × Datum)} {tag : Tag} {failure : Failure}
    (hTag : Datum.lookup "type" members = some (.text tag.text))
    (h : body.tagFault members tag = some failure) : body.Refuses (.object members) failure := by
  cases tag with
  | symbol => exact absurd h (by simp [tagFault])
  | terminal kind => exact absurd h (by simp [tagFault])
  | blank => exact absurd h (by simp [tagFault])
  | sequence =>
      obtain ⟨hNone, rfl⟩ := body.partsFault_eq_some_iff.1 h
      exact .withoutMembers hTag (by decide) hNone
  | choice =>
      obtain ⟨hNone, rfl⟩ := body.partsFault_eq_some_iff.1 h
      exact .withoutMembers hTag (by decide) hNone
  | repetition kind =>
      obtain ⟨hNone, rfl⟩ := body.contentFault_eq_some_iff.1 h
      exact .withoutContent hTag (Or.inl (by cases kind <;> decide)) hNone
  | precedence kind =>
      have hPrecedence := mem_precedenceTags_iff.2 ⟨kind, rfl⟩
      rw [tagFault] at h
      split at h
      · rename_i hStrip
        obtain ⟨hNone, rfl⟩ := body.contentFault_eq_some_iff.1 h
        exact .withoutContent hTag (Or.inr ⟨hStrip, hPrecedence⟩) hNone
      · rename_i hKeep
        rw [← Option.some.inj h]
        exact .unsupported hTag (Or.inr ⟨by simpa using hKeep, hPrecedence⟩)
  | foreign construct =>
      rw [← Option.some.inj h]
      exact .unsupported hTag (Or.inl (mem_foreignTags_iff.2 ⟨construct, rfl⟩))

theorem tagFault_of_unsupported {members : List (Text × Datum)} {spelling : Text}
    (h : body.Unsupported spelling) : ∃ tag, spelling = Tag.text tag ∧
      body.tagFault members tag = some (body.unsupported tag) := by
  rcases h with hForeign | ⟨hKeep, hPrecedence⟩
  · obtain ⟨construct, rfl⟩ := mem_foreignTags_iff.1 hForeign
    exact ⟨.foreign construct, rfl, rfl⟩
  · obtain ⟨kind, rfl⟩ := mem_precedenceTags_iff.1 hPrecedence
    exact ⟨.precedence kind, rfl, by simp [tagFault, hKeep]⟩

theorem eq_of_parts {tag : Tag} (h : tag.text ∈ (["SEQ", "CHOICE"] : List Text)) :
    tag = .sequence ∨ tag = .choice := by
  simp only [List.mem_cons, List.not_mem_nil, or_false] at h
  exact h.imp (@Tag.text_injective _ .sequence) (@Tag.text_injective _ .choice)

theorem eq_of_wraps {tag : Tag} (h : body.Wraps tag.text) :
    (∃ kind, tag = .repetition kind) ∨
      ∃ kind, tag = .precedence kind ∧ body.settings.stripPrecedence = true := by
  rcases h with hRepetition | ⟨hStrip, hPrecedence⟩
  · simp only [List.mem_cons, List.not_mem_nil, or_false] at hRepetition
    rcases hRepetition with hTag | hTag
    · exact Or.inl ⟨_, @Tag.text_injective _ (.repetition .zeroOrMore) hTag⟩
    · exact Or.inl ⟨_, @Tag.text_injective _ (.repetition .oneOrMore) hTag⟩
  · obtain ⟨kind, hTag⟩ := mem_precedenceTags_iff.1 hPrecedence
    exact Or.inr ⟨kind, Tag.text_injective hTag, hStrip⟩

theorem tagFault_of_parts {members : List (Text × Datum)} {tag : Tag}
    (h : tag.text ∈ (["SEQ", "CHOICE"] : List Text)) :
    body.tagFault members tag = body.partsFault members tag := by
  rcases eq_of_parts h with rfl | rfl <;> rfl

theorem tagFault_of_wraps {members : List (Text × Datum)} {tag : Tag} (h : body.Wraps tag.text) :
    body.tagFault members tag = body.contentFault members tag := by
  rcases eq_of_wraps h with ⟨kind, rfl⟩ | ⟨kind, rfl, hStrip⟩
  · rfl
  · rw [tagFault, if_pos hStrip]

/-- The scan stops at a node for one of the stated reasons, and for no other. -/
theorem fault_eq_some_iff {part : Datum} {failure : Failure} :
    body.fault part = some failure ↔ body.Refuses part failure := by
  constructor
  · intro h
    cases part with
    | object members =>
        rw [fault] at h
        split at h
        · rename_i spelling hType
          split at h
          · rename_i tag hTag
            rw [Tag.eq_text_of_ofText? hTag] at hType
            exact refuses_of_tagFault hType h
          · rename_i hTag
            rw [← Option.some.inj h]
            exact .unknownTag hType (Tag.ofText?_eq_none_iff.1 hTag)
        · rename_i hType
          rw [← Option.some.inj h]
          exact .tagNotText hType
    | _ =>
        rw [← Option.some.inj h]
        exact .notObject (by simp)
  · intro h
    cases h with
    | notObject hNode =>
        cases part with
        | object members => exact absurd rfl (hNode members)
        | _ => rfl
    | tagNotText hTag =>
        rw [fault]
        split
        · rename_i spelling hType
          exact absurd hType (hTag spelling)
        · rfl
    | unsupported hTag hUnsupported =>
        obtain ⟨tag, rfl, hFault⟩ := tagFault_of_unsupported hUnsupported
        exact (body.fault_of_tag? (Datum.tag?_of_lookup_type _ hTag)).trans hFault
    | unknownTag hTag hUnknown =>
        rw [fault, hTag]
        simp only [Tag.ofText?_eq_none_iff.2 hUnknown]
    | withoutMembers hTag hParts hNone =>
        rw [body.fault_of_tag? (Datum.tag?_of_lookup_type _ hTag), tagFault_of_parts hParts]
        exact body.partsFault_eq_some_iff.2 ⟨hNone, rfl⟩
    | withoutContent hTag hWraps hNone =>
        rw [body.fault_of_tag? (Datum.tag?_of_lookup_type _ hTag), tagFault_of_wraps hWraps]
        exact body.contentFault_eq_some_iff.2 ⟨hNone, rfl⟩

theorem fault_eq_none_iff {part : Datum} :
    body.fault part = none ↔ ∀ failure, ¬ body.Refuses part failure := by
  simp only [← fault_eq_some_iff, Option.eq_none_iff_forall_ne_some]

/-- A node with an unsupported tag is refused for its tag, and any other node is malformed, as far
as the message can show its tag. -/
theorem Refuses.cause {part : Datum} {failure : Failure} (h : body.Refuses part failure) :
    (∀ tag, part.IsTagged tag → body.Unsupported tag → failure = .diagnosed
        (.unsupported tag (some body.rule) body.source (.unsupportedConstruct tag))) ∧
      ((∀ tag, part.IsTagged tag → ¬ body.Unsupported tag) → ¬ part.HasUnshownTag →
        ∃ cause, failure = body.failure cause ∧ cause.kind = .decode) := by
  constructor
  · rintro tag ⟨members, rfl, hTag⟩ hUnsupported
    have hFault := fault_eq_some_iff.2 h
    rw [fault_eq_some_iff.2 (.unsupported hTag hUnsupported)] at hFault
    exact (Option.some.inj hFault).symm
  · intro hSupported hShown
    cases h with
    | notObject hNode => exact ⟨_, rfl, rfl⟩
    | @tagNotText members hTag =>
        cases hLiteral : Datum.literal? (Datum.lookup "type" members) with
        | none => exact absurd hLiteral hShown
        | some literal =>
            rw [Body.tagNotText, hLiteral]
            exact ⟨_, rfl, rfl⟩
    | unsupported hTag hUnsupported =>
        exact absurd hUnsupported (hSupported _ ⟨_, rfl, hTag⟩)
    | unknownTag hTag hUnknown => exact ⟨_, rfl, rfl⟩
    | withoutMembers hTag hParts hNone => exact ⟨_, rfl, rfl⟩
    | withoutContent hTag hWraps hNone => exact ⟨_, rfl, rfl⟩

end Body

/-! ## What the check finds wrong -/

namespace Datum

/-- A node has no name, value or members where its tag asks for them: a member is missing or no
text, the name of a symbol is empty, or the list of members is. -/
def Incomplete : Datum → Prop
  | object members =>
    HasTag members ["SYMBOL"] ∧
        ((∀ name, lookup "name" members ≠ some (.text name)) ∨
          lookup "name" members = some (.text [])) ∨
      HasTag members ["STRING", "PATTERN"] ∧
        (∀ value, lookup "value" members ≠ some (.text value)) ∨
      HasTag members ["SEQ", "CHOICE"] ∧ lookup "members" members = some (.array [])
  | _ => False

/-- The name of a symbol is not made of characters. -/
def Garbled : Datum → Prop
  | object members =>
    HasTag members ["SYMBOL"] ∧
      ∃ name, lookup "name" members = some (.text name) ∧ name.isUnicode = false
  | _ => False

variable {members : List (Text × Datum)} {tag : Tag}

/-- What the tag of a node asks for. -/
theorem incomplete_iff (hTag : lookup "type" members = some (.text tag.text)) :
    (object members).Incomplete ↔
      match tag with
      | .symbol => (∀ name, lookup "name" members ≠ some (.text name)) ∨
          lookup "name" members = some (.text [])
      | .terminal _ => ∀ value, lookup "value" members ≠ some (.text value)
      | .sequence => lookup "members" members = some (.array [])
      | .choice => lookup "members" members = some (.array [])
      | _ => False := by
  rw [Incomplete, hasTag_iff hTag, hasTag_iff hTag, hasTag_iff hTag]
  cases tag with
  | terminal kind => cases kind <;> simp +decide
  | repetition kind => cases kind <;> simp +decide
  | precedence kind => cases kind <;> simp +decide
  | foreign construct => cases construct <;> simp +decide
  | _ => simp +decide

theorem garbled_iff (hTag : lookup "type" members = some (.text tag.text)) :
    (object members).Garbled ↔ tag = .symbol ∧
      ∃ name, lookup "name" members = some (.text name) ∧ name.isUnicode = false := by
  rw [Garbled, hasTag_iff hTag, List.mem_singleton]
  exact and_congr_left fun _ => ⟨@Tag.text_injective _ .symbol, congrArg Tag.text⟩

end Datum

/-! ## Node by node -/

namespace Body

/-- A node on its own passes the scan and the check. -/
structure Passes (body : Body) (part : Datum) : Prop where
  scanned : body.fault part = none
  complete : ¬ part.Incomplete
  clean : ¬ part.Garbled

variable {body : Body} {members : List (Text × Datum)} {tag : Tag}

/-- What a node with a tag has to satisfy. -/
theorem passes_iff (hTag : Datum.lookup "type" members = some (.text tag.text)) :
    body.Passes (.object members) ↔
      body.tagFault members tag = none ∧ ¬ (Datum.object members).Incomplete ∧
        ¬ (Datum.object members).Garbled := by
  rw [← body.fault_of_tag? (Datum.tag?_of_lookup_type _ hTag)]
  exact ⟨fun h => ⟨h.scanned, h.complete, h.clean⟩, fun h => ⟨h.1, h.2.1, h.2.2⟩⟩

/-- A symbol has a name that is not empty and made of characters. -/
theorem passes_iff_of_symbol
    (hTag : Datum.lookup "type" members = some (.text Tag.symbol.text)) :
    body.Passes (.object members) ↔ ∃ name, Datum.lookup "name" members = some (.text name) ∧
      name.isUnicode = true ∧ name ≠ [] := by
  rw [passes_iff hTag, Datum.incomplete_iff hTag, Datum.garbled_iff hTag]
  simp only [tagFault, true_and]
  constructor
  · rintro ⟨hComplete, hClean⟩
    obtain ⟨hText, hNonempty⟩ := not_or.1 hComplete
    obtain ⟨name, hName⟩ := not_forall_not.1 hText
    refine ⟨name, hName, ?_, ?_⟩
    · rw [← Bool.not_eq_false]
      exact fun hGarbled => hClean ⟨name, hName, hGarbled⟩
    · rintro rfl
      exact hNonempty hName
  · rintro ⟨name, hName, hUnicode, hNonempty⟩
    rw [hName]
    simp [hUnicode, hNonempty]

/-- A terminal has a text for its value. -/
theorem passes_iff_of_terminal {kind : TerminalKind}
    (hTag : Datum.lookup "type" members = some (.text (Tag.terminal kind).text)) :
    body.Passes (.object members) ↔
      ∃ value, Datum.lookup "value" members = some (.text value) := by
  rw [passes_iff hTag, Datum.incomplete_iff hTag, Datum.garbled_iff hTag]
  simp [tagFault]

/-- A sequence or a choice has a list of members that is not empty. -/
theorem passes_iff_of_parts (hTag : Datum.lookup "type" members = some (.text tag.text))
    (hParts : tag.text ∈ (["SEQ", "CHOICE"] : List Text)) :
    body.Passes (.object members) ↔
      ∃ items, Datum.lookup "members" members = some (.array items) ∧ items ≠ [] := by
  have hScanned : body.partsFault members tag = none ↔
      ∃ items, Datum.lookup "members" members = some (.array items) := by
    rw [partsFault]
    split
    · rename_i items hItems
      simp [hItems]
    · rename_i hNone
      refine iff_of_false (by simp) ?_
      rintro ⟨items, hItems⟩
      exact hNone items hItems
  have hComplete : (Datum.object members).Incomplete ↔
      Datum.lookup "members" members = some (.array []) := by
    rw [Datum.incomplete_iff hTag]
    rcases eq_of_parts hParts with rfl | rfl <;> exact Iff.rfl
  have hClean : ¬ (Datum.object members).Garbled := by
    rw [Datum.garbled_iff hTag]
    rcases eq_of_parts hParts with rfl | rfl <;> simp
  rw [passes_iff hTag, tagFault_of_parts hParts, hScanned, hComplete]
  constructor
  · rintro ⟨⟨items, hItems⟩, hSome, -⟩
    refine ⟨items, hItems, ?_⟩
    rintro rfl
    exact hSome hItems
  · rintro ⟨items, hItems, hNonempty⟩
    refine ⟨⟨items, hItems⟩, fun hEmpty => hNonempty ?_, hClean⟩
    rw [hItems] at hEmpty
    exact Datum.array.inj (Option.some.inj hEmpty)

/-- A node around another one has a content. -/
theorem passes_iff_of_wraps (hTag : Datum.lookup "type" members = some (.text tag.text))
    (hWraps : body.Wraps tag.text) :
    body.Passes (.object members) ↔ ∃ content, Datum.lookup "content" members = some content := by
  have hComplete : ¬ (Datum.object members).Incomplete := by
    rw [Datum.incomplete_iff hTag]
    rcases eq_of_wraps hWraps with ⟨kind, rfl⟩ | ⟨kind, rfl, -⟩ <;> exact not_false
  have hClean : ¬ (Datum.object members).Garbled := by
    rw [Datum.garbled_iff hTag]
    rcases eq_of_wraps hWraps with ⟨kind, rfl⟩ | ⟨kind, rfl, -⟩ <;> simp
  rw [passes_iff hTag, tagFault_of_wraps hWraps, contentFault]
  cases Datum.lookup "content" members with
  | none => simp
  | some content => simp [hComplete, hClean]

end Body

namespace Expr

section Nested

variable [Nesting] {body : Body} {above : List Tag} {members : List (Text × Datum)}

/-- A node whose parts are in its member `members` is decoded if they are, and if it does not stand
too deep. -/
theorem exists_decode_of_parts {tag : Tag} {form : List Expr → Expr}
    (hTag : Datum.lookup "type" members = some (.text tag.text))
    (hParts : tag.text ∈ (["SEQ", "CHOICE"] : List Text))
    (hDecode : ∀ {e}, (decodeBelow body above (.object members)).outcome = .ok e ↔
      Nesting.admits (tag :: above) = true ∧
        ∃ items es, Datum.lookup "members" members = some (.array items) ∧ items ≠ [] ∧
          List.Forall₂ (fun item e => (decodeBelow body (tag :: above) item).outcome = .ok e)
            items es ∧ form es = e)
    (ih : ∀ {items}, Datum.lookup "members" members = some (.array items) → ∀ item ∈ items,
      ((∃ e, (decodeBelow body (tag :: above) item).outcome = .ok e) ↔
        (∀ part ∈ item.visited body.settings.stripPrecedence, body.Passes part) ∧
          ∀ path ∈ item.tagPaths body.settings.stripPrecedence (tag :: above),
            Nesting.admits path = true)) :
    (∃ e, (decodeBelow body above (.object members)).outcome = .ok e) ↔
      (body.Passes (.object members) ∧
        ∀ part ∈ Datum.visitedMembers body.settings.stripPrecedence members, body.Passes part) ∧
      Nesting.admits (tag :: above) = true ∧
        ∀ path ∈ Datum.tagPathsMembers body.settings.stripPrecedence (tag :: above) members,
          Nesting.admits path = true := by
  rw [Body.passes_iff_of_parts hTag hParts, Datum.visitedMembers_eq]
  constructor
  · rintro ⟨e, h⟩
    obtain ⟨hAdmitted, items, es, hItems, hNonempty, hEach, -⟩ := hDecode.1 h
    have hItem := fun item hItem =>
      (ih hItems item hItem).1 (exists_forall₂_iff.1 ⟨es, hEach⟩ item hItem)
    rw [hItems, Datum.forall_tagPathsMembers hItems]
    refine ⟨⟨⟨items, rfl, hNonempty⟩, fun part hPart => ?_⟩, hAdmitted, fun item hMem => ?_⟩
    · obtain ⟨item, hMem, hVisited⟩ := Datum.mem_visitedItems.1 hPart
      exact (hItem item hMem).1 part hVisited
    · exact (hItem item hMem).2
  · rintro ⟨⟨⟨items, hItems, hNonempty⟩, hPasses⟩, hAdmitted, hPaths⟩
    rw [hItems] at hPasses
    rw [Datum.forall_tagPathsMembers hItems] at hPaths
    have hEach : ∀ item ∈ items, ∃ e, (decodeBelow body (tag :: above) item).outcome = .ok e := by
      intro item hItem
      refine (ih hItems item hItem).2 ⟨fun part hPart => hPasses part ?_, hPaths item hItem⟩
      exact Datum.mem_visitedItems.2 ⟨item, hItem, hPart⟩
    obtain ⟨es, hDecoded⟩ := exists_forall₂_iff.2 hEach
    exact ⟨form es, hDecode.2 ⟨hAdmitted, items, es, hItems, hNonempty, hDecoded, rfl⟩⟩

/-- A node around another one is decoded if that is, and if it does not stand too deep itself. The
tags around its content are `around`. -/
theorem exists_decode_of_wraps {tag : Tag} {form : Expr → Expr} {admitted : Prop}
    {around : List Tag}
    (hTag : Datum.lookup "type" members = some (.text tag.text)) (hWraps : body.Wraps tag.text)
    (hDecode : ∀ {e}, (decodeBelow body above (.object members)).outcome = .ok e ↔
      admitted ∧ ∃ content inner, Datum.lookup "content" members = some content ∧
        (decodeBelow body around content).outcome = .ok inner ∧ form inner = e)
    (ih : ∀ {content}, Datum.lookup "content" members = some content →
      ((∃ e, (decodeBelow body around content).outcome = .ok e) ↔
        (∀ part ∈ content.visited body.settings.stripPrecedence, body.Passes part) ∧
          ∀ path ∈ content.tagPaths body.settings.stripPrecedence around,
            Nesting.admits path = true)) :
    (∃ e, (decodeBelow body above (.object members)).outcome = .ok e) ↔
      (body.Passes (.object members) ∧
        ∀ part ∈ Datum.visitedContent body.settings.stripPrecedence members, body.Passes part) ∧
      admitted ∧ ∀ path ∈ Datum.tagPathsContent body.settings.stripPrecedence around members,
        Nesting.admits path = true := by
  rw [Body.passes_iff_of_wraps hTag hWraps, Datum.visitedContent_eq]
  constructor
  · rintro ⟨e, h⟩
    obtain ⟨hAdmitted, content, inner, hContent, hInner, -⟩ := hDecode.1 h
    obtain ⟨hPasses, hPaths⟩ := (ih hContent).1 ⟨inner, hInner⟩
    rw [hContent, Datum.tagPathsContent_eq hContent]
    exact ⟨⟨⟨content, rfl⟩, hPasses⟩, hAdmitted, hPaths⟩
  · rintro ⟨⟨⟨content, hContent⟩, hPasses⟩, hAdmitted, hPaths⟩
    rw [hContent] at hPasses
    rw [Datum.tagPathsContent_eq hContent] at hPaths
    obtain ⟨inner, hInner⟩ := (ih hContent).2 ⟨hPasses, hPaths⟩
    exact ⟨form inner, hDecode.2 ⟨hAdmitted, content, inner, hContent, hInner, rfl⟩⟩

/-- A body at whose top the scan stops is not decoded, and does not pass. -/
theorem exists_decode_iff_of_fault {node : Datum} {failure : Failure}
    (h : body.fault node = some failure) :
    (∃ e, (decodeBelow body above node).outcome = .ok e) ↔
      (∀ part ∈ node.visited body.settings.stripPrecedence, body.Passes part) ∧
        ∀ path ∈ node.tagPaths body.settings.stripPrecedence above,
          Nesting.admits path = true := by
  have hSelf := Datum.self_mem_visited body.settings.stripPrecedence node
  refine iff_of_false ?_ fun hPasses => ?_
  · rintro ⟨e, hDecoded⟩
    obtain ⟨draft, hScan, -⟩ := outcome_decodeBelow_eq_ok_iff.1 hDecoded
    have hNone := Traced.failure?_eq_none_iff.2 ⟨draft, hScan⟩
    rw [Draft.failure?_scan, List.findSome?_eq_none_iff] at hNone
    exact absurd (hNone node hSelf) (by simp [h])
  · exact absurd (hPasses.1 node hSelf).scanned (by simp [h])

/-- A body is decoded exactly if every node that is visited passes and none stands too deep. -/
theorem exists_decode_iff {node : Datum} :
    (∃ e, (decodeBelow body above node).outcome = .ok e) ↔
      (∀ part ∈ node.visited body.settings.stripPrecedence, body.Passes part) ∧
        ∀ path ∈ node.tagPaths body.settings.stripPrecedence above,
          Nesting.admits path = true := by
  induction node using Datum.nodeInduction generalizing above with
  | other node hNode =>
      exact exists_decode_iff_of_fault (Body.fault_eq_some_iff.2 (.notObject hNode))
  | object members ihPart ihItem =>
      cases hKnown : Datum.tag? members with
      | none =>
          rcases body.fault_of_tag?_eq_none hKnown with ⟨_, hFault⟩ | ⟨_, hFault⟩ | hFault
          · exact exists_decode_iff_of_fault hFault
          · exact exists_decode_iff_of_fault hFault
          · exact exists_decode_iff_of_fault hFault
      | some tag =>
          have hTag := Datum.lookup_type_of_tag? hKnown
          have hFault := body.fault_of_tag? hKnown
          -- Each tag says where the parts are, and for those the induction speaks.
          cases tag with
          | symbol =>
              rw [Datum.visited, Datum.tagPaths, List.forall_mem_cons, hKnown,
                Body.passes_iff_of_symbol hTag]
              simp [decode_symbol_iff hTag, and_comm]
          | terminal kind =>
              rw [Datum.visited, Datum.tagPaths, List.forall_mem_cons, hKnown,
                Body.passes_iff_of_terminal hTag]
              simp [decode_terminal_iff hTag, and_comm]
          | blank =>
              rw [Datum.visited, Datum.tagPaths, List.forall_mem_cons, hKnown,
                Body.passes_iff hTag, Datum.incomplete_iff hTag, Datum.garbled_iff hTag]
              simp [decode_blank_iff hTag, Body.tagFault]
          | sequence =>
              rw [Datum.visited, Datum.tagPaths, List.forall_mem_cons, hKnown]
              simp only [List.forall_mem_cons]
              exact exists_decode_of_parts hTag (by decide) (decode_sequence_iff hTag)
                fun hItems item hItem => ihItem hItems item hItem
          | choice =>
              rw [Datum.visited, Datum.tagPaths, List.forall_mem_cons, hKnown]
              simp only [List.forall_mem_cons]
              exact exists_decode_of_parts hTag (by decide) (decode_choice_iff hTag)
                fun hItems item hItem => ihItem hItems item hItem
          | repetition kind =>
              rw [Datum.visited, Datum.tagPaths, List.forall_mem_cons, hKnown]
              simp only [List.forall_mem_cons]
              exact exists_decode_of_wraps hTag (Or.inl (by cases kind <;> decide))
                (decode_repetition_iff hTag) fun hContent => ihPart hContent
          | precedence kind =>
              by_cases hStrip : body.settings.stripPrecedence = true
              · have hWraps : body.Wraps (Tag.precedence kind).text :=
                  Or.inr ⟨hStrip, mem_precedenceTags_iff.2 ⟨kind, rfl⟩⟩
                -- The content stands where the node stood, and nothing is asked of the node.
                have hDecode : ∀ {e}, (decodeBelow body above (.object members)).outcome = .ok e ↔
                    True ∧ ∃ content inner, Datum.lookup "content" members = some content ∧
                      (decodeBelow body above content).outcome = .ok inner ∧ id inner = e := by
                  simp [decode_precedence_iff hTag, hStrip]
                rw [Datum.visited, Datum.tagPaths, List.forall_mem_cons, hKnown]
                simp only [if_pos hStrip]
                rw [exists_decode_of_wraps hTag hWraps hDecode fun hContent => ihPart hContent,
                  true_and]
              · rw [Body.tagFault, if_neg hStrip] at hFault
                exact exists_decode_iff_of_fault hFault
          | foreign construct => exact exists_decode_iff_of_fault hFault

/-! ## The fault that is reported -/

/-- A body whose nodes all pass the scan is decoded, or the check finds it invalid. -/
theorem decode_of_scanned {node : Datum}
    (h : ∀ part ∈ node.visited body.settings.stripPrecedence, body.fault part = none) :
    (∃ e, (decode body node).outcome = .ok e) ∨
      ∃ fault, (decode body node).outcome = .error (body.failure (.invalidBody fault)) := by
  have hScan : (Draft.scan body node).failure? = none := by
    rw [Draft.failure?_scan, List.findSome?_eq_none_iff]
    exact h
  obtain ⟨draft, hDraft⟩ := Traced.failure?_eq_none_iff.1 hScan
  exact decode_of_scan hDraft

/-- Which fault of a body is reported. The first node, in pre-order, at which the scan stops
decides, whatever else is wrong with this node or with others: with an unsupported tag it is
reported as an unsupported construct in the rule, and otherwise as malformed, as far as its tag can
be shown. If the scan stops at no node, the body is reported as invalid exactly if a node lacks its
name, its value or its members, has a name that is not made of characters, or stands too deep; and
it is decoded if there is none. -/
theorem decode_first_fault (body : Body) (node : Datum) :
    (∀ before part later failure,
      node.visited body.settings.stripPrecedence = before ++ part :: later →
      (∀ earlier ∈ before, ∀ other, ¬ body.Refuses earlier other) →
      body.Refuses part failure →
        (decode body node).outcome = .error failure ∧
        (∀ tag, part.IsTagged tag → body.Unsupported tag → failure = .diagnosed
          (.unsupported tag (some body.rule) body.source (.unsupportedConstruct tag))) ∧
        ((∀ tag, part.IsTagged tag → ¬ body.Unsupported tag) → ¬ part.HasUnshownTag →
          ∃ cause, failure = body.failure cause ∧ cause.kind = .decode)) ∧
    ((∀ part ∈ node.visited body.settings.stripPrecedence, ∀ failure,
        ¬ body.Refuses part failure) →
      ((∃ fault, (decode body node).outcome = .error (body.failure (.invalidBody fault))) ↔
        (∃ part ∈ node.visited body.settings.stripPrecedence, part.Incomplete ∨ part.Garbled) ∨
          ∃ path ∈ node.tagPaths body.settings.stripPrecedence [], Nesting.admits path = false) ∧
      ((∃ e, (decode body node).outcome = .ok e) ↔
        (∀ part ∈ node.visited body.settings.stripPrecedence,
          ¬ part.Incomplete ∧ ¬ part.Garbled) ∧
          ∀ path ∈ node.tagPaths body.settings.stripPrecedence [],
            Nesting.admits path = true)) := by
  constructor
  · intro before part later failure hVisited hBefore hRefused
    have hScan : (Draft.scan body node).failure? = some failure := by
      rw [Draft.failure?_scan, hVisited, List.findSome?_eq_some_iff]
      exact ⟨before, part, later, rfl, Body.fault_eq_some_iff.2 hRefused,
        fun earlier hEarlier => Body.fault_eq_none_iff.2 (hBefore earlier hEarlier)⟩
    refine ⟨?_, hRefused.cause⟩
    exact Traced.outcome_bind_of_error (Traced.failure?_eq_some_iff.1 hScan) _
  · intro hNone
    have hScanned : ∀ part ∈ node.visited body.settings.stripPrecedence, body.fault part = none :=
      fun part hPart => Body.fault_eq_none_iff.2 (hNone part hPart)
    have hDecoded : (∃ e, (decode body node).outcome = .ok e) ↔
        (∀ part ∈ node.visited body.settings.stripPrecedence,
          ¬ part.Incomplete ∧ ¬ part.Garbled) ∧
          ∀ path ∈ node.tagPaths body.settings.stripPrecedence [],
            Nesting.admits path = true := by
      refine exists_decode_iff.trans (and_congr_left fun _ => ?_)
      constructor
      · exact fun hPasses part hPart => ⟨(hPasses part hPart).complete, (hPasses part hPart).clean⟩
      · exact fun hWhole part hPart =>
          ⟨hScanned part hPart, (hWhole part hPart).1, (hWhole part hPart).2⟩
    have hInvalid : (∃ fault, (decode body node).outcome =
        .error (body.failure (.invalidBody fault))) ↔
        ¬ ∃ e, (decode body node).outcome = .ok e := by
      constructor
      · rintro ⟨fault, hFault⟩ ⟨e, hDecoded⟩
        exact absurd (hFault.symm.trans hDecoded) (by simp)
      · exact fun hNot => (decode_of_scanned hScanned).resolve_left hNot
    refine ⟨?_, hDecoded⟩
    rw [hInvalid, hDecoded]
    simp only [not_and_or, not_forall, not_not, exists_prop, Bool.not_eq_true]

end Nested

/-- A node that labels nothing. -/
def labelled : Datum := .object [("type", .text "FIELD"), ("content", .null)]

/-- A sequence of a symbol without a name, a repetition of a node that is labelled, and a
number. -/
def tangled : Datum :=
  .object [("type", .text "SEQ"), ("members", .array [
    .object [("type", .text "SYMBOL")],
    .object [("type", .text "REPEAT"), ("content", labelled)],
    .int 5])]

/-- A sequence whose only fault is that a choice in it has no members. -/
def barren : Datum :=
  .object [("type", .text "SEQ"), ("members", .array [
    .object [("type", .text "BLANK")],
    .object [("type", .text "CHOICE"), ("members", .array [])]])]

/-- The label is reported, although a name is missing before it and a number stands after it. The
empty choice is reported when nothing stops the scan. -/
theorem decode_first_fault_tangled :
    (∃ before later, tangled.visited false = before ++ labelled :: later ∧
        (∀ earlier ∈ before, ∀ other, ¬ Body.Refuses ⟨{}, "r", none⟩ earlier other) ∧
        ∃ earlier ∈ before, earlier.Incomplete) ∧
      (@decode (.upTo 254) ⟨{}, "r", none⟩ tangled).outcome = .error (.diagnosed
        (.unsupported "FIELD" (some "r") none (.unsupportedConstruct "FIELD"))) ∧
      (∀ part ∈ barren.visited false, ∀ failure, ¬ Body.Refuses ⟨{}, "r", none⟩ part failure) ∧
      ∃ fault, (@decode (.upTo 254) ⟨{}, "r", none⟩ barren).outcome =
        .error (Body.failure ⟨{}, "r", none⟩ (.invalidBody fault)) := by
  let _ : Nesting := .upTo 254
  have hVisited : tangled.visited false = [tangled, .object [("type", .text "SYMBOL")],
      .object [("type", .text "REPEAT"), ("content", labelled)]] ++ labelled :: [.int 5] := rfl
  have hBefore : ∀ earlier ∈ [tangled, .object [("type", .text "SYMBOL")],
      .object [("type", .text "REPEAT"), ("content", labelled)]],
      ∀ other, ¬ Body.Refuses ⟨{}, "r", none⟩ earlier other := by
    simp only [List.forall_mem_cons]
    exact ⟨Body.fault_eq_none_iff.1 rfl, Body.fault_eq_none_iff.1 rfl,
      Body.fault_eq_none_iff.1 rfl, by simp⟩
  have hLabel : Body.Refuses ⟨{}, "r", none⟩ labelled (.diagnosed
      (.unsupported "FIELD" (some "r") none (.unsupportedConstruct "FIELD"))) :=
    .unsupported rfl (Or.inl (by decide))
  have hUnnamed : (Datum.object [("type", .text "SYMBOL")]).Incomplete :=
    Or.inl ⟨⟨"SYMBOL", by decide, rfl⟩, Or.inl (by simp +decide [Datum.lookup])⟩
  have hScanned : ∀ part ∈ barren.visited false,
      ∀ failure, ¬ Body.Refuses ⟨{}, "r", none⟩ part failure := by
    have hParts : barren.visited false = [barren, .object [("type", .text "BLANK")],
        .object [("type", .text "CHOICE"), ("members", .array [])]] := rfl
    simp only [hParts, List.forall_mem_cons]
    exact ⟨Body.fault_eq_none_iff.1 rfl, Body.fault_eq_none_iff.1 rfl,
      Body.fault_eq_none_iff.1 rfl, by simp⟩
  have hEmpty : ∃ part ∈ barren.visited false, part.Incomplete ∨ part.Garbled :=
    ⟨.object [("type", .text "CHOICE"), ("members", .array [])],
      List.mem_cons_of_mem _ (List.mem_cons_of_mem _ List.mem_cons_self),
      Or.inl (Or.inr (Or.inr ⟨⟨"CHOICE", by decide, rfl⟩, rfl⟩))⟩
  exact ⟨⟨_, _, hVisited, hBefore, _, List.mem_cons_of_mem _ List.mem_cons_self, hUnnamed⟩,
    ((decode_first_fault ⟨{}, "r", none⟩ tangled).1 _ _ _ _ hVisited hBefore hLabel).1,
    hScanned, ((decode_first_fault ⟨{}, "r", none⟩ barren).2 hScanned).1.2 (.inl hEmpty)⟩

/-- A symbol whose name is a lone surrogate. -/
def garbled : Datum := .object [("type", .text "SYMBOL"), ("name", .text [.surrogate 0])]

/-- A name can be a text, and not empty, and the body is reported as invalid all the same. -/
theorem decode_garbled :
    (∀ part ∈ garbled.visited false,
        (∀ failure, ¬ Body.Refuses ⟨{}, "r", none⟩ part failure) ∧ ¬ part.Incomplete) ∧
      (@decode (.upTo 254) ⟨{}, "r", none⟩ garbled).outcome = .error (Body.failure ⟨{}, "r", none⟩
        (.invalidBody ⟨["SYMBOL", "name"], .notUnicode⟩)) := by
  have hTag : Datum.lookup "type" [("type", .text "SYMBOL"), ("name", .text [.surrogate 0])] =
      some (.text Tag.symbol.text) := rfl
  have hParts : garbled.visited false = [garbled] := rfl
  refine ⟨fun part hPart => ?_, rfl⟩
  rw [hParts, List.mem_singleton] at hPart
  rw [hPart]
  refine ⟨Body.fault_eq_none_iff.1 rfl, ?_⟩
  rw [garbled, Datum.incomplete_iff hTag]
  simp +decide [Datum.lookup]

end Expr

end TreeTypes
