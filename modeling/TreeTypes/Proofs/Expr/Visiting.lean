import TreeTypes.Expr.Decode
import TreeTypes.Proofs.Expr.Format
import TreeTypes.Proofs.Traced

/-!
# The nodes that the scan comes to

The scan is a recursion, and it stops at the first node that it refuses. Both
can be taken apart. Which nodes there are to come to, and in which order, is a
list that the document and the setting about precedence determine
(`Datum.visited`). Whether a node is refused can be told from the node alone
(`Body.fault`): from its tag, and from whether the member is there that should
hold its parts. The scan fails exactly if there is a node with a fault in the
list, and then with the first one.

How deep the nodes stand inside each other matters to the check only. It is
read off the node in the same way (`Datum.tagPaths`).

## Main definitions

* `Datum.visited` — the nodes at the places that the scan looks at.
* `Datum.tagPaths` — the tags around each of them.
* `Body.fault` — what is wrong with a node, its parts aside.
* `Draft.reached` — the nodes that the scan comes to before it stops.

## Main results

* `Draft.failure?_scan` — the scan reports the first fault.
* `Draft.exists_fault_of_scan` — it is the fault of a node that the scan came to.
-/

namespace TreeTypes

/-! ## Places that are looked at -/

namespace Datum

/-- A node is an object with this tag. -/
def IsTagged (part : Datum) (tag : Text) : Prop :=
  ∃ members, part = .object members ∧ lookup "type" members = some (.text tag)

/-- The tag of a node, if it has a known one. -/
def tag? (members : List (Text × Datum)) : Option Tag :=
  match lookup "type" members with
  | some (.text spelling) => Tag.ofText? spelling
  | _ => none

theorem lookup_type_of_tag? {members : List (Text × Datum)} {tag : Tag}
    (h : tag? members = some tag) : lookup "type" members = some (.text tag.text) := by
  unfold tag? at h
  split at h
  · rename_i spelling hType
    rw [hType, Tag.eq_text_of_ofText? h]
  · exact absurd h (by simp)

theorem tag?_of_lookup_type {members : List (Text × Datum)} (tag : Tag)
    (h : lookup "type" members = some (.text tag.text)) : tag? members = some tag := by
  rw [tag?, h]
  exact Tag.ofText?_text tag

mutual

/--
The nodes at the places that the scan looks at, in pre-order: a node, and then
the items of its `members` or its `content`, as its tag has it. The content of
a node that attaches a precedence is looked at if precedence is unwrapped.
-/
def visited (strip : Bool) : Datum → List Datum
  | object members =>
    object members ::
      match tag? members with
      | some .sequence => visitedMembers strip members
      | some .choice => visitedMembers strip members
      | some (.repetition _) => visitedContent strip members
      | some (.precedence _) => if strip then visitedContent strip members else []
      | _ => []
  | node => [node]

/-- The places in the member `content`. -/
def visitedContent (strip : Bool) : List (Text × Datum) → List Datum
  | [] => []
  | (key, value) :: rest =>
    if key = "content" then visited strip value else visitedContent strip rest

/-- The places in the member `members`. -/
def visitedMembers (strip : Bool) : List (Text × Datum) → List Datum
  | [] => []
  | (key, value) :: rest =>
    if key = "members" then
      match value with
      | array items => visitedItems strip items
      | _ => []
    else visitedMembers strip rest

/-- The places in the items of an array. -/
def visitedItems (strip : Bool) : List Datum → List Datum
  | [] => []
  | item :: rest => visited strip item ++ visitedItems strip rest

end

variable {strip : Bool} {members : List (Text × Datum)}

theorem visitedContent_eq :
    visitedContent strip members =
      match lookup "content" members with
      | some content => visited strip content
      | none => [] := by
  induction members with
  | nil => rfl
  | cons member rest ih =>
      obtain ⟨key, value⟩ := member
      rw [visitedContent, lookup]
      split
      · rfl
      · exact ih

theorem visitedMembers_eq :
    visitedMembers strip members =
      match lookup "members" members with
      | some (array items) => visitedItems strip items
      | _ => [] := by
  induction members with
  | nil => rfl
  | cons member rest ih =>
      obtain ⟨key, value⟩ := member
      unfold visitedMembers
      rw [lookup]
      split
      · cases value <;> rfl
      · exact ih

theorem mem_visitedItems {items : List Datum} {part : Datum} :
    part ∈ visitedItems strip items ↔ ∃ item ∈ items, part ∈ item.visited strip := by
  induction items with
  | nil => simp [visitedItems]
  | cons item rest ih => rw [visitedItems, List.mem_append, ih, List.exists_mem_cons_iff]

mutual

/--
For each node at the places that the scan looks at, in pre-order, its tag and
after it the tags of the nodes around it, from the inside out; the tags around
the whole are `above`. Nodes that attach a precedence do not count, since the
scan leaves nothing of them.
-/
def tagPaths (strip : Bool) (above : List Tag) : Datum → List (List Tag)
  | object members =>
    match tag? members with
    | some .sequence =>
      (.sequence :: above) :: tagPathsMembers strip (.sequence :: above) members
    | some .choice => (.choice :: above) :: tagPathsMembers strip (.choice :: above) members
    | some (.repetition kind) =>
      (.repetition kind :: above) :: tagPathsContent strip (.repetition kind :: above) members
    | some (.precedence _) => if strip then tagPathsContent strip above members else []
    | some (.foreign _) => []
    | some tag => [tag :: above]
    | none => []
  | _ => []

/-- The paths in the member `content`. -/
def tagPathsContent (strip : Bool) (above : List Tag) : List (Text × Datum) → List (List Tag)
  | [] => []
  | (key, value) :: rest =>
    if key = "content" then tagPaths strip above value else tagPathsContent strip above rest

/-- The paths in the member `members`. -/
def tagPathsMembers (strip : Bool) (above : List Tag) : List (Text × Datum) → List (List Tag)
  | [] => []
  | (key, value) :: rest =>
    if key = "members" then
      match value with
      | array items => tagPathsItems strip above items
      | _ => []
    else tagPathsMembers strip above rest

/-- The paths in the items of an array. -/
def tagPathsItems (strip : Bool) (above : List Tag) : List Datum → List (List Tag)
  | [] => []
  | item :: rest => tagPaths strip above item ++ tagPathsItems strip above rest

end

variable {above : List Tag}

theorem tagPathsContent_eq {content : Datum} (h : lookup "content" members = some content) :
    tagPathsContent strip above members = tagPaths strip above content := by
  induction members with
  | nil => exact absurd h (by simp [lookup])
  | cons member rest ih =>
      obtain ⟨key, value⟩ := member
      rw [lookup] at h
      rw [tagPathsContent]
      split at h
      · rename_i hKey
        rw [if_pos hKey, Option.some.inj h]
      · rename_i hKey
        rw [if_neg hKey, ih h]

theorem tagPathsMembers_eq {items : List Datum}
    (h : lookup "members" members = some (array items)) :
    tagPathsMembers strip above members = tagPathsItems strip above items := by
  induction members with
  | nil => exact absurd h (by simp [lookup])
  | cons member rest ih =>
      obtain ⟨key, value⟩ := member
      rw [lookup] at h
      unfold tagPathsMembers
      split at h
      · rename_i hKey
        rw [if_pos hKey, Option.some.inj h]
      · rename_i hKey
        rw [if_neg hKey, ih h]

theorem mem_tagPathsItems {items : List Datum} {path : List Tag} :
    path ∈ tagPathsItems strip above items ↔ ∃ item ∈ items, path ∈ item.tagPaths strip above := by
  induction items with
  | nil => simp [tagPathsItems]
  | cons item rest ih => rw [tagPathsItems, List.mem_append, ih, List.exists_mem_cons_iff]

/-- What is asked of all paths below a node with items is asked of those of each item. -/
theorem forall_tagPathsMembers {items : List Datum}
    (h : lookup "members" members = some (array items)) {asked : List Tag → Prop} :
    (∀ path ∈ tagPathsMembers strip above members, asked path) ↔
      ∀ item ∈ items, ∀ path ∈ item.tagPaths strip above, asked path := by
  rw [tagPathsMembers_eq h]
  constructor
  · intro hAll item hItem path hPath
    exact hAll path (mem_tagPathsItems.2 ⟨item, hItem, hPath⟩)
  · intro hEach path hPath
    obtain ⟨item, hItem, hPath⟩ := mem_tagPathsItems.1 hPath
    exact hEach item hItem path hPath

/-- The node itself is looked at first. -/
theorem self_mem_visited (strip : Bool) (node : Datum) : node ∈ node.visited strip := by
  cases node with
  | object members =>
      rw [visited]
      exact List.mem_cons_self
  | _ => exact List.mem_singleton_self _

end Datum

/-! ## Faults of single nodes -/

namespace Body

variable (body : Body)

/-- A failure in the rule of the body. -/
def failure (cause : Cause) : Failure :=
  .located { rule := some body.rule, source := body.source } cause

theorem failure_inj {first second : Cause} :
    body.failure first = body.failure second ↔ first = second := by
  simp [failure, Failure.located]

/-- The failure that a construct is not modelled. -/
def unsupported (tag : Tag) : Failure :=
  .diagnosed (.unsupported tag.text (some body.rule) body.source (.unsupportedConstruct tag.text))

/-- What is wrong with a node that should hold its parts in its member `members`. -/
def partsFault (members : List (Text × Datum)) (tag : Tag) : Option Failure :=
  match Datum.lookup "members" members with
  | some (.array _) => none
  | _ => some (body.failure (.withoutMembers tag))

/-- What is wrong with a node that should hold its part in its member `content`. -/
def contentFault (members : List (Text × Datum)) (tag : Tag) : Option Failure :=
  match Datum.lookup "content" members with
  | some _ => none
  | none => some (body.failure (.withoutContent tag))

theorem partsFault_eq_some_iff {members : List (Text × Datum)} {tag : Tag} {failure : Failure} :
    body.partsFault members tag = some failure ↔
      (∀ items, Datum.lookup "members" members ≠ some (.array items)) ∧
        failure = body.failure (.withoutMembers tag) := by
  rw [partsFault]
  split
  · rename_i items hItems
    simp [hItems]
  · rename_i hNone
    rw [Option.some.injEq, eq_comm]
    exact (and_iff_right hNone).symm

theorem contentFault_eq_some_iff {members : List (Text × Datum)} {tag : Tag} {failure : Failure} :
    body.contentFault members tag = some failure ↔
      Datum.lookup "content" members = none ∧ failure = body.failure (.withoutContent tag) := by
  rw [contentFault]
  cases Datum.lookup "content" members <;> simp [eq_comm]

/-- What is wrong with a node with a tag, its parts aside. -/
def tagFault (members : List (Text × Datum)) : Tag → Option Failure
  | .symbol => none
  | .terminal _ => none
  | .blank => none
  | .sequence => body.partsFault members .sequence
  | .choice => body.partsFault members .choice
  | .repetition kind => body.contentFault members (.repetition kind)
  | .precedence kind =>
    if body.settings.stripPrecedence then body.contentFault members (.precedence kind)
    else some (body.unsupported (.precedence kind))
  | .foreign construct => some (body.unsupported (.foreign construct))

/-- What is wrong with a node, its parts aside. -/
def fault : Datum → Option Failure
  | .object members =>
    match Datum.lookup "type" members with
    | some (.text spelling) =>
      match Tag.ofText? spelling with
      | some tag => body.tagFault members tag
      | none => some (body.failure (.unknownTag spelling))
    | tag => some (body.tagNotText tag)
  | node => some (body.failure (.nodeNotObject node.kind))

theorem fault_of_tag? {members : List (Text × Datum)} {tag : Tag}
    (h : Datum.tag? members = some tag) :
    body.fault (.object members) = body.tagFault members tag := by
  rw [fault, Datum.lookup_type_of_tag? h]
  simp only [Tag.ofText?_text]

theorem tagNotText_eq_or (tag : Option Datum) :
    (∃ literal, body.tagNotText tag = body.failure (.tagNotText literal)) ∨
      body.tagNotText tag = .integerTooLong := by
  rw [tagNotText]
  cases Datum.literal? tag with
  | some literal => exact .inl ⟨literal, rfl⟩
  | none => exact .inr rfl

/-- A node without a known tag has a fault, and that is all there is to it. -/
theorem fault_of_tag?_eq_none {members : List (Text × Datum)} (h : Datum.tag? members = none) :
    (∃ spelling, body.fault (.object members) = some (body.failure (.unknownTag spelling))) ∨
      (∃ literal, body.fault (.object members) = some (body.failure (.tagNotText literal))) ∨
      body.fault (.object members) = some .integerTooLong := by
  rw [fault]
  split
  · rename_i spelling hType
    rw [Datum.tag?, hType] at h
    simp only at h
    exact .inl ⟨spelling, by rw [h]⟩
  · simp only [Option.some.injEq]
    exact .inr (body.tagNotText_eq_or _)

end Body

/-! ## The first fault -/

namespace Draft

variable {body : Body}

/-- The scan of the content of a node is that of the member `content`. -/
theorem scanContent_eq {members : List (Text × Datum)} (tag : Tag) (records : Log) :
    scanContent body tag records members =
      match Datum.lookup "content" members with
      | none => body.fail (.withoutContent tag)
      | some content => Traced.report records >>= fun _ => scan body content := by
  induction members with
  | nil => rfl
  | cons member rest ih =>
      obtain ⟨key, value⟩ := member
      rw [scanContent, Datum.lookup]
      split
      · rfl
      · exact ih

/-- The scan of the members of a node is that of the items of the member `members`. -/
theorem scanMembers_eq {members : List (Text × Datum)} (tag : Tag) :
    scanMembers body tag members =
      match Datum.lookup "members" members with
      | some (.array items) => scanItems body items
      | _ => body.fail (.withoutMembers tag) := by
  induction members with
  | nil => rfl
  | cons member rest ih =>
      obtain ⟨key, value⟩ := member
      unfold scanMembers
      rw [Datum.lookup]
      split
      · cases value <;> rfl
      · exact ih

theorem failure?_scanItems {items : List Datum}
    (ih : ∀ item ∈ items, (scan body item).failure? =
      (item.visited body.settings.stripPrecedence).findSome? body.fault) :
    (scanItems body items).failure? =
      (Datum.visitedItems body.settings.stripPrecedence items).findSome? body.fault := by
  induction items with
  | nil => rfl
  | cons item rest ihRest =>
      rw [scanItems, Datum.visitedItems, List.findSome?_append, ← ih item List.mem_cons_self,
        ← ihRest fun other hOther => ih other (List.mem_cons_of_mem _ hOther)]
      exact Traced.failure?_bind fun draft => Traced.failure?_bind_pure _

/-- The member `content` is missing, or else the fault is in it. -/
theorem failure?_scanContent {members : List (Text × Datum)} (tag : Tag) (records : Log)
    (ih : ∀ {content}, Datum.lookup "content" members = some content →
      (scan body content).failure? =
        (content.visited body.settings.stripPrecedence).findSome? body.fault) :
    (scanContent body tag records members).failure? =
      (body.contentFault members tag).or
        ((Datum.visitedContent body.settings.stripPrecedence members).findSome? body.fault) := by
  rw [scanContent_eq, Datum.visitedContent_eq, Body.contentFault]
  cases hContent : Datum.lookup "content" members with
  | none => rfl
  | some content => exact (Traced.failure?_report_bind records _).trans (ih hContent)

/-- The member `members` is no list, or else the fault is in one of its items. -/
theorem failure?_scanMembers {members : List (Text × Datum)} (tag : Tag)
    (ih : ∀ {items}, Datum.lookup "members" members = some (.array items) →
      ∀ item ∈ items, (scan body item).failure? =
        (item.visited body.settings.stripPrecedence).findSome? body.fault) :
    (scanMembers body tag members).failure? =
      (body.partsFault members tag).or
        ((Datum.visitedMembers body.settings.stripPrecedence members).findSome? body.fault) := by
  rw [scanMembers_eq, Datum.visitedMembers_eq, Body.partsFault]
  cases hMembers : Datum.lookup "members" members with
  | none => rfl
  | some found =>
      cases found with
      | array items => exact failure?_scanItems (ih hMembers)
      | _ => rfl

/-- The scan fails exactly if a visited node has a fault, and reports the first one. -/
theorem failure?_scan (body : Body) (node : Datum) :
    (scan body node).failure? =
      (node.visited body.settings.stripPrecedence).findSome? body.fault := by
  induction node using Datum.nodeInduction with
  | other node hNode =>
      cases node with
      | object members => exact absurd rfl (hNode members)
      | _ => rfl
  | object members ihPart ihItem =>
      have hFirst : ∀ later : List Datum, (Datum.object members :: later).findSome? body.fault =
          (body.fault (.object members)).or (later.findSome? body.fault) := by
        intro later
        rw [List.findSome?_cons]
        cases body.fault (.object members) <;> rfl
      rw [scan, Datum.visited, hFirst, Body.fault, Datum.tag?]
      cases hType : Datum.lookup "type" members with
      | none => rfl
      | some found =>
          cases found with
          | text spelling =>
              simp only
              cases Tag.ofText? spelling with
              | none => rfl
              | some tag =>
                  cases tag with
                  | symbol => rfl
                  | terminal kind => rfl
                  | blank => rfl
                  | sequence =>
                      exact (Traced.failure?_bind_pure _).trans (failure?_scanMembers _ ihItem)
                  | choice =>
                      exact (Traced.failure?_bind_pure _).trans (failure?_scanMembers _ ihItem)
                  | repetition kind =>
                      exact (Traced.failure?_bind_pure _).trans (failure?_scanContent _ [] ihPart)
                  | precedence kind =>
                      simp only [Body.tagFault]
                      split
                      · exact failure?_scanContent _ _ ihPart
                      · rfl
                  | foreign construct => rfl
          | _ => rfl

/-- The nodes that the scan comes to before it stops: those that it visits, up to the first one
with a fault. -/
def reached (body : Body) (node : Datum) : List Datum :=
  let visited := node.visited body.settings.stripPrecedence
  visited.take (visited.findIdx (fun part => (body.fault part).isSome) + 1)

theorem mem_visited_of_mem_reached {node part : Datum} (h : part ∈ reached body node) :
    part ∈ node.visited body.settings.stripPrecedence := List.mem_of_mem_take h

/-- What the scan reports is the fault of a node that it came to. -/
theorem exists_fault_of_scan {node : Datum} {failure : Failure}
    (h : (scan body node).outcome = .error failure) :
    ∃ part ∈ reached body node, body.fault part = some failure := by
  rw [← Traced.failure?_eq_some_iff, failure?_scan, List.findSome?_eq_some_iff] at h
  obtain ⟨before, part, later, hVisited, hFault, hBefore⟩ := h
  refine ⟨part, ?_, hFault⟩
  have hIndex : (before ++ part :: later).findIdx (fun part => (body.fault part).isSome) =
      before.length := by
    rw [List.findIdx_append, if_neg]
    · simp [List.findIdx_cons, hFault]
    · simpa using hBefore
  rw [reached, hVisited, hIndex, List.take_append]
  simp

end Draft

end TreeTypes
