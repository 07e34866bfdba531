import TreeTypes.Proofs.Expr.Decoding

/-!
# Precedence is transparent

The scan unwraps nodes that attach a precedence while it rejects other nodes
and builds the draft. Unwrapping could also be done before: take the node,
put the content of every such node in its place, and decode the rest without
any unwrapping. Both give the same expression, and where they fail they fail
in the same way, since the scan comes to the other nodes in the same order.

The one exception is a node that attaches a precedence and has no content.
There is nothing to put in its place, so it stays and is refused for a reason
of its own. It matters only if the scan comes to it; after an earlier fault
neither way comes so far.

What is lost in the earlier unwrapping is the record: decoding in one go warns
of every precedence that it drops, in the order of the nodes.

## Main definitions

* `Datum.erase` — a node without the nodes that attach a precedence.
* `Body.warnings` — the warnings about the nodes that attach one.

## Main results

* `Draft.agrees_scan_erase` — the scan unwraps as erasure does.
* `Draft.log_scan` — what the scan records.
* `Expr.decode_erase` — decoding and erasing precedence.
-/

namespace TreeTypes

/-! ## Erasing precedence -/

namespace Datum

/-- The precedence that a node attaches. -/
def precedence? : Datum → Option Precedence
  | object members =>
    match tag? members with
    | some (.precedence kind) => some kind
    | _ => none
  | _ => none

/-- The content of a node. -/
def content? : Datum → Option Datum
  | object members => lookup "content" members
  | _ => none

mutual

/--
The node without the nodes that attach a precedence, at the places that the
scan looks at: the content is in their place, and everything else is as it
was. Without content they stay.
-/
def erase : Datum → Datum
  | object members =>
    match tag? members with
    | some .sequence => object (eraseMembers members)
    | some .choice => object (eraseMembers members)
    | some (.repetition _) => object (eraseContent members)
    | some (.precedence _) => erasedContent (object members) members
    | _ => object members
  | node => node

/-- The member `content` without precedence, or a node in its stead. -/
def erasedContent (node : Datum) : List (Text × Datum) → Datum
  | [] => node
  | (key, value) :: rest => if key = "content" then erase value else erasedContent node rest

/-- Members with precedence erased in `content`. -/
def eraseContent : List (Text × Datum) → List (Text × Datum)
  | [] => []
  | (key, value) :: rest =>
    if key = "content" then (key, erase value) :: rest else (key, value) :: eraseContent rest

/-- Members with precedence erased in the items of `members`. -/
def eraseMembers : List (Text × Datum) → List (Text × Datum)
  | [] => []
  | (key, value) :: rest =>
    if key = "members" then
      match value with
      | array items => (key, array (eraseItems items)) :: rest
      | other => (key, other) :: rest
    else (key, value) :: eraseMembers rest

/-- Items without precedence. -/
def eraseItems : List Datum → List Datum
  | [] => []
  | item :: rest => erase item :: eraseItems rest

end

variable {members : List (Text × Datum)}

/-- Content takes the place of a node that attaches a precedence. -/
theorem erasedContent_eq (node : Datum) :
    erasedContent node members =
      match lookup "content" members with
      | some content => content.erase
      | none => node := by
  induction members with
  | nil => rfl
  | cons member rest ih =>
      obtain ⟨key, value⟩ := member
      rw [erasedContent, lookup]
      split
      · rfl
      · exact ih

theorem lookup_content_eraseContent :
    lookup "content" (eraseContent members) = (lookup "content" members).map erase := by
  induction members with
  | nil => rfl
  | cons member rest ih =>
      obtain ⟨key, value⟩ := member
      rw [eraseContent, lookup]
      split
      · rename_i hKey
        rw [lookup, if_pos hKey, Option.map_some]
      · rename_i hKey
        rw [lookup, if_neg hKey, ih]

theorem lookup_eraseContent {key : Text} (hOther : "content" ≠ key) :
    lookup key (eraseContent members) = lookup key members := by
  induction members with
  | nil => rfl
  | cons member rest ih =>
      obtain ⟨found, value⟩ := member
      rw [eraseContent]
      split
      · rename_i hKey
        subst hKey
        rw [lookup, lookup, if_neg hOther, if_neg hOther]
      · rw [lookup, lookup, ih]

theorem lookup_members_eraseMembers :
    lookup "members" (eraseMembers members) =
      match lookup "members" members with
      | some (array items) => some (array (eraseItems items))
      | found => found := by
  induction members with
  | nil => rfl
  | cons member rest ih =>
      obtain ⟨key, value⟩ := member
      unfold eraseMembers
      rw [lookup]
      split
      · rename_i hKey
        cases value <;> simp [lookup, hKey]
      · rename_i hKey
        rw [lookup, if_neg hKey, ih]

theorem lookup_eraseMembers {key : Text} (hOther : "members" ≠ key) :
    lookup key (eraseMembers members) = lookup key members := by
  induction members with
  | nil => rfl
  | cons member rest ih =>
      obtain ⟨found, value⟩ := member
      unfold eraseMembers
      split
      · rename_i hKey
        subst hKey
        cases value <;> simp [lookup, hOther]
      · rw [lookup, lookup, ih]

end Datum

/-! ## Decoding either way -/

namespace Body

/-- The body with another setting about precedence. -/
def withStrip (body : Body) (strip : Bool) : Body :=
  { body with settings := { body.settings with stripPrecedence := strip } }

/-- The failures of nodes that attach a precedence to nothing. -/
def LacksContent (body : Body) (failure : Failure) : Prop :=
  ∃ kind, failure = body.failure (.withoutContent (.precedence kind))

/-- The warnings about those nodes that attach a precedence. -/
def warnings (body : Body) (nodes : List Datum) : Log :=
  (nodes.filterMap Datum.precedence?).map fun kind => body.stripping (.precedence kind)

variable (body : Body) {members : List (Text × Datum)}

theorem warnings_append (first later : List Datum) :
    body.warnings (first ++ later) = body.warnings first ++ body.warnings later := by
  rw [warnings, List.filterMap_append, List.map_append]
  rfl

theorem warnings_precedence {kind : Precedence}
    (h : Datum.tag? members = some (.precedence kind)) (later : List Datum) :
    body.warnings (.object members :: later) =
      body.stripping (.precedence kind) :: body.warnings later := by
  have hKind : (Datum.object members).precedence? = some kind := by rw [Datum.precedence?, h]
  rw [warnings, List.filterMap_cons_some hKind, List.map_cons]
  rfl

theorem warnings_other {tag : Tag} (h : Datum.tag? members = some tag)
    (hOther : ∀ kind, tag ≠ .precedence kind) (later : List Datum) :
    body.warnings (.object members :: later) = body.warnings later := by
  have hNone : (Datum.object members).precedence? = none := by
    rw [Datum.precedence?, h]
    cases tag with
    | precedence kind => exact absurd rfl (hOther kind)
    | _ => rfl
  rw [warnings, List.filterMap_cons_none hNone]
  rfl

end Body

namespace Draft

variable {body : Body}

theorem agrees_scanItems_erase {items : List Datum}
    (ih : ∀ item ∈ items, Traced.Agrees body.LacksContent
      (scan (body.withStrip true) item) (scan (body.withStrip false) item.erase)) :
    Traced.Agrees body.LacksContent (scanItems (body.withStrip true) items)
      (scanItems (body.withStrip false) (Datum.eraseItems items)) := by
  induction items with
  | nil => exact Traced.Agrees.refl _
  | cons item rest ihRest =>
      rw [scanItems, Datum.eraseItems, scanItems]
      refine (ih item List.mem_cons_self).bind fun draft => ?_
      exact (ihRest fun other hOther => ih other (List.mem_cons_of_mem _ hOther)).bind
        fun drafts => Traced.Agrees.refl _

theorem agrees_scanMembers_erase {members : List (Text × Datum)} (tag : Tag)
    (ih : ∀ {items}, Datum.lookup "members" members = some (.array items) →
      ∀ item ∈ items, Traced.Agrees body.LacksContent
        (scan (body.withStrip true) item) (scan (body.withStrip false) item.erase)) :
    Traced.Agrees body.LacksContent (scanMembers (body.withStrip true) tag members)
      (scanMembers (body.withStrip false) tag (Datum.eraseMembers members)) := by
  rw [scanMembers_eq, scanMembers_eq, Datum.lookup_members_eraseMembers]
  cases hMembers : Datum.lookup "members" members with
  | none => exact Traced.Agrees.refl _
  | some found =>
      cases found with
      | array items => exact agrees_scanItems_erase (ih hMembers)
      | _ => exact Traced.Agrees.refl _

theorem agrees_scanContent_erase {members : List (Text × Datum)} (tag : Tag)
    (ih : ∀ {content}, Datum.lookup "content" members = some content →
      Traced.Agrees body.LacksContent
        (scan (body.withStrip true) content) (scan (body.withStrip false) content.erase)) :
    Traced.Agrees body.LacksContent (scanContent (body.withStrip true) tag [] members)
      (scanContent (body.withStrip false) tag [] (Datum.eraseContent members)) := by
  rw [scanContent_eq, scanContent_eq, Datum.lookup_content_eraseContent]
  cases hContent : Datum.lookup "content" members with
  | none => exact Traced.Agrees.refl _
  | some content => exact (Traced.Agrees.refl _).bind fun _ => ih hContent

/-- Content is scanned in the place of a node that attaches a precedence to it. -/
theorem agrees_scan_erasedContent {members : List (Text × Datum)} {kind : Precedence}
    (ih : ∀ {content}, Datum.lookup "content" members = some content →
      Traced.Agrees body.LacksContent
        (scan (body.withStrip true) content) (scan (body.withStrip false) content.erase))
    (records : Log) (node : Datum) :
    Traced.Agrees body.LacksContent
      (scanContent (body.withStrip true) (.precedence kind) records members)
      (scan (body.withStrip false) (Datum.erasedContent node members)) := by
  rw [scanContent_eq, Datum.erasedContent_eq]
  cases hContent : Datum.lookup "content" members with
  | none => exact Traced.Agrees.of_excused ⟨kind, rfl⟩ rfl
  | some content => exact (ih hContent).of_outcome (Traced.outcome_report_bind records _)

/-- A node without a known tag is refused for the same reason whether precedence is unwrapped or
not. -/
theorem scan_of_tag?_eq_none {members : List (Text × Datum)} (h : Datum.tag? members = none)
    (strip : Bool) :
    scan (body.withStrip strip) (.object members) = scan body (.object members) := by
  rw [Datum.tag?] at h
  rw [scan, scan]
  cases hType : Datum.lookup "type" members with
  | none => rfl
  | some found =>
      cases found with
      | text spelling =>
          simp only [hType] at h
          simp only [h]
          rfl
      | _ => rfl

/-- The scan that unwraps a node does to it what the other one does to the node without
precedence, unless it comes to a node without content. -/
theorem agrees_scan_erase (body : Body) (node : Datum) :
    Traced.Agrees body.LacksContent
      (scan (body.withStrip true) node) (scan (body.withStrip false) node.erase) := by
  induction node using Datum.nodeInduction with
  | other node hNode =>
      cases node with
      | object members => exact absurd rfl (hNode members)
      | _ => exact Traced.Agrees.refl _
  | object members ihPart ihItem =>
      cases hTag : Datum.tag? members with
      | none =>
          have hErase : (Datum.object members).erase = .object members := by
            rw [Datum.erase, hTag]
          rw [hErase, scan_of_tag?_eq_none hTag, scan_of_tag?_eq_none hTag]
          exact Traced.Agrees.refl _
      | some tag =>
          have hType := Datum.lookup_type_of_tag? hTag
          have hInMembers : Datum.lookup "type" (Datum.eraseMembers members) = _ :=
            (Datum.lookup_eraseMembers (by decide)).trans hType
          have hInContent : Datum.lookup "type" (Datum.eraseContent members) = _ :=
            (Datum.lookup_eraseContent (by decide)).trans hType
          rw [Datum.erase, hTag]
          cases tag with
          | sequence =>
              simp only [scan, hType, hInMembers, Tag.ofText?_text]
              exact (agrees_scanMembers_erase _ ihItem).bind fun drafts => Traced.Agrees.refl _
          | choice =>
              simp only [scan, hType, hInMembers, Tag.ofText?_text]
              exact (agrees_scanMembers_erase _ ihItem).bind fun drafts => Traced.Agrees.refl _
          | repetition kind =>
              simp only [scan, hType, hInContent, Tag.ofText?_text]
              exact (agrees_scanContent_erase _ ihPart).bind fun draft => Traced.Agrees.refl _
          | precedence kind =>
              simp only [scan, hType, Tag.ofText?_text]
              exact agrees_scan_erasedContent ihPart _ _
          | symbol =>
              simp only [scan, hType, Tag.ofText?_text]
              exact Traced.Agrees.refl _
          | terminal kind =>
              simp only [scan, hType, Tag.ofText?_text]
              exact Traced.Agrees.refl _
          | blank =>
              simp only [scan, hType, Tag.ofText?_text]
              exact Traced.Agrees.refl _
          | foreign construct =>
              simp only [scan, hType, Tag.ofText?_text]
              exact Traced.Agrees.refl _

/-! ## Records of the scan -/

theorem log_scanItems {items : List Datum} {drafts : List Draft}
    (ih : ∀ item ∈ items, ∀ draft, (scan body item).outcome = .ok draft →
      (scan body item).log = body.warnings (item.visited body.settings.stripPrecedence))
    (h : (scanItems body items).outcome = .ok drafts) :
    (scanItems body items).log =
      body.warnings (Datum.visitedItems body.settings.stripPrecedence items) := by
  induction items generalizing drafts with
  | nil => rfl
  | cons item rest ihRest =>
      rw [scanItems] at h ⊢
      obtain ⟨draft, hDraft, hLater⟩ := Traced.outcome_bind_eq_ok_iff.1 h
      obtain ⟨others, hOthers, -⟩ := Traced.outcome_bind_eq_ok_iff.1 hLater
      rw [Traced.log_bind_of_ok hDraft, Traced.log_bind_pure hOthers,
        ih item List.mem_cons_self draft hDraft,
        ihRest (fun other hOther => ih other (List.mem_cons_of_mem _ hOther)) hOthers,
        Datum.visitedItems, Body.warnings_append]

theorem log_scanMembers {members : List (Text × Datum)} {tag : Tag} {drafts : List Draft}
    (ih : ∀ {items}, Datum.lookup "members" members = some (.array items) →
      ∀ item ∈ items, ∀ draft, (scan body item).outcome = .ok draft →
        (scan body item).log = body.warnings (item.visited body.settings.stripPrecedence))
    (h : (scanMembers body tag members).outcome = .ok drafts) :
    (scanMembers body tag members).log =
      body.warnings (Datum.visitedMembers body.settings.stripPrecedence members) := by
  obtain ⟨items, hItems, hScan⟩ := outcome_scanMembers_eq_ok_iff.1 h
  rw [scanMembers_eq, Datum.visitedMembers_eq, hItems]
  exact log_scanItems (ih hItems) hScan

theorem log_scanContent {members : List (Text × Datum)} {tag : Tag} {records : Log} {draft : Draft}
    (ih : ∀ {content}, Datum.lookup "content" members = some content →
      ∀ draft, (scan body content).outcome = .ok draft →
        (scan body content).log = body.warnings (content.visited body.settings.stripPrecedence))
    (h : (scanContent body tag records members).outcome = .ok draft) :
    (scanContent body tag records members).log = records ++
      body.warnings (Datum.visitedContent body.settings.stripPrecedence members) := by
  obtain ⟨content, hContent, hScan⟩ := outcome_scanContent_eq_ok_iff.1 h
  rw [scanContent_eq, Datum.visitedContent_eq, hContent]
  exact (Traced.log_bind_of_ok rfl _).trans (congrArg (records ++ ·) (ih hContent draft hScan))

/-- A scan that succeeds has warned of every precedence that it came to, in their order, and of
nothing else. -/
theorem log_scan {node : Datum} {draft : Draft} (h : (scan body node).outcome = .ok draft) :
    (scan body node).log = body.warnings (node.visited body.settings.stripPrecedence) := by
  induction node using Datum.nodeInduction generalizing draft with
  | other node hNode =>
      obtain ⟨members, -, hObject, -⟩ := exists_tag_of_scan h
      exact absurd hObject (hNode members)
  | object members ihPart ihItem =>
      obtain ⟨_, tag, hObject, hType⟩ := exists_tag_of_scan h
      cases hObject
      have hTag := Datum.tag?_of_lookup_type _ hType
      simp only [scan, hType, Tag.ofText?_text] at h ⊢
      simp only [Datum.visited, hTag]
      cases tag with
      | sequence =>
          obtain ⟨drafts, hDrafts, -⟩ := Traced.outcome_bind_eq_ok_iff.1 h
          rw [body.warnings_other hTag (by simp), ← log_scanMembers ihItem hDrafts]
          exact Traced.log_bind_pure hDrafts sequence
      | choice =>
          obtain ⟨drafts, hDrafts, -⟩ := Traced.outcome_bind_eq_ok_iff.1 h
          rw [body.warnings_other hTag (by simp), ← log_scanMembers ihItem hDrafts]
          exact Traced.log_bind_pure hDrafts choice
      | repetition kind =>
          obtain ⟨content, hContent, -⟩ := Traced.outcome_bind_eq_ok_iff.1 h
          rw [body.warnings_other hTag (by simp), ← List.nil_append (body.warnings _),
            ← log_scanContent ihPart hContent]
          exact Traced.log_bind_pure hContent (repetition kind)
      | precedence kind =>
          rw [body.warnings_precedence hTag]
          simp only at h ⊢
          split at h
          · rename_i hStrip
            rw [if_pos hStrip, if_pos hStrip]
            exact log_scanContent ihPart h
          · exact absurd h (by simp [Body.failUnsupported, Traced.fail])
      | symbol =>
          rw [body.warnings_other hTag (by simp)]
          rfl
      | terminal kind =>
          rw [body.warnings_other hTag (by simp)]
          rfl
      | blank =>
          rw [body.warnings_other hTag (by simp)]
          rfl
      | foreign construct => exact absurd h (by simp [Body.failUnsupported, Traced.fail])

end Draft

/-! ## Nodes without content -/

/-- Only a node that attaches a precedence to nothing has an excused fault. -/
theorem Body.content?_of_lacksContent {body : Body} {part : Datum} {failure : Failure}
    (hFault : body.fault part = some failure) (hLacks : body.LacksContent failure) :
    part.precedence? ≠ none ∧ part.content? = none := by
  obtain ⟨kind, rfl⟩ := hLacks
  have hForeign : ∀ tag, some (body.unsupported tag) ≠
      some (body.failure (.withoutContent (.precedence kind))) := by
    simp [unsupported, failure, Failure.located, Diagnostic.unsupported]
  cases part with
  | object members =>
      cases hTag : Datum.tag? members with
      | none =>
          rcases body.fault_of_tag?_eq_none hTag with ⟨_, hOther⟩ | ⟨_, hOther⟩ | hOther
          · rw [hOther, Option.some.injEq, failure_inj] at hFault
            exact absurd hFault (by simp)
          · rw [hOther, Option.some.injEq, failure_inj] at hFault
            exact absurd hFault (by simp)
          · rw [hOther, Option.some.injEq] at hFault
            exact absurd hFault (by simp [failure, Failure.located])
      | some tag =>
          rw [fault_of_tag? body hTag] at hFault
          cases tag with
          | precedence found =>
              rw [tagFault] at hFault
              split at hFault
              · exact ⟨by simp [Datum.precedence?, hTag],
                  (body.contentFault_eq_some_iff.1 hFault).1⟩
              · exact absurd hFault (hForeign _)
          | sequence =>
              have hCause := (body.partsFault_eq_some_iff.1 hFault).2
              exact absurd (body.failure_inj.1 hCause) (by simp)
          | choice =>
              have hCause := (body.partsFault_eq_some_iff.1 hFault).2
              exact absurd (body.failure_inj.1 hCause) (by simp)
          | repetition found =>
              have hCause := (body.contentFault_eq_some_iff.1 hFault).2
              exact absurd (body.failure_inj.1 hCause) (by simp)
          | foreign construct => exact absurd hFault (hForeign _)
          | _ => exact absurd hFault (by simp [tagFault])
  | _ => exact absurd (body.failure_inj.1 (Option.some.inj hFault)) (by simp)

namespace Expr

/-- Decoding unwraps the nodes that attach a precedence as if they had been erased before: it
gives the same expression or fails in the same way, if all those nodes to which the scan comes
have content. When it succeeds it has warned of each of them, in pre-order, and of nothing else. -/
theorem decode_erase [Nesting] (body : Body) (node : Datum)
    (hContent : ∀ part ∈ Draft.reached (body.withStrip true) node,
      part.precedence? ≠ none → part.content? ≠ none) :
    (decode (body.withStrip true) node).outcome =
        (decode (body.withStrip false) node.erase).outcome ∧
      ∀ e, (decode (body.withStrip true) node).outcome = .ok e →
        (decode (body.withStrip true) node).log =
          ((node.visited true).filterMap Datum.precedence?).map fun kind =>
            body.stripping (.precedence kind) := by
  have hAgrees : Traced.Agrees body.LacksContent (decode (body.withStrip true) node)
      (decode (body.withStrip false) node.erase) :=
    (Draft.agrees_scan_erase body node).bind fun draft => Traced.Agrees.refl _
  refine ⟨hAgrees fun failure hLacks hFails => ?_, fun e h => ?_⟩
  · rcases Traced.outcome_bind_eq_error_iff.1 hFails with hScan | ⟨draft, -, hCheck⟩
    · obtain ⟨part, hPart, hFault⟩ := Draft.exists_fault_of_scan hScan
      obtain ⟨hPrecedence, hNone⟩ := Body.content?_of_lacksContent hFault hLacks
      exact hContent part hPart hPrecedence hNone
    · obtain ⟨kind, rfl⟩ := hLacks
      split at hCheck
      · exact absurd hCheck (Traced.outcome_pure_ne_error _ _)
      · exact absurd (body.failure_inj.1 (Except.error.inj hCheck)) (by simp)
  · obtain ⟨draft, hScan, hCheck⟩ := outcome_decodeBelow_eq_ok_iff.1 h
    rw [decode, decodeBelow, Traced.log_bind_of_ok hScan, Draft.log_scan hScan, hCheck]
    exact List.append_nil _

end Expr

/-- A repetition of a choice inside a precedence; one alternative has two more on top of each
other. -/
def stacked : Datum :=
  .object [("type", .text "REPEAT"), ("content", .object [("type", .text "PREC"), ("value", .int 1),
    ("content", .object [("type", .text "CHOICE"), ("members", .array [
      .object [("content", .object [("type", .text "PREC_RIGHT"),
          ("content", .object [("type", .text "SYMBOL"), ("name", .text "item")])]),
        ("type", .text "PREC_DYNAMIC")],
      .object [("type", .text "BLANK")]])])])]

theorem Expr.decode_erase_stacked :
    (∀ part ∈ Draft.reached (Body.withStrip ⟨{}, "list", none⟩ true) stacked,
        part.precedence? ≠ none → part.content? ≠ none) ∧
      (@decode (.upTo 254) (Body.withStrip ⟨{}, "list", none⟩ false) stacked.erase).outcome =
        .ok (.repetition .zeroOrMore (.choice [.symbol "item", .blank])) ∧
      (@decode (.upTo 254) (Body.withStrip ⟨{}, "list", none⟩ true) stacked).log =
        [⟨.warning, .decoding, "Stripping PREC in rule 'list'"⟩,
          ⟨.warning, .decoding, "Stripping PREC_DYNAMIC in rule 'list'"⟩,
          ⟨.warning, .decoding, "Stripping PREC_RIGHT in rule 'list'"⟩] := by
  let _ : Nesting := .upTo 254
  have hVisited : ∀ part ∈ stacked.visited true, part.precedence? ≠ none → part.content? ≠ none := by
    decide +kernel
  have hContent : ∀ part ∈ Draft.reached (Body.withStrip ⟨{}, "list", none⟩ true) stacked,
      part.precedence? ≠ none → part.content? ≠ none := fun part hPart =>
    hVisited part (Draft.mem_visited_of_mem_reached hPart)
  obtain ⟨hOutcome, hLog⟩ := decode_erase ⟨{}, "list", none⟩ stacked hContent
  have hDecoded : (decode (Body.withStrip ⟨{}, "list", none⟩ true) stacked).outcome =
      .ok (.repetition .zeroOrMore (.choice [.symbol "item", .blank])) := rfl
  exact ⟨hContent, hOutcome.symm.trans hDecoded, (hLog _ hDecoded).trans (by decide +kernel)⟩

end TreeTypes
