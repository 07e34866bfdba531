import TreeTypes.Proofs.Expr.Visiting

/-!
# What the decoder accepts

The decoder goes over a node twice. The scan looks at tags and at the places
of parts, and unwraps precedence on its way; the check looks at names, values
and the lengths of lists, in what the scan has left. For each tag one lemma
says what both passes together ask of a node with this tag, in terms of the
same question about its parts. Soundness is then an induction over the node,
completeness one over its representation.

The check refuses two things that the format does not mention: a name with a
lone surrogate, and a node with too many others around it. Whether a node is
decoded is therefore known for every document (`Expr.decode_eq_ok_iff`), and
follows the format alone where every text of the node is made of characters
and nodes do not stand too deep. How long the program itself can recurse is no
part of this: it is a limit of the machine, and not met here.

## Main definitions

* `Failure.IsRefusal` — the failures that the decoder means.
* `Datum.HasUnshownTag` — the nodes whose refusal fails itself.

## Main results

* `Expr.decode_eq_ok_iff` — what is decoded, for all documents.
* `Expr.valid_decode` — a decoded body is valid.
* `Expr.isRefusal_or_of_decode` — a node that is not decoded is refused, or
  its refusal fails.
* `Expr.decode_eq_ok_iff_represents` — the decoder accepts its format, as deep
  as nodes may stand.
* `Expr.exists_represents_refused` — a node of the format that is refused.
-/

namespace TreeTypes

/-! ## Tags -/

theorem Tag.text_terminal (kind : TerminalKind) : (terminal kind).text = kind.tag := by
  cases kind <;> rfl

theorem Tag.text_repetition (kind : RepetitionKind) : (repetition kind).text = kind.tag := by
  cases kind <;> rfl

theorem mem_precedenceTags_iff {tag : Text} :
    tag ∈ precedenceTags ↔ ∃ kind, tag = (Tag.precedence kind).text := by
  constructor
  · intro h
    simp only [precedenceTags, List.mem_cons, List.not_mem_nil, or_false] at h
    rcases h with rfl | rfl | rfl | rfl
    · exact ⟨.plain, rfl⟩
    · exact ⟨.left, rfl⟩
    · exact ⟨.right, rfl⟩
    · exact ⟨.dynamic, rfl⟩
  · rintro ⟨kind, rfl⟩
    cases kind <;> decide

/-! ## The scan of the parts of a node -/

theorem Body.outcome_fail_ne_ok {α : Type} (body : Body) (cause : Cause) (a : α) :
    (body.fail cause : Traced α).outcome ≠ .ok a := by
  simp [fail, Traced.fail]

namespace Draft

variable {body : Body} {members : List (Text × Datum)}

/-- Only an object with a known tag passes the scan. -/
theorem exists_tag_of_scan {node : Datum} {draft : Draft}
    (h : (scan body node).outcome = .ok draft) :
    ∃ members tag, node = .object members ∧
      Datum.lookup "type" members = some (.text (Tag.text tag)) := by
  cases node with
  | object members =>
      rw [scan] at h
      split at h
      · rename_i spelling hType
        cases hRead : Tag.ofText? spelling with
        | none =>
            rw [hRead] at h
            exact absurd h (by simp [Body.fail, Traced.fail])
        | some tag => exact ⟨members, tag, rfl, by rw [hType, Tag.eq_text_of_ofText? hRead]⟩
      · exact absurd h (by simp [Traced.fail])
  | _ => exact absurd h (by simp [scan, Body.fail, Traced.fail])

theorem outcome_scanContent_eq_ok_iff {tag : Tag} {records : Log} {draft : Draft} :
    (scanContent body tag records members).outcome = .ok draft ↔
      ∃ content, Datum.lookup "content" members = some content ∧
        (scan body content).outcome = .ok draft := by
  rw [scanContent_eq]
  cases Datum.lookup "content" members with
  | none => simp [Body.outcome_fail_ne_ok]
  | some content => simp [Traced.outcome_report_bind]

theorem outcome_scanMembers_eq_ok_iff {tag : Tag} {drafts : List Draft} :
    (scanMembers body tag members).outcome = .ok drafts ↔
      ∃ items, Datum.lookup "members" members = some (.array items) ∧
        (scanItems body items).outcome = .ok drafts := by
  rw [scanMembers_eq]
  cases Datum.lookup "members" members with
  | none => simp [Body.outcome_fail_ne_ok]
  | some found => cases found <;> simp [Body.outcome_fail_ne_ok]

/-! ## The check -/

theorem checkName_eq_ok_iff {found : Option Datum} {name : Text} :
    checkName found = .ok name ↔
      found = some (.text name) ∧ name.isUnicode = true ∧ name ≠ [] := by
  constructor
  · intro h
    unfold checkName at h
    split at h
    · exact absurd h (by simp)
    · split at h
      · exact absurd h (by simp)
      · rename_i hUnicode
        split at h
        · exact absurd h (by simp)
        · rename_i hNonempty
          rw [← Except.ok.inj h]
          exact ⟨rfl, by simpa using hUnicode, hNonempty⟩
    · exact absurd h (by simp)
  · rintro ⟨rfl, hUnicode, hNonempty⟩
    simp [checkName, hUnicode, hNonempty]

theorem checkValue_eq_ok_iff {found : Option Datum} {value : Text} :
    checkValue found = .ok value ↔ found = some (.text value) := by
  cases found with
  | none => simp [checkValue]
  | some datum => cases datum <;> simp [checkValue]

theorem atField_eq_ok_iff {α : Type} {tag : Tag} {field : Text} {found : Except FieldFault α}
    {a : α} : atField tag field found = .ok a ↔ found = .ok a := by
  cases found <;> simp [atField]

variable [Nesting] {above : List Tag}

theorem guarded_eq_ok_iff {α : Type} {tag : Tag} {found : Except BodyFault α} {a : α} :
    guarded above tag found = .ok a ↔ Nesting.admits (tag :: above) = true ∧ found = .ok a := by
  rw [guarded]
  split <;> simp [*]

/-- Expressions come out of the check exactly if drafts went in. -/
theorem isEmpty_of_checkMembers {tag : Tag} {index : Nat} {drafts : List Draft} {es : List Expr}
    (h : checkMembers above tag index drafts = .ok es) : drafts.isEmpty = es.isEmpty := by
  cases drafts with
  | nil =>
      rw [checkMembers] at h
      rw [← Except.ok.inj h]
      rfl
  | cons draft rest =>
      rw [checkMembers] at h
      split at h
      · exact absurd h (by simp)
      · obtain ⟨others, -, rfl⟩ := map_eq_ok_iff.1 h
        rfl

theorem check_repetition_iff {kind : RepetitionKind} {content : Draft} {e : Expr} :
    (repetition kind content).check above = .ok e ↔
      Nesting.admits (.repetition kind :: above) = true ∧
        ∃ inner, content.check (.repetition kind :: above) = .ok inner ∧
          .repetition kind inner = e := by
  rw [check, guarded_eq_ok_iff]
  cases content.check (.repetition kind :: above) <;> simp

theorem check_sequence_iff {drafts : List Draft} {e : Expr} :
    (sequence drafts).check above = .ok e ↔
      Nesting.admits (.sequence :: above) = true ∧
        drafts.isEmpty = false ∧ ∃ es, checkMembers above .sequence 0 drafts = .ok es ∧
          .sequence es = e := by
  rw [check, guarded_eq_ok_iff, ← map_eq_ok_iff]
  cases drafts.isEmpty <;> simp [atField]

theorem check_choice_iff {drafts : List Draft} {e : Expr} :
    (choice drafts).check above = .ok e ↔
      Nesting.admits (.choice :: above) = true ∧
        drafts.isEmpty = false ∧ ∃ es, checkMembers above .choice 0 drafts = .ok es ∧
          .choice es = e := by
  rw [check, guarded_eq_ok_iff, ← map_eq_ok_iff]
  cases drafts.isEmpty <;> simp [atField]

end Draft

/-! ## The decoder, tag by tag -/

namespace Expr

variable [Nesting] {body : Body} {above : List Tag} {members : List (Text × Datum)} {e : Expr}

theorem outcome_decodeBelow_eq_ok_iff {node : Datum} :
    (decodeBelow body above node).outcome = .ok e ↔
      ∃ draft, (Draft.scan body node).outcome = .ok draft ∧ draft.check above = .ok e := by
  rw [decodeBelow, Traced.outcome_bind_eq_ok_iff]
  refine exists_congr fun draft => and_congr_right fun _ => ?_
  cases draft.check above with
  | ok checked => exact Traced.outcome_pure_eq_ok_iff.trans (Except.ok.injEq ..).symm.to_iff
  | error fault => simp [Body.fail, Traced.fail]

/-- The items of a node pass both passes one by one. The check counts them for its messages, so
the index is arbitrary. -/
theorem decode_items_iff {items : List Datum} {es : List Expr} (tag : Tag) (index : Nat) :
    (∃ drafts, (Draft.scanItems body items).outcome = .ok drafts ∧
        Draft.checkMembers above tag index drafts = .ok es) ↔
      List.Forall₂ (fun item e => (decodeBelow body (tag :: above) item).outcome = .ok e)
        items es := by
  induction items generalizing index es with
  | nil =>
      rw [List.forall₂_nil_left_iff, Draft.scanItems]
      constructor
      · rintro ⟨drafts, hDrafts, hCheck⟩
        rw [← Traced.outcome_pure_eq_ok_iff.1 hDrafts, Draft.checkMembers] at hCheck
        exact (Except.ok.inj hCheck).symm
      · rintro rfl
        exact ⟨[], rfl, rfl⟩
  | cons item rest ih =>
      rw [List.forall₂_cons_left_iff]
      simp only [Draft.scanItems, Traced.outcome_bind_eq_ok_iff, Traced.outcome_pure_eq_ok_iff]
      constructor
      · rintro ⟨drafts, ⟨draft, hDraft, others, hOthers, rfl⟩, hCheck⟩
        rw [Draft.checkMembers] at hCheck
        cases hFirst : draft.check (tag :: above) with
        | error fault =>
            rw [hFirst] at hCheck
            exact absurd hCheck (by simp)
        | ok first =>
            rw [hFirst] at hCheck
            obtain ⟨later, hLater, rfl⟩ := map_eq_ok_iff.1 hCheck
            exact ⟨first, later, outcome_decodeBelow_eq_ok_iff.2 ⟨draft, hDraft, hFirst⟩,
              (ih (index + 1)).1 ⟨others, hOthers, hLater⟩, rfl⟩
      · rintro ⟨first, later, hFirst, hLater, rfl⟩
        obtain ⟨draft, hDraft, hCheck⟩ := outcome_decodeBelow_eq_ok_iff.1 hFirst
        obtain ⟨others, hOthers, hChecks⟩ := (ih (index + 1)).2 hLater
        refine ⟨draft :: others, ⟨draft, hDraft, others, hOthers, rfl⟩, ?_⟩
        simp [Draft.checkMembers, hCheck, hChecks, Except.map]

theorem decode_symbol_iff
    (hTag : Datum.lookup "type" members = some (.text Tag.symbol.text)) :
    (decodeBelow body above (.object members)).outcome = .ok e ↔
      Nesting.admits (.symbol :: above) = true ∧
        ∃ name, Datum.lookup "name" members = some (.text name) ∧ name.isUnicode = true ∧
          name ≠ [] ∧ symbol name = e := by
  rw [outcome_decodeBelow_eq_ok_iff]
  simp only [Draft.scan, hTag, Tag.ofText?_text, Traced.outcome_pure_eq_ok_iff]
  simp [Draft.check, Draft.guarded_eq_ok_iff, map_eq_ok_iff, Draft.atField_eq_ok_iff,
    Draft.checkName_eq_ok_iff, and_assoc]

theorem decode_terminal_iff {kind : TerminalKind}
    (hTag : Datum.lookup "type" members = some (.text (Tag.terminal kind).text)) :
    (decodeBelow body above (.object members)).outcome = .ok e ↔
      Nesting.admits (.terminal kind :: above) = true ∧
        ∃ value, Datum.lookup "value" members = some (.text value) ∧ terminal kind value = e := by
  rw [outcome_decodeBelow_eq_ok_iff]
  simp only [Draft.scan, hTag, Tag.ofText?_text, Traced.outcome_pure_eq_ok_iff]
  simp [Draft.check, Draft.guarded_eq_ok_iff, map_eq_ok_iff, Draft.atField_eq_ok_iff,
    Draft.checkValue_eq_ok_iff]

theorem decode_blank_iff
    (hTag : Datum.lookup "type" members = some (.text Tag.blank.text)) :
    (decodeBelow body above (.object members)).outcome = .ok e ↔
      Nesting.admits (.blank :: above) = true ∧ blank = e := by
  rw [outcome_decodeBelow_eq_ok_iff]
  simp only [Draft.scan, hTag, Tag.ofText?_text, Traced.outcome_pure_eq_ok_iff]
  simp [Draft.check, Draft.guarded_eq_ok_iff]

/-- What both passes ask of the member `members`, whatever the tag. -/
theorem decode_members_iff {es : List Expr} (tag : Tag) :
    (∃ drafts, (Draft.scanMembers body tag members).outcome = .ok drafts ∧
        drafts.isEmpty = false ∧ Draft.checkMembers above tag 0 drafts = .ok es) ↔
      ∃ items, Datum.lookup "members" members = some (.array items) ∧ items ≠ [] ∧
        List.Forall₂ (fun item e => (decodeBelow body (tag :: above) item).outcome = .ok e)
          items es := by
  simp only [Draft.outcome_scanMembers_eq_ok_iff]
  constructor
  · rintro ⟨drafts, ⟨items, hItems, hScan⟩, hSome, hCheck⟩
    have hEach := (decode_items_iff tag 0).1 ⟨drafts, hScan, hCheck⟩
    refine ⟨items, hItems, ?_, hEach⟩
    rintro rfl
    rw [Draft.isEmpty_of_checkMembers hCheck, List.forall₂_nil_left_iff.1 hEach] at hSome
    exact absurd hSome (by simp)
  · rintro ⟨items, hItems, hNonempty, hEach⟩
    obtain ⟨drafts, hScan, hCheck⟩ := (decode_items_iff tag 0).2 hEach
    refine ⟨drafts, ⟨items, hItems, hScan⟩, ?_, hCheck⟩
    rw [Draft.isEmpty_of_checkMembers hCheck, List.isEmpty_eq_false_iff]
    rintro rfl
    exact hNonempty (List.forall₂_nil_right_iff.1 hEach)

/-- Both passes over a node whose parts are in its member `members`. -/
theorem decode_iff_of_members {tag : Tag} {draft : List Draft → Draft} {form : List Expr → Expr}
    (hScan : Draft.scan body (.object members) =
      Draft.scanMembers body tag members >>= fun drafts => pure (draft drafts))
    (hCheck : ∀ {drafts e}, (draft drafts).check above = .ok e ↔
      Nesting.admits (tag :: above) = true ∧ drafts.isEmpty = false ∧
        ∃ es, Draft.checkMembers above tag 0 drafts = .ok es ∧ form es = e) :
    (decodeBelow body above (.object members)).outcome = .ok e ↔
      Nesting.admits (tag :: above) = true ∧
        ∃ items es, Datum.lookup "members" members = some (.array items) ∧ items ≠ [] ∧
          List.Forall₂ (fun item e => (decodeBelow body (tag :: above) item).outcome = .ok e)
            items es ∧ form es = e := by
  rw [outcome_decodeBelow_eq_ok_iff]
  simp only [hScan, Traced.outcome_bind_eq_ok_iff, Traced.outcome_pure_eq_ok_iff]
  constructor
  · rintro ⟨_, ⟨drafts, hDrafts, rfl⟩, hChecked⟩
    obtain ⟨hAdmitted, hSome, es, hMembers, rfl⟩ := hCheck.1 hChecked
    obtain ⟨items, hItems, hNonempty, hEach⟩ :=
      (decode_members_iff tag).1 ⟨drafts, hDrafts, hSome, hMembers⟩
    exact ⟨hAdmitted, items, es, hItems, hNonempty, hEach, rfl⟩
  · rintro ⟨hAdmitted, items, es, hItems, hNonempty, hEach, rfl⟩
    obtain ⟨drafts, hDrafts, hSome, hMembers⟩ :=
      (decode_members_iff tag).2 ⟨items, hItems, hNonempty, hEach⟩
    exact ⟨_, ⟨drafts, hDrafts, rfl⟩, hCheck.2 ⟨hAdmitted, hSome, es, hMembers, rfl⟩⟩

theorem decode_sequence_iff
    (hTag : Datum.lookup "type" members = some (.text Tag.sequence.text)) :
    (decodeBelow body above (.object members)).outcome = .ok e ↔
      Nesting.admits (.sequence :: above) = true ∧
        ∃ items es, Datum.lookup "members" members = some (.array items) ∧ items ≠ [] ∧
          List.Forall₂ (fun item e => (decodeBelow body (.sequence :: above) item).outcome = .ok e)
            items es ∧ sequence es = e :=
  decode_iff_of_members (by simp only [Draft.scan, hTag, Tag.ofText?_text])
    Draft.check_sequence_iff

theorem decode_choice_iff
    (hTag : Datum.lookup "type" members = some (.text Tag.choice.text)) :
    (decodeBelow body above (.object members)).outcome = .ok e ↔
      Nesting.admits (.choice :: above) = true ∧
        ∃ items es, Datum.lookup "members" members = some (.array items) ∧ items ≠ [] ∧
          List.Forall₂ (fun item e => (decodeBelow body (.choice :: above) item).outcome = .ok e)
            items es ∧ choice es = e :=
  decode_iff_of_members (by simp only [Draft.scan, hTag, Tag.ofText?_text])
    Draft.check_choice_iff

theorem decode_repetition_iff {kind : RepetitionKind}
    (hTag : Datum.lookup "type" members = some (.text (Tag.repetition kind).text)) :
    (decodeBelow body above (.object members)).outcome = .ok e ↔
      Nesting.admits (.repetition kind :: above) = true ∧
        ∃ content inner, Datum.lookup "content" members = some content ∧
          (decodeBelow body (.repetition kind :: above) content).outcome = .ok inner ∧
          repetition kind inner = e := by
  simp only [outcome_decodeBelow_eq_ok_iff, Draft.scan, hTag, Tag.ofText?_text,
    Traced.outcome_bind_eq_ok_iff, Traced.outcome_pure_eq_ok_iff,
    Draft.outcome_scanContent_eq_ok_iff]
  constructor
  · rintro ⟨draft, ⟨part, ⟨content, hContent, hScan⟩, rfl⟩, hCheck⟩
    obtain ⟨hAdmitted, inner, hInner, rfl⟩ := Draft.check_repetition_iff.1 hCheck
    exact ⟨hAdmitted, content, inner, hContent, ⟨part, hScan, hInner⟩, rfl⟩
  · rintro ⟨hAdmitted, content, inner, hContent, ⟨part, hScan, hInner⟩, rfl⟩
    exact ⟨_, ⟨part, ⟨content, hContent, hScan⟩, rfl⟩,
      Draft.check_repetition_iff.2 ⟨hAdmitted, inner, hInner, rfl⟩⟩

/-- A precedence is transparent or a fault, as the settings have it. -/
theorem decode_precedence_iff {kind : Precedence}
    (hTag : Datum.lookup "type" members = some (.text (Tag.precedence kind).text)) :
    (decodeBelow body above (.object members)).outcome = .ok e ↔
      body.settings.stripPrecedence = true ∧ ∃ content,
        Datum.lookup "content" members = some content ∧
          (decodeBelow body above content).outcome = .ok e := by
  simp only [outcome_decodeBelow_eq_ok_iff, Draft.scan, hTag, Tag.ofText?_text]
  split
  · rename_i hStrip
    simp only [hStrip, true_and, Draft.outcome_scanContent_eq_ok_iff]
    constructor
    · rintro ⟨draft, ⟨content, hContent, hScan⟩, hCheck⟩
      exact ⟨content, hContent, draft, hScan, hCheck⟩
    · rintro ⟨content, hContent, draft, hScan, hCheck⟩
      exact ⟨draft, ⟨content, hContent, hScan⟩, hCheck⟩
  · rename_i hStrip
    simp [hStrip, Body.failUnsupported, Traced.fail]

theorem decode_foreign_ne_ok {construct : Foreign}
    (hTag : Datum.lookup "type" members = some (.text (Tag.foreign construct).text)) :
    (decodeBelow body above (.object members)).outcome ≠ .ok e := by
  rw [Ne, outcome_decodeBelow_eq_ok_iff]
  simp only [Draft.scan, hTag, Tag.ofText?_text]
  simp [Body.failUnsupported, Traced.fail]

/-! ## Soundness and completeness -/

/-- What is true of each item of a node and of what it is decoded to is true of all of them. -/
theorem represents_of_decode_items {tag : Tag} {items : List Datum} {es : List Expr}
    (hItems : Datum.lookup "members" members = some (.array items))
    (hDecoded : List.Forall₂ (fun item e => (decodeBelow body (tag :: above) item).outcome = .ok e)
      items es)
    (ih : ∀ item ∈ items, ∀ {e}, (decodeBelow body (tag :: above) item).outcome = .ok e →
      Represents body.settings.stripPrecedence item e ∧
        (∀ name ∈ e.symbols, name.isUnicode = true) ∧
        ∀ path ∈ item.tagPaths body.settings.stripPrecedence (tag :: above),
          Nesting.admits path = true) :
    (∀ item e, (item, e) ∈ items.zip es → Represents body.settings.stripPrecedence item e) ∧
      (∀ name ∈ symbolsOfMembers es, name.isUnicode = true) ∧
      ∀ path ∈ Datum.tagPathsMembers body.settings.stripPrecedence (tag :: above) members,
        Nesting.admits path = true := by
  have hPairs : ∀ item e, (item, e) ∈ items.zip es → _ := fun item e hPair =>
    ih item (List.of_mem_zip hPair).1 (List.forall₂_zip hDecoded hPair)
  refine ⟨fun item e hPair => (hPairs item e hPair).1, fun name hName => ?_, ?_⟩
  · rw [symbolsOfMembers_eq, List.mem_flatMap] at hName
    obtain ⟨e, hMem, hName⟩ := hName
    obtain ⟨item, hPair⟩ := exists_zip_of_mem hDecoded.length_eq hMem
    exact (hPairs item e hPair).2.1 name hName
  · rw [Datum.forall_tagPathsMembers hItems]
    intro item hItem
    obtain ⟨e, hItemDecoded⟩ := exists_forall₂_iff.1 ⟨es, hDecoded⟩ item hItem
    exact (ih item hItem hItemDecoded).2.2

/-- What is decoded is represented, refers to names that are made of characters, and does not stand
too deep. -/
theorem represents_of_decodeBelow {node : Datum}
    (h : (decodeBelow body above node).outcome = .ok e) :
    Represents body.settings.stripPrecedence node e ∧
      (∀ name ∈ e.symbols, name.isUnicode = true) ∧
      ∀ path ∈ node.tagPaths body.settings.stripPrecedence above, Nesting.admits path = true := by
  induction node using Datum.nodeInduction generalizing above e with
  | other node hNode =>
      obtain ⟨draft, hScan, -⟩ := outcome_decodeBelow_eq_ok_iff.1 h
      obtain ⟨members, -, hObject, -⟩ := Draft.exists_tag_of_scan hScan
      exact absurd hObject (hNode members)
  | object members ihPart ihItem =>
      obtain ⟨draft, hScan, -⟩ := outcome_decodeBelow_eq_ok_iff.1 h
      obtain ⟨_, tag, hObject, hTag⟩ := Draft.exists_tag_of_scan hScan
      cases hObject
      rw [Datum.tagPaths, Datum.tag?_of_lookup_type _ hTag]
      cases tag with
      | symbol =>
          obtain ⟨hAdmitted, name, hName, hUnicode, hNonempty, rfl⟩ := (decode_symbol_iff hTag).1 h
          exact ⟨.symbol hTag hName hNonempty, by simpa [symbols] using hUnicode,
            by simpa using hAdmitted⟩
      | terminal kind =>
          obtain ⟨hAdmitted, value, hValue, rfl⟩ := (decode_terminal_iff hTag).1 h
          exact ⟨.terminal (by rw [hTag, Tag.text_terminal]) hValue, by simp [symbols],
            by simpa using hAdmitted⟩
      | blank =>
          obtain ⟨hAdmitted, rfl⟩ := (decode_blank_iff hTag).1 h
          exact ⟨.blank hTag, by simp [symbols], by simpa using hAdmitted⟩
      | sequence =>
          obtain ⟨hAdmitted, items, es, hItems, hNonempty, hDecoded, rfl⟩ :=
            (decode_sequence_iff hTag).1 h
          obtain ⟨hRepresents, hNames, hPaths⟩ :=
            represents_of_decode_items hItems hDecoded fun item hItem => ihItem hItems item hItem
          exact ⟨.sequence hTag hItems hNonempty hDecoded.length_eq hRepresents, hNames,
            List.forall_mem_cons.2 ⟨hAdmitted, hPaths⟩⟩
      | choice =>
          obtain ⟨hAdmitted, items, es, hItems, hNonempty, hDecoded, rfl⟩ :=
            (decode_choice_iff hTag).1 h
          obtain ⟨hRepresents, hNames, hPaths⟩ :=
            represents_of_decode_items hItems hDecoded fun item hItem => ihItem hItems item hItem
          exact ⟨.choice hTag hItems hNonempty hDecoded.length_eq hRepresents, hNames,
            List.forall_mem_cons.2 ⟨hAdmitted, hPaths⟩⟩
      | repetition kind =>
          obtain ⟨hAdmitted, content, inner, hContent, hInner, rfl⟩ :=
            (decode_repetition_iff hTag).1 h
          obtain ⟨hRepresents, hNames, hPaths⟩ := ihPart hContent hInner
          rw [← Datum.tagPathsContent_eq hContent] at hPaths
          exact ⟨.repetition (by rw [hTag, Tag.text_repetition]) hContent hRepresents, hNames,
            List.forall_mem_cons.2 ⟨hAdmitted, hPaths⟩⟩
      | precedence kind =>
          obtain ⟨hStrip, content, hContent, hInner⟩ := (decode_precedence_iff hTag).1 h
          obtain ⟨hRepresents, hNames, hPaths⟩ := ihPart hContent hInner
          have hPrecedence := mem_precedenceTags_iff.2 ⟨kind, rfl⟩
          rw [← Datum.tagPathsContent_eq hContent] at hPaths
          exact ⟨.precedence hStrip hPrecedence hTag hContent hRepresents, hNames,
            by simpa only [if_pos hStrip] using hPaths⟩
      | foreign construct => exact absurd h (decode_foreign_ne_ok hTag)

/-- A decoded body is valid. -/
theorem valid_decode {node : Datum} (h : (decode body node).outcome = .ok e) : e.Valid :=
  (represents_of_decodeBelow h).1.valid

end Expr

/-! ## Refusals -/

/-- The decoder finds the node malformed, or a construct in it is not modelled. -/
def Failure.IsRefusal (failure : Failure) : Prop :=
  ∃ d, failure = .diagnosed d ∧ (d.kind = .decode ∨ d.kind = .unsupported)

/-- The tag of a node holds an integer that is too long to be shown; so it is no text, and the
message that says so cannot be written. -/
def Datum.HasUnshownTag : Datum → Prop
  | object members => literal? (lookup "type" members) = none
  | _ => False

namespace Body

variable {body : Body}

/-- A failure with a cause of the sort for malformed documents is a refusal. -/
theorem isRefusal_failure {cause : Cause} (hKind : cause.kind = .decode) :
    (body.failure cause).IsRefusal := ⟨_, rfl, .inl hKind⟩

theorem isRefusal_unsupported (tag : Tag) : (body.unsupported tag).IsRefusal := ⟨_, rfl, .inr rfl⟩

/-- A node with a known tag that has a fault is refused. -/
theorem isRefusal_of_tagFault {members : List (Text × Datum)} {tag : Tag} {failure : Failure}
    (h : body.tagFault members tag = some failure) : failure.IsRefusal := by
  cases tag with
  | sequence =>
      rw [(body.partsFault_eq_some_iff.1 h).2]
      exact isRefusal_failure rfl
  | choice =>
      rw [(body.partsFault_eq_some_iff.1 h).2]
      exact isRefusal_failure rfl
  | repetition kind =>
      rw [(body.contentFault_eq_some_iff.1 h).2]
      exact isRefusal_failure rfl
  | precedence kind =>
      rw [tagFault] at h
      split at h
      · rw [(body.contentFault_eq_some_iff.1 h).2]
        exact isRefusal_failure rfl
      · rw [← Option.some.inj h]
        exact isRefusal_unsupported _
  | foreign construct =>
      rw [← Option.some.inj h]
      exact isRefusal_unsupported _
  | _ => exact absurd h (by simp [tagFault])

theorem fault_of_hasUnshownTag {part : Datum} (h : part.HasUnshownTag) :
    body.fault part = some .integerTooLong := by
  cases part with
  | object members =>
      rw [Datum.HasUnshownTag] at h
      rw [fault]
      split
      · rename_i spelling hType
        rw [hType] at h
        exact absurd h (by simp [Datum.literal?, Datum.literal])
      · rw [tagNotText, h]
  | _ => exact h.elim

/-- A node with a fault is refused, unless its tag would have to be shown and cannot be. -/
theorem isRefusal_or_of_fault {part : Datum} {failure : Failure}
    (h : body.fault part = some failure) :
    failure.IsRefusal ∨ failure = .integerTooLong ∧ part.HasUnshownTag := by
  cases part with
  | object members =>
      rw [Datum.HasUnshownTag]
      rw [fault] at h
      split at h
      · split at h
        · exact .inl (isRefusal_of_tagFault h)
        · rw [← Option.some.inj h]
          exact .inl (isRefusal_failure rfl)
      · rw [← Option.some.inj h, tagNotText]
        cases Datum.literal? (Datum.lookup "type" members) with
        | some literal => exact .inl (isRefusal_failure rfl)
        | none => exact .inr ⟨rfl, rfl⟩
  | _ =>
      rw [← Option.some.inj h]
      exact .inl (isRefusal_failure rfl)

/-- The first node with a fault is one whose tag cannot be shown. -/
def StopsUnshown (body : Body) (node : Datum) : Prop :=
  ∃ before part later, node.visited body.settings.stripPrecedence = before ++ part :: later ∧
    (∀ earlier ∈ before, body.fault earlier = none) ∧ part.HasUnshownTag

end Body

namespace Draft

variable {body : Body} {node : Datum}

/-- At a tag that cannot be shown the scan fails without a diagnostic. -/
theorem outcome_scan_of_stopsUnshown (h : body.StopsUnshown node) :
    (scan body node).outcome = .error .integerTooLong := by
  obtain ⟨before, part, later, hVisited, hBefore, hUnshown⟩ := h
  rw [← Traced.failure?_eq_some_iff, failure?_scan, List.findSome?_eq_some_iff]
  exact ⟨before, part, later, hVisited, Body.fault_of_hasUnshownTag hUnshown, hBefore⟩

/-- What the scan does not take it refuses, unless it comes to a tag that cannot be shown. -/
theorem isRefusal_or_of_scan {failure : Failure} (h : (scan body node).outcome = .error failure) :
    failure.IsRefusal ∨ failure = .integerTooLong ∧ body.StopsUnshown node := by
  rw [← Traced.failure?_eq_some_iff, failure?_scan, List.findSome?_eq_some_iff] at h
  obtain ⟨before, part, later, hVisited, hFault, hBefore⟩ := h
  exact (Body.isRefusal_or_of_fault hFault).imp_right fun ⟨hFailure, hUnshown⟩ =>
    ⟨hFailure, before, part, later, hVisited, hBefore, hUnshown⟩

end Draft

namespace Expr

variable [Nesting] {body : Body} {node : Datum} {e : Expr}

/-- A node that is not decoded is refused, unless the scan comes to a tag that cannot be shown. -/
theorem isRefusal_or_of_decode {failure : Failure}
    (h : (decode body node).outcome = .error failure) :
    failure.IsRefusal ∨ failure = .integerTooLong ∧ body.StopsUnshown node := by
  rcases Traced.outcome_bind_eq_error_iff.1 h with hScan | ⟨draft, -, hCheck⟩
  · exact Draft.isRefusal_or_of_scan hScan
  · split at hCheck
    · exact absurd hCheck (Traced.outcome_pure_ne_error _ failure)
    · rw [← Except.error.inj hCheck]
      exact .inl (Body.isRefusal_failure rfl)

theorem outcome_decode_of_stopsUnshown (h : body.StopsUnshown node) :
    (decode body node).outcome = .error .integerTooLong :=
  Traced.outcome_bind_of_error (Draft.outcome_scan_of_stopsUnshown h) _

/-! ## The format is accepted -/

/-- What passes the scan is decoded, or the check finds it invalid. -/
theorem decode_of_scan {draft : Draft} (h : (Draft.scan body node).outcome = .ok draft) :
    (∃ e, (decode body node).outcome = .ok e) ∨
      ∃ fault, (decode body node).outcome = .error (body.failure (.invalidBody fault)) := by
  rw [decode, decodeBelow, Traced.outcome_bind_of_ok h]
  cases draft.check [] with
  | ok e => exact Or.inl ⟨e, rfl⟩
  | error fault => exact Or.inr ⟨fault, rfl⟩

end Expr

/-- A sequence of a literal and a repetition inside a precedence, with members to be ignored. -/
def assignment : Datum :=
  .object [("type", .text "PREC_LEFT"), ("value", .int 1),
    ("content", .object [("named", .bool true), ("type", .text "SEQ"), ("members", .array [
      .object [("type", .text "STRING"), ("value", .text "let"), ("content", .null)],
      .object [("type", .text "REPEAT1"), ("content",
        .object [("name", .text "binding"), ("type", .text "SYMBOL")])]])])]

/-- A blank that is repeated over and over. -/
def repeated : Nat → Datum
  | 0 => .object [("type", .text "BLANK")]
  | n + 1 => .object [("type", .text "REPEAT"), ("content", repeated n)]

end TreeTypes
