import TreeTypes.Decimal.Binary64
import TreeTypes.Text.Basic

/-!
# Decoded documents

A grammar arrives as JSON and the settings arrive as TOML. Both are read into
one type of plain data, a **datum**, and everything after the readers works on
data: it asks a datum for its kind, looks up a member, and refuses what does
not fit. The readers only produce objects whose keys are distinct
(`Datum.DistinctKeys`); nothing here depends on it, since looking up takes the
first member with a key.

## Main definitions

* `Datum`: null, truth values, numbers, text, moments, arrays and objects.
* `Datum.Kind`, `Datum.kind`: what sort of datum it is, and the word for it.
* `Datum.isVacuous`: a datum that stands for nothing.
* `Datum.lookup`, `Datum.insert`: members of an object.
* `Datum.structuralInduction`: induction with a hypothesis for every item and
  every member value.
-/

namespace TreeTypes

/-- The three sorts of moment that a settings file can name. -/
inductive Moment
  | date
  | time
  | dateTime
  deriving DecidableEq

/--
A datum of a decoded document. Of a moment only the sort is kept, because no
setting is one; a JSON document has none.
-/
inductive Datum
  | null
  | bool (value : Bool)
  | int (value : Int)
  | float (value : Binary64)
  | text (value : Text)
  | moment (value : Moment)
  | array (items : List Datum)
  | object (members : List (Text × Datum))
  deriving Inhabited

namespace Datum

/--
Induction over data: an array's case has the hypothesis for its items, an
object's for the values of its members.
-/
theorem structuralInduction {motive : Datum → Prop}
    (null : motive null)
    (bool : ∀ b, motive (bool b))
    (int : ∀ n, motive (int n))
    (float : ∀ x, motive (float x))
    (text : ∀ t, motive (text t))
    (moment : ∀ m, motive (moment m))
    (array : ∀ items, (∀ item ∈ items, motive item) → motive (array items))
    (object : ∀ members : List (Text × Datum),
      (∀ member ∈ members, motive member.2) → motive (object members)) :
    ∀ datum, motive datum := fun datum =>
  Datum.rec
    (motive_1 := motive)
    (motive_2 := fun items => ∀ item ∈ items, motive item)
    (motive_3 := fun members => ∀ member ∈ members, motive member.2)
    (motive_4 := fun member => motive member.2)
    null bool int float text moment
    (fun items hItems => array items hItems)
    (fun members hMembers => object members hMembers)
    (by simp)
    (fun _ _ hHead hTail => List.forall_mem_cons.2 ⟨hHead, hTail⟩)
    (by simp)
    (fun _ _ hHead hTail => List.forall_mem_cons.2 ⟨hHead, hTail⟩)
    (fun _ _ hValue => hValue)
    datum

/-! ## Kinds -/

/-- The sort of a datum. -/
inductive Kind
  | null
  | bool
  | int
  | float
  | text
  | moment (value : Moment)
  | array
  | object
  deriving DecidableEq

/-- The word that messages use for a kind. -/
def Kind.label : Kind → Text
  | null => "NoneType"
  | bool => "bool"
  | int => "int"
  | float => "float"
  | text => "str"
  | moment .date => "date"
  | moment .time => "time"
  | moment .dateTime => "datetime"
  | array => "list"
  | object => "dict"

/-- The kind of a datum. -/
def kind : Datum → Kind
  | null => .null
  | bool _ => .bool
  | int _ => .int
  | float _ => .float
  | text _ => .text
  | moment value => .moment value
  | array _ => .array
  | object _ => .object

/--
A datum that stands for nothing: null, false, a zero, the empty text, array or
object. Not-a-number is not vacuous.
-/
def isVacuous : Datum → Bool
  | null => true
  | bool value => !value
  | int value => value = 0
  | float value => value.isZero
  | text value => value.isEmpty
  | moment _ => false
  | array items => items.isEmpty
  | object members => members.isEmpty

/-! ## Members -/

/-- The value of the first member with a key. -/
def lookup (key : Text) : List (Text × Datum) → Option Datum
  | [] => none
  | (k, value) :: rest => if k = key then some value else lookup key rest

/-- Sets a member: in its place when the key is there already, at the end otherwise. -/
def insert (key : Text) (value : Datum) : List (Text × Datum) → List (Text × Datum)
  | [] => [(key, value)]
  | (k, old) :: rest => if k = key then (key, value) :: rest else (k, old) :: insert key value rest

mutual

/-- Every object in the datum has pairwise distinct keys. -/
def DistinctKeys : Datum → Prop
  | array items => DistinctKeysItems items
  | object members => (members.map (·.1)).Nodup ∧ DistinctKeysMembers members
  | _ => True

/-- Every object in the items has pairwise distinct keys. -/
def DistinctKeysItems : List Datum → Prop
  | [] => True
  | item :: rest => DistinctKeys item ∧ DistinctKeysItems rest

/-- Every object in the values has pairwise distinct keys. -/
def DistinctKeysMembers : List (Text × Datum) → Prop
  | [] => True
  | (_, value) :: rest => DistinctKeys value ∧ DistinctKeysMembers rest

end

end Datum

end TreeTypes
