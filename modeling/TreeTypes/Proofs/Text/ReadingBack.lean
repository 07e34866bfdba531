import TreeTypes.Text.Uppercase

/-!
# Texts that can be read back

A text is put together from pieces, and the question is whether the pieces can
be told from the text. It is answered piece by piece from the left. A piece
does not have to show by itself where it ends; what comes after it may do
that, as a blank does after a word. So the property of a piece is relative to
what may follow it (`Text.ReadsBack`): whoever sees the piece with something
admissible after it knows both.

Pieces in a row, each introduced by the same lead, can be read back if each
piece can and what follows the row does not look like another lead. That is
the only law about lists that is needed, whether the pieces are the items of a
tuple, the alternatives of a variant or the declarations of a block.

## Main definitions

* `Text.IsWord` — a text of letters, digits and underscores.
* `Text.ReadsBack` — a piece is determined by a text that begins with it.

## Main results

* `Text.readsBack_word` — a word is determined if no word goes on after it.
* `Text.ReadsBack.row`, `Text.ReadsBack.joined` — a row of pieces is determined
  if they are.
-/

namespace TreeTypes

namespace CodePoint

/-- A letter or digit of ASCII, or an underscore. -/
def isWord (p : CodePoint) : Bool :=
  p.isDigit || (0x41 ≤ p.val && p.val ≤ 0x5A) || (0x61 ≤ p.val && p.val ≤ 0x7A) || p.val = 0x5F

theorem isWord_iff {p : CodePoint} :
    p.isWord = true ↔ (0x30 ≤ p.val ∧ p.val ≤ 0x39) ∨ (0x41 ≤ p.val ∧ p.val ≤ 0x5A) ∨
      (0x61 ≤ p.val ∧ p.val ≤ 0x7A) ∨ p.val = 0x5F := by
  simp only [isWord, isDigit, Bool.or_eq_true, Bool.and_eq_true,
    decide_eq_true_eq, or_assoc]

end CodePoint

namespace Text

/-- A text of letters, digits and underscores that is not empty. -/
def IsWord (t : Text) : Prop := t ≠ [] ∧ ∀ p ∈ t, p.isWord = true

instance (t : Text) : Decidable t.IsWord :=
  inferInstanceAs (Decidable (t ≠ [] ∧ ∀ p ∈ t, p.isWord = true))

/-- The text does not begin with a code point of this sort. -/
def Stops (more : CodePoint → Bool) (rest : Text) : Prop := ∀ p ∈ rest.head?, more p = false

/--
A text that begins with the piece for `a`, and goes on with something that may
follow, begins with no other piece of the sort and goes on with nothing else.
-/
def ReadsBack {α : Type} (sort : α → Prop) (Follows : Text → Prop) (piece : α → Text) (a : α) :
    Prop :=
  ∀ b s t, sort b → Follows s → Follows t → piece a ++ s = piece b ++ t → a = b ∧ s = t

theorem stops_append {more : CodePoint → Bool} {s : Text} {p : CodePoint} (hHead : s.head? = some p)
    (hStop : more p = false) (rest : Text) : Stops more (s ++ rest) := by
  intro q hq
  rw [List.head?_append, hHead] at hq
  rw [← Option.some.inj hq]
  exact hStop

/-- Texts that begin differently are different. -/
theorem append_ne_of_head? {s t : Text} {p q : CodePoint} (hs : s.head? = some p)
    (ht : t.head? = some q) (hNe : p ≠ q) (rest other : Text) : s ++ rest ≠ t ++ other := by
  intro h
  have hHead := congrArg List.head? h
  rw [List.head?_append, List.head?_append, hs, ht] at hHead
  exact hNe (Option.some.inj hHead)

theorem not_prefix_of_head? {lead s : Text} {p q : CodePoint} (hLead : lead.head? = some p)
    (hs : s.head? = some q) (hNe : p ≠ q) (rest : Text) : ¬ lead <+: s ++ rest := by
  rintro ⟨other, h⟩
  exact append_ne_of_head? hLead hs hNe other rest h

/-! ## Words -/

/-- A run of code points of one sort is determined if something else follows. -/
theorem append_inj_of_stops {more : CodePoint → Bool} {s t rest other : Text}
    (hs : ∀ p ∈ s, more p = true) (ht : ∀ p ∈ t, more p = true) (hRest : Stops more rest)
    (hOther : Stops more other) (h : s ++ rest = t ++ other) : s = t ∧ rest = other := by
  induction s generalizing t with
  | nil =>
      cases t with
      | nil => exact ⟨rfl, h⟩
      | cons q t =>
          rw [List.nil_append] at h
          have hStop := hRest q (by rw [h]; rfl)
          exact absurd (ht q List.mem_cons_self) (by simp [hStop])
  | cons p s ih =>
      cases t with
      | nil =>
          rw [List.nil_append] at h
          have hStop := hOther p (by rw [← h]; rfl)
          exact absurd (hs p List.mem_cons_self) (by simp [hStop])
      | cons q t =>
          rw [List.cons_append, List.cons_append, List.cons.injEq] at h
          obtain ⟨hEq, hMore⟩ := ih (fun r hr => hs r (List.mem_cons_of_mem _ hr))
            (fun r hr => ht r (List.mem_cons_of_mem _ hr)) h.2
          exact ⟨by rw [h.1, hEq], hMore⟩

/-- A word is determined if no word goes on after it. -/
theorem readsBack_word {w : Text} (hWord : w.IsWord) :
    ReadsBack IsWord (Stops CodePoint.isWord) id w :=
  fun _ _ _ hOther hRest hLater h => append_inj_of_stops hWord.2 hOther.2 hRest hLater h

theorem IsWord.append {s t : Text} (hs : s.IsWord) (ht : t.IsWord) : (s ++ t).IsWord := by
  refine ⟨by simp [hs.1], fun p hp => ?_⟩
  rcases List.mem_append.1 hp with hFirst | hLater
  · exact hs.2 p hFirst
  · exact ht.2 p hLater

theorem isDigit_of_mem_numeral {n : Nat} {p : CodePoint} (h : p ∈ numeral n) :
    p.isDigit = true := by
  obtain ⟨c, hMem, rfl⟩ := List.mem_map.1 h
  have hDigit := Nat.isDigit_of_mem_toDigits (by decide) (by decide) hMem
  rw [Char.isDigit, Bool.and_eq_true, decide_eq_true_eq, decide_eq_true_eq] at hDigit
  rw [CodePoint.isDigit, Bool.and_eq_true, decide_eq_true_eq, decide_eq_true_eq]
  exact hDigit

theorem isWord_numeral (n : Nat) : (numeral n).IsWord := by
  refine ⟨by simp [numeral, Nat.toDigits_ne_nil], fun p hp => ?_⟩
  rw [CodePoint.isWord, isDigit_of_mem_numeral hp, Bool.true_or, Bool.true_or, Bool.true_or]

/-- The letters of ASCII stay among themselves. -/
theorem isWord_toUpper {c : Char} (h : (CodePoint.char c).isWord = true) :
    c.toNat < 128 ∧ (CodePoint.char c.toUpper).isWord = true := by
  have hAscii : c.toNat < 128 := by
    have hVal := CodePoint.isWord_iff.1 h
    rw [CodePoint.val] at hVal
    omega
  have hAll : ∀ n : Fin 128, (CodePoint.char (Char.ofNat n)).isWord = true →
      (CodePoint.char (Char.ofNat n).toUpper).isWord = true := by decide
  have hUpper := hAll ⟨c.toNat, hAscii⟩
  rw [Char.ofNat_toNat] at hUpper
  exact ⟨hAscii, hUpper h⟩

theorem isWord_uppercase {p : CodePoint} (h : p.isWord = true) : p.uppercase.IsWord := by
  cases p with
  | char c =>
      obtain ⟨hAscii, hUpper⟩ := isWord_toUpper h
      rw [CodePoint.uppercase, if_pos hAscii]
      exact ⟨by simp, by simpa using hUpper⟩
  | surrogate offset =>
      have hVal := CodePoint.isWord_iff.1 h
      rw [CodePoint.val] at hVal
      omega

theorem IsWord.uppercase {t : Text} (h : t.IsWord) : t.uppercase.IsWord := by
  constructor
  · obtain ⟨p, rest, rfl⟩ := List.exists_cons_of_ne_nil h.1
    rw [Text.uppercase, List.flatMap_cons]
    exact List.append_ne_nil_of_left_ne_nil (isWord_uppercase (h.2 p List.mem_cons_self)).1 _
  · intro q hq
    obtain ⟨p, hMem, hq⟩ := List.mem_flatMap.1 hq
    exact (isWord_uppercase (h.2 p hMem)).2 q hq

/-! ## Rows -/

section

variable {α : Type} {sort : α → Prop} {Follows : Text → Prop} {piece : α → Text} {lead : Text}

/-- What may follow each piece follows it in a row. -/
theorem follows_row (hLead : ∀ t, Follows (lead ++ t)) (row : List α) {s : Text} (hs : Follows s) :
    Follows (row.flatMap (fun a => lead ++ piece a) ++ s) := by
  cases row with
  | nil => exact hs
  | cons a row =>
      rw [List.flatMap_cons, List.append_assoc, List.append_assoc]
      exact hLead _

theorem lead_prefix_row (a : α) (row : List α) (s : Text) :
    lead <+: (a :: row).flatMap (fun a => lead ++ piece a) ++ s := by
  rw [List.flatMap_cons, List.append_assoc, List.append_assoc]
  exact List.prefix_append _ _

/-- Pieces in a row are determined if each of them is, with the lead of the next one or with what
follows the row after it. -/
theorem ReadsBack.row (lead : Text) (hLead : ∀ t, Follows (lead ++ t)) {row : List α}
    (hRow : ∀ a ∈ row, ReadsBack sort Follows piece a) :
    ReadsBack (fun other => ∀ a ∈ other, sort a) (fun s => Follows s ∧ ¬ lead <+: s)
      (List.flatMap fun a => lead ++ piece a) row := by
  induction row with
  | nil =>
      intro other s t _ hs _ h
      cases other with
      | nil => exact ⟨rfl, h⟩
      | cons b others =>
          rw [List.flatMap_nil, List.nil_append] at h
          exact absurd (h ▸ lead_prefix_row b others t) hs.2
  | cons a row ih =>
      intro other s t hSort hs ht h
      cases other with
      | nil =>
          rw [List.flatMap_nil, List.nil_append] at h
          exact absurd (h ▸ lead_prefix_row a row s) ht.2
      | cons b others =>
          simp only [List.flatMap_cons, List.append_assoc, List.append_cancel_left_eq] at h
          obtain ⟨rfl, hLater⟩ := hRow a List.mem_cons_self b _ _ (hSort b List.mem_cons_self)
            (follows_row hLead row hs.1) (follows_row hLead others ht.1) h
          obtain ⟨rfl, hEnd⟩ := ih (fun c hc => hRow c (List.mem_cons_of_mem _ hc)) others s t
            (fun c hc => hSort c (List.mem_cons_of_mem _ hc)) hs ht hLater
          exact ⟨rfl, hEnd⟩

/-- Pieces with a separator between them are the first one and a row of the others. -/
theorem join_cons (separator first : Text) (rest : List Text) :
    join separator (first :: rest) = first ++ rest.flatMap (separator ++ ·) := by
  induction rest generalizing first with
  | nil => simp [join]
  | cons second rest ih =>
      have hNext : join separator (first :: second :: rest) =
          first ++ (separator ++ join separator (second :: rest)) := by
        simp [join, List.intersperse]
      rw [hNext, ih, List.flatMap_cons, List.append_assoc]

/-- So are pieces with a separator between them, if there is one. -/
theorem ReadsBack.joined (lead : Text) (hLead : ∀ t, Follows (lead ++ t)) {row : List α}
    (hNonempty : row ≠ []) (hRow : ∀ a ∈ row, ReadsBack sort Follows piece a) :
    ReadsBack (fun other => other ≠ [] ∧ ∀ a ∈ other, sort a) (fun s => Follows s ∧ ¬ lead <+: s)
      (fun row => join lead (row.map piece)) row := by
  intro other s t hOther hs ht h
  obtain ⟨a, row, rfl⟩ := List.exists_cons_of_ne_nil hNonempty
  obtain ⟨b, others, rfl⟩ := List.exists_cons_of_ne_nil hOther.1
  obtain ⟨hFirst, hLater⟩ := List.forall_mem_cons.1 hRow
  obtain ⟨hSort, hSorts⟩ := List.forall_mem_cons.1 hOther.2
  simp only [List.map_cons, join_cons, List.flatMap_map, List.append_assoc] at h
  obtain ⟨rfl, hRest⟩ := hFirst b _ _ hSort (follows_row hLead row hs.1)
    (follows_row hLead others ht.1) h
  obtain ⟨rfl, hEnd⟩ := ReadsBack.row lead hLead hLater others s t hSorts hs ht hRest
  exact ⟨rfl, hEnd⟩

end

end Text

end TreeTypes
