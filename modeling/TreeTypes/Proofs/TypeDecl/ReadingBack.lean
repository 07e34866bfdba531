import TreeTypes.Proofs.Text.ReadingBack
import TreeTypes.TypeDecl.Render

/-!
# Declarations can be read back

A block is written without any escape, and names may be anything: the word
`type`, the name of the list type, even the name of the primitive type. The
block can be read back all the same as long as names are words. In a type
expression the code point after a word tells whether it is a name or begins a
list, and a parenthesis without a word before it opens a tuple. In a block the
first two code points of a line tell whether it is an alternative of a
variant, another declaration or the end.

A shape alone would not do: a tuple is written like a synonym for a tuple
type. Declarations have no such synonyms.

## Main definitions

* `TypeExpr.Plain`, `Shape.Plain`, `TypeDecl.Plain` — names are words, and no
  synonym is one for a tuple type.

## Main results

* `TypeExpr.readsBack_render` — a type expression is determined.
* `Shape.readsBack_render`, `TypeDecl.readsBack_line` — so are what a name is
  declared to be and the line that says it.
* `TypeDecl.renderBlock_inj` — a block is determined by its text.
-/

namespace TreeTypes

open Text (ReadsBack Stops)

/-! ## Type expressions -/

namespace TypeExpr

mutual

/-- Names are words, and tuples have items. -/
def Plain : TypeExpr → Prop
  | named name => name.IsWord
  | tuple items => items ≠ [] ∧ PlainItems items
  | list item => Plain item

/-- Every item is plain. -/
def PlainItems : List TypeExpr → Prop
  | [] => True
  | item :: rest => Plain item ∧ PlainItems rest

end

theorem plainItems_iff {items : List TypeExpr} :
    PlainItems items ↔ ∀ item ∈ items, item.Plain := by
  induction items with
  | nil => simp [PlainItems]
  | cons item rest ih => rw [PlainItems, ih, List.forall_mem_cons]

/-- What would go on with a type expression: a word goes on, or the item of a list opens. -/
def goesOn (p : CodePoint) : Bool := p.isWord || p = CodePoint.char '('

variable {settings : Settings}

theorem renderItems_eq (items : List TypeExpr) :
    renderItems settings items = items.map (render settings) := by
  induction items with
  | nil => rfl
  | cons item rest ih => rw [renderItems, ih, List.map_cons]

theorem render_list (item : TypeExpr) :
    render settings (list item) =
      settings.listType ++ (("(" : Text) ++ (render settings item ++ (")" : Text))) := by
  rw [render]
  simp [Text.concat]

theorem render_tuple (items : List TypeExpr) :
    render settings (tuple items) =
      ("(" : Text) ++ (Text.join ", " (items.map (render settings)) ++ (")" : Text)) := by
  rw [render, renderItems_eq]
  simp [Text.concat]

theorem stops_isWord {rest : Text} (h : Stops goesOn rest) : Stops CodePoint.isWord rest :=
  fun p hp => (Bool.or_eq_false_iff.1 (h p hp)).1

/-- A word is no beginning of a tuple. -/
theorem word_append_ne {w : Text} (hWord : w.IsWord) (rest other : Text) :
    w ++ rest ≠ ("(" : Text) ++ other := by
  obtain ⟨p, more, rfl⟩ := List.exists_cons_of_ne_nil hWord.1
  refine Text.append_ne_of_head? rfl rfl ?_ rest other
  rintro rfl
  exact absurd (hWord.2 _ List.mem_cons_self) (by decide)

/-- A name with something after it that does not go on is no list. -/
theorem name_append_ne {name rest : Text} (hName : name.IsWord) (hList : settings.listType.IsWord)
    (hRest : Stops goesOn rest) (other : Text) :
    name ++ rest ≠ settings.listType ++ (("(" : Text) ++ other) := by
  intro h
  have hOther : Stops CodePoint.isWord (("(" : Text) ++ other) := Text.stops_append rfl (by decide) _
  obtain ⟨-, rfl⟩ := Text.readsBack_word hName _ _ _ hList (stops_isWord hRest) hOther h
  exact absurd (hRest (CodePoint.char '(') rfl) (by decide)

/-- A type expression begins with a word or a parenthesis. -/
theorem exists_head_render (hList : settings.listType.IsWord) {type : TypeExpr}
    (hPlain : type.Plain) :
    ∃ p, (render settings type).head? = some p ∧ goesOn p = true := by
  have hWord : ∀ {w : Text}, w.IsWord → ∀ rest, ∃ p, (w ++ rest).head? = some p ∧
      goesOn p = true := by
    intro w hWord rest
    obtain ⟨p, more, rfl⟩ := List.exists_cons_of_ne_nil hWord.1
    exact ⟨p, rfl, by rw [goesOn, hWord.2 p List.mem_cons_self, Bool.true_or]⟩
  cases type with
  | named name =>
      rw [render, ← List.append_nil name]
      exact hWord hPlain []
  | list item =>
      rw [render_list]
      exact hWord hList _
  | tuple items => exact ⟨CodePoint.char '(', rfl, by decide⟩

/-- Neither a name nor a list begins like a tuple. -/
theorem append_ne_tuple (hList : settings.listType.IsWord) {type : TypeExpr} (hPlain : type.Plain)
    (hType : ∀ items, type ≠ tuple items) (items : List TypeExpr) (rest other : Text) :
    render settings type ++ rest ≠ render settings (tuple items) ++ other := by
  rw [render_tuple, List.append_assoc]
  cases type with
  | named name => exact word_append_ne hPlain _ _
  | list item =>
      rw [render_list, List.append_assoc]
      exact word_append_ne hList _ _
  | tuple found => exact absurd rfl (hType found)

mutual

/-- A type expression is determined if it does not go on. -/
theorem readsBack_render (hList : settings.listType.IsWord) {type : TypeExpr}
    (hPlain : type.Plain) : ReadsBack Plain (Stops goesOn) (render settings) type := by
  intro other s t hOther hs ht h
  cases type with
  | named name =>
      cases other with
      | named found =>
          obtain ⟨rfl, hRest⟩ := Text.readsBack_word hPlain _ _ _ hOther (stops_isWord hs)
            (stops_isWord ht) h
          exact ⟨rfl, hRest⟩
      | list item =>
          rw [render_list, List.append_assoc, List.append_assoc] at h
          exact absurd h (name_append_ne hPlain hList hs _)
      | tuple items => exact absurd h (append_ne_tuple hList hPlain (by simp) _ _ _)
  | list item =>
      cases other with
      | named name =>
          rw [render_list, List.append_assoc, List.append_assoc] at h
          exact absurd h.symm (name_append_ne hOther hList ht _)
      | list found =>
          have hItem : item.Plain := hPlain
          simp only [render_list, List.append_assoc, List.append_cancel_left_eq] at h
          obtain ⟨rfl, hRest⟩ := readsBack_render hList hItem found _ _ hOther
            (Text.stops_append rfl (by decide) s) (Text.stops_append rfl (by decide) t) h
          exact ⟨rfl, List.append_cancel_left hRest⟩
      | tuple items => exact absurd h (append_ne_tuple hList hPlain (by simp) _ _ _)
  | tuple items =>
      cases other with
      | named name => exact absurd h.symm (append_ne_tuple hList hOther (by simp) _ _ _)
      | list item => exact absurd h.symm (append_ne_tuple hList hOther (by simp) _ _ _)
      | tuple found =>
          have hItems := ReadsBack.joined ", " (Text.stops_append rfl (by decide)) hPlain.1
            (readsBack_renderItems hList hPlain.2)
          have hEnd : ∀ rest, Stops goesOn ((")" : Text) ++ rest) ∧
              ¬ (", " : Text) <+: (")" : Text) ++ rest := fun rest =>
            ⟨Text.stops_append rfl (by decide) rest,
              Text.not_prefix_of_head? rfl rfl (by decide) rest⟩
          simp only [render_tuple, List.append_assoc, List.append_cancel_left_eq] at h
          obtain ⟨rfl, hRest⟩ := hItems found _ _ ⟨hOther.1, plainItems_iff.1 hOther.2⟩
            (hEnd s) (hEnd t) h
          exact ⟨rfl, List.append_cancel_left hRest⟩

/-- So is every item. -/
theorem readsBack_renderItems (hList : settings.listType.IsWord) {items : List TypeExpr}
    (hPlain : PlainItems items) :
    ∀ item ∈ items, ReadsBack Plain (Stops goesOn) (render settings) item := by
  cases items with
  | nil => simp
  | cons first rest =>
      exact List.forall_mem_cons.2
        ⟨readsBack_render hList hPlain.1, readsBack_renderItems hList hPlain.2⟩

end

end TypeExpr

/-! ## Shapes -/

/-- The name is a word and the payload is plain. -/
def Constructor.Plain (c : Constructor) : Prop := c.name.IsWord ∧ c.payload.Plain

namespace Shape

/-- What is in the shape is plain, and a tuple is written as one: a synonym has another target. -/
def Plain : Shape → Prop
  | synonym target => target.Plain ∧ ∀ items, target ≠ .tuple items
  | tuple items => (TypeExpr.tuple items).Plain
  | variant constructors => ∀ c ∈ constructors, c.Plain

variable {settings : Settings}

/-- An alternative after what introduces it. -/
def alternative (settings : Settings) (c : Constructor) : Text :=
  c.name ++ ((" (" : Text) ++ (c.payload.render settings ++ (")" : Text)))

theorem render_variant (constructors : List Constructor) :
    render settings (variant constructors) =
      constructors.flatMap fun c => ("\n | " : Text) ++ alternative settings c := rfl

/-- An alternative is determined whatever follows. -/
theorem readsBack_alternative (hList : settings.listType.IsWord) {c : Constructor}
    (hPlain : c.Plain) :
    ReadsBack Constructor.Plain (fun _ => True) (alternative settings) c := by
  intro other s t hOther _ _ h
  simp only [alternative, List.append_assoc] at h
  have hBlank : ∀ rest, Stops CodePoint.isWord ((" (" : Text) ++ rest) :=
    Text.stops_append rfl (by decide)
  have hClosed : ∀ rest, Stops TypeExpr.goesOn ((")" : Text) ++ rest) :=
    Text.stops_append rfl (by decide)
  obtain ⟨hName, hPayload⟩ := Text.readsBack_word hPlain.1 _ _ _ hOther.1 (hBlank _) (hBlank _) h
  rw [List.append_cancel_left_eq] at hPayload
  obtain ⟨hPayload, hRest⟩ := TypeExpr.readsBack_render hList hPlain.2 _ _ _ hOther.2
    (hClosed s) (hClosed t) hPayload
  refine ⟨?_, List.append_cancel_left hRest⟩
  cases c
  cases other
  exact Constructor.mk.injEq .. ▸ ⟨hName, hPayload⟩

/-- The end of a line, and after it another line that is no alternative. -/
def EndsLine (s : Text) : Prop :=
  ∃ rest, s = ("\n" : Text) ++ rest ∧ Stops (· = CodePoint.char ' ') rest

/-- A type expression that ends with its line is no variant. -/
theorem append_ne_variant (hList : settings.listType.IsWord) {type : TypeExpr}
    (hPlain : type.Plain) (s : Text) (constructors : List Constructor) {t : Text}
    (ht : EndsLine t) :
    type.render settings ++ s ≠ render settings (variant constructors) ++ t := by
  obtain ⟨rest, rfl, -⟩ := ht
  obtain ⟨p, hHead, hGoesOn⟩ := TypeExpr.exists_head_render hList hPlain
  have hBreak : (render settings (variant constructors) ++ (("\n" : Text) ++ rest)).head? =
      some (CodePoint.char '\n') := by
    cases constructors <;> rfl
  intro h
  rw [← h, List.head?_append, hHead] at hBreak
  rw [Option.some.inj hBreak] at hGoesOn
  exact absurd hGoesOn (by decide)

/-- A shape is determined if its line ends. -/
theorem readsBack_render (hList : settings.listType.IsWord) {shape : Shape}
    (hPlain : shape.Plain) : ReadsBack Plain EndsLine (render settings) shape := by
  intro other s t hOther hs ht h
  have hStops : ∀ {s}, EndsLine s → Stops TypeExpr.goesOn s := by
    rintro _ ⟨rest, rfl, -⟩
    exact Text.stops_append rfl (by decide) rest
  cases shape with
  | synonym target =>
      cases other with
      | synonym found =>
          obtain ⟨rfl, hRest⟩ := TypeExpr.readsBack_render hList hPlain.1 _ _ _ hOther.1
            (hStops hs) (hStops ht) h
          exact ⟨rfl, hRest⟩
      | tuple items => exact absurd h (TypeExpr.append_ne_tuple hList hPlain.1 hPlain.2 _ _ _)
      | variant constructors =>
          exact absurd h (append_ne_variant hList hPlain.1 s constructors ht)
  | tuple items =>
      have hTuple : (TypeExpr.tuple items).Plain := hPlain
      cases other with
      | synonym found =>
          exact absurd h.symm (TypeExpr.append_ne_tuple hList hOther.1 hOther.2 _ _ _)
      | tuple found =>
          obtain ⟨hEq, hRest⟩ := TypeExpr.readsBack_render hList hTuple (.tuple found) _ _ hOther
            (hStops hs) (hStops ht) h
          exact ⟨by rw [TypeExpr.tuple.inj hEq], hRest⟩
      | variant constructors =>
          exact absurd h (append_ne_variant hList hTuple s constructors ht)
  | variant constructors =>
      cases other with
      | synonym found =>
          exact absurd h.symm (append_ne_variant hList hOther.1 t constructors hs)
      | tuple items =>
          have hTuple : (TypeExpr.tuple items).Plain := hOther
          exact absurd h.symm (append_ne_variant hList hTuple t constructors hs)
      | variant found =>
          have hRow := ReadsBack.row "\n | " (fun _ => trivial)
            fun c hc => readsBack_alternative hList (hPlain c hc)
          -- The line break after the last alternative begins like one more alternative, so the
          -- code point after it has to decide.
          have hEnd : ∀ {s}, EndsLine s → True ∧ ¬ ("\n | " : Text) <+: s := by
            rintro _ ⟨rest, rfl, hStop⟩
            refine ⟨trivial, ?_⟩
            rintro ⟨more, hMore⟩
            have hBreak : CodePoint.char '\n' :: ((" | " : Text) ++ more) =
                CodePoint.char '\n' :: rest := hMore
            rw [← (List.cons.inj hBreak).2] at hStop
            exact absurd (hStop (CodePoint.char ' ') rfl) (by decide)
          rw [render_variant, render_variant] at h
          obtain ⟨rfl, hRest⟩ := hRow found s t hOther (hEnd hs) (hEnd ht) h
          exact ⟨rfl, hRest⟩

end Shape

/-! ## Declarations -/

namespace TypeDecl

/-- The name is a word and the shape is plain. -/
def Plain (decl : TypeDecl) : Prop := decl.name.IsWord ∧ decl.shape.Plain

variable {settings : Settings}

/-- A declaration with the end of its line. -/
def line (settings : Settings) (decl : TypeDecl) : Text :=
  decl.name ++ ((" = " : Text) ++ (decl.shape.render settings ++ ("\n" : Text)))

/-- A declaration with its line is determined if no alternative follows. -/
theorem readsBack_line (hList : settings.listType.IsWord) {decl : TypeDecl}
    (hPlain : decl.Plain) :
    ReadsBack Plain (Stops (· = CodePoint.char ' ')) (line settings) decl := by
  intro other s t hOther hs ht h
  simp only [line, List.append_assoc] at h
  have hBlank : ∀ rest, Stops CodePoint.isWord ((" = " : Text) ++ rest) :=
    Text.stops_append rfl (by decide)
  obtain ⟨hName, hShape⟩ := Text.readsBack_word hPlain.1 _ _ _ hOther.1 (hBlank _) (hBlank _) h
  rw [List.append_cancel_left_eq] at hShape
  obtain ⟨hShape, hRest⟩ := Shape.readsBack_render hList hPlain.2 _ _ _ hOther.2
    ⟨s, rfl, hs⟩ ⟨t, rfl, ht⟩ hShape
  refine ⟨?_, List.append_cancel_left hRest⟩
  cases decl
  cases other
  exact TypeDecl.mk.injEq .. ▸ ⟨hName, hShape⟩

theorem renderRest_eq (decls : List TypeDecl) :
    renderRest settings decls = decls.flatMap fun decl => ("and " : Text) ++ line settings decl := by
  rw [renderRest]
  congr 1
  funext decl
  simp [render, line, Text.concat]

theorem renderBlock_cons (decl : TypeDecl) (decls : List TypeDecl) :
    renderBlock settings (decl :: decls) = .ok (("type " : Text) ++ (line settings decl ++
      ((decls.flatMap fun decl => ("and " : Text) ++ line settings decl) ++ (";\n" : Text)))) := by
  rw [renderBlock, renderRest_eq]
  simp [render, line, Text.concat]

theorem exists_renderBlock (settings : Settings) {decls : List TypeDecl} (h : decls ≠ []) :
    ∃ text, renderBlock settings decls = .ok text := by
  obtain ⟨decl, rest, rfl⟩ := List.exists_cons_of_ne_nil h
  exact ⟨_, rfl⟩

/-- A block is determined by its text. -/
theorem renderBlock_inj (hList : settings.listType.IsWord) {first second : List TypeDecl}
    (hFirst : ∀ decl ∈ first, decl.Plain) (hSecond : ∀ decl ∈ second, decl.Plain) {text : Text}
    (h : renderBlock settings first = .ok text) (h' : renderBlock settings second = .ok text) :
    first = second := by
  have hEnd : Stops (· = CodePoint.char ' ') (";\n" : Text) ∧ ¬ ("and " : Text) <+: (";\n" : Text) :=
    ⟨Text.stops_append (s := (";\n" : Text)) rfl (by decide) [], by decide⟩
  have hLead : ∀ t, Stops (· = CodePoint.char ' ') (("and " : Text) ++ t) :=
    Text.stops_append rfl (by decide)
  cases first with
  | nil => exact absurd h (by simp [renderBlock])
  | cons decl decls =>
      cases second with
      | nil => exact absurd h' (by simp [renderBlock])
      | cons other others =>
          obtain ⟨hDecl, hDecls⟩ := List.forall_mem_cons.1 hFirst
          obtain ⟨hOther, hOthers⟩ := List.forall_mem_cons.1 hSecond
          have hRow := ReadsBack.row "and " hLead fun decl hMem =>
            readsBack_line hList (hDecls decl hMem)
          rw [renderBlock_cons] at h h'
          have hText := Except.ok.inj (h.trans h'.symm)
          rw [List.append_cancel_left_eq] at hText
          obtain ⟨rfl, hRest⟩ := readsBack_line hList hDecl other _ _ hOther
            (Text.follows_row hLead decls hEnd.1) (Text.follows_row hLead others hEnd.1) hText
          obtain ⟨rfl, -⟩ := hRow others _ _ hOthers hEnd hEnd hRest
          rfl

end TypeDecl

end TreeTypes
