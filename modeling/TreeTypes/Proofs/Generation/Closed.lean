import TreeTypes.Proofs.Generation.Stages
import TreeTypes.Proofs.TypeDecl.Mentions

/-!
# The block is closed

A block of mutually recursive declarations is usable if it declares every name
that it mentions, and none of them twice. Each stage has a part in this. The
names that hoisting makes differ from each other and from the declared ones;
the order names every rule once; the check of the references has left no
symbol without a rule; and declaring a rule adds no name but that of the
primitive type.

Extras are written last, and nothing leads to them or away from them: they
mention nothing but the primitive type, and the other declarations do not
mention them. The exception is a primitive type that bears the name of an
extra, for then every terminal mentions it.

## Main results

* `Grammar.mentions_of_types` — what a declaration mentions, from its rule.
* `Grammar.closed_types` — names are declared once, and what is mentioned is
  declared.
-/

namespace TreeTypes

namespace Grammar

variable {g : Grammar}

section Types

variable (hWell : g.WellFormed) {settings : Settings} {decls : List TypeDecl}
  (hTypes : g.types settings = .ok decls)

include hWell hTypes

/-- Where there are declarations, the references of the hoisted grammar are accepted. -/
theorem coherent_of_types : (g.hoisted {}).Coherent := by
  obtain ⟨refs, hRefs, -⟩ := shaped_of_types hWell hTypes
  exact (References.ofGrammar_eq_ok_iff (hWell.hoisted {})).1 ⟨refs, hRefs⟩

/-- Every rule of the hoisted grammar is declared, and nothing else is. -/
theorem mem_names_types_iff {name : Text} :
    name ∈ decls.map TypeDecl.name ↔ name ∈ (g.hoisted {}).order := by
  obtain ⟨refs, hRefs, hNames, -⟩ := shaped_of_types hWell hTypes
  rw [hNames]
  exact mem_emissionOrder_iff (hWell.hoisted {}) hRefs

/-- No name is declared twice. -/
theorem nodup_names_types : (decls.map TypeDecl.name).Nodup := by
  obtain ⟨refs, hRefs, hNames, -⟩ := shaped_of_types hWell hTypes
  rw [hNames]
  exact nodup_emissionOrder (hWell.hoisted {}) hRefs

/-- A declaration mentions what the body of its rule has for symbols and leaves. -/
theorem mentions_of_types {decl : TypeDecl} (hDecl : decl ∈ decls) :
    ∃ rule ∈ (g.hoisted {}).rules, rule.name = decl.name ∧
      decl.mentions = rule.body.typeNames settings.primitiveType := by
  obtain ⟨-, -, -, hShapes⟩ := shaped_of_types hWell hTypes
  obtain ⟨rule, hRule, hName, hShaped⟩ := hShapes decl hDecl
  exact ⟨rule, hRule, hName, hShaped.names_eq⟩

/-- A declaration mentions the primitive type and declared rules, but no extras. -/
theorem mem_mentions_types {decl : TypeDecl} (hDecl : decl ∈ decls) {name : Text}
    (hName : name ∈ decl.mentions) :
    name = settings.primitiveType ∨ name ∈ (g.hoisted {}).declared.map Rule.name := by
  obtain ⟨rule, hRule, -, hMentions⟩ := mentions_of_types hWell hTypes hDecl
  rw [hMentions] at hName
  exact (Expr.mem_typeNames hName).imp id fun hSymbol =>
    (coherent_of_types hWell hTypes).mem_declared_of_mem_symbols hRule hSymbol

/-- The declaration of an extra mentions the primitive type at most. -/
theorem mentions_extra {decl : TypeDecl} (hDecl : decl ∈ decls) (hExtra : decl.name ∈ g.extras)
    {name : Text} (hName : name ∈ decl.mentions) : name = settings.primitiveType := by
  obtain ⟨rule, hRule, hSame, hMentions⟩ := mentions_of_types hWell hTypes hDecl
  have hFlag : rule.isExtra = true := ((hWell.hoisted {}).isExtra_iff rule hRule).2 (hSame ▸ hExtra)
  have hNone := (coherent_of_types hWell hTypes).extra_symbols rule hRule hFlag
  rw [hMentions] at hName
  rcases Expr.mem_typeNames hName with hPrimitive | hSymbol
  · exact hPrimitive
  · rw [hNone] at hSymbol
    exact absurd hSymbol List.not_mem_nil

/-- The declarations of the extras come last, in the order of the extras. -/
theorem exists_append_extras :
    ∃ others last, decls = others ++ last ∧ last.map TypeDecl.name = g.extras := by
  obtain ⟨refs, -, hNames, -⟩ := shaped_of_types hWell hTypes
  obtain ⟨others, last, hSplit, -, hLast⟩ := List.map_eq_append_iff.1 hNames
  exact ⟨others, last, hSplit, hLast⟩

end Types

/-- The declarations of a grammar are closed. They bear different names, which are the names of the
rules of the hoisted grammar; all that they mention is the primitive type or declared; and the last
ones are the extras in order, which mention the primitive type only and which no declaration before
them mentions, unless the primitive type has such a name. -/
theorem closed_types {name : Text} {rules : List Rule} {root : Option Text} {extras : List Text}
    {g : Grammar} (hBuilt : ofRules name rules root extras = .ok g) {settings : Settings}
    {decls : List TypeDecl} (hTypes : g.types settings = .ok decls) :
    (decls.map TypeDecl.name).Nodup ∧
    (∃ hoisted, g.hoist {} = .ok hoisted ∧ (decls.map TypeDecl.name).Perm hoisted.order) ∧
    (∀ decl ∈ decls, ∀ target ∈ decl.mentions,
      target = settings.primitiveType ∨ target ∈ decls.map TypeDecl.name) ∧
    ∃ others last, decls = others ++ last ∧ last.map TypeDecl.name = g.extras ∧
      (∀ decl ∈ last, ∀ target ∈ decl.mentions, target = settings.primitiveType) ∧
      ∀ decl ∈ others, ∀ target ∈ decl.mentions, target ∈ g.extras →
        target = settings.primitiveType := by
  have hWell := wellFormed_of_ofRules hBuilt
  have hHoisted := hWell.hoisted {}
  have hNodup := nodup_names_types hWell hTypes
  obtain ⟨others, last, hSplit, hLast⟩ := exists_append_extras hWell hTypes
  have hGiven := hWell.hoist_eq_ok (hoistable_of_types hTypes) {}
  refine ⟨hNodup, ⟨g.hoisted {}, hGiven, ?_⟩, ?_, others, last, hSplit, hLast, ?_, ?_⟩
  · exact (List.perm_ext_iff_of_nodup hNodup hHoisted.order_nodup).2 fun _ =>
      mem_names_types_iff hWell hTypes
  · intro decl hDecl target hTarget
    refine (mem_mentions_types hWell hTypes hDecl hTarget).imp id fun hDeclared => ?_
    exact (mem_names_types_iff hWell hTypes).2 (hHoisted.mem_declared_names.1 hDeclared).1
  · intro decl hDecl target hTarget
    have hExtra : decl.name ∈ g.extras := by
      rw [← hLast]
      exact List.mem_map_of_mem hDecl
    have hMem : decl ∈ decls := by
      rw [hSplit]
      exact List.mem_append_right _ hDecl
    exact mentions_extra hWell hTypes hMem hExtra hTarget
  · intro decl hDecl target hTarget hExtra
    have hMem : decl ∈ decls := by
      rw [hSplit]
      exact List.mem_append_left _ hDecl
    rcases mem_mentions_types hWell hTypes hMem hTarget with hPrimitive | hDeclared
    · exact hPrimitive
    · exact absurd hExtra (hHoisted.mem_declared_names.1 hDeclared).2

/-- The extra of `sample` is declared last and mentions the primitive type only. -/
theorem closed_types_sample :
    ∃ decls, sample.types {} = .ok decls ∧ (decls.map TypeDecl.name).Nodup ∧
      ∃ others last, decls = others ++ last ∧ last.map TypeDecl.name = ["comment"] ∧
        ∀ decl ∈ last, ∀ target ∈ decl.mentions, target = "string" := by
  obtain ⟨-, decls, -, hTypes, -⟩ := exists_types (wellFormed_of_ofRules ofRules_sample)
    valid_sample hoistable_sample (coherent_sample.hoisted {}) {}
  obtain ⟨hNodup, -, -, others, last, hSplit, hLast, hExtras, -⟩ :=
    closed_types ofRules_sample hTypes
  exact ⟨decls, hTypes, hNodup, others, last, hSplit, hLast, hExtras⟩

end Grammar

end TreeTypes
