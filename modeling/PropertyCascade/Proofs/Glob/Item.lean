import PropertyCascade.Proofs.Glob.Interval

/-!
# Matching items

Each item moves a marking past the texts that it denotes, a sequence of items past the
concatenations, and a choice past the texts of its options. A sequence therefore matches exactly
the texts that it denotes.
-/

namespace PropertyCascade

namespace Glob

namespace Item

@[simp]
theorem denotedBy_nil {text : Text} : DenotedBy [] text ↔ text = [] := by
  rw [DenotedBy]

theorem denotedBy_cons {item : Item} {items : List Item} {text : Text} :
    DenotedBy (item :: items) text ↔
      ∃ before after, text = before ++ after ∧ item.Denotes before ∧ DenotedBy items after := by
  rw [DenotedBy]

@[simp]
theorem denotedBy_singleton {item : Item} {text : Text} :
    DenotedBy [item] text ↔ item.Denotes text := by
  simp [denotedBy_cons]

theorem denotedBy_append {items others : List Item} {text : Text} :
    DenotedBy (items ++ others) text ↔
      ∃ before after, text = before ++ after ∧ DenotedBy items before ∧ DenotedBy others after := by
  induction items generalizing text with
  | nil => simp
  | cons item items ih =>
      simp only [List.cons_append, denotedBy_cons, ih]
      constructor
      · intro splits
        rcases splits with
          ⟨first, _, rfl, firstDenotes, second, third, rfl, secondDenotes, thirdDenotes⟩
        exact ⟨first ++ second, third, by simp, ⟨first, second, rfl, firstDenotes, secondDenotes⟩,
          thirdDenotes⟩
      · intro splits
        rcases splits with
          ⟨_, third, rfl, ⟨first, second, rfl, firstDenotes, secondDenotes⟩, thirdDenotes⟩
        exact ⟨first, second ++ third, by simp, firstDenotes, second, third, rfl, secondDenotes,
          thirdDenotes⟩

theorem denotedBySome_iff {options : List (List Item)} {text : Text} :
    DenotedBySome options text ↔ ∃ option ∈ options, DenotedBy option text := by
  induction options with
  | nil => simp [DenotedBySome]
  | cons option options ih => simp [DenotedBySome, ih]

mutual

theorem movesPast_advance : (item : Item) → Marking.MovesPast item.advance item.Denotes
  | char c => by
      apply (Marking.movesPast_past (· == c)).congr
      intro text
      simp [Marking.OneLetter, Denotes]
  | anyChar => by
      apply (Marking.movesPast_past fun _ => true).congr
      intro text
      simp [Marking.OneLetter, Denotes]
  | star => by
      apply (Marking.movesPast_pastMany (· != '/')).congr
      intro text
      simp only [bne_iff_ne, Denotes]
      exact ⟨fun all member => all '/' member rfl,
        fun absent c member same => absent (same ▸ member)⟩
  | anything => by
      apply (Marking.movesPast_pastMany fun _ => true).congr
      intro text
      simp [Denotes]
  | directories => by
      apply (Marking.movesPast_pastDirectories (· == '/')).congr
      intro text
      simp [Marking.EndsWith, Denotes]
  | oneOf charClass => by
      apply (Marking.movesPast_past charClass.accepts).congr
      intro text
      simp [Marking.OneLetter, Denotes]
  | numerals interval => interval.movesPast_expression
  | choice options => by
      simpa only [advance, Denotes] using movesPast_advanceSome options

theorem movesPast_advanceAll :
    (items : List Item) → Marking.MovesPast (advanceAll items) (DenotedBy items)
  | [] => Marking.movesPast_nothing
  | item :: items => (movesPast_advance item).append (movesPast_advanceAll items)

theorem movesPast_advanceSome :
    (options : List (List Item)) → Marking.MovesPast (advanceSome options) (DenotedBySome options)
  | [] => Marking.movesPast_nowhere
  | option :: options => (movesPast_advanceAll option).union (movesPast_advanceSome options)

end

/-- A sequence of items matches exactly the texts that it denotes. -/
theorem matchesAll_iff_denotedBy (items : List Item) (text : Text) :
    matchesAll items text = true ↔ DenotedBy items text :=
  (movesPast_advanceAll items).atEnd_iff text

end Item

end Glob

end PropertyCascade
