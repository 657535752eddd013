import SelectorCalculus.Selector.Interpretation
/-! Properties of a selector and of the alternatives in its selector arguments, at every depth. -/

namespace SelectorCalculus

/-- Selectors all of whose simple selectors, components and complex selectors pass given tests, at
every depth. -/
def everyDepth (simple : Simple → Bool) (component : Component → Bool) (complex : Complex → Bool) :
    Interpretation Bool Bool Bool where
  simple s parts := simple s && (!s.hasSelector || parts.all id)
  component c parts := component c && parts.all id
  complex c parts := complex c && parts.all id

variable {p : Simple → Bool} {q : Component → Bool} {r : Complex → Bool}

theorem everyDepth_simple_iff {s : Simple} : (everyDepth p q r).ofSimple s ↔
    p s ∧ (s.hasSelector → ∀ l ∈ s.selector, ∀ c ∈ l, (everyDepth p q r).ofComplex c) := by
  rw [Interpretation.ofSimple_eq]
  cases hs : s.hasSelector
  · simp [everyDepth, hs]
  · obtain ⟨-, l, hl⟩ := Simple.hasSelector_iff.1 hs
    simp [everyDepth, hs, hl]

theorem everyDepth_compound_iff {c : Compound} : (everyDepth p q r).ofComponent (.compound c) ↔
    q (.compound c) ∧ ∀ s ∈ c.simples, (everyDepth p q r).ofSimple s := by
  rw [Interpretation.ofComponent_compound, Interpretation.ofCompound_eq]
  simp [everyDepth]

theorem everyDepth_complex_iff {c : Complex} : (everyDepth p q r).ofComplex c ↔
    r c ∧ ∀ d ∈ c.components, (everyDepth p q r).ofComponent d := by
  rw [Interpretation.ofComplex_eq]
  simp [everyDepth]

end SelectorCalculus
