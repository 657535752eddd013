import SelectorCalculus.Selector.Superselector
import Mathlib.Data.List.Chain
/-! The shape of paths: where compounds and combinators stand. -/

namespace SelectorCalculus

/-! ### Compounds of a path -/

@[simp] theorem compoundsOf_nil : compoundsOf [] = [] := rfl

@[simp] theorem compoundsOf_compound_cons (c : Compound) (cs : List Component) :
    compoundsOf (.compound c :: cs) = c :: compoundsOf cs := rfl

@[simp] theorem compoundsOf_combinator_cons (k : Combinator) (cs : List Component) :
    compoundsOf (.combinator k :: cs) = compoundsOf cs := rfl

@[simp] theorem compoundsOf_append (cs ds : List Component) :
    compoundsOf (cs ++ ds) = compoundsOf cs ++ compoundsOf ds := List.filterMap_append ..

@[simp] theorem compoundsOf_reverse (cs : List Component) :
    compoundsOf cs.reverse = (compoundsOf cs).reverse := List.filterMap_reverse ..

theorem startsWithCompound_iff {cs : List Component} :
    Superselector.startsWithCompound cs ↔ ∃ c rest, cs = .compound c :: rest := by
  rcases cs with _ | ⟨_ | _, rest⟩ <;> simp [Superselector.startsWithCompound, Component.isCompound]

/-! ### Steps -/

/-- The components that stand for a step. -/
def link : Option Combinator → List Component
  | none => []
  | some k => [.combinator k]

theorem compoundsOf_link (s : Option Combinator) : compoundsOf (link s) = [] := by
  cases s <;> rfl

/-! ### Well-formed paths -/

/-- Whether a path starts and ends with compounds and has no combinators side by side. -/
def isWellFormed : List Component → Bool
  | [.compound _] => true
  | .compound _ :: .combinator _ :: rest => isWellFormed rest
  | .compound _ :: .compound d :: rest => isWellFormed (.compound d :: rest)
  | [] => false
  | .combinator _ :: _ => false

theorem isWellFormed_iff {cs : List Component} :
    isWellFormed cs ↔ Superselector.startsWithCompound cs ∧ ¬ endsWithCombinator cs ∧
      cs.IsChain fun c d => c.isCompound ∨ d.isCompound := by
  fun_induction isWellFormed cs with
  | case1 c => simp [Superselector.startsWithCompound, endsWithCombinator, Component.isCombinator,
      Component.isCompound]
  | case2 c k rest ih =>
    rw [ih]
    cases rest with
    | nil => simp [Superselector.startsWithCompound, endsWithCombinator, Component.isCombinator,
        Component.isCompound]
    | cons d rest =>
      cases d <;> simp [Superselector.startsWithCompound, endsWithCombinator, Component.isCompound]
  | case3 c d rest ih =>
    rw [ih]
    simp [Superselector.startsWithCompound, endsWithCombinator, Component.isCompound]
  | case4 => simp [Superselector.startsWithCompound]
  | case5 k rest => simp [Superselector.startsWithCompound, Component.isCompound]

theorem isWellFormed_cons_link (c d : Compound) (s : Option Combinator) (cs : List Component) :
    isWellFormed (.compound c :: (link s ++ .compound d :: cs)) =
      isWellFormed (.compound d :: cs) := by
  cases s <;> rfl

theorem isWellFormed_append {cs ds ds' : List Component} {d d' : Compound}
    (h : isWellFormed (cs ++ .compound d :: ds)) (h' : isWellFormed (.compound d' :: ds')) :
    isWellFormed (cs ++ .compound d' :: ds') := by
  fun_induction isWellFormed cs with
  | case1 c => exact h'
  | case2 c k rest ih => exact ih h
  | case3 c d'' rest ih => exact ih h
  | case4 => exact h'
  | case5 k rest => cases h

theorem isWellFormed_of_append {cs ds : List Component} {d : Compound}
    (h : isWellFormed (cs ++ .compound d :: ds)) : isWellFormed (.compound d :: ds) := by
  fun_induction isWellFormed cs with
  | case1 c => exact h
  | case2 c k rest ih => exact ih h
  | case3 c d'' rest ih => exact ih h
  | case4 => exact h
  | case5 k rest => cases h

theorem exists_snoc_of_isWellFormed {cs : List Component} (h : isWellFormed cs) :
    ∃ ds c, cs = ds ++ [.compound c] := by
  fun_induction isWellFormed cs with
  | case1 c => exact ⟨[], c, rfl⟩
  | case2 c k rest ih =>
    obtain ⟨ds, d, rfl⟩ := ih h
    exact ⟨.compound c :: .combinator k :: ds, d, rfl⟩
  | case3 c d rest ih =>
    obtain ⟨ds, d', hd⟩ := ih h
    exact ⟨.compound c :: ds, d', by rw [hd, List.cons_append]⟩
  | case4 => cases h
  | case5 k rest => cases h

/-! ### Something put between two steps -/

section Insertion

variable {cs ds : List Component} {c d g : Compound} {k : Combinator} {s : Option Combinator}

theorem isWellFormed_insert
    (h : isWellFormed (cs ++ .compound c :: .combinator k :: .compound d :: ds)) :
    isWellFormed (cs ++ .compound c :: .combinator k :: .compound g ::
      (link s ++ .compound d :: ds)) := by
  have hc : isWellFormed (.compound c :: .combinator k :: .compound d :: ds) :=
    isWellFormed_of_append h
  refine isWellFormed_append h ?_
  rw [isWellFormed] at hc ⊢
  rwa [isWellFormed_cons_link]

theorem mem_compoundsOf_insert {c' : Compound} (h : c' ∈ compoundsOf
      (cs ++ .compound c :: .combinator k :: .compound g :: (link s ++ .compound d :: ds))) :
    c' = g ∨ c' ∈ compoundsOf (cs ++ .compound c :: .combinator k :: .compound d :: ds) := by
  simp only [compoundsOf_append, compoundsOf_link, compoundsOf_compound_cons,
    compoundsOf_combinator_cons, List.mem_append, List.mem_cons, List.nil_append] at h ⊢
  rcases h with h | h | h | h
  · exact Or.inr (Or.inl h)
  · exact Or.inr (Or.inr (Or.inl h))
  · exact Or.inl h
  · exact Or.inr (Or.inr (Or.inr h))

end Insertion

end SelectorCalculus
