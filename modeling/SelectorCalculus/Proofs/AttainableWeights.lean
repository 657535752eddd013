import SelectorCalculus.Selector.Specificity
import Mathlib.Data.List.Forall2
import Mathlib.Order.Bounds.Image
import Mathlib.Order.MinMax
/-! Specificity ranges are tight: their ends are the least and the greatest weight of a selector
over all choices among alternatives. -/

namespace SelectorCalculus

/-! ### Weights by choice -/

/-- What comes of choosing a weight from each set and joining them. -/
def joinedWeights (op : Nat → Nat → Nat) (parts : List (Set Nat)) : Set Nat :=
  {n | ∃ choice, List.Forall₂ (· ∈ ·) choice parts ∧ choice.foldr op 0 = n}

/-- What comes of choosing a set and a weight from it. Without any set it is zero. -/
def chosenWeights (parts : List (Set Nat)) : Set Nat :=
  {n | (parts = [] ∧ n = 0) ∨ ∃ part ∈ parts, n ∈ part}

/-- The weights of a pseudo class with the given weights of its alternatives. A negation weighs as
much as the heaviest of its alternatives, each of which has a weight. -/
def Label.argumentWeights (l : Label) (parts : List (Set Nat)) : Set Nat :=
  let name := l.normalizedName
  if name = "where" then {0}
  else if name = "not" then joinedWeights Nat.max parts
  else if name = "nth-child" ∨ name = "nth-last-child" then
    {n | ∃ m ∈ chosenWeights parts, m + 1000 = n}
  else chosenWeights parts

/-- Every selector as the weights that it can have. -/
def attainable : Interpretation (Set Nat) (Set Nat) (Set Nat) where
  simple s parts :=
    match s.kind with
    | .typeName => if s.isUniversal then {0} else {1}
    | .id => {1000000}
    | .pseudo =>
      if s.isPseudoElement then {1}
      else if s.selector.isNone then {1000}
      else s.argumentWeights parts
    | .className | .attr | .placeholder => {1000}
  component _ parts := joinedWeights (· + ·) parts
  complex _ parts := joinedWeights (· + ·) parts

theorem joinedWeights_nil (op : Nat → Nat → Nat) : joinedWeights op [] = {0} := by
  ext n
  simp [joinedWeights, eq_comm]

theorem joinedWeights_cons (op : Nat → Nat → Nat) (part : Set Nat) (parts : List (Set Nat)) :
    joinedWeights op (part :: parts) = Set.image2 op part (joinedWeights op parts) := by
  ext n
  constructor
  · rintro ⟨choice, hchoice, rfl⟩
    obtain ⟨m, rest, hm, hrest, rfl⟩ := List.forall₂_cons_right_iff.1 hchoice
    exact ⟨m, hm, _, ⟨rest, hrest, rfl⟩, rfl⟩
  · rintro ⟨m, hm, _, ⟨choice, hchoice, rfl⟩, rfl⟩
    exact ⟨m :: choice, .cons hm hchoice, rfl⟩

/-! ### Ranges -/

namespace Specificity

/-- The ends of the range are the least and the greatest of some weights. -/
structure Bounds (range : Specificity) (weights : Set Nat) : Prop where
  least : IsLeast weights range.min
  greatest : IsGreatest weights range.max

variable {a b : Specificity} {v w : Set Nat} {ranges : List Specificity} {parts : List (Set Nat)}

theorem Bounds.min_le_max (h : a.Bounds w) : a.min ≤ a.max := h.least.2 h.greatest.1

theorem bounds_exactly (n : Nat) : (exactly n).Bounds {n} :=
  ⟨isLeast_singleton, isGreatest_singleton⟩

theorem Bounds.either (ha : a.Bounds v) (hb : b.Bounds w) : (a.either b).Bounds (v ∪ w) :=
  ⟨ha.least.union hb.least, ha.greatest.union hb.greatest⟩

theorem Bounds.add_ofClass (h : a.Bounds w) :
    (a.add ofClass).Bounds {n | ∃ m ∈ w, m + 1000 = n} := by
  have hmono : Monotone fun m : Nat => m + 1000 := fun m n hmn => by
    show m + 1000 ≤ n + 1000
    omega
  exact ⟨hmono.map_isLeast h.least, hmono.map_isGreatest h.greatest⟩

/-- Ranges are joined end by end where the operation is monotone. -/
theorem bounds_joinedWeights {op : Nat → Nat → Nat}
    (hop : ∀ m m' n n', m ≤ m' → n ≤ n' → op m n ≤ op m' n')
    (h : List.Forall₂ Bounds ranges parts) :
    (ranges.foldr (fun a b => ⟨op a.min b.min, op a.max b.max⟩) zero).Bounds
      (joinedWeights op parts) := by
  have hleft (n : Nat) : Monotone (Function.swap op n) := fun m m' hm => hop m m' n n hm le_rfl
  have hright (m : Nat) : Monotone (op m) := fun n n' hn => hop m m n n' le_rfl hn
  induction h with
  | nil =>
    rw [joinedWeights_nil]
    exact bounds_exactly 0
  | cons hfirst _ ih =>
    rw [joinedWeights_cons]
    exact ⟨.image2 hleft hright hfirst.least ih.least,
      .image2 hleft hright hfirst.greatest ih.greatest⟩

theorem bounds_sum (h : List.Forall₂ Bounds ranges parts) :
    (sum ranges).Bounds (joinedWeights (· + ·) parts) :=
  bounds_joinedWeights (fun _ _ _ _ => Nat.add_le_add) h

/-- The greatest of several weights may be found from the last to the first. -/
theorem joinAll_greater (ranges : List Specificity) :
    joinAll greater ranges = ranges.foldr greater zero := by
  have hfold (a : Specificity) (ranges : List Specificity) :
      ranges.foldl greater a = greater a (ranges.foldr greater zero) := by
    induction ranges generalizing a with
    | nil => simp [greater, zero, exactly]
    | cons b ranges ih => simp [ih, greater, Nat.max_assoc]
  cases ranges with
  | nil => rfl
  | cons a ranges => exact hfold a ranges

theorem bounds_greater (h : List.Forall₂ Bounds ranges parts) :
    (joinAll greater ranges).Bounds (joinedWeights Nat.max parts) := by
  rw [joinAll_greater]
  exact bounds_joinedWeights (fun _ _ _ _ hm hn => max_le_max hm hn) h

theorem Bounds.foldl_either (ha : a.Bounds w) (h : List.Forall₂ Bounds ranges parts) :
    (ranges.foldl Specificity.either a).Bounds {n | ∃ part ∈ w :: parts, n ∈ part} := by
  induction h generalizing a w with
  | nil => simpa using ha
  | @cons b v ranges parts hb _ ih =>
    have hset : {n | ∃ part ∈ w :: v :: parts, n ∈ part} =
        {n | ∃ part ∈ (w ∪ v) :: parts, n ∈ part} := by
      ext n
      simp [or_assoc]
    rw [hset]
    exact ih (ha.either hb)

theorem bounds_either (h : List.Forall₂ Bounds ranges parts) :
    (joinAll Specificity.either ranges).Bounds (chosenWeights parts) := by
  cases h with
  | nil =>
    have hzero : chosenWeights [] = {0} := by
      ext n
      simp [chosenWeights]
    rw [hzero]
    exact bounds_exactly 0
  | @cons a w ranges parts ha hrest =>
    have hset : chosenWeights (w :: parts) = {n | ∃ part ∈ w :: parts, n ∈ part} := by
      simp [chosenWeights]
    rw [hset]
    exact ha.foldl_either hrest

end Specificity

open Specificity

theorem Label.bounds_argument (l : Label) {ranges : List Specificity} {parts : List (Set Nat)}
    (h : List.Forall₂ Bounds ranges parts) :
    (l.argumentSpecificity ranges).Bounds (l.argumentWeights parts) := by
  unfold argumentSpecificity argumentWeights
  dsimp only
  split_ifs
  · exact bounds_exactly 0
  · exact bounds_greater h
  · exact (bounds_either h).add_ofClass
  · exact bounds_either h

/-! ### Every selector -/

theorem forall₂_map_bounds {f : α → Specificity} {g : α → Set Nat} {xs : List α}
    (h : ∀ x ∈ xs, (f x).Bounds (g x)) : List.Forall₂ Bounds (xs.map f) (xs.map g) := by
  rw [List.forall₂_map_left_iff, List.forall₂_map_right_iff]
  exact List.forall₂_same.2 h

theorem hereditary_bounds : Hereditary
    (fun s => (weighing.ofSimple s).Bounds (attainable.ofSimple s))
    (fun c => (weighing.ofComponent c).Bounds (attainable.ofComponent c))
    (fun c => (weighing.ofComplex c).Bounds (attainable.ofComplex c)) where
  simple s ih := by
    have halternatives : ∀ c ∈ s.selector.getD [],
        (weighing.ofComplex c).Bounds (attainable.ofComplex c) := by
      cases hl : s.selector with
      | none => simp
      | some l => exact ih l hl
    have hparts := forall₂_map_bounds halternatives
    rw [Interpretation.ofSimple_eq, Interpretation.ofSimple_eq]
    simp only [weighing, attainable]
    cases s.kind with
    | typeName => split_ifs <;> exact bounds_exactly _
    | pseudo =>
      dsimp only
      split_ifs
      · exact bounds_exactly 1
      · exact bounds_exactly 1000
      · exact s.bounds_argument hparts
    | _ => exact bounds_exactly _
  compound c ih := by
    rw [Interpretation.ofComponent_compound, Interpretation.ofComponent_compound,
      Interpretation.ofCompound_eq, Interpretation.ofCompound_eq]
    exact bounds_sum (forall₂_map_bounds ih)
  combinator k := bounds_sum .nil
  complex c ih := by
    rw [Interpretation.ofComplex_eq, Interpretation.ofComplex_eq]
    exact bounds_sum (forall₂_map_bounds ih)

/-- The range of a selector is tight: its ends are the least and the greatest weight that the
selector can have, by whatever choices among the alternatives of the pseudo classes in it, at every
depth. Weights are natural numbers, so no end is below zero. -/
theorem specificity_isTight :
    (∀ s : Simple, s.specificity.Bounds (attainable.ofSimple s) ∧
      s.specificity.min ≤ s.specificity.max) ∧
    (∀ c : Compound, c.specificity.Bounds (attainable.ofCompound c) ∧
      c.specificity.min ≤ c.specificity.max) ∧
    ∀ c : Complex, c.specificity.Bounds (attainable.ofComplex c) ∧
      c.specificity.min ≤ c.specificity.max := by
  refine ⟨fun s => ?_, fun c => ?_, fun c => ?_⟩
  · have hbounds : s.specificity.Bounds _ := hereditary_bounds.ofSimple s
    exact ⟨hbounds, hbounds.min_le_max⟩
  · have hbounds : c.specificity.Bounds _ := hereditary_bounds.ofComponent (.compound c)
    exact ⟨hbounds, hbounds.min_le_max⟩
  · have hbounds : c.specificity.Bounds _ := hereditary_bounds.ofComplex c
    exact ⟨hbounds, hbounds.min_le_max⟩

/-- In `:not(:is(.a, #b), p)` the choice is between `.a` and `#b`, either of which outweighs `p`. -/
example :
    let single (s : Simple) : Complex := .ofComponents [.compound (.ofSimples [s])]
    let pseudo (name : String) (l : SelectorList) : Simple :=
      { kind := .pseudo, name, selector := some l }
    let a := single { kind := .className, name := "a" }
    let b := single { kind := .id, name := "b" }
    let p := single (.ofType "" "p")
    (pseudo "not" [single (pseudo "is" [a, b]), p]).specificity = ⟨1000, 1000000⟩ := by
  decide +kernel

end SelectorCalculus
