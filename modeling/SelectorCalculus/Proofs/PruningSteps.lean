import SelectorCalculus.Selector.Pruning
import Mathlib.Tactic.SplitIfs
/-! Pruning without effects, level by level. -/

namespace SelectorCalculus

namespace Pruning

/-- The simple selector that is left, if any is. -/
def Fate.kept? : Fate → Option Simple
  | kept s => some s
  | _ => none

def Fate.isDropped : Fate → Bool
  | dropped => true
  | _ => false

/-- The fate that an action brings to a simple selector. -/
def Fate.of (s : Simple) : Action → Fate
  | .keep => kept s
  | .remove => removed
  | .drop => dropped

theorem collectSimples_eq (fates : List Fate) : collectSimples (m := Id) fates =
    if fates.any Fate.isDropped then none else some (fates.filterMap Fate.kept?) := by
  induction fates with
  | nil => rfl
  | cons fate fates ih =>
    cases fate with
    | kept s =>
      have hcons : collectSimples (m := Id) (Fate.kept s :: fates) =
        (collectSimples (m := Id) fates : Option (List Simple)).map (s :: ·) := rfl
      rw [hcons, ih]
      by_cases h : fates.any Fate.isDropped <;> simp [h, Fate.isDropped, Fate.kept?]
    | removed => exact ih
    | dropped => rfl

theorem collectComponents_eq (parts : List (Option Component)) :
    collectComponents (m := Id) parts = if parts.any Option.isNone then none
      else some (parts.filterMap id) := by
  induction parts with
  | nil => rfl
  | cons part parts ih =>
    cases part with
    | none => rfl
    | some c =>
      have hcons : collectComponents (m := Id) (some c :: parts) =
        (collectComponents (m := Id) parts : Option (List Component)).map (c :: ·) := rfl
      rw [hcons, ih]
      by_cases h : parts.any Option.isNone <;> simp [h]

theorem collectComplexes_eq (parts : List (Option Complex)) :
    collectComplexes (m := Id) parts = parts.filterMap id := by
  induction parts with
  | nil => rfl
  | cons part parts ih =>
    have hcons : collectComplexes (m := Id) (part :: parts) =
      List.append part.toList (collectComplexes (m := Id) parts) := rfl
    rw [hcons, ih]
    cases part <;> rfl

theorem mem_rebuild {c : Compound} {ss : List Simple} {s : Simple}
    (h : s ∈ (rebuild c ss).simples) : s ∈ ss ∨ s = .universal := by
  unfold rebuild at h
  split_ifs at h
  · exact Or.inr (List.mem_singleton.1 h)
  · exact Or.inl h

variable (visit : Simple → Action)

/-- The pruner for a visitor without effects. -/
abbrev purely : Interpretation Fate (Option Component) (Option Complex) :=
  pruner (m := Id) fun s => visit s

theorem decideFate_eq (s : Simple) :
    decideFate (m := Id) (fun s => visit s) s = Fate.of s (visit s) := by
  have hdecide : decideFate (m := Id) (fun s => visit s) s = match visit s with
    | .keep => Fate.kept s
    | .remove => .removed
    | .drop => .dropped := rfl
  rw [hdecide]
  cases visit s <;> rfl

theorem pruneList_eq (l : SelectorList) :
    pruneList visit l = l.filterMap (purely visit).ofComplex := by
  have hrun : pruneList visit l = collectComplexes (m := Id) ((purely visit).ofList l) := rfl
  rw [hrun, Interpretation.ofList_eq_map, collectComplexes_eq, List.filterMap_map]
  rfl

theorem purely_plain {s : Simple} (hs : ¬ s.hasSelector) :
    (purely visit).ofSimple s = Fate.of s (visit s) := by
  rw [Interpretation.ofSimple_eq, ← decideFate_eq]
  simp only [pruner, hs]
  rfl

/-- A selector argument of which nothing is left decides the fate of its pseudo selector. -/
theorem purely_argument {s : Simple} {l : SelectorList} (hk : s.kind = .pseudo)
    (hl : s.selector = some l) : (purely visit).ofSimple s =
      if (pruneList visit l).isEmpty then
        if s.normalizedName = "not" then .removed else .dropped
      else Fate.of (s.withSelector (pruneList visit l))
        (visit (s.withSelector (pruneList visit l))) := by
  have hs : s.hasSelector = true := by simp [Simple.hasSelector, hk, hl]
  have hparts :
      collectComplexes (m := Id) (l.map (purely visit).ofComplex) = pruneList visit l := by
    rw [pruneList_eq, collectComplexes_eq, List.filterMap_map]
    rfl
  rw [Interpretation.ofSimple_eq, ← decideFate_eq, ← hparts, hl]
  simp only [pruner, hs, if_true]
  rfl

theorem purely_compound (c : Compound) : (purely visit).ofComponent (.compound c) =
    if (c.simples.map (purely visit).ofSimple).any Fate.isDropped then none
    else some (.compound (rebuild c
      ((c.simples.map (purely visit).ofSimple).filterMap Fate.kept?))) := by
  have hrun : (purely visit).ofComponent (.compound c) =
      (collectSimples (m := Id) (c.simples.map (purely visit).ofSimple) :
        Option (List Simple)).map fun simples => .compound (rebuild c simples) := by
    rw [Interpretation.ofComponent_compound, Interpretation.ofCompound_eq]
    rfl
  rw [hrun, collectSimples_eq]
  split_ifs <;> rfl

theorem purely_combinator (k : Combinator) :
    (purely visit).ofComponent (.combinator k) = some (.combinator k) := rfl

theorem purely_complex (c : Complex) : (purely visit).ofComplex c =
    if c.isImpossible then none
    else if (c.components.map (purely visit).ofComponent).any Option.isNone then none
    else some (.path (c.components.filterMap (purely visit).ofComponent) c.lineBreak) := by
  have hrun : (purely visit).ofComplex c = if c.isImpossible then none else
      (collectComponents (m := Id) (c.components.map (purely visit).ofComponent) :
        Option (List Component)).map fun components => .path components c.lineBreak := by
    rw [Interpretation.ofComplex_eq]
    rfl
  rw [hrun, collectComponents_eq, List.filterMap_map]
  split_ifs <;> rfl

end Pruning

end SelectorCalculus
