import SelectorCalculus.Proofs.PruningSteps
import SelectorCalculus.Selector.Render
import Mathlib.Data.List.Basic
/-! Pruning a list again changes nothing, as long as the universal selector that fills an emptied
compound is kept. -/

namespace SelectorCalculus

namespace Pruning

theorem Fate.of_eq_kept {s s' : Simple} {action : Action} (h : s' ∈ (Fate.of s action).kept?) :
    s' = s ∧ action = .keep := by
  cases action with
  | keep => exact ⟨(Option.some.inj h).symm, rfl⟩
  | remove => cases h
  | drop => cases h

theorem rebuild_self (c : Compound) : rebuild c c.simples = c := by
  obtain ⟨ss, p, e⟩ := c
  cases ss <;> rfl

variable {visit : Simple → Action}

theorem pruneList_of_kept {l : SelectorList} (h : ∀ c ∈ l, (purely visit).ofComplex c = some c) :
    pruneList visit l = l := by
  rw [pruneList_eq, List.filterMap_congr h, List.filterMap_some]

/-- A list is pruned once if what is left of each of its members is kept. -/
theorem pruneList_again {l : SelectorList} (h : ∀ c ∈ l, ∀ c' ∈ (purely visit).ofComplex c,
    (purely visit).ofComplex c' = some c') :
    pruneList visit (pruneList visit l) = pruneList visit l := by
  refine pruneList_of_kept fun c' hc' => ?_
  rw [pruneList_eq] at hc'
  obtain ⟨c, hc, hcc'⟩ := List.mem_filterMap.1 hc'
  exact h c hc c' hcc'

theorem purely_compound_of_kept {c : Compound}
    (h : ∀ s ∈ c.simples, (purely visit).ofSimple s = .kept s) :
    (purely visit).ofComponent (.compound c) = some (.compound c) := by
  have hfates : c.simples.map (purely visit).ofSimple = c.simples.map Fate.kept :=
    List.map_congr_left h
  have hdropped : (c.simples.map Fate.kept).any Fate.isDropped = false := by
    simp [Fate.isDropped]
  have hkept : (c.simples.map Fate.kept).filterMap Fate.kept? = c.simples := by
    rw [List.filterMap_map]
    exact List.filterMap_some
  rw [purely_compound, hfates, hdropped, hkept, rebuild_self]
  rfl

theorem purely_path_of_kept {cs : List Component} {b : Bool}
    (hpossible : ¬ (Complex.path cs b).isImpossible)
    (h : ∀ d ∈ cs, (purely visit).ofComponent d = some d) :
    (purely visit).ofComplex (.path cs b) = some (.path cs b) := by
  have hkept : cs.filterMap (purely visit).ofComponent = cs := by
    rw [List.filterMap_congr h, List.filterMap_some]
  have hnone : ¬ (cs.map (purely visit).ofComponent).any Option.isNone := by
    rw [List.map_congr_left h]
    simp
  rw [purely_complex, if_neg hpossible]
  simp only [Complex.components, Complex.lineBreak, if_neg hnone, hkept]

theorem exists_compound_of_purely {d : Compound} {c : Component}
    (h : (purely visit).ofComponent (.compound d) = some c) : ∃ d', c = .compound d' := by
  rw [purely_compound] at h
  split_ifs at h
  exact ⟨_, (Option.some.inj h).symm⟩

theorem not_isImpossible_filterMap {cs : List Component} {b : Bool}
    (hpossible : ¬ (Complex.path cs b).isImpossible)
    (hnone : ¬ (cs.map (purely visit).ofComponent).any Option.isNone) :
    ¬ (Complex.path (cs.filterMap (purely visit).ofComponent) b).isImpossible := by
  unfold Complex.isImpossible Complex.compounds compoundsOf at hpossible ⊢
  rw [List.isEmpty_iff] at hpossible ⊢
  obtain ⟨c, hc⟩ := List.exists_mem_of_ne_nil _ hpossible
  obtain ⟨d, hd, hdc⟩ := List.mem_filterMap.1 hc
  cases d with
  | combinator k => cases hdc
  | compound d =>
    cases hleft : (purely visit).ofComponent (.compound d) with
    | none =>
      have hmem := List.mem_map_of_mem (f := (purely visit).ofComponent) hd
      rw [hleft] at hmem
      exact absurd (List.any_eq_true.2 ⟨none, hmem, rfl⟩) hnone
    | some c' =>
      obtain ⟨d', rfl⟩ := exists_compound_of_purely hleft
      have hmem := List.mem_filterMap.2 ⟨_, hd, hleft⟩
      exact List.ne_nil_of_mem (List.mem_filterMap.2 ⟨_, hmem, rfl⟩)

/-- What is left of a selector is kept as it is. -/
theorem hereditary_kept (huniversal : visit .universal = .keep) : Hereditary
    (fun s => ∀ s' ∈ ((purely visit).ofSimple s).kept?, (purely visit).ofSimple s' = .kept s')
    (fun c => ∀ c' ∈ (purely visit).ofComponent c, (purely visit).ofComponent c' = some c')
    (fun c => ∀ c' ∈ (purely visit).ofComplex c, (purely visit).ofComplex c' = some c') where
  simple s ih s' hs' := by
    by_cases hs : s.hasSelector
    · obtain ⟨hk, l, hl⟩ := Simple.hasSelector_iff.1 hs
      rw [purely_argument _ hk hl] at hs'
      split_ifs at hs' with hempty hnot
      · cases hs'
      · cases hs'
      · obtain ⟨rfl, hkeep⟩ := Fate.of_eq_kept hs'
        rw [purely_argument visit (s := s.withSelector (pruneList visit l)) hk rfl,
          pruneList_again (ih l hl), if_neg hempty]
        have hsame : (s.withSelector (pruneList visit l)).withSelector (pruneList visit l) =
          s.withSelector (pruneList visit l) := rfl
        rw [hsame, hkeep]
        rfl
    · rw [purely_plain _ hs] at hs'
      obtain ⟨rfl, hkeep⟩ := Fate.of_eq_kept hs'
      rw [purely_plain _ hs, hkeep]
      rfl
  compound c ih c' hc' := by
    rw [purely_compound] at hc'
    split_ifs at hc' <;> cases hc'
    refine purely_compound_of_kept fun s' hs' => ?_
    rcases mem_rebuild hs' with hs' | rfl
    · rw [List.filterMap_map] at hs'
      obtain ⟨s, hs, hss'⟩ := List.mem_filterMap.1 hs'
      exact ih s hs s' hss'
    · rw [purely_plain _ (by decide), huniversal]
      rfl
  combinator k c' hc' := by
    cases hc'
    rfl
  complex c ih c' hc' := by
    cases c with
    | absent => cases hc'
    | path cs b =>
      rw [purely_complex] at hc'
      split_ifs at hc' with hpossible hnone <;> cases hc'
      refine purely_path_of_kept (not_isImpossible_filterMap hpossible hnone) fun d' hd' => ?_
      obtain ⟨d, hd, hdd'⟩ := List.mem_filterMap.1 hd'
      exact ih d hd d' hdd'

end Pruning

open Pruning

/-- A visitor that keeps the universal selector has nothing left to do on what it pruned, and so the
cleanup of placeholders has nothing left to do on what it cleaned up. -/
theorem pruneList_idempotent :
    (∀ visit : Simple → Action, visit .universal = .keep → ∀ l,
      pruneList visit (pruneList visit l) = pruneList visit l) ∧
    ∀ l, removePlaceholders (removePlaceholders l) = removePlaceholders l := by
  have hagain (visit : Simple → Action) (huniversal : visit .universal = .keep) (l : SelectorList) :
      pruneList visit (pruneList visit l) = pruneList visit l :=
    pruneList_again fun c _ => (hereditary_kept huniversal).ofComplex c
  exact ⟨hagain, hagain _ rfl⟩

/-- Without the class `x` and whatever names a placeholder, `.a:not(.x .b), .x, .c:is(%p)` is
`.a:not(* .b), *`, and stays so. -/
theorem pruneList_idempotent_emptied :
    let single (sss : List (List Simple)) : Complex :=
      .ofComponents (sss.map fun ss => .compound (.ofSimples ss))
    let plain (kind : Kind) (name : String) : Simple := { kind, name }
    let pseudo (name : String) (sss : List (List Simple)) : Simple :=
      { kind := .pseudo, name, selector := some [single sss] }
    let visit (s : Simple) : Action :=
      if s.kind = .placeholder then .drop else if s.name = "x" then .remove else .keep
    let l : SelectorList :=
      [single [[plain .className "a",
          pseudo "not" [[plain .className "x"], [plain .className "b"]]]],
        single [[plain .className "x"]],
        single [[plain .className "c", pseudo "is" [[plain .placeholder "p"]]]]]
    visit .universal = .keep ∧ renderList (pruneList visit l) = ".a:not(* .b), *" ∧
      pruneList visit (pruneList visit l) = pruneList visit l := by
  intro single plain pseudo visit l
  have huniversal : visit .universal = .keep := rfl
  exact ⟨huniversal, by decide +kernel, pruneList_idempotent.1 visit huniversal l⟩

end SelectorCalculus
