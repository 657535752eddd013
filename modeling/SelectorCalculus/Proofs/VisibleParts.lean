import SelectorCalculus.Proofs.EveryDepth
import SelectorCalculus.Proofs.PlaceholderCleanup
import SelectorCalculus.Selector.Render
import SelectorCalculus.Selector.Visibility
/-! The cleanup of placeholders keeps exactly the visible alternatives, and inside them leaves out
the invisible ones. -/

namespace SelectorCalculus

open Pruning

/-! ### Visibility, level by level -/

theorem Simple.isInvisible_plain {s : Simple} (hs : ¬ s.hasSelector) :
    s.isInvisible = (s.kind == .placeholder) := by
  unfold Simple.isInvisible
  rw [Interpretation.ofSimple_eq]
  cases hk : s.kind with
  | pseudo =>
    have hnone : s.selector.isSome = false := by simpa [Simple.hasSelector, hk] using hs
    simp [invisibility, hk, hnone]
  | _ => simp [invisibility, hk]

theorem Simple.isInvisible_argument {s : Simple} {l : SelectorList} (hk : s.kind = .pseudo)
    (hl : s.selector = some l) :
    s.isInvisible = (s.normalizedName != "not" && isInvisibleList l) := by
  unfold Simple.isInvisible isInvisibleList
  rw [Interpretation.ofSimple_eq, hl]
  simp only [invisibility, hk, hl, Option.isSome_some, Bool.true_and, Option.getD_some,
    List.all_map]
  rfl

theorem invisibility_compound (c : Compound) :
    invisibility.ofComponent (.compound c) = c.simples.any Simple.isInvisible := by
  rw [Interpretation.ofComponent_compound, Interpretation.ofCompound_eq]
  simp only [invisibility, List.any_map]
  rfl

theorem Complex.isInvisible_eq (c : Complex) :
    c.isInvisible = c.components.any invisibility.ofComponent := by
  unfold Complex.isInvisible
  rw [Interpretation.ofComplex_eq]
  simp only [invisibility, List.any_map]
  rfl

/-! ### What is visible of a selector -/

/-- The results for the visible members of a list, given those for all. -/
def keepVisible (l results : SelectorList) : SelectorList :=
  ((l.zip results).filter fun p => !p.1.isInvisible).map Prod.snd

/-- Every selector without the invisible alternatives of its selector arguments. A negation of which
no alternative is left is left out itself. -/
def visibleParts : Interpretation (Option Simple) Component Complex where
  simple s parts :=
    if s.hasSelector then
      let kept := keepVisible (s.selector.getD []) parts
      if s.normalizedName = "not" ∧ kept.isEmpty then none else some (s.withSelector kept)
    else some s
  component
    | .compound c, parts => .compound (rebuild c (parts.filterMap id))
    | .combinator k, _ => .combinator k
  complex c parts := .path parts c.lineBreak

/-- The visible alternatives of a list, each without what is invisible in it. -/
def visibleList (l : SelectorList) : SelectorList :=
  (l.filter fun c => !c.isInvisible).map visibleParts.ofComplex

theorem keepVisible_map (l : SelectorList) :
    keepVisible l (l.map visibleParts.ofComplex) = visibleList l := by
  have hzip : l.zip (l.map visibleParts.ofComplex) =
      l.map fun c => (c, visibleParts.ofComplex c) := by
    simpa using List.zip_map' (f := id) (g := visibleParts.ofComplex) (l := l)
  unfold keepVisible visibleList
  rw [hzip, List.filter_map, List.map_map]
  rfl

theorem visibleList_isEmpty (l : SelectorList) : (visibleList l).isEmpty = isInvisibleList l := by
  unfold visibleList isInvisibleList
  rw [Bool.eq_iff_iff]
  simp

theorem visibleParts_plain {s : Simple} (hs : ¬ s.hasSelector) :
    visibleParts.ofSimple s = some s := by
  rw [Interpretation.ofSimple_eq]
  simp [visibleParts, hs]

theorem visibleParts_argument {s : Simple} {l : SelectorList} (hk : s.kind = .pseudo)
    (hl : s.selector = some l) : visibleParts.ofSimple s =
      if s.normalizedName = "not" ∧ isInvisibleList l then none
      else some (s.withSelector (visibleList l)) := by
  have hs : s.hasSelector = true := Simple.hasSelector_iff.2 ⟨hk, l, hl⟩
  rw [Interpretation.ofSimple_eq, hl, ← visibleList_isEmpty, ← keepVisible_map]
  simp [visibleParts, hs, hl]

theorem visibleParts_compound (c : Compound) : visibleParts.ofComponent (.compound c) =
    .compound (rebuild c (c.simples.filterMap visibleParts.ofSimple)) := by
  rw [Interpretation.ofComponent_compound, Interpretation.ofCompound_eq]
  simp [visibleParts, List.filterMap_map]

theorem visibleParts_complex (c : Complex) : visibleParts.ofComplex c =
    .path (c.components.map visibleParts.ofComponent) c.lineBreak := by
  rw [Interpretation.ofComplex_eq]
  rfl

/-! ### The cleanup -/

/-- Selectors in which every path has a compound, at every depth. -/
def populated : Interpretation Bool Bool Bool :=
  everyDepth (fun _ => true) (fun _ => true) fun c => !c.isImpossible

/-- The fate of a simple selector, as its visibility has it. -/
def visibleFate (s : Simple) : Fate :=
  if s.isInvisible then .dropped else (visibleParts.ofSimple s).elim .removed .kept

theorem isDropped_visibleFate (s : Simple) : (visibleFate s).isDropped = s.isInvisible := by
  unfold visibleFate
  cases s.isInvisible with
  | true => rfl
  | false => cases visibleParts.ofSimple s <;> rfl

theorem kept?_visibleFate {s : Simple} (h : s.isInvisible = false) :
    (visibleFate s).kept? = visibleParts.ofSimple s := by
  unfold visibleFate
  rw [h]
  cases visibleParts.ofSimple s <;> rfl

/-- What is left of a complex selector goes by its visibility. -/
def IsCleaned (c : Complex) : Prop :=
  (purely dropPlaceholder).ofComplex c =
    if c.isInvisible then none else some (visibleParts.ofComplex c)

theorem removePlaceholders_of_isCleaned {l : SelectorList} (h : ∀ c ∈ l, IsCleaned c) :
    removePlaceholders l = visibleList l := by
  rw [removePlaceholders_eq, pruneList_eq]
  unfold visibleList
  induction l with
  | nil => rfl
  | cons c l ih =>
    obtain ⟨hc, hl⟩ := List.forall_mem_cons.1 h
    rw [List.filterMap_cons, hc]
    cases hvisible : c.isInvisible with
    | true => simpa [hvisible] using ih hl
    | false => simpa [hvisible] using ih hl

theorem hereditary_cleaned : Hereditary
    (fun s => populated.ofSimple s → (purely dropPlaceholder).ofSimple s = visibleFate s)
    (fun c => populated.ofComponent c → (purely dropPlaceholder).ofComponent c =
      if invisibility.ofComponent c then none else some (visibleParts.ofComponent c))
    (fun c => populated.ofComplex c → IsCleaned c) where
  simple s ih hpopulated := by
    by_cases hs : s.hasSelector
    · obtain ⟨hk, l, hl⟩ := Simple.hasSelector_iff.1 hs
      have hparts := (everyDepth_simple_iff.1 hpopulated).2 hs l hl
      have hlist : removePlaceholders l = visibleList l :=
        removePlaceholders_of_isCleaned fun c hc => ih l hl c hc (hparts c hc)
      unfold visibleFate
      rw [cleanup_argument hk hl, hlist, visibleList_isEmpty, visibleParts_argument hk hl,
        Simple.isInvisible_argument hk hl]
      -- Negations and arguments without visible alternatives are where the two could part.
      by_cases hnot : s.normalizedName = "not" <;> cases isInvisibleList l <;> simp [hnot]
    · unfold visibleFate
      rw [cleanup_plain hs, Simple.isInvisible_plain hs, visibleParts_plain hs]
      simp
  compound c ih hpopulated := by
    have hfates : c.simples.map (purely dropPlaceholder).ofSimple = c.simples.map visibleFate :=
      List.map_congr_left fun s hs => ih s hs ((everyDepth_compound_iff.1 hpopulated).2 s hs)
    have hdropped : (c.simples.map visibleFate).any Fate.isDropped =
        c.simples.any Simple.isInvisible := by
      rw [List.any_map]
      exact congrArg c.simples.any (funext isDropped_visibleFate)
    rw [purely_compound, hfates, hdropped, invisibility_compound, visibleParts_compound,
      List.filterMap_map]
    split_ifs with hinvisible
    · rfl
    · have hkept : c.simples.filterMap (Fate.kept? ∘ visibleFate) =
          c.simples.filterMap visibleParts.ofSimple := by
        refine List.filterMap_congr fun s hs => kept?_visibleFate ?_
        simpa using fun h => hinvisible (List.any_eq_true.2 ⟨s, hs, h⟩)
      rw [hkept]
  combinator k _ := rfl
  complex c ih hpopulated := by
    obtain ⟨hpossible, hcomponents⟩ := everyDepth_complex_iff.1 hpopulated
    rw [Bool.not_eq_true', ← Bool.not_eq_true] at hpossible
    have hleft : ∀ d ∈ c.components, (purely dropPlaceholder).ofComponent d =
        if invisibility.ofComponent d then none else some (visibleParts.ofComponent d) :=
      fun d hd => ih d hd (hcomponents d hd)
    have hnone : (c.components.map (purely dropPlaceholder).ofComponent).any Option.isNone =
        c.components.any invisibility.ofComponent := by
      rw [List.map_congr_left hleft, List.any_map]
      congr 1
      funext d
      cases hd : invisibility.ofComponent d <;> simp [hd]
    unfold IsCleaned
    rw [purely_complex, if_neg hpossible, hnone, Complex.isInvisible_eq, visibleParts_complex]
    split_ifs with hinvisible
    · rfl
    · have hkept : c.components.filterMap (purely dropPlaceholder).ofComponent =
          c.components.map visibleParts.ofComponent := by
        rw [← List.filterMap_eq_map]
        refine List.filterMap_congr fun d hd => ?_
        have hvisible : ¬ invisibility.ofComponent d := fun h =>
          hinvisible (List.any_eq_true.2 ⟨d, hd, h⟩)
        rw [hleft d hd, if_neg hvisible]
        rfl
      rw [hkept]

/-- Where every path has a compound, the cleanup keeps the alternatives that are not invisible, in
order, and nothing is left exactly if the whole list is invisible. -/
theorem removePlaceholders_eq_visible {l : SelectorList} (hl : ∀ c ∈ l, populated.ofComplex c) :
    removePlaceholders l = (l.filter fun c => !c.isInvisible).map visibleParts.ofComplex ∧
      ((removePlaceholders l).isEmpty ↔ isInvisibleList l) := by
  have hvisible : removePlaceholders l = visibleList l :=
    removePlaceholders_of_isCleaned fun c hc => hereditary_cleaned.ofComplex c (hl c hc)
  refine ⟨hvisible, ?_⟩
  rw [hvisible, visibleList_isEmpty]

/-- Of `:not(%p), .a:is(.b, :is(%p)), .c:is(:is(%p), :is())` the cleanup keeps the first two, as `*`
and `.a:is(.b)`. -/
theorem removePlaceholders_eq_visible_nested :
    let single (ss : List Simple) : Complex := .ofComponents [.compound (.ofSimples ss)]
    let plain (kind : Kind) (name : String) : Simple := { kind, name }
    let pseudo (name : String) (sss : List (List Simple)) : Simple :=
      { kind := .pseudo, name, selector := some (sss.map single) }
    let hidden : Simple := pseudo "is" [[plain .placeholder "p"]]
    let l : SelectorList :=
      [single [pseudo "not" [[plain .placeholder "p"]]],
        single [plain .className "a", pseudo "is" [[plain .className "b"], [hidden]]],
        single [plain .className "c", pseudo "is" [[hidden], [pseudo "is" []]]]]
    (∀ c ∈ l, populated.ofComplex c) ∧ renderList (removePlaceholders l) = "*, .a:is(.b)" ∧
      removePlaceholders l = (l.filter fun c => !c.isInvisible).map visibleParts.ofComplex ∧
        ((removePlaceholders l).isEmpty ↔ isInvisibleList l) := by
  intro single plain pseudo hidden l
  have hl : ∀ c ∈ l, populated.ofComplex c := List.all_eq_true.1 (by decide +kernel)
  exact ⟨hl, by decide +kernel, removePlaceholders_eq_visible hl⟩

end SelectorCalculus
