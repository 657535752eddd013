import SelectorCalculus.Proofs.EqualSelectors
import SelectorCalculus.Proofs.NestedMeaning
import SelectorCalculus.Proofs.PruningSteps
/-! Cleaning up placeholders leaves none, and keeps the meaning where no element matches a
placeholder. -/

namespace SelectorCalculus

open Pruning

/-! ### What pruned selectors match -/

namespace ElementTree

variable (t : ElementTree) (r : Reading)

/-- What a fate says about an element. A simple selector taken out of its compound holds everywhere,
one that drops its path nowhere. -/
def verdict : Fate → Place
  | .kept s => (t.meaning r).ofSimple s
  | .removed => anywhere
  | .dropped => fun _ => False

/-- What is left of a component, where nothing stands for a compound that holds nowhere. -/
def remainder : Option Component → Waypoint
  | some c => (t.meaning r).ofComponent c
  | none => .element fun _ => False

/-- Where what is left of a complex selector holds. -/
def outcome (c : Option Complex) : Place := fun e => ∃ c' ∈ c, (t.meaning r).ofComplex c' e

variable {t r} {visit : Simple → Action} {e : Address}

theorem meaning_universal : (t.meaning r).ofSimple .universal e := by
  rw [meaning_of_not_hasSelector (by decide)]
  exact ⟨Or.inl rfl, Or.inl rfl⟩

theorem meaning_rebuild {c : Compound} {ss : List Simple} :
    (∀ s ∈ (rebuild c ss).simples, (t.meaning r).ofSimple s e) ↔
      ∀ s ∈ ss, (t.meaning r).ofSimple s e := by
  by_cases h : ss.isEmpty && !c.isEmpty
  · obtain rfl : ss = [] := by simp_all
    cases hc : c.isEmpty <;> simp [rebuild, hc, meaning_universal]
  · simp [rebuild, h]

theorem verdict_of_kept {fates : List Fate} (h : ¬ fates.any Fate.isDropped) :
    (∀ s ∈ fates.filterMap Fate.kept?, (t.meaning r).ofSimple s e) ↔
      ∀ fate ∈ fates, t.verdict r fate e := by
  induction fates with
  | nil => simp
  | cons fate fates ih =>
    cases fate with
    | kept s =>
      have hs : (Fate.kept s).kept? = some s := rfl
      rw [List.filterMap_cons_some hs, List.forall_mem_cons, List.forall_mem_cons,
        ih (by simpa [Fate.isDropped] using h), verdict]
    | removed =>
      rw [List.filterMap_cons_none rfl, List.forall_mem_cons,
        ih (by simpa [Fate.isDropped] using h)]
      exact (and_iff_right trivial).symm
    | dropped => simp [Fate.isDropped] at h

theorem remainder_compound (c : Compound) :
    t.Same (t.remainder r ((purely visit).ofComponent (.compound c)))
      (.element fun e => ∀ s ∈ c.simples, t.verdict r ((purely visit).ofSimple s) e) := by
  rw [purely_compound]
  split_ifs with hdropped
  · refine .element fun e _ => ⟨False.elim, fun h => ?_⟩
    obtain ⟨fate, hfate, hd⟩ := List.any_eq_true.1 hdropped
    obtain ⟨s, hs, rfl⟩ := List.mem_map.1 hfate
    have hverdict := h s hs
    cases hf : (purely visit).ofSimple s <;> simp_all [Fate.isDropped, verdict]
  · rw [remainder, meaning_compound]
    refine .element fun e _ => ?_
    rw [meaning_rebuild, verdict_of_kept hdropped, List.forall_mem_map]

theorem remainder_combinator (k : Combinator) :
    t.remainder r ((purely visit).ofComponent (.combinator k)) = .combinator k := by
  rw [purely_combinator]
  rfl

theorem map_remainder {cs : List Component}
    (h : ¬ (cs.map (purely visit).ofComponent).any Option.isNone) :
    (cs.filterMap (purely visit).ofComponent).map (t.meaning r).ofComponent =
      cs.map fun d => t.remainder r ((purely visit).ofComponent d) := by
  induction cs with
  | nil => rfl
  | cons d cs ih =>
    rw [List.map_cons, List.any_cons, Bool.or_eq_true, not_or] at h
    obtain ⟨hd, hcs⟩ := h
    cases hprune : (purely visit).ofComponent d with
    | none => simp [hprune] at hd
    | some d' => rw [List.filterMap_cons_some hprune, List.map_cons, List.map_cons, hprune, ih hcs,
        remainder]

/-- What is left of a complex selector matches what the remainders of its components do. -/
theorem outcome_complex (c : Complex) : t.outcome r ((purely visit).ofComplex c) e ↔
    t.follow r (c.components.map fun d => t.remainder r ((purely visit).ofComponent d)) e := by
  rw [purely_complex]
  split_ifs with himpossible hnone
  · refine iff_of_false (by simp [outcome]) (not_follow_of_combinators fun p hp => ?_)
    obtain ⟨d, hd, hdp⟩ := List.mem_map.1 hp
    cases d with
    | compound d =>
      have hmem : d ∈ c.compounds := List.mem_filterMap.2 ⟨_, hd, rfl⟩
      rw [List.isEmpty_iff.1 himpossible] at hmem
      cases hmem
    | combinator k =>
      rw [remainder_combinator] at hdp
      cases hdp
  · refine iff_of_false (by simp [outcome]) ?_
    obtain ⟨part, hpart, hpartNone⟩ := List.any_eq_true.1 hnone
    obtain ⟨d, hd, rfl⟩ := List.mem_map.1 hpart
    refine not_follow_of_never (List.mem_map.2 ⟨d, hd, ?_⟩) fun _ _ => id
    rw [Option.isNone_iff_eq_none.1 hpartNone, remainder]
  · simp only [outcome, Option.mem_some_iff, exists_eq_left', meaning_complex]
    rw [← map_remainder hnone]
    rfl

theorem holds_pruneList {l : SelectorList} : t.holds r (pruneList visit l) e ↔
    ∃ c ∈ l, t.outcome r ((purely visit).ofComplex c) e := by
  simp only [holds, outcome, pruneList_eq, List.mem_filterMap, Option.mem_def]
  constructor
  · rintro ⟨c', ⟨c, hc, hc'⟩, h⟩
    exact ⟨c, hc, c', hc', h⟩
  · rintro ⟨c, hc, c', hc', h⟩
    exact ⟨c', ⟨c, hc, hc'⟩, h⟩

end ElementTree

/-! ### Placeholders -/

/-- Selectors without a placeholder at any depth. -/
def placeholderFree : Interpretation Bool Bool Bool where
  simple s parts := s.kind != .placeholder && (!s.hasSelector || parts.all id)
  component _ parts := parts.all id
  complex _ parts := parts.all id

/-- The names of pseudo selectors that assert or deny an alternative of the element or of related
ones. -/
def logicalNames : List String := ["is", "matches", "any", "where", "has", "not"]

/-- Selectors whose selector arguments are all asserted or denied. -/
def logical : Interpretation Bool Bool Bool where
  simple s parts := !s.hasSelector || (logicalNames.contains s.normalizedName && parts.all id)
  component _ parts := parts.all id
  complex _ parts := parts.all id

/-- The visitor that drops placeholders. -/
def dropPlaceholder (s : Simple) : Action := if s.kind = .placeholder then .drop else .keep

theorem removePlaceholders_eq (l : SelectorList) :
    removePlaceholders l = pruneList dropPlaceholder l := rfl

theorem cleanup_plain {s : Simple} (hs : ¬ s.hasSelector) :
    (purely dropPlaceholder).ofSimple s =
      if s.kind = .placeholder then .dropped else .kept s := by
  rw [purely_plain _ hs, dropPlaceholder]
  split_ifs <;> rfl

theorem cleanup_argument {s : Simple} {l : SelectorList} (hk : s.kind = .pseudo)
    (hl : s.selector = some l) : (purely dropPlaceholder).ofSimple s =
      if (removePlaceholders l).isEmpty then
        if s.normalizedName = "not" then .removed else .dropped
      else .kept (s.withSelector (removePlaceholders l)) := by
  have hkeep : dropPlaceholder (s.withSelector (removePlaceholders l)) = .keep := by
    simp [dropPlaceholder, Simple.withSelector, hk]
  rw [purely_argument _ hk hl, ← removePlaceholders_eq, hkeep]
  rfl

theorem placeholderFree_simple_iff {s : Simple} : placeholderFree.ofSimple s ↔
    s.kind ≠ .placeholder ∧ (s.hasSelector → ∀ l ∈ s.selector, ∀ c ∈ l,
      placeholderFree.ofComplex c) := by
  rw [Interpretation.ofSimple_eq]
  cases hs : s.hasSelector
  · simp [placeholderFree, hs]
  · obtain ⟨-, l, hl⟩ := Simple.hasSelector_iff.1 hs
    simp [placeholderFree, hs, hl]

theorem placeholderFree_compound_iff {c : Compound} :
    placeholderFree.ofComponent (.compound c) ↔ ∀ s ∈ c.simples, placeholderFree.ofSimple s := by
  rw [Interpretation.ofComponent_compound, Interpretation.ofCompound_eq]
  simp [placeholderFree]

theorem placeholderFree_complex_iff {c : Complex} :
    placeholderFree.ofComplex c ↔ ∀ d ∈ c.components, placeholderFree.ofComponent d := by
  rw [Interpretation.ofComplex_eq]
  simp [placeholderFree]

/-- Whatever is left at any level is free of placeholders. -/
theorem hereditary_placeholderFree : Hereditary
    (fun s => ∀ s' ∈ ((purely dropPlaceholder).ofSimple s).kept?, placeholderFree.ofSimple s')
    (fun c => ∀ c' ∈ (purely dropPlaceholder).ofComponent c, placeholderFree.ofComponent c')
    (fun c => ∀ c' ∈ (purely dropPlaceholder).ofComplex c, placeholderFree.ofComplex c') where
  simple s ih s' hs' := by
    by_cases hs : s.hasSelector
    · obtain ⟨hk, l, hl⟩ := Simple.hasSelector_iff.1 hs
      rw [cleanup_argument hk hl] at hs'
      split_ifs at hs' <;> cases hs'
      refine placeholderFree_simple_iff.2 ⟨by simp [Simple.withSelector, hk], fun _ l' hl' => ?_⟩
      obtain rfl : removePlaceholders l = l' := by simpa [Simple.withSelector] using hl'
      intro c' hc'
      rw [removePlaceholders_eq, pruneList_eq] at hc'
      obtain ⟨c, hc, hcc'⟩ := List.mem_filterMap.1 hc'
      exact ih l hl c hc c' hcc'
    · rw [cleanup_plain hs] at hs'
      split_ifs at hs' with hk <;> cases hs'
      exact placeholderFree_simple_iff.2 ⟨hk, fun h => absurd h hs⟩
  compound c ih c' hc' := by
    rw [purely_compound] at hc'
    split_ifs at hc' <;> cases hc'
    have hkept : ∀ s' ∈ (c.simples.map (purely dropPlaceholder).ofSimple).filterMap Fate.kept?,
        placeholderFree.ofSimple s' := by
      intro s' hs'
      rw [List.filterMap_map] at hs'
      obtain ⟨s, hs, hss'⟩ := List.mem_filterMap.1 hs'
      exact ih s hs s' hss'
    refine placeholderFree_compound_iff.2 fun s' hs' => ?_
    rcases mem_rebuild hs' with hs' | rfl
    · exact hkept s' hs'
    · rfl
  combinator k c' hc' := by
    cases hc'
    rfl
  complex c ih c' hc' := by
    rw [purely_complex] at hc'
    split_ifs at hc' <;> cases hc'
    refine placeholderFree_complex_iff.2 fun d' hd' => ?_
    obtain ⟨d, hd, hdd'⟩ := List.mem_filterMap.1 hd'
    exact ih d hd d' hdd'

theorem logical_simple_iff {s : Simple} (hs : s.hasSelector) : logical.ofSimple s ↔
    s.normalizedName ∈ logicalNames ∧
      ∀ l ∈ s.selector, ∀ c ∈ l, logical.ofComplex c := by
  obtain ⟨-, l, hl⟩ := Simple.hasSelector_iff.1 hs
  rw [Interpretation.ofSimple_eq]
  simp [logical, hs, hl]

theorem logical_compound_iff {c : Compound} :
    logical.ofComponent (.compound c) ↔ ∀ s ∈ c.simples, logical.ofSimple s := by
  rw [Interpretation.ofComponent_compound, Interpretation.ofCompound_eq]
  simp [logical]

theorem logical_complex_iff {c : Complex} :
    logical.ofComplex c ↔ ∀ d ∈ c.components, logical.ofComponent d := by
  rw [Interpretation.ofComplex_eq]
  simp [logical]

theorem sense_of_logical {s : Simple} (h : s.normalizedName ∈ logicalNames) :
    (s.normalizedName = "not" ∧ s.sense = .negation) ∨
      (s.normalizedName ≠ "not" ∧ (s.sense = .anyOf ∨ s.sense = .related)) := by
  simp only [logicalNames, List.mem_cons, List.not_mem_nil, or_false] at h
  rcases h with h | h | h | h | h | h <;> simp [Label.sense, h, Sense.ofName]

/-- No element of the tree matches a placeholder. -/
def ElementTree.WithoutPlaceholders (t : ElementTree) : Prop :=
  ∀ e, t.present e → ∀ s : Simple, s.kind = .placeholder → ¬ (t.subject e).Satisfies s

section Meaning

variable {t : ElementTree} {r : Reading}

/-- A pseudo selector holds where what its argument is cleaned up to says so. -/
theorem verdict_argument {s : Simple} {l : SelectorList} (hk : s.kind = .pseudo)
    (hl : s.selector = some l) (hname : s.normalizedName ∈ logicalNames)
    (h : t.Agree (t.holds r (removePlaceholders l)) (t.holds r l)) :
    t.Agree (t.verdict r ((purely dropPlaceholder).ofSimple s)) ((t.meaning r).ofSimple s) := by
  have hk' : (s.withSelector (removePlaceholders l)).kind = .pseudo := hk
  have hnever (hempty : (removePlaceholders l).isEmpty) (x : Address) :
      ¬ t.holds r (removePlaceholders l) x := by
    rw [List.isEmpty_iff.1 hempty]
    rintro ⟨c, hc, -⟩
    cases hc
  intro e he
  rw [cleanup_argument hk hl]
  rcases sense_of_logical hname with ⟨hnot, hsense⟩ | ⟨hnot, hsense | hsense⟩
  · rw [ElementTree.meaning_negation hk hl hsense, ← h e he]
    split_ifs with hempty
    · exact iff_of_true trivial (hnever hempty e)
    · exact ElementTree.meaning_negation hk' rfl hsense
  · rw [ElementTree.meaning_anyOf hk hl hsense, ← h e he]
    split_ifs with hempty
    · exact iff_of_false id (hnever hempty e)
    · exact ElementTree.meaning_anyOf hk' rfl hsense
  · rw [ElementTree.meaning_related hk hl hsense]
    have hrelated : (∃ x, t.present x ∧ r.kin e x ∧ t.holds r l x) ↔
      ∃ x, t.present x ∧ r.kin e x ∧ t.holds r (removePlaceholders l) x :=
        exists_congr fun x => and_congr_right fun hx => and_congr_right fun _ => (h x hx).symm
    rw [hrelated]
    split_ifs with hempty
    · exact iff_of_false id fun ⟨x, _, _, hx⟩ => hnever hempty x hx
    · exact ElementTree.meaning_related hk' rfl hsense

/-- Every verdict, remainder and outcome of the cleanup says what the selector said. -/
theorem hereditary_cleanup (ht : t.WithoutPlaceholders) : Hereditary
    (fun s => logical.ofSimple s →
      t.Agree (t.verdict r ((purely dropPlaceholder).ofSimple s)) ((t.meaning r).ofSimple s))
    (fun c => logical.ofComponent c →
      t.Same (t.remainder r ((purely dropPlaceholder).ofComponent c))
        ((t.meaning r).ofComponent c))
    (fun c => logical.ofComplex c →
      t.Agree (t.outcome r ((purely dropPlaceholder).ofComplex c))
        ((t.meaning r).ofComplex c)) where
  simple s ih hlogical := by
    by_cases hs : s.hasSelector
    · obtain ⟨hk, l, hl⟩ := Simple.hasSelector_iff.1 hs
      obtain ⟨hname, hparts⟩ := (logical_simple_iff hs).1 hlogical
      refine verdict_argument hk hl hname fun e he => ?_
      rw [removePlaceholders_eq, ElementTree.holds_pruneList]
      exact exists_congr fun c => and_congr_right fun hc => ih l hl c hc (hparts l hl c hc) e he
    · intro e he
      rw [cleanup_plain hs]
      split_ifs with hk
      · rw [ElementTree.meaning_of_not_hasSelector hs]
        exact iff_of_false id (ht e he s hk)
      · exact Iff.rfl
  compound c ih hlogical := by
    have hverdicts : t.Agree
        (fun e => ∀ s ∈ c.simples, t.verdict r ((purely dropPlaceholder).ofSimple s) e)
        (fun e => ∀ s ∈ c.simples, (t.meaning r).ofSimple s e) := fun e he =>
      forall₂_congr fun s hs => ih s hs (logical_compound_iff.1 hlogical s hs) e he
    rw [ElementTree.meaning_compound]
    exact (ElementTree.remainder_compound c).trans (.element hverdicts)
  combinator k _ := .combinator k
  complex c ih hlogical := by
    intro e he
    rw [ElementTree.outcome_complex, ElementTree.meaning_complex]
    refine ElementTree.follow_congr (List.forall₂_map_left_iff.2 (List.forall₂_map_right_iff.2 ?_))
    exact List.forall₂_same.2 fun d hd => ih d hd (logical_complex_iff.1 hlogical d hd)

end Meaning

/-- No placeholder is left at any depth. Where arguments are asserted or denied and no element
matches a placeholder, the list matches the same elements as before. -/
theorem removePlaceholders_holds_iff (l : SelectorList) :
    (∀ c ∈ removePlaceholders l, placeholderFree.ofComplex c) ∧
    ((∀ c ∈ l, logical.ofComplex c) → ∀ (t : ElementTree) (r : Reading), t.WithoutPlaceholders →
      ∀ e, t.present e → (t.holds r (removePlaceholders l) e ↔ t.holds r l e)) := by
  constructor
  · intro c' hc'
    rw [removePlaceholders_eq, pruneList_eq] at hc'
    obtain ⟨c, hc, hcc'⟩ := List.mem_filterMap.1 hc'
    exact hereditary_placeholderFree.ofComplex c c' hcc'
  · intro hlogical t r ht e he
    rw [removePlaceholders_eq, ElementTree.holds_pruneList]
    exact exists_congr fun c => and_congr_right fun hc =>
      (hereditary_cleanup ht).ofComplex c (hlogical c hc) e he

/-- In `.a:not(%p), .b:is(%q, :not(:not(%p)))` both alternatives lose their placeholders, and a lone
element of class `a` matches as before. -/
theorem removePlaceholders_holds_iff_negations :
    let single (ss : List Simple) : Complex := .ofComponents [.compound (.ofSimples ss)]
    let plain (kind : Kind) (name : String) : Simple := { kind, name }
    let pseudo (name : String) (sss : List (List Simple)) : Simple :=
      { kind := .pseudo, name, selector := some (sss.map single) }
    let double : Simple := pseudo "not" [[pseudo "not" [[plain .placeholder "p"]]]]
    let l : SelectorList :=
      [single [plain .className "a", pseudo "not" [[plain .placeholder "p"]]],
        single [plain .className "b", pseudo "is" [[plain .placeholder "q"], [double]]]]
    let t : ElementTree :=
      { present := (· = []), subject := fun _ => .ofClasses ["a"],
        present_parent := nofun, present_previous := nofun }
    (∀ c ∈ l, logical.ofComplex c) ∧ t.WithoutPlaceholders ∧
      (∀ c ∈ removePlaceholders l, placeholderFree.ofComplex c) ∧
        ∀ r, t.holds r (removePlaceholders l) [] ↔ t.holds r l [] := by
  intro single plain pseudo double l t
  have hlogical : ∀ c ∈ l, logical.ofComplex c := List.all_eq_true.1 (by decide +kernel)
  have ht : t.WithoutPlaceholders := by
    intro e _ s hs hsat
    simp [t, Subject.Satisfies, hs, Subject.ofClasses] at hsat
  obtain ⟨hfree, hsame⟩ := removePlaceholders_holds_iff l
  exact ⟨hlogical, ht, hfree, fun r => hsame hlogical t r ht [] rfl⟩

end SelectorCalculus
