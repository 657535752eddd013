import SelectorCalculus.Proofs.NestedChecks
/-! Selectors that are regular at every depth are above all that are equal to them. -/

namespace SelectorCalculus

open Superselector

/-- Selectors that are regular at every depth. Paths start and end with compounds and have no
combinators side by side, a pseudo element stands last in its compound, and `:slotted` with a
selector argument is a pseudo element. -/
def regular : Interpretation Bool Bool Bool where
  simple s parts :=
    !s.hasSelector || (!(s.isPseudoClass && s.normalizedName == "slotted") && parts.all id)
  component
    | .compound c, parts => c.simples.dropLast.all (!·.isPseudoElement) && parts.all id
    | .combinator _, _ => true
  complex c parts := isWellFormed c.components && parts.all id

theorem regular_simple_iff {s : Simple} : regular.ofSimple s ↔ (s.hasSelector →
    ¬ (s.isPseudoClass ∧ s.normalizedName = "slotted") ∧
      ∀ l ∈ s.selector, ∀ c ∈ l, regular.ofComplex c) := by
  rw [Interpretation.ofSimple_eq]
  cases hs : s.hasSelector
  · simp [regular, hs]
  · obtain ⟨-, l, hl⟩ := Simple.hasSelector_iff.1 hs
    simp only [regular, hs, hl, Bool.not_true, Bool.false_or, Bool.and_eq_true, Bool.not_eq_true',
      Option.getD_some, List.all_map, List.all_eq_true, forall_const, Option.mem_some_iff,
      forall_eq', Function.comp_apply, id_eq, ← Bool.not_eq_true, beq_iff_eq]

theorem regular_compound_iff {c : Compound} : regular.ofCompound c ↔
    (∀ s ∈ c.simples.dropLast, ¬ s.isPseudoElement) ∧ ∀ s ∈ c.simples, regular.ofSimple s := by
  rw [Interpretation.ofCompound_eq]
  simp [regular]

theorem regular_complex_iff {c : Complex} : regular.ofComplex c ↔
    isWellFormed c.components ∧ ∀ d ∈ compoundsOf c.components, regular.ofCompound d := by
  rw [Interpretation.ofComplex_eq, ← List.all_eq_true, ← all_components_eq fun k => rfl,
    ← Bool.and_eq_true]
  rfl

namespace Simple

variable {s t : Simple}

theorem isPseudoElement_congr (h : s.equal t) : s.isPseudoElement = t.isPseudoElement := by
  have halike := (Simple.equal_iff.1 h).1
  have hkind : s.kind = t.kind := Label.kind_eq_of_alike halike
  have hname := normalizedName_congr h
  unfold Label.isPseudoElement
  rw [← hkind, ← hname]
  by_cases hk : s.kind = .pseudo
  · simp only [Label.alike, hk, Bool.and_eq_true, beq_iff_eq] at halike
    rw [halike.2.1.1]
  · rw [beq_eq_false_iff_ne.2 hk, Bool.false_and, Bool.false_and]

theorem exists_argument_of_equal (h : s.equal t) (hk : s.kind = .pseudo) {l : SelectorList}
    (hl : s.selector = some l) :
    t.kind = .pseudo ∧ s.argument = t.argument ∧ ∃ l', t.selector = some l' ∧ equalLists l l' := by
  obtain ⟨halike, hsel⟩ := Simple.equal_iff.1 h
  have hkind : s.kind = t.kind := Label.kind_eq_of_alike halike
  have hsel := hsel hk
  simp only [Label.alike, hk, Bool.and_eq_true, beq_iff_eq] at halike
  cases ht : t.selector with
  | none =>
    rw [hl, ht] at hsel
    exact hsel.elim
  | some l' =>
    rw [hl, ht] at hsel
    exact ⟨hkind ▸ hk, halike.2.1.2, l', rfl, hsel⟩

end Simple

namespace Superselector

/-- A compound with at most one pseudo element, at its end, is split before that. -/
theorem splitAtElement_of_dropLast {ss : List Simple}
    (h : ∀ s ∈ ss.dropLast, ¬ s.isPseudoElement) :
    (splitAtElement ss = none ∧ ∀ s ∈ ss, ¬ s.isPseudoElement) ∨
      ∃ before e, ss = before ++ [e] ∧ splitAtElement ss = some (before, e, []) ∧
        e.isPseudoElement := by
  rcases List.eq_nil_or_concat ss with rfl | ⟨before, e, rfl⟩
  · exact Or.inl ⟨rfl, by simp⟩
  · rw [List.concat_eq_append] at h ⊢
    rw [List.dropLast_concat] at h
    have hbefore : ∀ s ∈ before, (!s.isPseudoElement) = true := fun s hs => by simpa using h s hs
    simp only [splitAtElement, List.span_eq_takeWhile_dropWhile,
      List.takeWhile_append_of_pos hbefore, List.dropWhile_append_of_pos hbefore]
    by_cases he : e.isPseudoElement
    · exact Or.inr ⟨before, e, rfl, by simp [he], he⟩
    · refine Or.inl ⟨by simp [he], fun s hs => ?_⟩
      rcases List.mem_append.1 hs with hs | hs
      · exact h s hs
      · rwa [List.mem_singleton.1 hs]

theorem argumentTest_of_equal {test : PathTest} {s t : Simple} {l l' : SelectorList}
    {ts : List Simple} {parents : List Component} (hk : s.kind = .pseudo)
    (hl : s.selector = some l) (hl' : t.selector = some l') (heq : s.equal t) (ht : t ∈ ts)
    (helement : ¬ s.isPseudoElement) (hslotted : s.normalizedName ≠ "slotted")
    (hbase : ∀ c ∈ l, c.base?.isSome)
    (htest : ∀ c ∈ l, ∀ c' ∈ l', c.equal c' →
      test c.components c'.components ∧ test c'.components c.components) :
    argumentTest test s l ts parents := by
  obtain ⟨hk', hargument, _, hl'', hlists⟩ := Simple.exists_argument_of_equal heq hk hl
  obtain rfl := Option.some_injective _ (hl'.symm.trans hl'')
  obtain ⟨hto, hof⟩ := equalLists_iff.1 hlists
  have hname := Simple.normalizedName_congr heq
  have hclass : t.isPseudoClass = true := by
    have helement' : ¬ t.isPseudoElement := Simple.isPseudoElement_congr heq ▸ helement
    simpa [Label.isPseudoClass, hk'] using helement'
  have hlist : listTest test l l' := by
    refine listTest_iff.2 fun c' hc' => ?_
    obtain ⟨c, hc, hcc'⟩ := hof c' hc'
    exact ⟨c, hc, (htest c hc c' hc' hcc').1⟩
  have hnamed {check : SelectorList → Bool} (h : check l') :
      (argumentsNamed s.normalizedName true ts).any check :=
    any_argumentsNamed.2 ⟨t, ht, hk', hclass, hname.symm, l', hl', h⟩
  cases hsense : s.sense <;> simp only [argumentTest, hsense]
  case anyOf => exact Bool.or_eq_true_iff.2 (Or.inl (hnamed hlist))
  case related => exact hnamed hlist
  case slotted =>
    unfold Label.sense Sense.ofName at hsense
    split_ifs at hsense
  case negation =>
    refine List.all_eq_true.2 fun c hc => ?_
    obtain ⟨base, hbase⟩ := Option.isSome_iff_exists.1 (hbase c hc)
    obtain ⟨c', hc', hcc'⟩ := hto c hc
    have hout : rulesOut test s.normalizedName c base ts :=
      rulesOut_iff.2 ⟨t, ht, Or.inr (Or.inr ⟨hk', hname.symm, l', hl', c', hc',
        (htest c hc c' hc' hcc').2⟩)⟩
    simpa only [hbase, Option.any_some] using hout
  case current => exact hnamed hlists
  case counting =>
    refine List.any_eq_true.2 ⟨t, ht, ?_⟩
    simp [hk', hname, hargument, hl', hlist]
  case unknown => exact containsSimple_iff.2 ⟨t, ht, heq⟩

theorem base?_of_isWellFormed {c : Complex} (h : isWellFormed c.components) : c.base?.isSome := by
  obtain ⟨ds, d, hd⟩ := exists_snoc_of_isWellFormed h
  simp [Complex.base?, hd, Component.compound?]

/-! ### Equal selectors, one level up -/

/-- The check accepts nested selectors that are equal, regular and less deep. -/
def AcceptsEqualBelow (n : Nat) : Prop :=
  ∀ c c' : Complex, regular.ofComplex c → regular.ofComplex c' → c.equal c' →
    nestingOfPath c.components < n → nestingOfPath c'.components < n →
      deeper n c.components c'.components

section

variable {n : Nat} (ih : AcceptsEqualBelow n) {parents : List Component}

include ih

theorem simplesTest_of_equal {s t : Simple} {ts : List Simple} (hs : regular.ofSimple s)
    (ht : regular.ofSimple t) (heq : s.equal t) (helement : ¬ s.isPseudoElement)
    (hn : nesting.ofSimple s ≤ n) (hn' : nesting.ofSimple t ≤ n) (hmem : t ∈ ts) :
    simplesTest (deeper n) [s] ts parents := by
  by_cases hsel : s.hasSelector
  · obtain ⟨hk, l, hl⟩ := Simple.hasSelector_iff.1 hsel
    obtain ⟨-, -, l', hl', -⟩ := Simple.exists_argument_of_equal heq hk hl
    obtain ⟨hslotted, hparts⟩ := regular_simple_iff.1 hs hsel
    have hparts' := (regular_simple_iff.1 ht (Simple.hasSelector_congr heq ▸ hsel)).2
    have hclass : s.isPseudoClass = true := by simpa [Label.isPseudoClass, hk] using helement
    have hbase (c : Complex) (hc : c ∈ l) : c.base?.isSome :=
      base?_of_isWellFormed (regular_complex_iff.1 (hparts l hl c hc)).1
    rw [simplesTest_argument hk hl]
    have hname : s.normalizedName ≠ "slotted" := fun h => hslotted ⟨hclass, h⟩
    refine argumentTest_of_equal hk hl hl' heq hmem helement hname hbase ?_
    intro c hc c' hc' hcc'
    have hlt := lt_of_lt_of_le (nesting_argument_lt hl hc) hn
    have hlt' := lt_of_lt_of_le (nesting_argument_lt hl' hc') hn'
    have hreg := hparts l hl c hc
    have hreg' := hparts' l' hl' c' hc'
    exact ⟨ih c c' hreg hreg' hcc' hlt hlt', ih c' c hreg' hreg (Complex.equal_symm hcc') hlt' hlt⟩
  · have habove : s.isSuperselectorOf t := by simp [Simple.isSuperselectorOf, heq]
    exact (simplesTest_plain hsel).2 ⟨t, hmem, Or.inl habove⟩

theorem compoundTest_of_equal {c d : Compound} (hc : regular.ofCompound c)
    (hd : regular.ofCompound d) (heq : c.equal d) (hn : nesting.ofCompound c ≤ n)
    (hn' : nesting.ofCompound d ≤ n) : compoundTest (deeper n) c d parents := by
  obtain ⟨-, hto, hof⟩ := Compound.equal_iff.1 heq
  obtain ⟨hlast, hsimples⟩ := regular_compound_iff.1 hc
  obtain ⟨hlast', hsimples'⟩ := regular_compound_iff.1 hd
  have habove {ss ts : List Simple} (hss : ∀ s ∈ ss, s ∈ c.simples ∧ ¬ s.isPseudoElement)
      (hts : ∀ t ∈ d.simples, ¬ t.isPseudoElement → t ∈ ts) :
      simplesTest (deeper n) ss ts parents := by
    refine simplesTest_iff.2 fun s hs => ?_
    obtain ⟨hmem, helement⟩ := hss s hs
    obtain ⟨t, hmem', hst⟩ := hto s hmem
    have helement' : ¬ t.isPseudoElement := Simple.isPseudoElement_congr hst ▸ helement
    exact simplesTest_of_equal ih (hsimples s hmem) (hsimples' t hmem') hst helement
      (le_trans (nesting_simple_le hmem) hn) (le_trans (nesting_simple_le hmem') hn')
      (hts t hmem' helement')
  rcases splitAtElement_of_dropLast hlast with ⟨hsplit, hnone⟩ | ⟨before, e, hcs, hsplit, he⟩
  · have hnone' : ∀ t ∈ d.simples, ¬ t.isPseudoElement := by
      intro t ht
      obtain ⟨s, hs, hst⟩ := hof t ht
      exact Simple.isPseudoElement_congr hst ▸ hnone s hs
    simp only [compoundTest, hsplit, splitAtElement_of_forall hnone']
    exact habove (fun s hs => ⟨hs, hnone s hs⟩) fun t ht _ => ht
  · obtain ⟨e', he', hee'⟩ := hto e (by simp [hcs])
    have helement : e'.isPseudoElement := Simple.isPseudoElement_congr hee' ▸ he
    rcases splitAtElement_of_dropLast hlast' with ⟨-, hnone'⟩ | ⟨before', e'', hds, hsplit', -⟩
    · exact absurd helement (hnone' e' he')
    · have hbefore' (t : Simple) (ht : t ∈ d.simples) : t ∈ before' ∨ t = e'' := by
        simpa [hds] using ht
      have hlast'' (t : Simple) (ht : t ∈ before') : ¬ t.isPseudoElement :=
        hlast' t (by rwa [hds, List.dropLast_concat])
      obtain rfl : e' = e'' := (hbefore' e' he').resolve_left fun h => hlast'' e' h helement
      have habove' : e.isSuperselectorOf e' := by simp [Simple.isSuperselectorOf, hee']
      have hbefore : simplesTest (deeper n) before before' parents := by
        refine habove (fun s hs => ⟨by simp [hcs, hs], hlast s ?_⟩) fun t ht hno => ?_
        · rwa [hcs, List.dropLast_concat]
        · exact (hbefore' t ht).resolve_right fun h => hno (h ▸ helement)
      have hafter : simplesTest (deeper n) [] [] parents = true := rfl
      simp only [compoundTest, hsplit, hsplit', habove', hbefore, hafter, Bool.and_self]

theorem stepsAbove_of_equal {cs ds : List Component}
    (hcs : ∀ c ∈ compoundsOf cs, regular.ofCompound c ∧ nesting.ofCompound c ≤ n)
    (hds : ∀ d ∈ compoundsOf ds, regular.ofCompound d ∧ nesting.ofCompound d ≤ n)
    (heq : List.Forall₂ (fun c d => c.equal d) cs ds) :
    List.Forall₂ (StepAbove (deeper n)) cs ds := by
  induction heq with
  | nil => exact .nil
  | @cons c d cs ds hcd _ ihs =>
    cases c with
    | combinator k =>
      obtain rfl := Component.equal_combinator_iff.1 hcd
      exact .cons rfl (ihs hcs hds)
    | compound c =>
      obtain ⟨d, rfl, hcd⟩ := Component.equal_compound_iff.1 hcd
      obtain ⟨⟨hc, hn⟩, hcs⟩ := List.forall_mem_cons.1 hcs
      obtain ⟨⟨hd, hn'⟩, hds⟩ := List.forall_mem_cons.1 hds
      exact .cons (compoundTest_of_equal ih hc hd hcd hn hn') (ihs hcs hds)

theorem pathTest_of_equal {c d : Complex} (hc : regular.ofComplex c) (hd : regular.ofComplex d)
    (heq : c.equal d) (hn : nestingOfPath c.components ≤ n)
    (hn' : nestingOfPath d.components ≤ n) : pathTest n c.components d.components := by
  obtain ⟨hw, hcompounds⟩ := regular_complex_iff.1 hc
  obtain ⟨hw', hcompounds'⟩ := regular_complex_iff.1 hd
  have hpaths := equalPaths_iff.1 (Complex.equal.equalPaths heq)
  have hsteps := stepsAbove_of_equal ih
    (fun x hx => ⟨hcompounds x hx, le_trans (nesting_compound_le hx) hn⟩)
    (fun y hy => ⟨hcompounds' y hy, le_trans (nesting_compound_le hy) hn'⟩) hpaths
  have hends := (isWellFormed_iff.1 hw).2.1
  have hends' := (isWellFormed_iff.1 hw').2.1
  simp only [pathTest_eq, layer, hends, hends', walk_of_steps hw hsteps, Bool.not_false,
    Bool.and_self]

end

/-- Regular selectors that are equal are above one another, as soon as the depth suffices. -/
theorem acceptsEqualBelow (n : Nat) : AcceptsEqualBelow n := by
  induction n with
  | zero =>
    intro c c' _ _ _ hlt
    exact absurd hlt (Nat.not_lt_zero _)
  | succ n ih =>
    intro c c' hc hc' heq hlt hlt'
    exact pathTest_of_equal ih hc hc' heq (Nat.le_of_lt_succ hlt) (Nat.le_of_lt_succ hlt')

end Superselector

/-- Every compound, complex selector and list that is regular at every depth is above itself. -/
theorem isSuperselectorOf_self :
    (∀ c : Compound, regular.ofCompound c → c.isSuperselectorOf c) ∧
    (∀ c : Complex, regular.ofComplex c → c.isSuperselectorOf c) ∧
    ∀ l : SelectorList, (∀ c ∈ l, regular.ofComplex c) → isSuperlist l l := by
  have hcomplex (c : Complex) (hc : regular.ofComplex c) : c.isSuperselectorOf c :=
    pathTest_of_equal (acceptsEqualBelow _) hc hc c.equal_refl (Nat.le_add_right _ _)
      (Nat.le_add_right _ _)
  refine ⟨fun c hc => ?_, hcomplex, fun l hl => ?_⟩
  · rw [Compound.isSuperselectorOf]
    -- The check on compounds starts one level deeper than needed.
    have hdepth : nesting.ofCompound c ≤ nesting.ofCompound c + nesting.ofCompound c + 1 := by omega
    exact compoundTest_of_equal (acceptsEqualBelow (_ + 1)) hc hc
      (Component.equal_refl (.compound c)) hdepth hdepth
  · exact List.all_eq_true.2 fun c hc => List.any_eq_true.2 ⟨c, hc, hcomplex c (hl c hc)⟩

/-- `.a > :not(.b ~ :is(.c)):nth-child(2n of .d)::slotted(.e), .f` is above itself. -/
theorem isSuperselectorOf_self_nested :
    let single (name : String) : Complex := .ofComponents [.compound (.ofClass name)]
    let pseudo (name : String) (l : SelectorList) : Simple :=
      { kind := .pseudo, name, selector := some l }
    let branch : Complex := .ofComponents [.compound (.ofClass "b"), .combinator .general,
      .compound (.ofSimples [pseudo "is" [single "c"]])]
    let subject : Compound := .ofSimples [pseudo "not" [branch],
      { pseudo "nth-child" [single "d"] with argument := "2n" },
      { pseudo "slotted" [single "e"] with element := true }]
    let l : SelectorList :=
      [.ofComponents [.compound (.ofClass "a"), .combinator .child, .compound subject], single "f"]
    isSuperlist l l :=
  isSuperselectorOf_self.2.2 _ (List.all_eq_true.1 rfl)

end SelectorCalculus
