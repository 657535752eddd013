import SelectorCalculus.Proofs.ThreadedPaths
import Mathlib.Data.List.MinMax
import Mathlib.Order.Nat
/-! The superselector check on compounds with nested selectors as a transitive relation. -/

namespace SelectorCalculus

open Superselector

/-! ### Steady and filled selectors -/

/-- Selectors with no alternatives for their element and with paths without explicit combinators. -/
def steady : Interpretation Bool Bool Bool where
  simple s parts :=
    !(s.hasSelector && (s.sense == .anyOf || s.sense == .counting)) && parts.all id
  component _ parts := parts.all id
  complex c parts := c.components.all Component.isCompound && parts.all id

/-- Selectors in which no selector argument and no compound is empty. -/
def filled : Interpretation Bool Bool Bool where
  simple s parts := !s.selector.any List.isEmpty && parts.all id
  component
    | .compound c, parts => !c.isEmpty && parts.all id
    | .combinator _, _ => true
  complex _ parts := parts.all id

/-- All compounds of a path are steady. -/
def isSteadyPath (cs : List Component) : Bool := (compoundsOf cs).all steady.ofCompound

/-- All compounds of a path are filled. -/
def isFilledPath (cs : List Component) : Bool := (compoundsOf cs).all filled.ofCompound

theorem all_components_eq {m : Interpretation Bool Bool Bool}
    (hm : ∀ k, m.ofComponent (.combinator k) = true) (cs : List Component) :
    (cs.map m.ofComponent).all id = (compoundsOf cs).all m.ofCompound := by
  induction cs with
  | nil => rfl
  | cons c cs ih =>
    cases c with
    | compound c => exact congrArg (m.ofCompound c && ·) ih
    | combinator k => simpa [hm] using ih

theorem steady_simple_iff {s : Simple} : steady.ofSimple s ↔
    (s.hasSelector → s.sense ≠ .anyOf ∧ s.sense ≠ .counting) ∧
      ∀ l ∈ s.selector, ∀ c ∈ l, steady.ofComplex c := by
  have hnot : (!(s.hasSelector && (s.sense == .anyOf || s.sense == .counting))) = true ↔
      (s.hasSelector → s.sense ≠ .anyOf ∧ s.sense ≠ .counting) := by
    cases s.hasSelector <;> simp
  rw [Interpretation.ofSimple_eq, ← hnot]
  cases hs : s.selector <;> simp [steady]

theorem steady_compound_iff {c : Compound} :
    steady.ofCompound c ↔ ∀ s ∈ c.simples, steady.ofSimple s := by
  rw [Interpretation.ofCompound_eq]
  simp [steady]

theorem steady_complex_iff {c : Complex} : steady.ofComplex c ↔
    c.components.all Component.isCompound ∧ isSteadyPath c.components := by
  rw [Interpretation.ofComplex_eq, ← Bool.and_eq_true, isSteadyPath,
    ← all_components_eq fun k => rfl]
  rfl

theorem filled_simple_iff {s : Simple} : filled.ofSimple s ↔
    ∀ l ∈ s.selector, l ≠ [] ∧ ∀ c ∈ l, filled.ofComplex c := by
  rw [Interpretation.ofSimple_eq]
  cases hs : s.selector <;> simp [filled, hs]

theorem filled_compound_iff {c : Compound} :
    filled.ofCompound c ↔ c.simples ≠ [] ∧ ∀ s ∈ c.simples, filled.ofSimple s := by
  rw [Interpretation.ofCompound_eq]
  simp [filled, Compound.isEmpty]

theorem filled_complex_eq (c : Complex) : filled.ofComplex c = isFilledPath c.components := by
  rw [Interpretation.ofComplex_eq, isFilledPath, ← all_components_eq fun k => rfl]
  rfl

/-! ### Depth -/

theorem le_foldr_max {n : Nat} {ns : List Nat} (h : n ∈ ns) : n ≤ ns.foldr Nat.max 0 :=
  List.le_max_of_le h le_rfl

theorem nesting_argument_lt {s : Simple} {l : SelectorList} (hl : s.selector = some l) {c : Complex}
    (hc : c ∈ l) : nestingOfPath c.components < nesting.ofSimple s := by
  have hle := le_foldr_max (List.mem_map_of_mem (f := nesting.ofComplex) hc)
  rw [Interpretation.ofSimple_eq, hl]
  simp only [nesting, hl, Option.isSome_some, if_true, Option.getD_some]
  refine Nat.lt_succ_of_le (le_trans (le_of_eq ?_) hle)
  rw [Interpretation.ofComplex_eq, nestingOfPath, Interpretation.ofComponents_eq_map]
  rfl

theorem nesting_simple_le {c : Compound} {s : Simple} (h : s ∈ c.simples) :
    nesting.ofSimple s ≤ nesting.ofCompound c := by
  rw [Interpretation.ofCompound_eq]
  exact le_foldr_max (List.mem_map_of_mem h)

theorem nesting_compound_le {cs : List Component} {c : Compound} (h : c ∈ compoundsOf cs) :
    nesting.ofCompound c ≤ nestingOfPath cs := by
  obtain ⟨d, hd, hc⟩ := List.mem_filterMap.1 h
  cases d with
  | combinator k => cases hc
  | compound d =>
    cases hc
    rw [nestingOfPath, Interpretation.ofComponents_eq_map]
    exact le_foldr_max (List.mem_map_of_mem hd)

/-! ### Simple selectors that exclude others -/

namespace Simple

variable {s t u : Simple}

theorem excludesType_comm : s.excludesType t = t.excludesType s := by
  rw [Bool.eq_iff_iff]
  simp only [excludesType, Bool.or_eq_true, Bool.and_eq_true, Bool.not_eq_true', bne_iff_ne]
  rw [ne_comm (a := s.name), ne_comm (a := s.ns)]
  tauto

theorem excludesType_of_isSuperselectorOf (hs : s.kind = .typeName) (hst : s.isSuperselectorOf t)
    (h : s.excludesType u) : t.kind = .typeName ∧ t.excludesType u := by
  simp only [excludesType, Bool.or_eq_true, Bool.and_eq_true, Bool.not_eq_true', bne_iff_ne] at h ⊢
  rcases (isSuperselectorOf_type_iff hs).1 hst with ⟨huniversal, hany⟩ | ⟨ht, hns, hname⟩
  · simp [huniversal, hany] at h
  · refine ⟨ht, h.imp (fun h => ?_) fun h => ?_⟩
    · have hname := hname.resolve_left (by simp [h.1.1])
      rw [isUniversal_eq hs, hname] at h
      rwa [isUniversal_eq ht]
    · have hns := hns.resolve_left (by simp [h.1.1])
      simp only [Label.anyNamespace, hns] at h ⊢
      exact h

theorem equal_of_isSuperselectorOf_id (hs : s.kind = .id) (hst : s.isSuperselectorOf t) :
    t.kind = .id ∧ s.equal t := by
  have hequal := (isSuperselectorOf_iff_equal (by simp [hs])).1 hst
  exact ⟨Simple.kind_congr hequal ▸ hs, hequal⟩

theorem hasSelector_congr (h : s.equal t) : s.hasSelector = t.hasSelector := by
  obtain ⟨halike, hsel⟩ := Simple.equal_iff.1 h
  have hkind : s.kind = t.kind := Label.kind_eq_of_alike halike
  unfold hasSelector
  rw [← hkind]
  by_cases hk : s.kind = .pseudo
  · have hsel := hsel hk
    rcases hs : s.selector with _ | l <;> rcases ht : t.selector with _ | l'
    · rfl
    · rw [hs, ht] at hsel
      exact hsel.elim
    · rw [hs, ht] at hsel
      exact hsel.elim
    · rfl
  · rw [beq_eq_false_iff_ne.2 hk, Bool.false_and, Bool.false_and]

theorem normalizedName_congr (h : s.equal t) : s.normalizedName = t.normalizedName := by
  have halike := (Simple.equal_iff.1 h).1
  have hkind : s.kind = t.kind := Label.kind_eq_of_alike halike
  unfold Label.normalizedName
  rw [← hkind]
  unfold Label.alike at halike
  cases hk : s.kind <;> simp only [hk, Bool.and_eq_true, beq_iff_eq] at halike
  case pseudo => rw [if_pos rfl, if_pos rfl, halike.2.2]
  case typeName => exact halike.2.1
  case attr => exact halike.2.1.1.1.1
  all_goals exact halike.2

end Simple

theorem Complex.components_of_single {c : Complex} {d : Compound} (h : c.single? = some d) :
    c.components = [.compound d] := by
  unfold single? at h
  split at h
  · rename_i heq
    cases h
    exact heq
  · cases h

theorem Complex.exists_of_base {c : Complex} {d : Compound} (h : c.base? = some d) :
    ∃ front, c.components = front ++ [.compound d] := by
  obtain ⟨e, he, hcompound⟩ := Option.bind_eq_some_iff.1 h
  obtain ⟨front, hfront⟩ := List.getLast?_eq_some_iff.1 he
  cases e with
  | combinator k => cases hcompound
  | compound e =>
    cases hcompound
    exact ⟨front, hfront⟩

namespace Superselector

variable {test : PathTest} {s : Simple} {ts : List Simple} {parents : List Component}

/-! ### The check on simple selectors, case by case -/

theorem simplesTest_iff {ss : List Simple} :
    simplesTest test ss ts parents ↔ ∀ s ∈ ss, simplesTest test [s] ts parents := by
  simp [simplesTest]

theorem simplesTest_plain (hs : ¬ s.hasSelector) : simplesTest test [s] ts parents ↔
    ∃ t ∈ ts, s.isSuperselectorOf t ∨ alternativesHold s t := by
  have hsimple : simpleTest s ts ↔ ∃ t ∈ ts, s.isSuperselectorOf t ∨ alternativesHold s t := by
    simp [simpleTest]
  rw [← hsimple]
  cases hsel : s.selector with
  | none => simp [simplesTest, hsel]
  | some l =>
    have hk : s.kind ≠ .pseudo := fun hk => hs (Simple.hasSelector_iff.2 ⟨hk, l, hsel⟩)
    simp [simplesTest, hsel, hk]

theorem simplesTest_argument {l : SelectorList} (hk : s.kind = .pseudo) (hl : s.selector = some l) :
    simplesTest test [s] ts parents = argumentTest test s l ts parents := by
  simp [simplesTest, hl, hk]

theorem any_argumentsNamed {name : String} {isClass : Bool} {check : SelectorList → Bool} :
    (argumentsNamed name isClass ts).any check ↔ ∃ t ∈ ts, t.kind = .pseudo ∧
      t.isPseudoClass = isClass ∧ t.normalizedName = name ∧ ∃ l, t.selector = some l ∧ check l := by
  simp only [argumentsNamed, List.any_eq_true, List.mem_filterMap]
  constructor
  · rintro ⟨l, ⟨t, ht, hif⟩, hl⟩
    split_ifs at hif with h
    simp only [Bool.and_eq_true, beq_iff_eq] at h
    exact ⟨t, ht, (Simple.hasSelector_iff.1 h.1.1).1, h.1.2, h.2, l, hif, hl⟩
  · rintro ⟨t, ht, hk, hclass, hname, l, hsel, hl⟩
    refine ⟨l, ⟨t, ht, ?_⟩, hl⟩
    rw [if_pos (by simp [Simple.hasSelector, hk, hsel, hclass, hname]), hsel]

theorem listTest_iff {l l' : SelectorList} : listTest test l l' ↔
    ∀ c' ∈ l', ∃ c ∈ l, test c.components c'.components := by
  simp [listTest]

theorem rulesOut_iff {name : String} {branch : Complex} {base : Compound} :
    rulesOut test name branch base ts ↔ ∃ t ∈ ts,
      (t.kind = .typeName ∧ ∃ s ∈ base.simples, s.kind = .typeName ∧ s.excludesType t) ∨
      (t.kind = .id ∧ ∃ s ∈ base.simples, s.kind = .id ∧ ¬ s.equal t) ∨
      (t.kind = .pseudo ∧ t.normalizedName = name ∧ ∃ l, t.selector = some l ∧
        ∃ c ∈ l, test c.components branch.components) := by
  simp only [rulesOut, List.any_eq_true]
  refine exists_congr fun t => and_congr_right fun _ => ?_
  cases hk : t.kind <;> simp [listTest, Option.any_eq_true]

theorem alternativesHold_iff {t : Simple} : alternativesHold s t ↔
    t.kind = .pseudo ∧ (t.sense = .anyOf ∨ t.sense = .counting) ∧ ∃ l, t.selector = some l ∧
      l ≠ [] ∧ ∀ c ∈ l, ∃ d : Compound, c.single? = some d ∧ d.contains s := by
  simp only [alternativesHold, Bool.and_eq_true, Bool.or_eq_true, beq_iff_eq,
    Simple.hasSelector_iff]
  constructor
  · rintro ⟨⟨⟨hk, l, hl⟩, hsense⟩, h⟩
    refine ⟨hk, hsense, l, hl, ?_⟩
    simpa [hl, Option.any_eq_true] using h
  · rintro ⟨hk, hsense, l, hl, h⟩
    refine ⟨⟨⟨hk, l, hl⟩, hsense⟩, ?_⟩
    simpa [hl, Option.any_eq_true] using h

theorem not_alternativesHold {t : Simple} (ht : steady.ofSimple t) : ¬ alternativesHold s t := by
  intro h
  obtain ⟨hk, hsense, l, hl, -⟩ := alternativesHold_iff.1 h
  have hne := (steady_simple_iff.1 ht).1 (Simple.hasSelector_iff.2 ⟨hk, l, hl⟩)
  exact hsense.elim hne.1 hne.2

/-- A simple selector without argument is above a steady compound only if it is above one of its
parts. -/
theorem exists_above_of_steady (hs : ¬ s.hasSelector) (hts : ∀ t ∈ ts, steady.ofSimple t)
    (h : simplesTest test [s] ts parents) : ∃ t ∈ ts, s.isSuperselectorOf t := by
  obtain ⟨t, ht, h | h⟩ := (simplesTest_plain hs).1 h
  · exact ⟨t, ht, h⟩
  · exact absurd h (not_alternativesHold (hts t ht))

/-! ### What the middle must hold -/

/-- The check for nested selectors within the check of some depth. -/
def deeper : Nat → PathTest
  | 0 => fun _ _ => false
  | n + 1 => pathTest n

theorem pathTest_eq (n : Nat) : pathTest n = layer (deeper n) := by
  cases n <;> rfl

theorem exists_layer_of_deeper {n : Nat} {cs ds : List Component} (h : deeper n cs ds) :
    ∃ m, layer (deeper m) cs ds := by
  cases n with
  | zero => cases h
  | succ m => exact ⟨m, pathTest_eq m ▸ h⟩

theorem walk_of_layer {cs ds : List Component} (h : layer test cs ds) : walk test cs ds := by
  simp only [layer, Bool.and_eq_true] at h
  exact h.2

theorem splitAtElement_eq_some {ss before after : List Simple} {e : Simple}
    (h : splitAtElement ss = some (before, e, after)) : ss = before ++ e :: after := by
  have hspan := List.takeWhile_append_dropWhile (p := (!·.isPseudoElement)) (l := ss)
  simp only [splitAtElement, List.span_eq_takeWhile_dropWhile] at h
  split at h
  · rename_i heq
    simp only [Prod.mk.injEq] at heq
    simp only [Option.some.injEq, Prod.mk.injEq] at h
    rw [← hspan, heq.1, heq.2, h.1, h.2.1, h.2.2]
  · cases h

theorem hereditary_filled : Hereditary
    (fun s => filled.ofSimple s → ∀ n parents, ¬ simplesTest (deeper n) [s] [] parents)
    (fun c => ∀ d, c = .compound d → filled.ofCompound d → ∀ n parents,
      ¬ compoundTest (deeper n) d (.ofSimples []) parents)
    (fun c => filled.ofComplex c → ∀ n ds,
      ¬ deeper n c.components (ds ++ [.compound (.ofSimples [])])) where
  simple s ih hs n parents h := by
    by_cases hsel : s.hasSelector
    · obtain ⟨hk, l, hl⟩ := Simple.hasSelector_iff.1 hsel
      obtain ⟨hne, hfilled⟩ := filled_simple_iff.1 hs l hl
      rw [simplesTest_argument hk hl] at h
      cases hsense : s.sense <;> simp only [argumentTest, hsense] at h
      case anyOf =>
        simp only [argumentsNamed, List.filterMap_nil, List.any_nil, Bool.false_or,
          List.any_eq_true] at h
        obtain ⟨c, hc, h⟩ := h
        exact ih l hl c hc (hfilled c hc) n parents h
      case negation =>
        obtain ⟨c, rest, rfl⟩ := List.exists_cons_of_ne_nil hne
        simp [rulesOut] at h
      all_goals simp [argumentsNamed, containsSimple] at h
    · obtain ⟨t, ht, -⟩ := (simplesTest_plain hsel).1 h
      cases ht
  compound c ih d hd hfilled n parents h := by
    cases hd
    obtain ⟨hne, hfilled⟩ := filled_compound_iff.1 hfilled
    obtain ⟨s, rest, hs⟩ := List.exists_cons_of_ne_nil hne
    have hnone : splitAtElement (Compound.ofSimples []).simples = none := rfl
    simp only [compoundTest, hnone] at h
    split at h
    · rename_i heq
      cases heq
    · have hsimples := simplesTest_iff.1 h s (by simp [hs])
      exact ih s (by simp [hs]) (hfilled s (by simp [hs])) n parents hsimples
    · cases h
  combinator k d hd := by cases hd
  complex c ih hc n ds h := by
    obtain ⟨m, hlayer⟩ := exists_layer_of_deeper h
    have hthreads := threads_of_walk (walk_of_layer hlayer)
    rw [compoundsOf_append] at hthreads
    obtain ⟨cs', d, hcs, parents, htest⟩ := hthreads.exists_last
    have hd : d ∈ compoundsOf c.components := by simp [hcs]
    rw [filled_complex_eq, isFilledPath, List.all_eq_true] at hc
    obtain ⟨e, he, hcompound⟩ := List.mem_filterMap.1 hd
    cases e with
    | combinator k => cases hcompound
    | compound e =>
      cases hcompound
      exact ih _ he d rfl (hc d hd) m parents htest

/-! ### Transitivity, one level up -/

/-- The check is transitive on nested selectors that are less deep. -/
def TransitiveBelow (k : Nat) : Prop :=
  ∀ (n m : Nat) (a b c : Complex), steady.ofComplex a → filled.ofComplex b → steady.ofComplex c →
    nestingOfPath a.components + nestingOfPath c.components < k →
    deeper n a.components b.components → deeper m b.components c.components →
      deeper k a.components c.components

/-- A simple selector without argument finds its counterpart in the other compound, whatever pseudo
element stands between. -/
theorem exists_of_compoundTest {c d : Compound} (h : compoundTest test c d parents)
    (hs : s ∈ c.simples) (hsel : ¬ s.hasSelector) :
    ∃ t ∈ d.simples, s.isSuperselectorOf t ∨ alternativesHold s t := by
  unfold compoundTest at h
  split at h
  · rename_i before e after before' e' after' hc hd
    simp only [Bool.and_eq_true] at h
    rw [splitAtElement_eq_some hd]
    rw [splitAtElement_eq_some hc] at hs
    rcases List.mem_append.1 hs with hs | hs
    · obtain ⟨t, ht, h⟩ := (simplesTest_plain hsel).1 (simplesTest_iff.1 h.1.2 s hs)
      exact ⟨t, by simp [ht], h⟩
    · rcases List.mem_cons.1 hs with rfl | hs
      · exact ⟨e', by simp, Or.inl h.1.1⟩
      · obtain ⟨t, ht, h⟩ := (simplesTest_plain hsel).1 (simplesTest_iff.1 h.2 s hs)
        exact ⟨t, by simp [ht], h⟩
  · exact (simplesTest_plain hsel).1 (simplesTest_iff.1 h s hs)
  · cases h

section Transitivity

variable {k n m : Nat} {rs : List Simple} {parents' : List Component}

theorem exists_above_of_contains {d : Compound} (hs : ¬ s.hasSelector) (hd : d.contains s)
    (hrs : ∀ r ∈ rs, steady.ofSimple r) (h : compoundTest test d (.ofSimples rs) parents) :
    ∃ r ∈ rs, s.isSuperselectorOf r := by
  obtain ⟨t, ht, hst⟩ := containsSimple_iff.1 hd
  have hsel : ¬ t.hasSelector := Simple.hasSelector_congr hst ▸ hs
  obtain ⟨r, hr, h⟩ := exists_of_compoundTest h ht hsel
  have htr := h.resolve_right (not_alternativesHold (hrs r hr))
  exact ⟨r, hr, Simple.isSuperselectorOf_trans (by simp [Simple.isSuperselectorOf, hst]) htr⟩

theorem isSuperselectorOf_of_hasSelector {t : Simple} (hs : ¬ s.hasSelector) (ht : t.hasSelector)
    (hst : s.isSuperselectorOf t) (r : Simple) : s.isSuperselectorOf r := by
  by_cases hk : s.kind = .typeName
  · rw [Simple.isSuperselectorOf_type_iff hk] at hst ⊢
    rcases hst with hopen | ⟨htype, -⟩
    · exact Or.inl hopen
    · rw [(Simple.hasSelector_iff.1 ht).1] at htype
      cases htype
  · rw [Simple.isSuperselectorOf_iff_equal hk] at hst
    exact absurd (Simple.hasSelector_congr hst ▸ ht) hs

theorem normalizedName_ne_of_steady {t r : Simple} (ht : t.sense = .anyOf ∨ t.sense = .counting)
    (hr : steady.ofSimple r) {l : SelectorList} (hk : r.kind = .pseudo) (hl : r.selector = some l) :
    r.normalizedName ≠ t.normalizedName := by
  intro hname
  obtain ⟨hany, hcounting⟩ :=
    (steady_simple_iff.1 hr).1 (Simple.hasSelector_iff.2 ⟨hk, l, hl⟩)
  have hsense : r.sense = t.sense := by rw [Label.sense, hname, Label.sense]
  rw [hsense] at hany hcounting
  exact ht.elim hany hcounting

/-- The step for simple selectors without argument. -/
theorem exists_above_trans (hs : ¬ s.hasSelector) (hts : ∀ t ∈ ts, filled.ofSimple t)
    (hrs : ∀ r ∈ rs, steady.ofSimple r) (hst : simplesTest test [s] ts parents)
    (htr : ∀ t ∈ ts, simplesTest (deeper m) [t] rs parents') : ∃ r ∈ rs, s.isSuperselectorOf r := by
  obtain ⟨t, ht, hst | hst⟩ := (simplesTest_plain hs).1 hst
  · by_cases hsel : t.hasSelector
    · have hne : rs ≠ [] := by
        rintro rfl
        exact hereditary_filled.ofSimple t (hts t ht) m parents' (htr t ht)
      obtain ⟨r, rest, rfl⟩ := List.exists_cons_of_ne_nil hne
      exact ⟨r, by simp, isSuperselectorOf_of_hasSelector hs hsel hst r⟩
    · obtain ⟨r, hr, htr⟩ := exists_above_of_steady hsel hrs (htr t ht)
      exact ⟨r, hr, Simple.isSuperselectorOf_trans hst htr⟩
  · obtain ⟨hk, hsense, l, hl, -, hholds⟩ := alternativesHold_iff.1 hst
    have hname {r : Simple} {l : SelectorList} (hr : r ∈ rs) (hk : r.kind = .pseudo)
        (hl : r.selector = some l) := normalizedName_ne_of_steady hsense (hrs r hr) hk hl
    have htr := htr t ht
    rw [simplesTest_argument hk hl] at htr
    rcases hsense with hsense | hsense <;> simp only [argumentTest, hsense] at htr
    · rcases Bool.or_eq_true_iff.1 htr with htr | htr
      · obtain ⟨r, hr, hkr, -, hnamer, l', hl', -⟩ := any_argumentsNamed.1 htr
        exact absurd hnamer (hname hr hkr hl')
      · obtain ⟨c, hc, htr⟩ := List.any_eq_true.1 htr
        obtain ⟨d, hsingle, hcontains⟩ := hholds c hc
        obtain ⟨i, hlayer⟩ := exists_layer_of_deeper htr
        have hthreads := threads_of_walk (walk_of_layer hlayer)
        rw [Complex.components_of_single hsingle, compoundsOf_append] at hthreads
        obtain ⟨_, htest⟩ := hthreads.of_singleton
        exact exists_above_of_contains hs hcontains hrs htest
    · obtain ⟨r, hr, htr⟩ := List.any_eq_true.1 htr
      simp only [Bool.and_eq_true, beq_iff_eq, Option.any_eq_true] at htr
      obtain ⟨⟨⟨hkr, hnamer⟩, -⟩, l', hl', -⟩ := htr
      exact absurd hnamer (hname hr hkr hl')

theorem steady_base {c : Complex} {base : Compound} (hc : steady.ofComplex c)
    (hbase : c.base? = some base) : ∀ s ∈ base.simples, steady.ofSimple s := by
  obtain ⟨front, hfront⟩ := Complex.exists_of_base hbase
  have hpath := (steady_complex_iff.1 hc).2
  rw [hfront, isSteadyPath, List.all_eq_true] at hpath
  exact steady_compound_iff.1 (hpath base (by simp))

theorem exists_above_of_deeper {b c : Complex} {base base' : Compound} (hc : steady.ofComplex c)
    (hbase : b.base? = some base) (hbase' : c.base? = some base')
    (h : deeper n b.components c.components) (hs : s ∈ base.simples) (hsel : ¬ s.hasSelector) :
    ∃ t ∈ base'.simples, s.isSuperselectorOf t := by
  obtain ⟨i, hlayer⟩ := exists_layer_of_deeper h
  have hthreads := threads_of_walk (walk_of_layer hlayer)
  obtain ⟨front, hfront⟩ := Complex.exists_of_base hbase
  obtain ⟨front', hfront'⟩ := Complex.exists_of_base hbase'
  rw [hfront, hfront', compoundsOf_append, compoundsOf_append] at hthreads
  obtain ⟨cs, d, hcs, _, htest⟩ := hthreads.exists_last
  obtain ⟨-, hd⟩ := List.append_inj' hcs rfl
  obtain rfl := List.singleton_inj.1 hd
  obtain ⟨t, ht, h⟩ := exists_of_compoundTest htest hs hsel
  exact ⟨t, ht, h.resolve_right (not_alternativesHold (steady_base hc hbase' t ht))⟩

theorem not_hasSelector_of_kind {s : Simple} (h : s.kind ≠ .pseudo) : ¬ s.hasSelector :=
  fun hs => h (Simple.hasSelector_iff.1 hs).1

theorem rulesOut_of_deeper (ih : TransitiveBelow k) {name : String} {b c : Complex}
    {base base' : Compound} (hb : filled.ofComplex b) (hc : steady.ofComplex c)
    (hbase : b.base? = some base) (hbase' : c.base? = some base')
    (hbc : deeper n b.components c.components) (hrs : ∀ r ∈ rs, steady.ofSimple r)
    (hk : ∀ r ∈ rs, nestingOfPath c.components + nesting.ofSimple r ≤ k)
    (h : rulesOut (deeper m) name b base rs) : rulesOut (deeper k) name c base' rs := by
  obtain ⟨r, hr, h⟩ := rulesOut_iff.1 h
  refine rulesOut_iff.2 ⟨r, hr, ?_⟩
  rcases h with ⟨hkr, s, hs, hks, hexcl⟩ | ⟨hkr, s, hs, hks, hne⟩ | ⟨hkr, hname, l, hl, a, ha, hab⟩
  · obtain ⟨t, ht, hst⟩ := exists_above_of_deeper hc hbase hbase' hbc hs
      (not_hasSelector_of_kind (by simp [hks]))
    obtain ⟨hkt, hexcl⟩ := Simple.excludesType_of_isSuperselectorOf hks hst hexcl
    exact Or.inl ⟨hkr, t, ht, hkt, hexcl⟩
  · obtain ⟨t, ht, hst⟩ := exists_above_of_deeper hc hbase hbase' hbc hs
      (not_hasSelector_of_kind (by simp [hks]))
    obtain ⟨hkt, hequal⟩ := Simple.equal_of_isSuperselectorOf_id hks hst
    exact Or.inr (Or.inl ⟨hkr, t, ht, hkt, fun htr => hne (Simple.equal_trans hequal htr)⟩)
  · have hnest := nesting_argument_lt hl ha
    have ha' : steady.ofComplex a := (steady_simple_iff.1 (hrs r hr)).2 l hl a ha
    have hac : deeper k a.components c.components :=
      ih m n a b c ha' hb hc (by have := hk r hr; omega) hab hbc
    exact Or.inr (Or.inr ⟨hkr, hname, l, hl, a, ha, hac⟩)

/-- The step for negation. A branch that the middle rules out is ruled out by what is below it. -/
theorem rulesOut_trans (ih : TransitiveBelow k) {name : String}
    (hneg : Sense.ofName name = .negation) {c : Complex} {base : Compound}
    (hc : steady.ofComplex c) (hbase : c.base? = some base)
    (hts : ∀ t ∈ ts, filled.ofSimple t) (hrs : ∀ r ∈ rs, steady.ofSimple r)
    (hk : ∀ r ∈ rs, nestingOfPath c.components + nesting.ofSimple r ≤ k)
    (h : rulesOut (deeper n) name c base ts)
    (htr : ∀ t ∈ ts, simplesTest (deeper m) [t] rs parents') :
    rulesOut (deeper k) name c base rs := by
  obtain ⟨t, ht, h⟩ := rulesOut_iff.1 h
  have htr := htr t ht
  rcases h with ⟨hkt, s, hs, hks, hexcl⟩ | ⟨hkt, s, hs, hks, hne⟩ | ⟨hkt, hname, l, hl, b, hb, hbc⟩
  · obtain ⟨r, hr, htr⟩ :=
      exists_above_of_steady (not_hasSelector_of_kind (by simp [hkt])) hrs htr
    rw [Simple.excludesType_comm] at hexcl
    obtain ⟨hkr, hexcl⟩ := Simple.excludesType_of_isSuperselectorOf hkt htr hexcl
    rw [Simple.excludesType_comm] at hexcl
    exact rulesOut_iff.2 ⟨r, hr, Or.inl ⟨hkr, s, hs, hks, hexcl⟩⟩
  · obtain ⟨r, hr, htr⟩ :=
      exists_above_of_steady (not_hasSelector_of_kind (by simp [hkt])) hrs htr
    obtain ⟨hkr, hequal⟩ := Simple.equal_of_isSuperselectorOf_id hkt htr
    refine rulesOut_iff.2 ⟨r, hr, Or.inr (Or.inl ⟨hkr, s, hs, hks, fun hsr => hne ?_⟩)⟩
    exact Simple.equal_trans hsr (Simple.equal_symm hequal)
  · have hsense : t.sense = .negation := by rw [Label.sense, hname, hneg]
    rw [simplesTest_argument hkt hl] at htr
    simp only [argumentTest, hsense, hname, List.all_eq_true, Option.any_eq_true] at htr
    obtain ⟨base', hbase', hrule⟩ := htr b hb
    have hb' : filled.ofComplex b := (filled_simple_iff.1 (hts t ht) l hl).2 b hb
    exact rulesOut_of_deeper ih hb' hc hbase' hbase hbc hrs hk hrule

theorem any_argumentsNamed_trans {name : String} {isClass : Bool}
    {check check' check'' : SelectorList → SelectorList → Bool} {l : SelectorList}
    (htr : ∀ t ∈ ts, t.kind = .pseudo → t.normalizedName = name → ∀ l', t.selector = some l' →
      (argumentsNamed name isClass rs).any (check' l'))
    (hcheck : ∀ t ∈ ts, ∀ l', t.selector = some l' → ∀ r ∈ rs, ∀ l'', r.selector = some l'' →
      check l l' → check' l' l'' → check'' l l'')
    (h : (argumentsNamed name isClass ts).any (check l)) :
    (argumentsNamed name isClass rs).any (check'' l) := by
  obtain ⟨t, ht, hkt, -, hnamet, l', hl', hll'⟩ := any_argumentsNamed.1 h
  obtain ⟨r, hr, hkr, hclass, hnamer, l'', hl'', hll''⟩ :=
    any_argumentsNamed.1 (htr t ht hkt hnamet l' hl')
  exact any_argumentsNamed.2
    ⟨r, hr, hkr, hclass, hnamer, l'', hl'', hcheck t ht l' hl' r hr l'' hl'' hll' hll''⟩

theorem listTest_trans (ih : TransitiveBelow k) {t r : Simple} (hs : steady.ofSimple s)
    (ht : filled.ofSimple t) (hr : steady.ofSimple r)
    (hk : nesting.ofSimple s + nesting.ofSimple r ≤ k) {l l' l'' : SelectorList}
    (hl : s.selector = some l) (hl' : t.selector = some l') (hl'' : r.selector = some l'')
    (h : listTest (deeper n) l l') (h' : listTest (deeper m) l' l'') :
    listTest (deeper k) l l'' := by
  rw [listTest_iff] at h h' ⊢
  intro c hc
  obtain ⟨b, hb, hbc⟩ := h' c hc
  obtain ⟨a, ha, hab⟩ := h b hb
  have hna := nesting_argument_lt hl ha
  have hnc := nesting_argument_lt hl'' hc
  refine ⟨a, ha, ih n m a b c ((steady_simple_iff.1 hs).2 l hl a ha) ?_ ?_ (by omega) hab hbc⟩
  · exact (filled_simple_iff.1 ht l' hl').2 b hb
  · exact (steady_simple_iff.1 hr).2 l'' hl'' c hc

theorem simplesTest_trans (ih : TransitiveBelow k) (hs : steady.ofSimple s)
    (hts : ∀ t ∈ ts, filled.ofSimple t) (hrs : ∀ r ∈ rs, steady.ofSimple r)
    (hk : ∀ r ∈ rs, nesting.ofSimple s + nesting.ofSimple r ≤ k)
    (hst : simplesTest (deeper n) [s] ts parents)
    (htr : ∀ t ∈ ts, simplesTest (deeper m) [t] rs parents') (parents'' : List Component) :
    simplesTest (deeper k) [s] rs parents'' := by
  by_cases hsel : s.hasSelector
  swap
  · obtain ⟨r, hr, hsr⟩ := exists_above_trans hsel hts hrs hst htr
    exact (simplesTest_plain hsel).2 ⟨r, hr, Or.inl hsr⟩
  obtain ⟨hks, l, hl⟩ := Simple.hasSelector_iff.1 hsel
  obtain ⟨hany, hcounting⟩ := (steady_simple_iff.1 hs).1 hsel
  have hnamed : ∀ t ∈ ts, t.kind = .pseudo → t.normalizedName = s.normalizedName →
      ∀ l', t.selector = some l' →
        argumentTest (deeper m) t l' rs parents' ∧ t.sense = s.sense := by
    intro t ht hkt hname l' hl'
    refine ⟨?_, by rw [Label.sense, hname, Label.sense]⟩
    rw [← simplesTest_argument hkt hl']
    exact htr t ht
  have hlists : ∀ t ∈ ts, ∀ l', t.selector = some l' → ∀ r ∈ rs, ∀ l'', r.selector = some l'' →
      listTest (deeper n) l l' → listTest (deeper m) l' l'' → listTest (deeper k) l l'' :=
    fun t ht _ hl' r hr _ hl'' => listTest_trans ih hs (hts t ht) (hrs r hr) (hk r hr) hl hl' hl''
  rw [simplesTest_argument hks hl] at hst ⊢
  cases hsense : s.sense with
  | anyOf => exact absurd hsense hany
  | counting => exact absurd hsense hcounting
  | related =>
    simp only [argumentTest, hsense] at hst ⊢
    refine any_argumentsNamed_trans (fun t ht hkt hname l' hl' => ?_) hlists hst
    obtain ⟨htest, hsense'⟩ := hnamed t ht hkt hname l' hl'
    simpa only [argumentTest, hsense', hsense, hname] using htest
  | slotted =>
    simp only [argumentTest, hsense] at hst ⊢
    refine any_argumentsNamed_trans (fun t ht hkt hname l' hl' => ?_) hlists hst
    obtain ⟨htest, hsense'⟩ := hnamed t ht hkt hname l' hl'
    simpa only [argumentTest, hsense', hsense, hname] using htest
  | current =>
    simp only [argumentTest, hsense] at hst ⊢
    refine any_argumentsNamed_trans (fun t ht hkt hname l' hl' => ?_)
      (fun t ht l' hl' r hr l'' hl'' => equalLists_trans) hst
    obtain ⟨htest, hsense'⟩ := hnamed t ht hkt hname l' hl'
    simpa only [argumentTest, hsense', hsense, hname] using htest
  | negation =>
    simp only [argumentTest, hsense, List.all_eq_true, Option.any_eq_true] at hst ⊢
    intro c hc
    obtain ⟨base, hbase, hrule⟩ := hst c hc
    have hnc := nesting_argument_lt hl hc
    refine ⟨base, hbase, rulesOut_trans ih hsense ((steady_simple_iff.1 hs).2 l hl c hc) hbase hts
      hrs (fun r hr => ?_) hrule htr⟩
    have hsum := hk r hr
    omega
  | unknown =>
    simp only [argumentTest, hsense] at hst ⊢
    obtain ⟨t, ht, hequal⟩ := containsSimple_iff.1 hst
    have hname := (Simple.normalizedName_congr hequal).symm
    obtain ⟨hkt, l', hl'⟩ := Simple.hasSelector_iff.1 (Simple.hasSelector_congr hequal ▸ hsel)
    obtain ⟨htest, hsense'⟩ := hnamed t ht hkt hname l' hl'
    simp only [argumentTest, hsense', hsense] at htest
    obtain ⟨r, hr, hequal'⟩ := containsSimple_iff.1 htest
    exact containsSimple_iff.2 ⟨r, hr, Simple.equal_trans hequal hequal'⟩

/-- The check on compounds is transitive, given that it is on the selectors nested in them. -/
theorem compoundTest_trans (ih : TransitiveBelow k) {b c d : Compound} (hb : steady.ofCompound b)
    (hc : filled.ofCompound c) (hd : steady.ofCompound d)
    (hk : nesting.ofCompound b + nesting.ofCompound d ≤ k)
    (hbc : compoundTest (deeper n) b c parents) (hcd : compoundTest (deeper m) c d parents')
    (parents'' : List Component) : compoundTest (deeper k) b d parents'' := by
  have hb := steady_compound_iff.1 hb
  have hc := (filled_compound_iff.1 hc).2
  have hd := steady_compound_iff.1 hd
  have hparts {ss ts rs : List Simple} (hss : ss ⊆ b.simples) (hts : ts ⊆ c.simples)
      (hrs : rs ⊆ d.simples) (hst : simplesTest (deeper n) ss ts parents)
      (htr : simplesTest (deeper m) ts rs parents') : simplesTest (deeper k) ss rs parents'' := by
    refine simplesTest_iff.2 fun s hs => simplesTest_trans ih (hb s (hss hs))
      (fun t ht => hc t (hts ht)) (fun r hr => hd r (hrs hr)) (fun r hr => ?_)
      (simplesTest_iff.1 hst s hs) (simplesTest_iff.1 htr) parents''
    exact le_trans (Nat.add_le_add (nesting_simple_le (hss hs)) (nesting_simple_le (hrs hr))) hk
  unfold compoundTest at hbc hcd ⊢
  rcases hb' : splitAtElement b.simples with _ | ⟨before, e, after⟩ <;>
    rcases hc' : splitAtElement c.simples with _ | ⟨before', e', after'⟩ <;>
      rcases hd' : splitAtElement d.simples with _ | ⟨before'', e'', after''⟩ <;>
        simp only [hb', hc', hd', Bool.and_eq_true, Bool.false_eq_true] at hbc hcd ⊢
  · exact hparts (List.Subset.refl _) (List.Subset.refl _) (List.Subset.refl _) hbc hcd
  · have hb' := splitAtElement_eq_some hb'
    have hc' := splitAtElement_eq_some hc'
    have hd' := splitAtElement_eq_some hd'
    refine ⟨⟨Simple.isSuperselectorOf_trans hbc.1.1 hcd.1.1, ?_⟩, ?_⟩
    · exact hparts (by simp [hb']) (by simp [hc']) (by simp [hd']) hbc.1.2 hcd.1.2
    · exact hparts (by simp [hb']) (by simp [hc']) (by simp [hd']) hbc.2 hcd.2

end Transitivity

/-! ### Transitivity at every depth -/

theorem threads_trans {k n m : Nat} (ih : TransitiveBelow k) {as bs cs : List Component}
    (ha : isSteadyPath as) (hb : isFilledPath bs) (hc : isSteadyPath cs)
    (hk : nestingOfPath as + nestingOfPath cs ≤ k) (hab : walk (deeper n) as bs)
    (hbc : walk (deeper m) bs cs) :
    Threads (fun a c => ∀ parents, compoundTest (deeper k) a c parents) (compoundsOf as)
      (compoundsOf cs) := by
  rw [isSteadyPath, List.all_eq_true] at ha hc
  rw [isFilledPath, List.all_eq_true] at hb
  refine (threads_of_walk hab).trans (fun a ha' b hb' c hc' => ?_) (threads_of_walk hbc)
  rintro ⟨_, hab⟩ ⟨_, hbc⟩ parents
  refine compoundTest_trans ih (ha a ha') (hb b hb') (hc c hc') ?_ hab hbc parents
  exact le_trans (Nat.add_le_add (nesting_compound_le ha') (nesting_compound_le hc')) hk

/-- A walk through a path without siblings, given transitivity for nested selectors. -/
theorem walk_trans {k n m : Nat} (ih : TransitiveBelow k) {as bs cs : List Component}
    (ha : isSteadyPath as) (hb : isFilledPath bs) (hc : isSteadyPath cs)
    (hk : nestingOfPath as + nestingOfPath cs ≤ k) (has : as.all Component.isCompound)
    (hw : isWellFormed cs) (hs : isSiblingFree cs) (hab : walk (deeper n) as bs)
    (hbc : walk (deeper m) bs cs) : walk (deeper k) as cs := by
  rw [← descent_compoundsOf has]
  exact walk_of_threads hw hs (fun _ _ _ _ h => h) (threads_trans ih ha hb hc hk hab hbc)

theorem isWellFormed_of_all {cs : List Component} (h : cs.all Component.isCompound)
    (hne : cs ≠ []) : isWellFormed cs := by
  rw [← descent_compoundsOf h] at hne ⊢
  rcases List.eq_nil_or_concat (compoundsOf cs) with hnil | ⟨ds, d, hds⟩
  · simp [hnil, descent] at hne
  · rw [hds, List.concat_eq_append]
    exact isWellFormed_descent ds d

theorem isSiblingFree_of_all {cs : List Component} (h : cs.all Component.isCompound) :
    isSiblingFree cs := by
  rw [isSiblingFree, List.all_eq_true]
  intro c hc
  have hcompound := List.all_eq_true.1 h c hc
  cases c with
  | compound c => rfl
  | combinator k => cases hcompound

theorem walk_ne_nil {cs ds : List Component} (h : walk test cs ds) : ds ≠ [] := by
  rintro rfl
  exact (threads_of_walk h).not_nil_right

/-- The check on nested selectors is transitive, whatever their depth. -/
theorem transitiveBelow (k : Nat) : TransitiveBelow k := by
  induction k with
  | zero =>
    intro n m a b c _ _ _ hlt
    exact absurd hlt (Nat.not_lt_zero _)
  | succ k ih =>
    intro n m a b c ha hb hc hlt hab hbc
    obtain ⟨n', hab⟩ := exists_layer_of_deeper hab
    obtain ⟨m', hbc⟩ := exists_layer_of_deeper hbc
    obtain ⟨has, ha⟩ := steady_complex_iff.1 ha
    obtain ⟨hcs, hc⟩ := steady_complex_iff.1 hc
    rw [filled_complex_eq] at hb
    have hne := walk_ne_nil (walk_of_layer hbc)
    have hwalk := walk_trans ih ha hb hc (Nat.le_of_lt_succ hlt) has (isWellFormed_of_all hcs hne)
      (isSiblingFree_of_all hcs) (walk_of_layer hab) (walk_of_layer hbc)
    simp only [layer, Bool.and_eq_true] at hab hbc
    rw [deeper, pathTest_eq]
    simp only [layer, hab.1.1, hbc.1.2, hwalk, Bool.and_self]

end Superselector

end SelectorCalculus
