import SelectorCalculus.Proofs.RegularSelectors
import SelectorCalculus.Proofs.UnifiedCompounds
/-! What is unified from two regular compounds is below them, lone pseudo elements apart. -/

namespace SelectorCalculus

open Superselector

/-- Whether a type selector leaves both name and namespace open. -/
def Label.isOpen (l : Label) : Bool := l.isUniversal && l.anyNamespace

namespace Compound

def hasElement (c : Compound) : Bool := c.simples.any (·.isPseudoElement)

/-- The simple selectors of a compound that are about the element and not about a part of it. -/
def host (c : Compound) : List Simple := c.simples.filter (!·.isPseudoElement)

/-- A pseudo element and nothing else. -/
def isLoneElement (c : Compound) : Bool := c.hasElement && c.host.isEmpty

/-- A pseudo element of any element, with at least one universal selector that says so. -/
def isOpenElement (c : Compound) : Bool :=
  c.hasElement && !c.host.isEmpty && c.host.all (·.isOpen)

variable {c d u : Compound}

theorem mem_host {s : Simple} : s ∈ c.host ↔ s ∈ c.simples ∧ ¬ s.isPseudoElement := by
  simp [host]

theorem host_of_not_hasElement (h : ¬ c.hasElement) : c.host = c.simples := by
  refine List.filter_eq_self.2 fun s hs => ?_
  have hnone : ∀ s ∈ c.simples, ¬ s.isPseudoElement := by simpa [hasElement] using h
  simpa using hnone s hs

theorem host_of_snoc {before : List Simple} {e : Simple} (h : c.simples = before ++ [e])
    (hbefore : ∀ s ∈ before, ¬ s.isPseudoElement) (he : e.isPseudoElement) : c.host = before := by
  have hkeep : before.filter (!·.isPseudoElement) = before :=
    List.filter_eq_self.2 fun s hs => by simpa using hbefore s hs
  simp [host, h, hkeep, he]

theorem splitAtElement_regular (hc : regular.ofCompound c) :
    (¬ c.hasElement ∧ splitAtElement c.simples = none) ∨
      ∃ e, e.isPseudoElement ∧ c.simples = c.host ++ [e] ∧
        splitAtElement c.simples = some (c.host, e, []) := by
  have hlast := (regular_compound_iff.1 hc).1
  rcases splitAtElement_of_dropLast hlast with ⟨hsplit, hnone⟩ | ⟨before, e, heq, hsplit, he⟩
  · left
    exact ⟨by simpa [hasElement] using hnone, hsplit⟩
  · right
    have hbefore : ∀ s ∈ before, ¬ s.isPseudoElement := by
      intro s hs
      exact hlast s (by rwa [heq, List.dropLast_concat])
    have hhost := host_of_snoc heq hbefore he
    rw [hhost]
    exact ⟨e, he, heq, hsplit⟩

end Compound

/-! ### Where each simple selector is above another one -/

namespace Simple

variable {s t : Simple}

theorem isPseudoElement_of_isSuperselectorOf (hs : ¬ s.isOpen) (h : s.isSuperselectorOf t) :
    s.isPseudoElement = t.isPseudoElement := by
  by_cases hk : s.kind = .typeName
  · have ht : t.kind = .typeName := by
      rcases (isSuperselectorOf_type_iff hk).1 h with hopen | ⟨ht, -⟩
      · exact absurd (Bool.and_eq_true_iff.2 hopen) hs
      · exact ht
    rw [Label.isPseudoElement, Label.isPseudoElement, hk, ht]
    rfl
  · exact isPseudoElement_congr ((isSuperselectorOf_iff_equal hk).1 h)

theorem kind_of_isOpen (h : s.isOpen) : s.kind = .typeName :=
  Label.kind_of_isUniversal (Bool.and_eq_true_iff.1 h).1

theorem isSuperselectorOf_of_isOpen (h : s.isOpen) : s.isSuperselectorOf t :=
  (isSuperselectorOf_type_iff (kind_of_isOpen h)).2 (Or.inl (Bool.and_eq_true_iff.1 h))

end Simple

section

variable {c u : Compound} {n : Nat} {parents : List Component}

theorem simplesTest_host (hc : regular.ofCompound c) (hu : regular.ofCompound u)
    (habove : EachAbove c.simples u.simples) (hn : nesting.ofCompound c ≤ n)
    (hn' : nesting.ofCompound u ≤ n) (hhost : c.host = [] ∨ u.host ≠ []) :
    simplesTest (deeper n) c.host u.host parents := by
  have hregular := (regular_compound_iff.1 hc).2
  have hregular' := (regular_compound_iff.1 hu).2
  refine simplesTest_iff.2 fun s hs => ?_
  obtain ⟨hmem, helement⟩ := Compound.mem_host.1 hs
  by_cases hopen : s.isOpen
  · have hne : u.host ≠ [] := hhost.resolve_left (List.ne_nil_of_mem hs)
    obtain ⟨t, ht⟩ := List.exists_mem_of_ne_nil _ hne
    have hplain : ¬ s.hasSelector := by simp [Simple.hasSelector, Simple.kind_of_isOpen hopen]
    exact (simplesTest_plain hplain).2 ⟨t, ht, Or.inl (Simple.isSuperselectorOf_of_isOpen hopen)⟩
  · obtain ⟨t, hmem', hst⟩ := habove s hmem
    have helement' := Simple.isPseudoElement_of_isSuperselectorOf hopen hst ▸ helement
    have ht : t ∈ u.host := Compound.mem_host.2 ⟨hmem', helement'⟩
    by_cases hsel : s.hasSelector
    · have hk : s.kind ≠ .typeName := by simp [(Simple.hasSelector_iff.1 hsel).1]
      have hequal := (Simple.isSuperselectorOf_iff_equal hk).1 hst
      exact simplesTest_of_equal (acceptsEqualBelow n) (hregular s hmem) (hregular' t hmem') hequal
        helement (le_trans (nesting_simple_le hmem) hn) (le_trans (nesting_simple_le hmem') hn') ht
    · exact (simplesTest_plain hsel).2 ⟨t, ht, Or.inl hst⟩

/-- The only simple selector that a pseudo element can be above is the other pseudo element. -/
theorem element_isSuperselectorOf {e e' : Simple} (habove : EachAbove c.simples u.simples)
    (hmem : e ∈ c.simples) (he : e.isPseudoElement) (hus : u.simples = u.host ++ [e']) :
    e.isSuperselectorOf e' := by
  obtain ⟨t, ht, het⟩ := habove e hmem
  have hk := kind_of_isPseudoElement he
  have hequal := (Simple.isSuperselectorOf_iff_equal (by simp [hk])).1 het
  have helement : t.isPseudoElement := Simple.isPseudoElement_congr hequal ▸ he
  rw [hus, List.mem_append, List.mem_singleton] at ht
  rcases ht with ht | rfl
  · exact absurd helement (Compound.mem_host.1 ht).2
  · exact het

theorem isOpen_of_mem_host {s e : Simple} (habove : EachAbove c.simples u.simples)
    (he : e.isPseudoElement) (hus : u.simples = [e]) (hs : s ∈ c.host) : s.isOpen := by
  obtain ⟨hmem, helement⟩ := Compound.mem_host.1 hs
  obtain ⟨t, ht, hst⟩ := habove s hmem
  rw [hus, List.mem_singleton] at ht
  by_contra hopen
  rw [Simple.isPseudoElement_of_isSuperselectorOf hopen hst, ht] at helement
  exact helement he

/-- Of regular compounds with or without pseudo elements, one is above another if each simple
selector is above one of the other, but it must not ask for an element where the other does not. -/
theorem compoundTest_of_eachAbove (hc : regular.ofCompound c) (hu : regular.ofCompound u)
    (hsame : c.hasElement = u.hasElement) (habove : EachAbove c.simples u.simples)
    (hn : nesting.ofCompound c ≤ n) (hn' : nesting.ofCompound u ≤ n) :
    compoundTest (deeper n) c u parents ↔ (u.isLoneElement → c.host = []) := by
  rcases Compound.splitAtElement_regular hc with ⟨hno, hsplit⟩ | ⟨e, he, hcs, hsplit⟩
  · have hno' : ¬ u.hasElement := hsame ▸ hno
    have hhost : c.host = [] ∨ u.host ≠ [] := by
      rw [Compound.host_of_not_hasElement hno, Compound.host_of_not_hasElement hno']
      refine or_iff_not_imp_left.2 fun hne => ?_
      obtain ⟨s, hs⟩ := List.exists_mem_of_ne_nil _ hne
      obtain ⟨t, ht, -⟩ := habove s hs
      exact List.ne_nil_of_mem ht
    have htest : simplesTest (deeper n) c.host u.host parents :=
      simplesTest_host hc hu habove hn hn' hhost
    rw [Compound.host_of_not_hasElement hno, Compound.host_of_not_hasElement hno'] at htest
    have hsplit' : splitAtElement u.simples = none :=
      splitAtElement_of_forall (by simpa [Compound.hasElement] using hno')
    simp [compoundTest, hsplit, hsplit', htest, Compound.isLoneElement, hno']
  · have hhas : u.hasElement := by
      rw [← hsame]
      exact List.any_eq_true.2 ⟨e, by simp [hcs], he⟩
    rcases Compound.splitAtElement_regular hu with ⟨hno', -⟩ | ⟨e', he', hus, hsplit'⟩
    · exact absurd hhas hno'
    · have hee' := element_isSuperselectorOf habove (by simp [hcs]) he hus
      have hafter : simplesTest (deeper n) [] [] parents = true := rfl
      have hlone : u.isLoneElement ↔ u.host = [] := by simp [Compound.isLoneElement, hhas]
      simp only [compoundTest, hsplit, hsplit', hee', hafter, Bool.true_and, Bool.and_true]
      rw [hlone]
      constructor
      · intro htest hnil
        rw [hnil] at htest
        by_contra hne
        obtain ⟨s, hs⟩ := List.exists_mem_of_ne_nil _ hne
        have hopen : s.isOpen := isOpen_of_mem_host habove he' (by rw [hus, hnil, List.nil_append]) hs
        have hplain : ¬ s.hasSelector := by simp [Simple.hasSelector, Simple.kind_of_isOpen hopen]
        obtain ⟨t, ht, -⟩ := (simplesTest_plain hplain).1 (simplesTest_iff.1 htest s hs)
        cases ht
      · intro h
        refine simplesTest_host hc hu habove hn hn' ?_
        by_cases hnil : u.host = []
        · exact Or.inl (h hnil)
        · exact Or.inr hnil

end

/-! ### What unification does before a pseudo element -/

/-- Simple selectors that end with a pseudo element, which is alone exactly if told so. -/
def EndsWith (e : Simple) (alone : Prop) (ss : List Simple) : Prop :=
  ∃ before, ss = before ++ [e] ∧ (∀ t ∈ before, ¬ t.isPseudoElement) ∧ (before = [] ↔ alone)

namespace EndsWith

variable {s e : Simple} {alone : Prop} {ss rs : List Simple}

theorem congr {alone' : Prop} (hiff : alone ↔ alone') (h : EndsWith e alone ss) :
    EndsWith e alone' ss := by
  obtain ⟨before, hss, hbefore, hnil⟩ := h
  exact ⟨before, hss, hbefore, hnil.trans hiff⟩

theorem not_isPseudoElement {t : Simple} (ht : t.kind = .typeName) : ¬ t.isPseudoElement := by
  intro helement
  simp [kind_of_isPseudoElement helement] at ht

theorem addType (he : e.isPseudoElement) (hs : s.kind = .typeName) (hss : EndsWith e alone ss)
    (h : addType? s ss = some rs) : EndsWith e (alone ∧ s.isOpen) rs := by
  obtain ⟨before, rfl, hbefore, hnil⟩ := hss
  rw [← hnil]
  cases before with
  | nil =>
    have hk : e.kind ≠ .typeName := fun hk => not_isPseudoElement hk he
    simp only [List.nil_append, addType?, hk, if_false] at h
    split_ifs at h with hopen
    · cases h
      exact ⟨[], rfl, by simp, by simpa [Label.isOpen] using hopen⟩
    · cases h
      have hno : ¬ s.isOpen := hopen
      exact ⟨[s], rfl, by simpa using not_isPseudoElement hs, by simpa using hno⟩
  | cons t rest =>
    obtain ⟨ht, hrest⟩ := List.forall_mem_cons.1 hbefore
    simp only [List.cons_append, addType?] at h
    split_ifs at h with hk hopen
    · obtain ⟨r, hr, rfl⟩ := Option.map_eq_some_iff.1 h
      have hr : r.kind = .typeName := by
        simp only [Simple.unifyType?, Option.bind_eq_bind, Option.bind_eq_some_iff,
          Option.pure_def, Option.some.injEq] at hr
        obtain ⟨ns, -, name, -, rfl⟩ := hr
        rfl
      exact ⟨r :: rest, rfl, List.forall_mem_cons.2 ⟨not_isPseudoElement hr, hrest⟩, by simp⟩
    · cases h
      exact ⟨t :: rest, rfl, hbefore, by simp⟩
    · cases h
      exact ⟨s :: t :: rest, rfl, List.forall_mem_cons.2 ⟨not_isPseudoElement hs, hbefore⟩, by simp⟩

theorem add (he : e.isPseudoElement) (hss : EndsWith e alone ss)
    (h : addSimple?.add s ss = some rs) : EndsWith e (alone ∧ s.isPseudoElement) rs := by
  obtain ⟨before, rfl, hbefore, hnil⟩ := hss
  rw [← hnil]
  unfold addSimple?.add at h
  split_ifs at h with hclash hin
  · cases h
    obtain ⟨t, ht, hst⟩ := containsSimple_iff.1 hin
    refine ⟨before, rfl, hbefore, ?_⟩
    constructor
    · rintro rfl
      obtain rfl : t = e := by simpa using ht
      exact ⟨rfl, Simple.isPseudoElement_congr hst ▸ he⟩
    · exact And.left
  · cases h
    have hno : ¬ s.isPseudoElement := by
      intro helement
      have hequal : e.equal s = true := by
        by_contra hne
        apply hclash
        rw [Bool.not_eq_true] at hne
        exact List.any_eq_true.2 ⟨e, by simp, by simp [conflicts, helement, he, hne]⟩
      exact hin (containsSimple_iff.2 ⟨e, by simp, Simple.equal_symm hequal⟩)
    have hbefore' : ∀ t ∈ before, (!t.isPseudoElement) = true := by simpa using hbefore
    refine ⟨before ++ [s], ?_, ?_, by simp [hno]⟩
    · simp [insertBeforeElement, List.span_eq_takeWhile_dropWhile,
        List.takeWhile_append_of_pos hbefore', List.dropWhile_append_of_pos hbefore', he]
    · intro t ht
      rcases List.mem_append.1 ht with ht | ht
      · exact hbefore t ht
      · rwa [List.mem_singleton.1 ht]

/-- Simple selectors are added before the pseudo element, and only open ones leave no trace. -/
theorem addSimple (he : e.isPseudoElement) (hss : EndsWith e alone ss)
    (h : addSimple? s ss = some rs) :
    EndsWith e (alone ∧ (s.isOpen ∨ s.isPseudoElement)) rs := by
  unfold addSimple? at h
  split_ifs at h with hk
  · have hiff : s.isOpen ↔ s.isOpen ∨ s.isPseudoElement := by
      simp [not_isPseudoElement hk]
    exact (addType he hk hss h).congr (and_congr_right' hiff)
  · have hno : ¬ s.isOpen := fun hopen => hk (Simple.kind_of_isOpen hopen)
    have hiff : s.isPseudoElement ↔ s.isOpen ∨ s.isPseudoElement := by simp [hno]
    refine congr (and_congr_right' hiff) (add he hss ?_)
    split at h
    · rename_i t
      obtain ⟨before, heq, -⟩ := hss
      have ht : t = e := by simpa using congrArg List.getLast? heq
      have hu : ¬ t.isUniversal := by
        intro hu
        exact not_isPseudoElement (Label.kind_of_isUniversal hu) (ht ▸ he)
      rwa [if_neg hu] at h
    · exact h

theorem foldlM_addSimple {ds : List Simple} (he : e.isPseudoElement) (hss : EndsWith e alone ss)
    (h : ds.foldlM (fun ss s => addSimple? s ss) ss = some rs) :
    EndsWith e (alone ∧ ∀ s ∈ ds, s.isOpen ∨ s.isPseudoElement) rs := by
  induction ds generalizing alone ss with
  | nil =>
    cases h
    exact hss.congr (by simp)
  | cons s ds ih =>
    rw [List.foldlM_cons] at h
    obtain ⟨ss', hss', h⟩ := Option.bind_eq_some_iff.1 h
    have hrest := ih (addSimple he hss hss') h
    refine hrest.congr ?_
    rw [List.forall_mem_cons, and_assoc]

end EndsWith

/-! ### Unified compounds -/

section

variable {c d u : Compound}

theorem not_isEmpty_of_hasElement (h : c.hasElement) : ¬ c.isEmpty := by
  intro hempty
  rw [Compound.hasElement, List.isEmpty_iff.1 hempty] at h
  cases h

/-- If both compounds have pseudo elements, so has the unified one, and it is alone there if nothing
before them is more than open. -/
theorem endsWith_unify (hc : regular.ofCompound c) (hhas : c.hasElement) (hhas' : d.hasElement)
    (h : c.unify? d = some u) :
    ∃ e, e.isPseudoElement ∧ EndsWith e (c.host = [] ∧ ∀ s ∈ d.host, s.isOpen) u.simples := by
  rcases Compound.splitAtElement_regular hc with ⟨hno, -⟩ | ⟨e, he, hcs, -⟩
  · exact absurd hhas hno
  · simp only [Compound.unify?, not_isEmpty_of_hasElement hhas, not_isEmpty_of_hasElement hhas',
      if_false, Bool.false_eq_true] at h
    obtain ⟨rs, hrs, rfl⟩ := Option.map_eq_some_iff.1 h
    have hstart : EndsWith e (c.host = []) c.simples :=
      ⟨c.host, hcs, fun _ ht => (Compound.mem_host.1 ht).2, Iff.rfl⟩
    refine ⟨e, he, (EndsWith.foldlM_addSimple he hstart hrs).congr ?_⟩
    refine and_congr_right' (forall_congr' fun s => ?_)
    rw [Compound.mem_host, and_imp]
    refine imp_congr_right fun _ => ?_
    rw [or_comm, or_iff_not_imp_left]

theorem hasElement_unify (hc : regular.ofCompound c) (hsame : c.hasElement = d.hasElement)
    (h : c.unify? d = some u) : c.hasElement = u.hasElement := by
  cases hhas : c.hasElement with
  | true =>
    obtain ⟨e, he, before, hus, -⟩ := endsWith_unify hc hhas (hsame ▸ hhas) h
    exact (List.any_eq_true.2 ⟨e, by simp [hus], he⟩).symm
  | false =>
    have hno : ∀ s ∈ u.simples, ¬ s.isPseudoElement := by
      have hnone : ∀ s ∈ c.simples, ¬ s.isPseudoElement := by simpa [Compound.hasElement] using hhas
      have hnone' : ∀ s ∈ d.simples, ¬ s.isPseudoElement := by
        rw [hsame] at hhas
        simpa [Compound.hasElement] using hhas
      intro s hs
      rcases mem_unify h hs with hs | hs | ⟨ns, name, rfl⟩
      · exact hnone s hs
      · exact hnone' s hs
      · exact EndsWith.not_isPseudoElement rfl
    simpa [Compound.hasElement] using hno

theorem regular_unify (hc : regular.ofCompound c) (hd : regular.ofCompound d)
    (hsame : c.hasElement = d.hasElement) (h : c.unify? d = some u) : regular.ofCompound u := by
  refine regular_compound_iff.2 ⟨fun s hs => ?_, fun s hs => ?_⟩
  · cases hhas : u.hasElement with
    | true =>
      rw [← hasElement_unify hc hsame h] at hhas
      obtain ⟨e, -, before, hus, hbefore, -⟩ := endsWith_unify hc hhas (hsame ▸ hhas) h
      rw [hus, List.dropLast_concat] at hs
      exact hbefore s hs
    | false =>
      have hnone : ∀ s ∈ u.simples, ¬ s.isPseudoElement := by simpa [Compound.hasElement] using hhas
      exact hnone s (List.mem_of_mem_dropLast hs)
  · rcases mem_unify h hs with hs | hs | ⟨ns, name, rfl⟩
    · exact (regular_compound_iff.1 hc).2 s hs
    · exact (regular_compound_iff.1 hd).2 s hs
    · exact regular_simple_iff.2 fun hsel => by simp [Simple.hasSelector, Simple.ofType] at hsel

theorem isLoneElement_unify (hc : regular.ofCompound c) (hsame : c.hasElement = d.hasElement)
    (h : c.unify? d = some u) :
    u.isLoneElement ↔ c.isLoneElement ∧ ∀ s ∈ d.host, s.isOpen := by
  simp only [Compound.isLoneElement, ← hasElement_unify hc hsame h, Bool.and_eq_true,
    List.isEmpty_iff, and_assoc]
  refine and_congr_right fun hhas => ?_
  obtain ⟨e, he, before, hus, hbefore, hnil⟩ := endsWith_unify hc hhas (hsame ▸ hhas) h
  rw [Compound.host_of_snoc hus hbefore he]
  exact hnil

theorem compoundTest_unify (hc : regular.ofCompound c) (hd : regular.ofCompound d)
    (hsame : c.hasElement = d.hasElement) (h : c.unify? d = some u) {n : Nat}
    (hn : nesting.ofCompound u ≤ n) (parents : List Component) :
    (nesting.ofCompound c ≤ n → compoundTest (deeper n) c u parents) ∧
      (nesting.ofCompound d ≤ n →
        (compoundTest (deeper n) d u parents ↔ ¬ (c.isLoneElement ∧ d.isOpenElement))) := by
  have hu := regular_unify hc hd hsame h
  have hhas := hasElement_unify hc hsame h
  have hlone := isLoneElement_unify hc hsame h
  obtain ⟨hcu, hdu⟩ := EachAbove.unify h
  constructor
  · intro hn'
    refine (compoundTest_of_eachAbove hc hu hhas hcu hn' hn).2 fun hlone' => ?_
    have hc' := (hlone.1 hlone').1
    simp only [Compound.isLoneElement, Bool.and_eq_true, List.isEmpty_iff] at hc'
    exact hc'.2
  · intro hn'
    rw [compoundTest_of_eachAbove hd hu (hsame.symm.trans hhas) hdu hn' hn, hlone]
    have hopen : d.isOpenElement ↔ d.hasElement ∧ d.host ≠ [] ∧ ∀ s ∈ d.host, s.isOpen := by
      simp [Compound.isOpenElement, and_assoc]
    have helement : c.isLoneElement → d.hasElement := by
      rw [← hsame]
      exact fun hc' => (Bool.and_eq_true_iff.1 hc').1
    rw [hopen]
    constructor
    · rintro hnil ⟨hc', -, hne, hall⟩
      exact hne (hnil ⟨hc', hall⟩)
    · rintro hnot ⟨hc', hall⟩
      by_contra hne
      exact hnot ⟨hc', helement hc', hne, hall⟩

end

/-- The unification of two regular compounds that both have pseudo elements or both have none is
below the first one. It is below the second one too, except that `*::before` is taken to ask for
more than `::before`. -/
theorem Compound.isSuperselectorOf_unified {c d u : Compound} (hc : regular.ofCompound c)
    (hd : regular.ofCompound d) (hsame : c.hasElement = d.hasElement) (h : c.unify? d = some u) :
    c.isSuperselectorOf u ∧
      (d.isSuperselectorOf u ↔ ¬ (c.isLoneElement ∧ d.isOpenElement)) := by
  have htest {x : Compound} : x.isSuperselectorOf u =
      compoundTest (deeper (nesting.ofCompound x + nesting.ofCompound u + 1)) x u [] := rfl
  rw [htest, htest]
  constructor
  · exact (compoundTest_unify hc hd hsame h (by omega) []).1 (by omega)
  · exact (compoundTest_unify hc hd hsame h (by omega) []).2 (by omega)

/-- `:not(.a > .b, .c)::before` unifies with `*:Not(.c, .a > .b)::before`, and both are above the
result. -/
theorem Compound.isSuperselectorOf_unified_reordered :
    let a : Complex :=
      .ofComponents [.compound (.ofClass "a"), .combinator .child, .compound (.ofClass "b")]
    let b : Complex := .ofComponents [.compound (.ofClass "c")]
    let not (name : String) (l : SelectorList) : Simple :=
      { kind := .pseudo, name, selector := some l }
    let before : Simple := { kind := .pseudo, name := "before", element := true }
    let c : Compound := .ofSimples [not "not" [a, b], before]
    let d : Compound := .ofSimples [.universal, not "Not" [b, a], before]
    c.unify? d = some c ∧ c.isSuperselectorOf c ∧ d.isSuperselectorOf c := by
  intro a b not before c d
  have hregular : regular.ofCompound c ∧ regular.ofCompound d ∧ c.hasElement = d.hasElement ∧
      c.unify? d = some c ∧ ¬ (c.isLoneElement ∧ d.isOpenElement) := by
    subst a b not before c d
    exact ⟨rfl, rfl, rfl, rfl, by decide⟩
  obtain ⟨hc, hd, hsame, hu, hhost⟩ := hregular
  have habove := isSuperselectorOf_unified hc hd hsame hu
  exact ⟨hu, habove.1, habove.2.2 hhost⟩

/-- `*::before` is not above `::before`, with which it unifies to `::before`. -/
theorem Compound.isSuperselectorOf_unified_not :
    let before : Simple := { kind := .pseudo, name := "before", element := true }
    let c : Compound := .ofSimples [before]
    let d : Compound := .ofSimples [.universal, before]
    regular.ofCompound c ∧ regular.ofCompound d ∧ c.hasElement = d.hasElement ∧
      c.unify? d = some c ∧ ¬ d.isSuperselectorOf c := by
  intro before c d
  subst before c d
  exact ⟨rfl, rfl, rfl, rfl, by decide⟩

end SelectorCalculus
