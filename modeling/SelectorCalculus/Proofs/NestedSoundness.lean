import SelectorCalculus.Proofs.NestedChecks
import SelectorCalculus.Proofs.PlaceholderCleanup
/-! The superselector check on compounds with nested selectors is sound for any elements, whatever
`:has` looks at. -/

namespace SelectorCalculus

open Superselector

universe u

/-! ### Elements without a tree -/

/-- Some elements: what simple selectors say about each, and which others `:has` looks at. -/
structure Population (ε : Type u) where
  subject : ε → Subject
  kin : ε → ε → Prop

namespace Population

variable {ε : Type u} (p : Population ε)

/-- Every selector as where it holds. Of paths only those of one component are given a meaning. -/
def meaning : Interpretation (ε → Prop) (ε → Prop) (ε → Prop) where
  simple s parts e :=
    if s.hasSelector then
      match s.sense with
      | .anyOf => ∃ q ∈ parts, q e
      | .related => ∃ x, p.kin e x ∧ ∃ q ∈ parts, q x
      | .negation => ¬ ∃ q ∈ parts, q e
      | _ => (p.subject e).passes s
    else (p.subject e).Satisfies s
  component
    | .compound _, parts => fun e => ∀ q ∈ parts, q e
    | .combinator _, _ => fun _ => False
  complex _ parts e := ∃ q, parts = [q] ∧ q e

/-- An element matches a compound. -/
def Matches (c : Compound) (e : ε) : Prop := p.meaning.ofCompound c e

/-- An element matches some alternative of a list. -/
def MatchesList (l : SelectorList) (e : ε) : Prop := ∃ c ∈ l, p.meaning.ofComplex c e

variable {p} {e : ε} {s : Simple}

theorem matches_iff {c : Compound} :
    p.Matches c e ↔ ∀ s ∈ c.simples, p.meaning.ofSimple s e := by
  unfold Matches
  rw [Interpretation.ofCompound_eq]
  simp [meaning]

theorem meaning_single {c : Complex} {d : Compound} (h : c.single? = some d) :
    p.meaning.ofComplex c e ↔ p.Matches d e := by
  rw [Interpretation.ofComplex_eq, Complex.components_of_single h]
  simp [meaning, Matches, Interpretation.ofCompound]

theorem meaning_plain (hs : ¬ s.hasSelector) :
    p.meaning.ofSimple s e ↔ (p.subject e).Satisfies s := by
  rw [Interpretation.ofSimple_eq]
  simp [meaning, hs]

theorem meaning_of_kind (hk : s.kind ≠ .pseudo) :
    p.meaning.ofSimple s e ↔ (p.subject e).Satisfies s :=
  meaning_plain (not_hasSelector_of_kind hk)

theorem matchesList_ofSimples {sss : List (List Simple)} :
    p.MatchesList (sss.map fun ss => .ofComponents [.compound (.ofSimples ss)]) e ↔
      ∃ ss ∈ sss, ∀ s ∈ ss, p.meaning.ofSimple s e := by
  have hsingle (ss : List Simple) :
      p.meaning.ofComplex (.ofComponents [.compound (.ofSimples ss)]) e ↔
        ∀ s ∈ ss, p.meaning.ofSimple s e := (meaning_single rfl).trans matches_iff
  simp [MatchesList, hsingle]

section Arguments

variable {l : SelectorList}

theorem meaning_anyOf (hk : s.kind = .pseudo) (hl : s.selector = some l) (hs : s.sense = .anyOf) :
    p.meaning.ofSimple s e ↔ p.MatchesList l e := by
  rw [Interpretation.ofSimple_eq]
  simp [meaning, Simple.hasSelector, hk, hl, hs, MatchesList]

theorem meaning_related (hk : s.kind = .pseudo) (hl : s.selector = some l)
    (hs : s.sense = .related) :
    p.meaning.ofSimple s e ↔ ∃ x, p.kin e x ∧ p.MatchesList l x := by
  rw [Interpretation.ofSimple_eq]
  simp [meaning, Simple.hasSelector, hk, hl, hs, MatchesList]

theorem meaning_negation (hk : s.kind = .pseudo) (hl : s.selector = some l)
    (hs : s.sense = .negation) : p.meaning.ofSimple s e ↔ ¬ p.MatchesList l e := by
  rw [Interpretation.ofSimple_eq]
  simp [meaning, Simple.hasSelector, hk, hl, hs, MatchesList]

end Arguments

end Population

/-! ### Compact selectors -/

/-- Selectors without pseudo elements in which, at every depth, the arguments of pseudo selectors
are asserted or denied and their alternatives are single compounds. -/
def compact : Interpretation Bool Bool Bool where
  simple s parts := !s.isPseudoElement &&
    (!s.hasSelector || (logicalNames.contains s.normalizedName && parts.all id))
  component _ parts := parts.all id
  complex c parts := c.single?.isSome && parts.all id

theorem compact_simple_iff {s : Simple} : compact.ofSimple s ↔ ¬ s.isPseudoElement ∧
    (s.hasSelector → s.normalizedName ∈ logicalNames ∧
      ∀ l ∈ s.selector, ∀ c ∈ l, compact.ofComplex c) := by
  rw [Interpretation.ofSimple_eq]
  cases hs : s.hasSelector with
  | false => simp [compact, hs]
  | true =>
    obtain ⟨-, l, hl⟩ := Simple.hasSelector_iff.1 hs
    simp [compact, hs, hl]

theorem compact_compound_iff {c : Compound} :
    compact.ofCompound c ↔ ∀ s ∈ c.simples, compact.ofSimple s := by
  rw [Interpretation.ofCompound_eq]
  simp [compact]

theorem compact_complex_iff {c : Complex} :
    compact.ofComplex c ↔ ∃ d, c.single? = some d ∧ compact.ofCompound d := by
  rw [Interpretation.ofComplex_eq]
  cases hd : c.single? with
  | none => simp [compact, hd]
  | some d => simp [compact, hd, Complex.components_of_single hd, Interpretation.ofCompound]

/-! ### What the check knows of single selectors -/

/-- Every element that matches the second compound matches the first, whatever the elements. -/
def Compound.Covers (c d : Compound) : Prop :=
  ∀ (ε : Type u) (p : Population ε) (e : ε), p.Matches d e → p.Matches c e

namespace Superselector

/-- A check is sound if it is right about compact compounds. -/
def Sound (test : PathTest) : Prop :=
  ∀ c d : Compound, compact.ofCompound c → compact.ofCompound d →
    test [.compound c] [.compound d] → Compound.Covers.{u} c d

variable {test : PathTest} {ε : Type u} {p : Population ε} {e : ε} {s t : Simple}
  {ts : List Simple}

theorem meaning_of_isSuperselectorOf (hs : ¬ s.hasSelector) (hst : s.isSuperselectorOf t)
    (ht : p.meaning.ofSimple t e) : p.meaning.ofSimple s e := by
  rw [Population.meaning_plain hs]
  by_cases hsel : t.hasSelector
  · have hopen : s.isSuperselectorOf .universal := isSuperselectorOf_of_hasSelector hs hsel hst _
    have huniversal : (p.subject e).Satisfies .universal := Subject.satisfies_open rfl rfl
    exact Simple.isSuperselectorOf_sound hopen huniversal
  · rw [Population.meaning_plain hsel] at ht
    exact Simple.isSuperselectorOf_sound hst ht

/-- What all alternatives of a pseudo selector hold is true of what it matches. -/
theorem meaning_of_alternativesHold (hs : ¬ s.hasSelector) (ht : compact.ofSimple t)
    (h : alternativesHold s t) (he : p.meaning.ofSimple t e) : p.meaning.ofSimple s e := by
  obtain ⟨hk, hsense, l, hl, -, halternatives⟩ := alternativesHold_iff.1 h
  have hsel : t.hasSelector := Simple.hasSelector_iff.2 ⟨hk, l, hl⟩
  obtain ⟨hname, -⟩ := (compact_simple_iff.1 ht).2 hsel
  have hany : t.sense = .anyOf := by
    rcases sense_of_logical hname with ⟨-, hlogical⟩ | ⟨-, hlogical | hlogical⟩ <;>
      rcases hsense with hsense | hsense <;> simp_all
  rw [Population.meaning_anyOf hk hl hany] at he
  obtain ⟨c, hc, he⟩ := he
  obtain ⟨d, hd, hcontains⟩ := halternatives c hc
  obtain ⟨s', hs', hequal⟩ := containsSimple_iff.1 hcontains
  rw [Population.meaning_single hd, Population.matches_iff] at he
  have hplain : ¬ s'.hasSelector := Simple.hasSelector_congr hequal ▸ hs
  have hsatisfies := (Population.meaning_plain hplain).1 (he s' hs')
  rw [Population.meaning_plain hs]
  exact (Subject.satisfies_congr hequal).2 hsatisfies

/-! ### Nested selectors -/

theorem meaning_of_test (htest : Sound.{u} test) {c d : Complex} (hc : compact.ofComplex c)
    (hd : compact.ofComplex d) (h : test c.components d.components)
    (he : p.meaning.ofComplex d e) : p.meaning.ofComplex c e := by
  obtain ⟨c', hc', hcompact⟩ := compact_complex_iff.1 hc
  obtain ⟨d', hd', hcompact'⟩ := compact_complex_iff.1 hd
  rw [Complex.components_of_single hc', Complex.components_of_single hd'] at h
  rw [Population.meaning_single hd'] at he
  rw [Population.meaning_single hc']
  exact htest c' d' hcompact hcompact' h ε p e he

theorem matchesList_of_listTest (htest : Sound.{u} test) {l l' : SelectorList}
    (hl : ∀ c ∈ l, compact.ofComplex c) (hl' : ∀ c ∈ l', compact.ofComplex c)
    (h : listTest test l l') (he : p.MatchesList l' e) : p.MatchesList l e := by
  obtain ⟨d, hd, he⟩ := he
  obtain ⟨c, hc, hcd⟩ := listTest_iff.1 h d hd
  exact ⟨c, hc, meaning_of_test htest (hl c hc) (hl' d hd) hcd he⟩

theorem not_satisfies_of_excludesType {x : Subject} (hs : s.kind = .typeName)
    (ht : t.kind = .typeName) (h : s.excludesType t) (hxs : x.Satisfies s) : ¬ x.Satisfies t := by
  intro hxt
  simp only [Subject.Satisfies, hs] at hxs
  simp only [Subject.Satisfies, ht] at hxt
  simp only [Simple.excludesType, Bool.or_eq_true, Bool.and_eq_true, Bool.not_eq_true',
    bne_iff_ne] at h
  rcases h with ⟨⟨hus, hut⟩, hne⟩ | ⟨⟨hns, hnt⟩, hne⟩
  · simp only [hus, hut, Bool.false_eq_true, false_or] at hxs hxt
    exact hne (hxs.1.trans hxt.1.symm)
  · simp only [hns, hnt, Bool.false_eq_true, false_or] at hxs hxt
    exact hne (hxs.2.trans hxt.2.symm)

theorem not_satisfies_of_id {x : Subject} (hs : s.kind = .id) (ht : t.kind = .id)
    (h : ¬ s.equal t) (hxs : x.Satisfies s) : ¬ x.Satisfies t := by
  intro hxt
  rw [Subject.satisfies_id hs] at hxs
  rw [Subject.satisfies_id ht, hxs] at hxt
  have hname : s.name = t.name := Option.some.inj hxt
  apply h
  rw [Simple.equal_iff]
  simp [Label.alike, hs, ht, hname]

/-- A branch that some simple selectors rule out matches nothing that they match together. -/
theorem not_meaning_of_rulesOut (htest : Sound.{u} test) {name : String}
    (hname : Sense.ofName name = .negation) {c : Complex} {base : Compound}
    (hbase : c.single? = some base) (hc : compact.ofComplex c)
    (hts : ∀ t ∈ ts, compact.ofSimple t) (h : rulesOut test name c base ts)
    (he : ∀ t ∈ ts, p.meaning.ofSimple t e) : ¬ p.meaning.ofComplex c e := by
  intro hce
  obtain ⟨t, ht, h⟩ := rulesOut_iff.1 h
  have hte := he t ht
  have hbranch := hce
  rw [Population.meaning_single hbase, Population.matches_iff] at hbranch
  rcases h with ⟨hkt, s, hs, hks, hexcludes⟩ | ⟨hkt, s, hs, hks, hne⟩ |
    ⟨hkt, hnamed, l, hl, d, hd, hdc⟩
  · have hsx := (Population.meaning_of_kind (by simp [hks])).1 (hbranch s hs)
    have htx := (Population.meaning_of_kind (by simp [hkt])).1 hte
    exact not_satisfies_of_excludesType hks hkt hexcludes hsx htx
  · have hsx := (Population.meaning_of_kind (by simp [hks])).1 (hbranch s hs)
    have htx := (Population.meaning_of_kind (by simp [hkt])).1 hte
    exact not_satisfies_of_id hks hkt hne hsx htx
  · have hsense : t.sense = .negation := by rw [Label.sense, hnamed, hname]
    have hsel : t.hasSelector := Simple.hasSelector_iff.2 ⟨hkt, l, hl⟩
    obtain ⟨-, hparts⟩ := (compact_simple_iff.1 (hts t ht)).2 hsel
    rw [Population.meaning_negation hkt hl hsense] at hte
    exact hte ⟨d, hd, meaning_of_test htest (hparts l hl d hd) hc hdc hce⟩

/-! ### Soundness, one level up -/

/-- The rules for pseudo selectors, one for each way in which they use their argument. -/
theorem meaning_of_argumentTest (htest : Sound.{u} test) {l : SelectorList}
    (hk : s.kind = .pseudo) (hl : s.selector = some l) (hs : compact.ofSimple s)
    (hts : ∀ t ∈ ts, compact.ofSimple t) (h : argumentTest test s l ts [])
    (he : ∀ t ∈ ts, p.meaning.ofSimple t e) : p.meaning.ofSimple s e := by
  have hsel : s.hasSelector := Simple.hasSelector_iff.2 ⟨hk, l, hl⟩
  obtain ⟨hname, hparts⟩ := (compact_simple_iff.1 hs).2 hsel
  have hcompact := hparts l hl
  have hnamed (h : (argumentsNamed s.normalizedName true ts).any (listTest test l)) :
      ∃ t ∈ ts, t.kind = .pseudo ∧ t.sense = s.sense ∧ ∃ l', t.selector = some l' ∧
        ∀ x, p.MatchesList l' x → p.MatchesList l x := by
    obtain ⟨t, ht, hkt, -, hnamet, l', hl', hll'⟩ := any_argumentsNamed.1 h
    have hselt : t.hasSelector := Simple.hasSelector_iff.2 ⟨hkt, l', hl'⟩
    obtain ⟨-, hparts'⟩ := (compact_simple_iff.1 (hts t ht)).2 hselt
    refine ⟨t, ht, hkt, by rw [Label.sense, hnamet, Label.sense], l', hl', ?_⟩
    intro x hx
    exact matchesList_of_listTest htest hcompact (hparts' l' hl') hll' hx
  rcases sense_of_logical hname with ⟨-, hsense⟩ | ⟨-, hsense | hsense⟩
  · simp only [argumentTest, hsense, List.all_eq_true, Option.any_eq_true] at h
    rw [Population.meaning_negation hk hl hsense]
    intro hmatches
    obtain ⟨c, hc, hce⟩ := hmatches
    obtain ⟨d, hd, -⟩ := compact_complex_iff.1 (hcompact c hc)
    obtain ⟨base, hbase, hout⟩ := h c hc
    have hbased : base = d := by
      have hd' : c.base? = some d := by
        simp [Complex.base?, Complex.components_of_single hd, Component.compound?]
      exact Option.some.inj (hbase.symm.trans hd')
    subst hbased
    exact not_meaning_of_rulesOut htest hsense hd (hcompact c hc) hts hout he hce
  · simp only [argumentTest, hsense, Bool.or_eq_true, List.nil_append] at h
    rw [Population.meaning_anyOf hk hl hsense]
    rcases h with h | h
    · obtain ⟨t, ht, hkt, hsenset, l', hl', hbelow⟩ := hnamed h
      apply hbelow
      rw [← Population.meaning_anyOf hkt hl' (hsenset.trans hsense)]
      exact he t ht
    · obtain ⟨c, hc, h⟩ := List.any_eq_true.1 h
      have hwhole : compact.ofComplex (.ofComponents [.compound (.ofSimples ts)]) :=
        compact_complex_iff.2 ⟨.ofSimples ts, rfl, compact_compound_iff.2 hts⟩
      refine ⟨c, hc, meaning_of_test htest (hcompact c hc) hwhole h ?_⟩
      rw [Population.meaning_single rfl]
      exact Population.matches_iff.2 he
  · simp only [argumentTest, hsense] at h
    obtain ⟨t, ht, hkt, hsenset, l', hl', hbelow⟩ := hnamed h
    have hte := he t ht
    rw [Population.meaning_related hkt hl' (hsenset.trans hsense)] at hte
    rw [Population.meaning_related hk hl hsense]
    obtain ⟨x, hkin, hx⟩ := hte
    exact ⟨x, hkin, hbelow x hx⟩

theorem covers_of_compoundTest (htest : Sound.{u} test) {c d : Compound}
    (hc : compact.ofCompound c) (hd : compact.ofCompound d) (h : compoundTest test c d []) :
    Compound.Covers.{u} c d := by
  have hcs := compact_compound_iff.1 hc
  have hds := compact_compound_iff.1 hd
  have hsplit (c : Compound) (hc : ∀ s ∈ c.simples, compact.ofSimple s) :
      splitAtElement c.simples = none :=
    splitAtElement_of_forall fun s hs => (compact_simple_iff.1 (hc s hs)).1
  unfold compoundTest at h
  rw [hsplit c hcs, hsplit d hds] at h
  intro ε p e he
  rw [Population.matches_iff] at he ⊢
  intro s hs
  have hs' := simplesTest_iff.1 h s hs
  by_cases hsel : s.hasSelector
  · obtain ⟨hk, l, hl⟩ := Simple.hasSelector_iff.1 hsel
    rw [simplesTest_argument hk hl] at hs'
    exact meaning_of_argumentTest htest hk hl (hcs s hs) hds hs' he
  · obtain ⟨t, ht, hst | hst⟩ := (simplesTest_plain hsel).1 hs'
    · exact meaning_of_isSuperselectorOf hsel hst (he t ht)
    · exact meaning_of_alternativesHold hsel (hds t ht) hst (he t ht)

theorem Sound.layer (htest : Sound.{u} test) : Sound.{u} (layer test) := by
  intro c d hc hd h
  have hwalk := walk_of_layer h
  simp only [walk, mayHold, List.getLast?_singleton, Option.bind_some, Component.compound?,
    Option.any_some, List.dropLast_singleton, Bool.and_eq_true] at hwalk
  exact covers_of_compoundTest htest hc hd hwalk.2

/-- The check is sound to any depth. -/
theorem sound_pathTest (n : Nat) : Sound.{u} (pathTest n) := by
  induction n with
  | zero =>
    apply Sound.layer
    intro c d _ _ h
    cases h
  | succ n ih => exact ih.layer

end Superselector

namespace Compound

/-- The check of compounds is sound, to whatever depth selectors are nested in them: if a compound
is found to be above another, every element that matches the other matches it. -/
theorem isSuperselectorOf_covers {c d : Compound} (hc : compact.ofCompound c)
    (hd : compact.ofCompound d) (h : c.isSuperselectorOf d) {ε : Type u} (p : Population ε) (e : ε)
    (he : p.Matches d e) : p.Matches c e :=
  covers_of_compoundTest (sound_pathTest _) hc hd h ε p e he

/-- `:not(:is(.x), div):has(.k)` is found to be above `span:not(:is(.x, .y)):has(.k.l)`. Of two
elements, a `span` that sees a `div` of classes `k` and `l`, the `span` matches both. -/
theorem isSuperselectorOf_covers_negations :
    let name (s : String) : Simple := { kind := .className, name := s }
    let pseudo (s : String) (sss : List (List Simple)) : Simple :=
      { kind := .pseudo, name := s,
        selector := some (sss.map fun ss => .ofComponents [.compound (.ofSimples ss)]) }
    let c := ofSimples [pseudo "not" [[pseudo "is" [[name "x"]]], [.ofType "" "div"]],
      pseudo "has" [[name "k"]]]
    let d := ofSimples [.ofType "" "span", pseudo "not" [[pseudo "is" [[name "x"], [name "y"]]]],
      pseudo "has" [[name "k", name "l"]]]
    let p : Population Bool :=
      { subject := fun e => if e then { Subject.ofClasses [] with typeName := "span" }
          else { Subject.ofClasses ["k", "l"] with typeName := "div" }
        kin := fun e x => e ∧ ¬ x }
    compact.ofCompound c ∧ compact.ofCompound d ∧ c.isSuperselectorOf d ∧ p.Matches d true ∧
      p.Matches c true := by
  intro name pseudo c d p
  have hc : compact.ofCompound c := by decide +kernel
  have hd : compact.ofCompound d := by decide +kernel
  have hcd : c.isSuperselectorOf d := by decide +kernel
  have hname (e : Bool) (s : String) :
      p.meaning.ofSimple (name s) e ↔ e = false ∧ s ∈ ["k", "l"] := by
    rw [Population.meaning_of_kind (by simp [name])]
    cases e <;> simp [p, name, Subject.Satisfies, Subject.ofClasses]
  have hmatches : p.Matches d true := by
    rw [Population.matches_iff]
    simp only [d, ofSimples, List.forall_mem_cons]
    refine ⟨?_, ?_, ?_, by simp⟩
    · rw [Population.meaning_of_kind (by simp [Simple.ofType])]
      simp [p, Subject.Satisfies, Simple.ofType, Label.anyNamespace]
    · rw [Population.meaning_negation rfl rfl (by decide +kernel), Population.matchesList_ofSimples]
      simp only [List.mem_singleton, exists_eq_left, forall_eq]
      rw [Population.meaning_anyOf rfl rfl (by decide +kernel), Population.matchesList_ofSimples]
      simp [hname]
    · rw [Population.meaning_related rfl rfl (by decide +kernel)]
      refine ⟨false, by simp [p], ?_⟩
      rw [Population.matchesList_ofSimples]
      simp [hname]
  exact ⟨hc, hd, hcd, hmatches, isSuperselectorOf_covers hc hd hcd p true hmatches⟩

end Compound

end SelectorCalculus
