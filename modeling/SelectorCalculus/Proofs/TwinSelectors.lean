import SelectorCalculus.Proofs.EveryDepth
import SelectorCalculus.Proofs.RegularSelectors
/-! Twins: equal selectors of bounded depths in which pseudo elements stand last. -/

namespace SelectorCalculus

open Superselector

/-! ### Pseudo elements in last position -/

/-- Selectors whose compounds have at most one pseudo element each, in last position, at every
depth. -/
def elementsLast : Interpretation Bool Bool Bool :=
  everyDepth (fun _ => true)
    (fun c => c.compound?.all fun d => d.simples.dropLast.all (!·.isPseudoElement)) fun _ => true

theorem elementsLast_compound_iff {c : Compound} : elementsLast.ofComponent (.compound c) ↔
    (∀ s ∈ c.simples.dropLast, ¬ s.isPseudoElement) ∧
      ∀ s ∈ c.simples, elementsLast.ofSimple s := by
  unfold elementsLast
  rw [everyDepth_compound_iff]
  simp [Component.compound?]

theorem nesting_pos {s : Simple} {l : SelectorList} (hl : s.selector = some l) :
    0 < nesting.ofSimple s := by
  rw [Interpretation.ofSimple_eq]
  simp [nesting, hl]

theorem nesting_component_le {cs : List Component} {c : Component} (h : c ∈ cs) :
    nesting.ofComponent c ≤ nestingOfPath cs := by
  rw [nestingOfPath, Interpretation.ofComponents_eq_map]
  exact le_foldr_max (List.mem_map_of_mem h)

/-! ### Twins -/

/-- Equal simple selectors of bounded depths. -/
structure TwinSimple (a b : Nat) (s t : Simple) : Prop where
  equal : s.equal t
  left : elementsLast.ofSimple s ∧ nesting.ofSimple s ≤ a
  right : elementsLast.ofSimple t ∧ nesting.ofSimple t ≤ b

/-- Simple selectors that are as many, are twins of one another and have a pseudo element at most at
the end. -/
structure TwinSimples (a b : Nat) (ss ts : List Simple) : Prop where
  length_eq : ss.length = ts.length
  exists_right : ∀ s ∈ ss, ∃ t ∈ ts, TwinSimple a b s t
  exists_left : ∀ t ∈ ts, ∃ s ∈ ss, TwinSimple a b s t
  left : ∀ s ∈ ss.dropLast, ¬ s.isPseudoElement
  right : ∀ t ∈ ts.dropLast, ¬ t.isPseudoElement

/-- The same combinator, or compounds of twins. -/
inductive TwinComponent (a b : Nat) : Component → Component → Prop where
  | compound {c d : Compound} (h : TwinSimples a b c.simples d.simples) :
    TwinComponent a b (.compound c) (.compound d)
  | combinator (k : Combinator) : TwinComponent a b (.combinator k) (.combinator k)

/-- Paths of twins, step by step. -/
abbrev TwinPaths (a b : Nat) : List Component → List Component → Prop :=
  List.Forall₂ (TwinComponent a b)

/-- Lists in which every alternative has an equal one whose path is its twin. -/
structure TwinLists (a b : Nat) (l l' : SelectorList) : Prop where
  exists_right : ∀ c ∈ l, ∃ c' ∈ l', c.equal c' ∧ TwinPaths a b c.components c'.components
  exists_left : ∀ c' ∈ l', ∃ c ∈ l, c.equal c' ∧ TwinPaths a b c.components c'.components

variable {a b a' b' : Nat}

theorem TwinSimple.symm {s t : Simple} (h : TwinSimple a b s t) : TwinSimple b a t s :=
  ⟨Simple.equal_symm h.equal, h.right, h.left⟩

theorem TwinSimples.symm {ss ts : List Simple} (h : TwinSimples a b ss ts) :
    TwinSimples b a ts ss where
  length_eq := h.length_eq.symm
  exists_right t ht := by
    obtain ⟨s, hs, hst⟩ := h.exists_left t ht
    exact ⟨s, hs, hst.symm⟩
  exists_left s hs := by
    obtain ⟨t, ht, hst⟩ := h.exists_right s hs
    exact ⟨t, ht, hst.symm⟩
  left := h.right
  right := h.left

theorem TwinComponent.symm {c d : Component} (h : TwinComponent a b c d) :
    TwinComponent b a d c := by
  cases h with
  | compound h => exact .compound h.symm
  | combinator k => exact .combinator k

theorem TwinPaths.symm {cs ds : List Component} (h : TwinPaths a b cs ds) : TwinPaths b a ds cs :=
  (h.imp fun _ _ h => h.symm).flip

theorem TwinPaths.exists_snoc {front ds : List Component} {c : Component}
    (h : TwinPaths a b (front ++ [c]) ds) :
    ∃ front' d, ds = front' ++ [d] ∧ TwinPaths a b front front' ∧ TwinComponent a b c d := by
  have hreverse := List.forall₂_reverse_iff.2 h
  rw [List.reverse_concat] at hreverse
  obtain ⟨d, front', hcd, hfront, heq⟩ := List.forall₂_cons_left_iff.1 hreverse
  refine ⟨front'.reverse, d, ?_, ?_, hcd⟩
  · rw [← List.reverse_cons, ← heq, List.reverse_reverse]
  · rw [← front.reverse_reverse]
    exact List.forall₂_reverse_iff.2 hfront

theorem TwinPaths.snoc {front front' : List Component} {c d : Component}
    (h : TwinPaths a b front front') (hcd : TwinComponent a b c d) :
    TwinPaths a b (front ++ [c]) (front' ++ [d]) :=
  List.rel_append h (.cons hcd .nil)

theorem TwinPaths.exists_base {c c' : Complex} {base : Compound}
    (h : TwinPaths a b c.components c'.components) (hbase : c.base? = some base) :
    ∃ base', c'.base? = some base' ∧ TwinSimples a b base.simples base'.simples := by
  obtain ⟨front, hfront⟩ := Complex.exists_of_base hbase
  rw [hfront] at h
  obtain ⟨front', d, hfront', -, hd⟩ := h.exists_snoc
  cases hd with
  | @compound _ base' htwins =>
    exact ⟨base', by simp [Complex.base?, hfront', Component.compound?], htwins⟩

theorem twinSimples_of_equal {c d : Compound} (hc : elementsLast.ofComponent (.compound c))
    (hd : elementsLast.ofComponent (.compound d)) (heq : c.equal d)
    (hn : nesting.ofCompound c ≤ a) (hn' : nesting.ofCompound d ≤ b) :
    TwinSimples a b c.simples d.simples := by
  obtain ⟨hlength, hto, hof⟩ := Compound.equal_iff.1 heq
  obtain ⟨hlast, hsimples⟩ := elementsLast_compound_iff.1 hc
  obtain ⟨hlast', hsimples'⟩ := elementsLast_compound_iff.1 hd
  have htwins {s t : Simple} (hs : s ∈ c.simples) (ht : t ∈ d.simples) (hst : s.equal t) :
      TwinSimple a b s t :=
    ⟨hst, ⟨hsimples s hs, le_trans (nesting_simple_le hs) hn⟩,
      ⟨hsimples' t ht, le_trans (nesting_simple_le ht) hn'⟩⟩
  refine ⟨hlength, fun s hs => ?_, fun t ht => ?_, hlast, hlast'⟩
  · obtain ⟨t, ht, hst⟩ := hto s hs
    exact ⟨t, ht, htwins hs ht hst⟩
  · obtain ⟨s, hs, hst⟩ := hof t ht
    exact ⟨s, hs, htwins hs ht hst⟩

theorem twinComponent_of_equal {c d : Component} (hc : elementsLast.ofComponent c)
    (hd : elementsLast.ofComponent d) (heq : c.equal d) (hn : nesting.ofComponent c ≤ a)
    (hn' : nesting.ofComponent d ≤ b) : TwinComponent a b c d := by
  cases c with
  | combinator k =>
    obtain rfl := Component.equal_combinator_iff.1 heq
    exact .combinator k
  | compound c =>
    obtain ⟨d, rfl, hcd⟩ := Component.equal_compound_iff.1 heq
    exact .compound (twinSimples_of_equal hc hd hcd hn hn')

theorem twinPaths_of_equal {c d : Complex} (hc : elementsLast.ofComplex c)
    (hd : elementsLast.ofComplex d) (heq : c.equal d) (hn : nestingOfPath c.components ≤ a)
    (hn' : nestingOfPath d.components ≤ b) : TwinPaths a b c.components d.components := by
  have hcs := (everyDepth_complex_iff.1 hc).2
  have hds := (everyDepth_complex_iff.1 hd).2
  have hpaths := equalPaths_iff.1 (Complex.equal.equalPaths heq)
  refine List.forall₂_iff_get.2 ⟨hpaths.length_eq, fun i hi hi' => ?_⟩
  have hmem := List.get_mem c.components ⟨i, hi⟩
  have hmem' := List.get_mem d.components ⟨i, hi'⟩
  exact twinComponent_of_equal (hcs _ hmem) (hds _ hmem') (hpaths.get hi hi')
    (le_trans (nesting_component_le hmem) hn) (le_trans (nesting_component_le hmem') hn')

theorem TwinSimple.exists_argument {s t : Simple} (h : TwinSimple a b s t) (hk : s.kind = .pseudo)
    {l : SelectorList} (hl : s.selector = some l) :
    t.kind = .pseudo ∧ s.argument = t.argument ∧
      ∃ l' a' b', t.selector = some l' ∧ a' < a ∧ b' < b ∧ TwinLists a' b' l l' := by
  obtain ⟨hk', hargument, l', hl', hlists⟩ := Simple.exists_argument_of_equal h.equal hk hl
  obtain ⟨hto, hof⟩ := equalLists_iff.1 hlists
  have hpos := nesting_pos hl
  have hpos' := nesting_pos hl'
  obtain ⟨hlast, hn⟩ := h.left
  obtain ⟨hlast', hn'⟩ := h.right
  have hparts := (everyDepth_simple_iff.1 hlast).2 (Simple.hasSelector_iff.2 ⟨hk, l, hl⟩) l hl
  have hparts' :=
    (everyDepth_simple_iff.1 hlast').2 (Simple.hasSelector_iff.2 ⟨hk', l', hl'⟩) l' hl'
  have htwins {c c' : Complex} (hc : c ∈ l) (hc' : c' ∈ l') (heq : c.equal c') :
      TwinPaths (a - 1) (b - 1) c.components c'.components := by
    have hlt := nesting_argument_lt hl hc
    have hlt' := nesting_argument_lt hl' hc'
    exact twinPaths_of_equal (hparts c hc) (hparts' c' hc') heq (by omega) (by omega)
  refine ⟨hk', hargument, l', a - 1, b - 1, hl', by omega, by omega, ?_, ?_⟩
  · intro c hc
    obtain ⟨c', hc', heq⟩ := hto c hc
    exact ⟨c', hc', heq, htwins hc hc' heq⟩
  · intro c' hc'
    obtain ⟨c, hc, heq⟩ := hof c' hc'
    exact ⟨c, hc, heq, htwins hc hc' heq⟩

theorem TwinLists.equalLists {l l' : SelectorList} (h : TwinLists a b l l') :
    SelectorCalculus.equalLists l l' := by
  refine equalLists_iff.2 ⟨fun c hc => ?_, fun c' hc' => ?_⟩
  · obtain ⟨c', hc', heq, -⟩ := h.exists_right c hc
    exact ⟨c', hc', heq⟩
  · obtain ⟨c, hc, heq, -⟩ := h.exists_left c' hc'
    exact ⟨c, hc, heq⟩

theorem mem_of_mem_snoc_element {before : List Simple} {e s : Simple} (he : e.isPseudoElement)
    (h : s ∈ before ++ [e]) (hs : ¬ s.isPseudoElement) : s ∈ before := by
  rcases List.mem_append.1 h with h | h
  · exact h
  · obtain rfl := List.mem_singleton.1 h
    exact absurd he hs

/-- Twins split at equal pseudo elements, and what stands before these are twins. -/
theorem TwinSimples.split {ss ts : List Simple} (h : TwinSimples a b ss ts) :
    (splitAtElement ss = none ∧ splitAtElement ts = none) ∨
      ∃ before e before' e', splitAtElement ss = some (before, e, []) ∧
        splitAtElement ts = some (before', e', []) ∧ e.equal e' ∧
          TwinSimples a b before before' := by
  have helement {s t : Simple} (hst : TwinSimple a b s t) :
      s.isPseudoElement = t.isPseudoElement := Simple.isPseudoElement_congr hst.equal
  rcases splitAtElement_of_dropLast h.left with ⟨hsplit, hnone⟩ | ⟨before, e, rfl, hsplit, he⟩
  · rcases splitAtElement_of_dropLast h.right with ⟨hsplit', -⟩ | ⟨before', e', rfl, -, he'⟩
    · exact Or.inl ⟨hsplit, hsplit'⟩
    · obtain ⟨s, hs, hst⟩ := h.exists_left e' (by simp)
      exact absurd (helement hst ▸ he') (hnone s hs)
  · rcases splitAtElement_of_dropLast h.right with ⟨-, hnone'⟩ | ⟨before', e', rfl, hsplit', he'⟩
    · obtain ⟨t, ht, hst⟩ := h.exists_right e (by simp)
      exact absurd (helement hst ▸ he) (hnone' t ht)
    · have hleft := h.left
      have hright := h.right
      rw [List.dropLast_concat] at hleft hright
      obtain ⟨t, ht, het⟩ := h.exists_right e (by simp)
      obtain rfl : t = e' := by
        rcases List.mem_append.1 ht with ht | ht
        · exact absurd (helement het ▸ he) (hright t ht)
        · exact List.mem_singleton.1 ht
      have hlength : before.length = before'.length := by simpa using h.length_eq
      refine Or.inr ⟨before, e, before', t, hsplit, hsplit', het.equal, hlength, ?_, ?_, ?_, ?_⟩
      · intro s hs
        obtain ⟨u, hu, hsu⟩ := h.exists_right s (by simp [hs])
        exact ⟨u, mem_of_mem_snoc_element he' hu (helement hsu ▸ hleft s hs), hsu⟩
      · intro u hu
        obtain ⟨s, hs, hsu⟩ := h.exists_left u (by simp [hu])
        exact ⟨s, mem_of_mem_snoc_element he hs (helement hsu ▸ hright u hu), hsu⟩
      · exact fun s hs => hleft s (List.dropLast_subset _ hs)
      · exact fun u hu => hright u (List.dropLast_subset _ hu)

end SelectorCalculus
