import SelectorCalculus.Proofs.CompoundOrder
import SelectorCalculus.Proofs.EveryDepth
import SelectorCalculus.Proofs.RegularSelectors
import SelectorCalculus.Selector.Specificity
/-! Unification does not lower weights where no compound repeats a simple selector. -/

namespace SelectorCalculus

namespace Specificity

/-- A range is at most another one if each of its ends is. -/
instance : LE Specificity where
  le a b := a.min ≤ b.min ∧ a.max ≤ b.max

theorem le_refl (a : Specificity) : a ≤ a := ⟨Nat.le_refl _, Nat.le_refl _⟩

theorem eq_of_le_of_le {a b : Specificity} (hab : a ≤ b) (hba : b ≤ a) : a = b := by
  cases a
  cases b
  rw [mk.injEq]
  exact ⟨Nat.le_antisymm hab.1 hba.1, Nat.le_antisymm hab.2 hba.2⟩

/-! ### Sums -/

theorem add_le_add {a a' b b' : Specificity} (ha : a ≤ a') (hb : b ≤ b') :
    a.add b ≤ a'.add b' :=
  ⟨Nat.add_le_add ha.1 hb.1, Nat.add_le_add ha.2 hb.2⟩

theorem zero_add (a : Specificity) : zero.add a = a := by
  simp [add, zero, exactly]

theorem sum_middle (front back : List Specificity) (a : Specificity) :
    sum (front ++ a :: back) = a.add (sum (front ++ back)) := by
  induction front with
  | nil => rfl
  | cons b front ih =>
    have hcons (parts : List Specificity) : sum (b :: parts) = b.add (sum parts) := rfl
    rw [List.cons_append, List.cons_append, hcons, hcons, ih]
    simp only [add, Nat.add_left_comm]

/-- Parts that weigh something are related to parts that weigh as much, and no two of them to the
same one, so their sum is no greater. -/
theorem sum_le_sum {R : α → β → Prop} {f : α → Specificity} {g : β → Specificity} {xs : List α}
    {ys : List β} (hle : ∀ x ∈ xs, ∀ y ∈ ys, R x y → f x ≤ g y)
    (hmem : ∀ x ∈ xs, f x = zero ∨ ∃ y ∈ ys, R x y)
    (hapart : xs.Pairwise fun x x' => ∀ y, R x y → ¬ R x' y) :
    sum (xs.map f) ≤ sum (ys.map g) := by
  induction xs generalizing ys with
  | nil => exact ⟨Nat.zero_le _, Nat.zero_le _⟩
  | cons x xs ih =>
    obtain ⟨hlex, hlexs⟩ := List.forall_mem_cons.1 hle
    obtain ⟨hx, hxs⟩ := List.forall_mem_cons.1 hmem
    obtain ⟨hxapart, hxsapart⟩ := List.pairwise_cons.1 hapart
    have hcons : sum ((x :: xs).map f) = (f x).add (sum (xs.map f)) := rfl
    rw [hcons]
    rcases hx with hzero | ⟨y, hy, hxy⟩
    · rw [hzero, zero_add]
      exact ih hlexs hxs hxsapart
    · obtain ⟨front, back, rfl⟩ := List.append_of_mem hy
      have hsubset {z : β} (hz : z ∈ front ++ back) : z ∈ front ++ y :: back := by
        simp only [List.mem_append, List.mem_cons] at hz ⊢
        tauto
      have hothers : ∀ x' ∈ xs, f x' = zero ∨ ∃ z ∈ front ++ back, R x' z := by
        intro x' hx'
        refine (hxs x' hx').imp_right ?_
        rintro ⟨z, hz, hxz⟩
        refine ⟨z, ?_, hxz⟩
        have hne : z ≠ y := fun hzy => hxapart x' hx' y hxy (hzy ▸ hxz)
        simp only [List.mem_append, List.mem_cons, hne, false_or] at hz ⊢
        exact hz
      have hrest := ih (fun x' hx' z hz => hlexs x' hx' z (hsubset hz)) hothers hxsapart
      rw [List.map_append, List.map_cons, sum_middle, ← List.map_append]
      exact add_le_add (hlex y hy hxy) hrest

/-! ### Joined ranges -/

section Join

variable {join : Specificity → Specificity → Specificity} [Std.Commutative join]
  [Std.Associative join] [Std.IdempotentOp join] {a b x : Specificity}
  {ranges ranges' : List Specificity}

theorem foldl_join_of_mem (h : join a x = a ∨ x ∈ ranges) :
    join (ranges.foldl join a) x = ranges.foldl join a := by
  induction ranges generalizing a with
  | nil => exact h.resolve_right List.not_mem_nil
  | cons b ranges ih =>
    refine ih ?_
    rcases h with h | h
    · left
      calc join (join a b) x
        _ = join (join a x) b := by ac_rfl
        _ = join a b := by rw [h]
    · rcases List.mem_cons.1 h with rfl | h
      · left
        have hidem : join x x = x := Std.IdempotentOp.idempotent x
        calc join (join a x) x
          _ = join a (join x x) := by ac_rfl
          _ = join a x := by rw [hidem]
      · exact Or.inr h

theorem join_foldl_of_forall (ha : join b a = b) (h : ∀ x ∈ ranges, join b x = b) :
    join b (ranges.foldl join a) = b := by
  induction ranges generalizing a with
  | nil => exact ha
  | cons x ranges ih =>
    obtain ⟨hx, hranges⟩ := List.forall_mem_cons.1 h
    refine ih ?_ hranges
    calc join b (join a x)
      _ = join (join b a) x := by ac_rfl
      _ = b := by rw [ha, hx]

theorem join_foldl_of_subset (h : a :: ranges ⊆ b :: ranges') :
    join (ranges'.foldl join b) (ranges.foldl join a) = ranges'.foldl join b := by
  have habsorbs : ∀ x ∈ a :: ranges, join (ranges'.foldl join b) x = ranges'.foldl join b := by
    intro x hx
    refine foldl_join_of_mem ?_
    rcases List.mem_cons.1 (h hx) with rfl | hx
    · exact Or.inl (Std.IdempotentOp.idempotent x)
    · exact Or.inr hx
  obtain ⟨ha, hranges⟩ := List.forall_mem_cons.1 habsorbs
  exact join_foldl_of_forall ha hranges

theorem joinAll_congr (h : ∀ r, r ∈ ranges ↔ r ∈ ranges') :
    joinAll join ranges = joinAll join ranges' := by
  cases ranges with
  | nil =>
    have hnil : ranges' = [] := List.eq_nil_iff_forall_not_mem.2 fun r hr => by simpa using (h r).2 hr
    rw [hnil]
  | cons a ranges =>
    cases ranges' with
    | nil => simpa using (h a).1
    | cons b ranges' =>
      have hto : a :: ranges ⊆ b :: ranges' := fun r hr => (h r).1 hr
      have hof : b :: ranges' ⊆ a :: ranges := fun r hr => (h r).2 hr
      calc ranges.foldl join a
        _ = join (ranges.foldl join a) (ranges'.foldl join b) := (join_foldl_of_subset hof).symm
        _ = join (ranges'.foldl join b) (ranges.foldl join a) := Std.Commutative.comm _ _
        _ = ranges'.foldl join b := join_foldl_of_subset hto

end Join

instance : Std.Commutative either where
  comm a b := by simp [either, Nat.min_comm, Nat.max_comm]

instance : Std.Associative either where
  assoc a b c := by simp [either, Nat.min_assoc, Nat.max_assoc]

instance : Std.IdempotentOp either where
  idempotent a := by simp [either]

instance : Std.Commutative greater where
  comm a b := by simp [greater, Nat.max_comm]

instance : Std.Associative greater where
  assoc a b c := by simp [greater, Nat.max_assoc]

instance : Std.IdempotentOp greater where
  idempotent a := by simp [greater]

end Specificity

open Specificity

theorem Label.argumentSpecificity_congr {l l' : Label}
    (hname : l.normalizedName = l'.normalizedName) {ranges ranges' : List Specificity}
    (h : ∀ r, r ∈ ranges ↔ r ∈ ranges') :
    l.argumentSpecificity ranges = l'.argumentSpecificity ranges' := by
  unfold argumentSpecificity
  rw [hname, joinAll_congr h, joinAll_congr h]

/-! ### Equal selectors -/

/-- Selectors in which no compound holds two equal simple selectors, at every depth. -/
def repetitionFree : Interpretation Bool Bool Bool :=
  everyDepth (fun _ => true)
    (fun c => c.compound?.all fun d => d.simples.Pairwise fun s t => ¬ s.equal t) fun _ => true

theorem repetitionFree_compound_iff {c : Compound} : repetitionFree.ofComponent (.compound c) ↔
    c.simples.Pairwise (fun s t => ¬ s.equal t) ∧ ∀ s ∈ c.simples, repetitionFree.ofSimple s := by
  unfold repetitionFree
  rw [everyDepth_compound_iff]
  simp [Component.compound?]

theorem weighing_compound (c : Compound) :
    weighing.ofComponent (.compound c) = sum (c.simples.map weighing.ofSimple) :=
  Interpretation.ofCompound_eq weighing c

theorem weighing_complex (c : Complex) :
    weighing.ofComplex c = sum (c.components.map weighing.ofComponent) :=
  Interpretation.ofComplex_eq weighing c

theorem weighing_type {s : Simple} (h : s.kind = .typeName) :
    weighing.ofSimple s = if s.isUniversal then zero else ofType := by
  rw [Interpretation.ofSimple_eq]
  simp [weighing, h]

theorem weighing_simple_congr {s t : Simple} (h : s.equal t) {ranges ranges' : List Specificity}
    (hranges : s.hasSelector → ∀ r, r ∈ ranges ↔ r ∈ ranges') :
    weighing.simple s ranges = weighing.simple t ranges' := by
  have halike := (Simple.equal_iff.1 h).1
  have hkind : s.kind = t.kind := Label.kind_eq_of_alike halike
  simp only [weighing, ← hkind, ← Simple.isPseudoElement_congr h]
  cases hk : s.kind with
  | typeName =>
    have huniversal : s.isUniversal = t.isUniversal := by
      simp only [Label.alike, hk, Bool.and_eq_true, beq_iff_eq] at halike
      simp only [Label.isUniversal, ← hkind, halike.2.1]
    simp only [huniversal]
  | pseudo =>
    have hsome : s.selector.isSome = t.selector.isSome := by
      simpa [Simple.hasSelector, ← hkind, hk] using Simple.hasSelector_congr h
    simp only [← Option.not_isSome, ← hsome]
    split_ifs with _ hnone
    · rfl
    · rfl
    · have hhas : s.hasSelector := by
        simpa only [Simple.hasSelector, hk, beq_self_eq_true, Bool.true_and, Bool.not_eq_true',
          Bool.not_eq_false] using hnone
      exact Label.argumentSpecificity_congr (Simple.normalizedName_congr h) (hranges hhas)
  | _ => rfl

theorem hereditary_weights : Hereditary
    (fun s => ∀ t : Simple, s.equal t → repetitionFree.ofSimple s → repetitionFree.ofSimple t →
      weighing.ofSimple s = weighing.ofSimple t)
    (fun c => ∀ d : Component, c.equal d → repetitionFree.ofComponent c →
      repetitionFree.ofComponent d → weighing.ofComponent c = weighing.ofComponent d)
    (fun c => ∀ d : Complex, c.equal d → repetitionFree.ofComplex c →
      repetitionFree.ofComplex d → weighing.ofComplex c = weighing.ofComplex d) where
  simple s ih t h hs ht := by
    rw [Interpretation.ofSimple_eq, Interpretation.ofSimple_eq]
    refine weighing_simple_congr h fun hsel => ?_
    have hsel' : t.hasSelector := Simple.hasSelector_congr h ▸ hsel
    obtain ⟨hk, l, hl⟩ := Simple.hasSelector_iff.1 hsel
    obtain ⟨-, -, l', hl', hlists⟩ := Simple.exists_argument_of_equal h hk hl
    have hparts := (everyDepth_simple_iff.1 hs).2 hsel l hl
    have hparts' := (everyDepth_simple_iff.1 ht).2 hsel' l' hl'
    obtain ⟨hto, hof⟩ := equalLists_iff.1 hlists
    rw [hl, hl']
    refine mem_map_congr (fun c hc d hd hcd => ?_) hto hof
    exact ih l hl c hc d hcd (hparts c hc) (hparts' d hd)
  compound c ih d h hc hd := by
    obtain ⟨d, rfl, hcd⟩ := Component.equal_compound_iff.1 h
    obtain ⟨-, hto, hof⟩ := Compound.equal_iff.1 hcd
    obtain ⟨hdistinct, hsimples⟩ := repetitionFree_compound_iff.1 hc
    obtain ⟨hdistinct', hsimples'⟩ := repetitionFree_compound_iff.1 hd
    have hsame {s t : Simple} (hs : s ∈ c.simples) (ht : t ∈ d.simples) (hst : s.equal t) :
        weighing.ofSimple s = weighing.ofSimple t :=
      ih s hs t hst (hsimples s hs) (hsimples' t ht)
    rw [weighing_compound, weighing_compound]
    -- Without repetition no two simple selectors of one side have the same counterpart.
    apply eq_of_le_of_le
    · refine sum_le_sum (fun s hs t ht hst => hsame hs ht hst ▸ le_refl _)
        (fun s hs => Or.inr (hto s hs)) (hdistinct.imp fun hne t hst hst' => ?_)
      exact hne (Simple.equal_trans hst (Simple.equal_symm hst'))
    · refine sum_le_sum (fun t ht s hs hst => hsame hs ht hst ▸ le_refl _)
        (fun t ht => Or.inr (hof t ht)) (hdistinct'.imp fun hne s hst hst' => ?_)
      exact hne (Simple.equal_trans (Simple.equal_symm hst) hst')
  combinator k d h _ _ := by rw [Component.equal_combinator_iff.1 h]
  complex c ih d h hc hd := by
    have hcs := (everyDepth_complex_iff.1 hc).2
    have hds := (everyDepth_complex_iff.1 hd).2
    have hpaths := equalPaths_iff.1 (Complex.equal.equalPaths h)
    rw [weighing_complex, weighing_complex, map_eq_of_forall₂ hpaths fun x hx y hy hxy =>
      ih x hx y hxy (hcs x hx) (hds y hy)]

/-! ### Unified compounds -/

/-- A simple selector that weighs something is below another one only if it weighs as much. -/
theorem weighing_le_of_isSuperselectorOf {s r : Simple} (hs : ¬ s.isUniversal)
    (h : s.isSuperselectorOf r)
    (hsame : s.kind ≠ .typeName → s.equal r → weighing.ofSimple s = weighing.ofSimple r) :
    weighing.ofSimple s ≤ weighing.ofSimple r := by
  by_cases hk : s.kind = .typeName
  · rcases (Simple.isSuperselectorOf_type_iff hk).1 h with hopen | ⟨hr, -, hname⟩
    · exact absurd hopen.1 hs
    · have huniversal : ¬ r.isUniversal := by
        rw [Simple.isUniversal_eq hk] at hs
        rw [Simple.isUniversal_eq hr, ← hname.resolve_left (by rwa [Simple.isUniversal_eq hk])]
        exact hs
      rw [weighing_type hk, weighing_type hr, if_neg hs, if_neg huniversal]
      exact le_refl _
  · rw [hsame hk ((Simple.isSuperselectorOf_iff_equal hk).1 h)]
    exact le_refl _

theorem not_isSuperselectorOf_of_apart {s t r : Simple} (hs : ¬ s.isUniversal)
    (ht : t.kind ≠ .typeName) (hne : ¬ s.equal t) (hsr : s.isSuperselectorOf r) :
    ¬ t.isSuperselectorOf r := by
  intro htr
  have htr := (Simple.isSuperselectorOf_iff_equal ht).1 htr
  by_cases hk : s.kind = .typeName
  · rcases (Simple.isSuperselectorOf_type_iff hk).1 hsr with hopen | ⟨hr, -⟩
    · exact hs hopen.1
    · exact ht ((Simple.kind_congr htr).trans hr)
  · have hsr := (Simple.isSuperselectorOf_iff_equal hk).1 hsr
    exact hne (Simple.equal_trans hsr (Simple.equal_symm htr))

/-- A compound weighs no more than another one if each of its simple selectors is above one of
that, provided that it holds no simple selector twice and a type only at its head. -/
theorem specificity_le_of_eachAbove {c u : Compound}
    (hdistinct : c.simples.Pairwise fun s t => ¬ s.equal t)
    (hfirst : ∀ s ∈ c.simples.tail, s.kind ≠ .typeName)
    (habove : EachAbove c.simples u.simples)
    (hsame : ∀ s ∈ c.simples, ∀ r ∈ u.simples, s.kind ≠ .typeName → s.equal r →
      weighing.ofSimple s = weighing.ofSimple r) : c.specificity ≤ u.specificity := by
  have hapart : c.simples.Pairwise fun s t => ∀ r, (¬ s.isUniversal ∧ s.isSuperselectorOf r) →
      ¬ (¬ t.isUniversal ∧ t.isSuperselectorOf r) := by
    have hpair : c.simples.Pairwise fun s t => ¬ s.equal t ∧ t.kind ≠ .typeName := by
      cases hss : c.simples with
      | nil => exact List.Pairwise.nil
      | cons s ss =>
        rw [hss] at hdistinct hfirst
        obtain ⟨hs, hrest⟩ := List.pairwise_cons.1 hdistinct
        refine List.pairwise_cons.2 ⟨fun t ht => ⟨hs t ht, hfirst t ht⟩, ?_⟩
        exact hrest.imp_of_mem fun _ ht hne => ⟨hne, hfirst _ ht⟩
    refine hpair.imp fun ⟨hne, ht⟩ r hsr htr => ?_
    exact not_isSuperselectorOf_of_apart hsr.1 ht hne hsr.2 htr.2
  have hle : sum (c.simples.map weighing.ofSimple) ≤ sum (u.simples.map weighing.ofSimple) := by
    refine sum_le_sum (fun s hs r hr hsr => ?_) (fun s hs => ?_) hapart
    · exact weighing_le_of_isSuperselectorOf hsr.1 hsr.2 (hsame s hs r hr)
    · by_cases huniversal : s.isUniversal
      · left
        rw [weighing_type (Label.kind_of_isUniversal huniversal), if_pos huniversal]
      · right
        obtain ⟨r, hr, hsr⟩ := habove s hs
        exact ⟨r, hr, huniversal, hsr⟩
  rwa [← weighing_compound, ← weighing_compound] at hle

/-- Unification never lowers the specificity. If in two compounds no compound holds two equal simple
selectors, at any depth, and both have a type at most at their head, then both ends of the range of
the unified compound are at least those of each of the two. -/
theorem Compound.specificity_le_unify {c d u : Compound} (hc : repetitionFree.ofCompound c)
    (hd : repetitionFree.ofCompound d) (hcfirst : ∀ s ∈ c.simples.tail, s.kind ≠ .typeName)
    (hdfirst : ∀ s ∈ d.simples.tail, s.kind ≠ .typeName) (h : c.unify? d = some u) :
    (c.specificity.min ≤ u.specificity.min ∧ d.specificity.min ≤ u.specificity.min) ∧
      (c.specificity.max ≤ u.specificity.max ∧ d.specificity.max ≤ u.specificity.max) := by
  obtain ⟨hcdistinct, hcs⟩ := repetitionFree_compound_iff.1 hc
  obtain ⟨hddistinct, hds⟩ := repetitionFree_compound_iff.1 hd
  obtain ⟨hcu, hdu⟩ := EachAbove.unify h
  have hsame {s r : Simple} (hs : repetitionFree.ofSimple s) (hr : r ∈ u.simples)
      (hk : s.kind ≠ .typeName) (hsr : s.equal r) :
      weighing.ofSimple s = weighing.ofSimple r := by
    refine hereditary_weights.ofSimple s r hsr hs ?_
    rcases mem_unify h hr with hr | hr | ⟨ns, name, rfl⟩
    · exact hcs r hr
    · exact hds r hr
    · exact absurd (Label.kind_eq_of_alike (Simple.equal_iff.1 hsr).1) hk
  have hcle : c.specificity ≤ u.specificity :=
    specificity_le_of_eachAbove hcdistinct hcfirst hcu fun s hs _ hr => hsame (hcs s hs) hr
  have hdle : d.specificity ≤ u.specificity :=
    specificity_le_of_eachAbove hddistinct hdfirst hdu fun s hs _ hr => hsame (hds s hs) hr
  exact ⟨⟨hcle.1, hdle.1⟩, ⟨hcle.2, hdle.2⟩⟩

/-- `div.a:is(.x, #y)` unifies with `ns|*:IS(#y, .x).b` to `ns|div.a:is(.x, #y).b`, where the two
pseudo classes have become one. -/
theorem Compound.specificity_le_unify_reordered :
    let name (kind : Kind) (name : String) : Simple := { kind, name }
    let single (s : Simple) : Complex := .ofComponents [.compound (.ofSimples [s])]
    let x := single (name .className "x")
    let y := single (name .id "y")
    let is (name : String) (l : SelectorList) : Simple :=
      { kind := .pseudo, name, selector := some l }
    let c : Compound := .ofSimples [.ofType "" "div", name .className "a", is "is" [x, y]]
    let d : Compound := .ofSimples [.ofType "ns" "*", is "IS" [y, x], name .className "b"]
    let u : Compound := .ofSimples
      [.ofType "ns" "div", name .className "a", is "is" [x, y], name .className "b"]
    c.unify? d = some u ∧ u.specificity = ⟨3001, 1002001⟩ ∧
      (c.specificity.min ≤ u.specificity.min ∧ d.specificity.min ≤ u.specificity.min) ∧
        (c.specificity.max ≤ u.specificity.max ∧ d.specificity.max ≤ u.specificity.max) := by
  intro name single x y is c d u
  have hunify : c.unify? d = some u := by
    subst name single x y is c d u
    rfl
  have hc : repetitionFree.ofCompound c := by decide +kernel
  have hd : repetitionFree.ofCompound d := by decide +kernel
  have hu : u.specificity = ⟨3001, 1002001⟩ := by decide +kernel
  have hle := specificity_le_unify hc hd (by decide) (by decide) hunify
  refine ⟨hunify, hu, ?_⟩
  with_reducible exact hle

end SelectorCalculus
