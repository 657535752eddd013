import SelectorCalculus.Proofs.EqualSelectors
/-! Equality of selectors is an equivalence at every depth. -/

namespace SelectorCalculus

theorem Label.kind_eq_of_alike {a b : Label} (h : a.alike b) : a.kind = b.kind := by
  simp only [alike, Bool.and_eq_true, beq_iff_eq] at h
  exact h.1

theorem Simple.kind_congr {s t : Simple} (h : s.equal t) : s.kind = t.kind :=
  Label.kind_eq_of_alike (Simple.equal_iff.1 h).1

theorem Label.alike_congr {a b : Label} (h : a.alike b) (c : Label) : a.alike c = b.alike c := by
  have hkind := kind_eq_of_alike h
  unfold alike at h ⊢
  rw [← hkind] at h ⊢
  cases hk : a.kind <;> simp [hk] at h <;> simp [h]

/-- What members of related lists are related to is the same, if this holds of the members of the
first list. -/
theorem members_congr {R : α → α → Prop} {xs ys : List α}
    (hcongr : ∀ x ∈ xs, ∀ y, R x y → ∀ z, R x z ↔ R y z)
    (hxy : ∀ x ∈ xs, ∃ y ∈ ys, R x y) (hyx : ∀ y ∈ ys, ∃ x ∈ xs, R x y) (zs : List α) :
    ((∀ x ∈ xs, ∃ z ∈ zs, R x z) ∧ ∀ z ∈ zs, ∃ x ∈ xs, R x z) ↔
      (∀ y ∈ ys, ∃ z ∈ zs, R y z) ∧ ∀ z ∈ zs, ∃ y ∈ ys, R y z := by
  constructor
  · rintro ⟨hxz, hzx⟩
    constructor
    · intro y hy
      obtain ⟨x, hx, hR⟩ := hyx y hy
      obtain ⟨z, hz, hxz⟩ := hxz x hx
      exact ⟨z, hz, (hcongr x hx y hR z).1 hxz⟩
    · intro z hz
      obtain ⟨x, hx, hxz⟩ := hzx z hz
      obtain ⟨y, hy, hR⟩ := hxy x hx
      exact ⟨y, hy, (hcongr x hx y hR z).1 hxz⟩
  · rintro ⟨hyz, hzy⟩
    constructor
    · intro x hx
      obtain ⟨y, hy, hR⟩ := hxy x hx
      obtain ⟨z, hz, hyz⟩ := hyz y hy
      exact ⟨z, hz, (hcongr x hx y hR z).2 hyz⟩
    · intro z hz
      obtain ⟨y, hy, hyz⟩ := hzy z hz
      obtain ⟨x, hx, hR⟩ := hyx y hy
      exact ⟨x, hx, (hcongr x hx y hR z).2 hyz⟩

/-- Members that are related have the same value under a function, so the values are the same. -/
theorem mem_map_congr {R : α → α → Prop} {f : α → β} {xs ys : List α}
    (hf : ∀ x ∈ xs, ∀ y ∈ ys, R x y → f x = f y) (hxy : ∀ x ∈ xs, ∃ y ∈ ys, R x y)
    (hyx : ∀ y ∈ ys, ∃ x ∈ xs, R x y) (t : β) : t ∈ xs.map f ↔ t ∈ ys.map f := by
  simp only [List.mem_map]
  constructor
  · rintro ⟨x, hx, rfl⟩
    obtain ⟨y, hy, hR⟩ := hxy x hx
    exact ⟨y, hy, (hf x hx y hy hR).symm⟩
  · rintro ⟨y, hy, rfl⟩
    obtain ⟨x, hx, hR⟩ := hyx y hy
    exact ⟨x, hx, hf x hx y hy hR⟩

theorem map_eq_of_forall₂ {R : α → α → Prop} {f : α → β} {xs ys : List α}
    (h : List.Forall₂ R xs ys) (hf : ∀ x ∈ xs, ∀ y ∈ ys, R x y → f x = f y) :
    xs.map f = ys.map f := by
  induction h with
  | nil => rfl
  | @cons x y xs ys hxy _ ih =>
    have hrest := ih fun x hx y hy => hf x (List.mem_cons_of_mem _ hx) y (List.mem_cons_of_mem _ hy)
    rw [List.map_cons, List.map_cons, hf x (by simp) y (by simp) hxy, hrest]

/-! ### One level up -/

theorem Simple.equal_congr_of_arguments {s t : Simple} (h : s.equal t)
    (hargs : ∀ l ∈ s.selector, ∀ c ∈ l, ∀ d : Complex, c.equal d → ∀ e : Complex,
      c.equal e ↔ d.equal e) (r : Simple) : s.equal r ↔ t.equal r := by
  obtain ⟨halike, hsel⟩ := Simple.equal_iff.1 h
  have hkind : s.kind = t.kind := Label.kind_eq_of_alike halike
  rw [Simple.equal_iff, Simple.equal_iff, Label.alike_congr halike, ← hkind]
  refine and_congr_right fun _ => imp_congr_right fun hk => ?_
  have hsel := hsel hk
  cases hs : s.selector with
  | none =>
    cases ht : t.selector with
    | none => exact Iff.rfl
    | some l' => simp [hs, ht] at hsel
  | some l =>
    cases ht : t.selector with
    | none => simp [hs, ht] at hsel
    | some l' =>
      simp only [hs, ht] at hsel
      obtain ⟨h₁, h₂⟩ := equalLists_iff.1 hsel
      cases r.selector with
      | none => exact Iff.rfl
      | some l'' =>
        dsimp only
        rw [equalLists_iff, equalLists_iff]
        exact members_congr (hargs l (Option.mem_def.2 hs)) h₁ h₂ l''

theorem Compound.equal_congr_of_simples {c d : Compound} (h : c.equal d)
    (hsimples : ∀ s ∈ c.simples, ∀ t : Simple, s.equal t → ∀ r : Simple, s.equal r ↔ t.equal r)
    (e : Compound) : c.equal e ↔ d.equal e := by
  obtain ⟨hlen, h₁, h₂⟩ := Compound.equal_iff.1 h
  rw [Compound.equal_iff, Compound.equal_iff, hlen]
  exact and_congr_right fun _ => members_congr hsimples h₁ h₂ e.simples

theorem Component.equal_compound_iff {c : Compound} {d : Component} :
    (Component.compound c).equal d ↔ ∃ d', d = .compound d' ∧ c.equal d' := by
  cases d with
  | compound d => exact ⟨fun h => ⟨d, rfl, h⟩, by rintro ⟨d', hd, h⟩; cases hd; exact h⟩
  | combinator k =>
    simp [Component.equal, Interpretation.ofComponent_compound, Interpretation.ofCompound_eq,
      equality]

theorem Component.equal_combinator_iff {k : Combinator} {d : Component} :
    (Component.combinator k).equal d ↔ d = .combinator k := by
  cases d with
  | compound d => simp [Component.equal, Interpretation.ofComponent, equality]
  | combinator k' =>
    have hbeq : (Component.combinator k).equal (.combinator k') = (k == k') := rfl
    rw [hbeq, beq_iff_eq, Component.combinator.injEq, eq_comm]

theorem Complex.equal_path_iff {cs : List Component} {b : Bool} {d : Complex} :
    (Complex.path cs b).equal d ↔ ∃ ds b', d = .path ds b' ∧ equalPaths cs ds := by
  cases d with
  | path ds b' => exact ⟨fun h => ⟨ds, b', rfl, h⟩, by rintro ⟨_, _, hd, h⟩; cases hd; exact h⟩
  | absent => simp [Complex.equal, Interpretation.ofComplex, equality]

theorem Complex.equal_absent_iff {d : Complex} : Complex.absent.equal d ↔ d = .absent := by
  cases d <;> simp [Complex.equal, Interpretation.ofComplex, equality]

/-! ### Every level -/

mutual

theorem Simple.equal_congr : ∀ (s t : Simple), s.equal t → ∀ r, s.equal r ↔ t.equal r
  | ⟨l, none⟩, _ => fun h => Simple.equal_congr_of_arguments h (by simp)
  | ⟨l, some list⟩, _ => by
    have hlist := complexes_equal_congr list
    exact fun h => Simple.equal_congr_of_arguments h (by simpa using hlist)

theorem simples_equal_congr :
    ∀ ss : List Simple, ∀ s ∈ ss, ∀ t : Simple, s.equal t → ∀ r : Simple, s.equal r ↔ t.equal r
  | [] => by simp
  | s :: rest => by
    have hs := Simple.equal_congr s
    have hr := simples_equal_congr rest
    exact List.forall_mem_cons.2 ⟨hs, hr⟩

theorem Component.equal_congr :
    ∀ (c d : Component), c.equal d → ∀ e : Component, c.equal e ↔ d.equal e
  | .compound ⟨ss, p, x⟩, d => by
    have hss := simples_equal_congr ss
    intro h e
    obtain ⟨d', rfl, hd⟩ := Component.equal_compound_iff.1 h
    rw [Component.equal_compound_iff, Component.equal_compound_iff]
    refine exists_congr fun e' => and_congr_right fun _ => ?_
    exact Compound.equal_congr_of_simples hd hss e'
  | .combinator k, d => by
    intro h e
    rw [Component.equal_combinator_iff.1 h]

theorem components_equal_congr :
    ∀ (cs ds : List Component), equalPaths cs ds → ∀ es, equalPaths cs es ↔ equalPaths ds es
  | [], ds => by
    intro h es
    cases equalPaths_iff.1 h
    exact Iff.rfl
  | c :: rest, ds => by
    have hc := Component.equal_congr c
    have hr := components_equal_congr rest
    intro h es
    obtain ⟨d, ds', hd, hds, rfl⟩ := List.forall₂_cons_left_iff.1 (equalPaths_iff.1 h)
    rw [equalPaths_iff, equalPaths_iff, List.forall₂_cons_left_iff, List.forall₂_cons_left_iff]
    refine exists_congr fun e => exists_congr fun es' => ?_
    have hes := hr ds' (equalPaths_iff.2 hds) es'
    rw [equalPaths_iff, equalPaths_iff] at hes
    rw [hc d hd e, hes]

theorem Complex.equal_congr :
    ∀ (c d : Complex), c.equal d → ∀ e : Complex, c.equal e ↔ d.equal e
  | .path cs b, d => by
    have hcs := components_equal_congr cs
    intro h e
    obtain ⟨ds, b', rfl, hds⟩ := Complex.equal_path_iff.1 h
    rw [Complex.equal_path_iff, Complex.equal_path_iff]
    refine exists_congr fun es => exists_congr fun _ => and_congr_right fun _ => ?_
    exact hcs ds hds es
  | .absent, d => by
    intro h e
    rw [Complex.equal_absent_iff.1 h]

theorem complexes_equal_congr :
    ∀ l : List Complex, ∀ c ∈ l, ∀ d : Complex, c.equal d → ∀ e : Complex, c.equal e ↔ d.equal e
  | [] => by simp
  | c :: rest => by
    have hc := Complex.equal_congr c
    have hr := complexes_equal_congr rest
    exact List.forall_mem_cons.2 ⟨hc, hr⟩

end

/-! ### Symmetry and transitivity -/

theorem Simple.equal_symm {s t : Simple} (h : s.equal t) : t.equal s :=
  (Simple.equal_congr s t h s).1 s.equal_refl

theorem Simple.equal_trans {s t r : Simple} (h : s.equal t) (h' : t.equal r) : s.equal r :=
  (Simple.equal_congr s t h r).2 h'

theorem equalPaths_trans {cs ds es : List Component} (h : equalPaths cs ds)
    (h' : equalPaths ds es) : equalPaths cs es :=
  (components_equal_congr cs ds h es).2 h'

theorem Complex.equal_symm {c d : Complex} (h : c.equal d) : d.equal c :=
  (Complex.equal_congr c d h c).1 c.equal_refl

theorem Complex.equal_trans {c d e : Complex} (h : c.equal d) (h' : d.equal e) : c.equal e :=
  (Complex.equal_congr c d h e).2 h'

theorem Simple.equivalence_equal : Equivalence fun s t : Simple => (s.equal t : Prop) where
  refl := Simple.equal_refl
  symm := Simple.equal_symm
  trans := Simple.equal_trans

theorem Complex.equivalence_equal : Equivalence fun c d : Complex => (c.equal d : Prop) where
  refl := Complex.equal_refl
  symm := Complex.equal_symm
  trans := Complex.equal_trans

/-! ### Comparison as sets -/

/-- Each member of two lists has a related one in the other list exactly if the same elements are
related to members of both. -/
theorem same_members_iff {R : α → α → Prop} (hR : Equivalence R) {xs ys : List α} :
    ((∀ x ∈ xs, ∃ y ∈ ys, R x y) ∧ ∀ y ∈ ys, ∃ x ∈ xs, R x y) ↔
      ∀ z, (∃ x ∈ xs, R z x) ↔ ∃ y ∈ ys, R z y := by
  constructor
  · rintro ⟨hxy, hyx⟩ z
    constructor
    · rintro ⟨x, hx, hzx⟩
      obtain ⟨y, hy, hR'⟩ := hxy x hx
      exact ⟨y, hy, hR.trans hzx hR'⟩
    · rintro ⟨y, hy, hzy⟩
      obtain ⟨x, hx, hR'⟩ := hyx y hy
      exact ⟨x, hx, hR.trans hzy (hR.symm hR')⟩
  · intro h
    constructor
    · intro x hx
      exact (h x).1 ⟨x, hx, hR.refl x⟩
    · intro y hy
      obtain ⟨x, hx, hyx⟩ := (h y).2 ⟨y, hy, hR.refl y⟩
      exact ⟨x, hx, hR.symm hyx⟩

theorem Compound.equal_iff_contains {c d : Compound} : c.equal d ↔
    c.simples.length = d.simples.length ∧ ∀ s, c.contains s ↔ d.contains s := by
  have hcontains (c : Compound) (s : Simple) : c.contains s ↔ ∃ s' ∈ c.simples, s.equal s' :=
    containsSimple_iff
  simp only [Compound.equal_iff, hcontains]
  exact and_congr_right fun _ => same_members_iff Simple.equivalence_equal

theorem containsComplex_iff {l : SelectorList} {c : Complex} :
    containsComplex l c ↔ ∃ c' ∈ l, c.equal c' := by
  simp [containsComplex, Complex.equal]

theorem equalLists_iff_contains {l l' : SelectorList} :
    equalLists l l' ↔ ∀ c, containsComplex l c ↔ containsComplex l' c := by
  simp only [equalLists_iff, containsComplex_iff]
  exact same_members_iff Complex.equivalence_equal

theorem equalLists_symm {l l' : SelectorList} (h : equalLists l l') : equalLists l' l := by
  rw [equalLists_iff_contains] at h ⊢
  exact fun c => (h c).symm

theorem equalLists_trans {l l' l'' : SelectorList} (h : equalLists l l') (h' : equalLists l' l'') :
    equalLists l l'' := by
  rw [equalLists_iff_contains] at h h' ⊢
  exact fun c => (h c).trans (h' c)

theorem Compound.equivalence_equal : Equivalence fun c d : Compound => (c.equal d : Prop) where
  refl _ := Compound.equal_iff_contains.2 ⟨rfl, fun _ => Iff.rfl⟩
  symm h := by
    obtain ⟨hlength, hcontains⟩ := Compound.equal_iff_contains.1 h
    exact Compound.equal_iff_contains.2 ⟨hlength.symm, fun s => (hcontains s).symm⟩
  trans h h' := by
    obtain ⟨hlength, hcontains⟩ := Compound.equal_iff_contains.1 h
    obtain ⟨hlength', hcontains'⟩ := Compound.equal_iff_contains.1 h'
    exact Compound.equal_iff_contains.2
      ⟨hlength.trans hlength', fun s => (hcontains s).trans (hcontains' s)⟩

theorem equivalence_equalLists :
    Equivalence fun l l' : SelectorList => (equalLists l l' : Prop) where
  refl _ := equalLists_iff_contains.2 fun _ => Iff.rfl
  symm := equalLists_symm
  trans := equalLists_trans

/-- Equality is an equivalence on simple selectors, compounds, complex selectors and lists, with
arguments nested to any depth. Compounds are equal if they are of one length and contain the same
simple selectors, lists if they contain the same complex selectors. -/
theorem equal_isEquivalence :
    (Equivalence fun s t : Simple => (s.equal t : Prop)) ∧
    ((Equivalence fun c d : Compound => (c.equal d : Prop)) ∧
      ∀ c d : Compound, c.equal d ↔
        c.simples.length = d.simples.length ∧ ∀ s, c.contains s ↔ d.contains s) ∧
    (Equivalence fun c d : Complex => (c.equal d : Prop)) ∧
    (Equivalence fun l l' : SelectorList => (equalLists l l' : Prop)) ∧
      ∀ l l' : SelectorList, equalLists l l' ↔ ∀ c, containsComplex l c ↔ containsComplex l' c := by
  refine ⟨Simple.equivalence_equal, ⟨Compound.equivalence_equal, ?_⟩, Complex.equivalence_equal,
    equivalence_equalLists, ?_⟩
  · intro c d
    exact Compound.equal_iff_contains
  · intro l l'
    exact equalLists_iff_contains

end SelectorCalculus
