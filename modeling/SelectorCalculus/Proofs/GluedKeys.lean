import SelectorCalculus.Proofs.KeyReading
/-! Keys that different selectors share: written sorted, a type may stand right behind a name and is
read as the end of it. -/

namespace SelectorCalculus

open Text

/-! ### Names that go on -/

theorem Text.fold_append (s t : String) : fold (s ++ t) = fold s ++ fold t := by
  simp [fold]

namespace Label

variable {l : Label} {m : String}

/-- A label with something behind its name. -/
def prolonged (l : Label) (m : String) : Label := { l with name := l.name ++ m }

/-- Whether the key ends with the name and the name may go on. The name of a pseudo selector is
folded, and it must not become one that wants a selector argument. -/
def takes (l : Label) (m : String) : Bool :=
  match l.kind with
  | .className | .id | .placeholder => true
  | .pseudo =>
    l.argument = "" && fold m = m && !Token.listPseudos.contains (fold l.name ++ m)
  | .typeName | .attr => false

theorem takes_iff : l.takes m ↔ l.kind ∈ [Kind.className, .id, .placeholder] ∨
    (l.kind = .pseudo ∧ l.argument = "" ∧ fold m = m ∧
      ¬ Token.listPseudos.contains (fold l.name ++ m)) := by
  unfold takes
  cases l.kind <;> simp [and_assoc]

theorem isProper_named (hk : l.kind ∈ [Kind.className, .id, .placeholder]) :
    l.isProper false ↔ l = { kind := l.kind, name := l.name } ∧ isName l.name.toList := by
  unfold isProper
  cases hl : l.kind <;> simp [hl] at hk ⊢

theorem isProper_bare (hk : l.kind = .pseudo) (hargument : l.argument = "") :
    l.isProper false ↔ l = { kind := .pseudo, name := l.name, element := l.element } ∧
      isName l.name.toList ∧ ¬ Token.listPseudos.contains (fold l.name) := by
  simp [isProper, hk, hargument, and_assoc]

theorem isProper_prolonged (hl : l.isProper false) (hm : isName m.toList) (h : l.takes m) :
    (l.prolonged m).isProper false := by
  have hlonger (hname : isName l.name.toList) : isName (l.prolonged m).name.toList := by
    rw [prolonged, String.toList_append]
    exact isName_append hname hm
  rcases takes_iff.1 h with hk | ⟨hk, hargument, hfold, hlist⟩
  · obtain ⟨hlabel, hname⟩ := (isProper_named hk).1 hl
    exact (isProper_named (l := l.prolonged m) hk).2
      ⟨congrArg (prolonged · m) hlabel, hlonger hname⟩
  · obtain ⟨hlabel, hname, -⟩ := (isProper_bare hk hargument).1 hl
    refine (isProper_bare (l := l.prolonged m) hk hargument).2
      ⟨congrArg (prolonged · m) hlabel, hlonger hname, ?_⟩
    rwa [prolonged, fold_append, hfold]

theorem key_prolonged (h : l.takes m) : (l.prolonged m).key none = l.key none ++ m := by
  rcases takes_iff.1 h with hk | ⟨hk, hargument, hfold, -⟩
  · unfold key render
    cases hl : l.kind <;> simp [hl, prolonged, String.append_assoc] at hk ⊢
  · simp [key, prolonged, hk, colons, parenthesized, hargument, fold_append, hfold,
      String.append_assoc]

end Label

/-! ### Twins of compounds -/

/-- Whether one text stands right behind another in a list. -/
def areNeighbours (k m : String) : List String → Bool
  | l :: l' :: rest => (l = k && l' = m) || areNeighbours k m (l' :: rest)
  | _ => false

/-- Whether the key of a compound has a type right behind a name that it can prolong. -/
def Compound.isGlued (c : Compound) : Bool :=
  c.simples.any fun s => c.simples.any fun u =>
    s.selector.isNone && s.toLabel.takes u.key && isName u.key.toList &&
      areNeighbours s.key u.key (distinct (c.simples.map Simple.key))

theorem exists_of_areNeighbours {k m : String} {texts : List String} (h : areNeighbours k m texts) :
    ∃ front back, texts = front ++ k :: m :: back := by
  fun_induction areNeighbours k m texts with
  | case1 l l' rest ih =>
    simp only [Bool.or_eq_true, Bool.and_eq_true, decide_eq_true_eq] at h
    rcases h with ⟨rfl, rfl⟩ | h
    · exact ⟨[], rest, rfl⟩
    · obtain ⟨front, back, heq⟩ := ih h
      exact ⟨l :: front, back, by rw [heq, List.cons_append]⟩
  | case2 => cases h

theorem lt_append {k m : String} (hm : m ≠ "") : k < k ++ m := by
  rw [String.lt_iff_toList_lt, String.toList_append]
  obtain ⟨c, cs, hc⟩ := List.exists_cons_of_ne_nil (mt String.toList_eq_nil_iff.1 hm)
  generalize k.toList = ks
  induction ks with
  | nil => simp [hc]
  | cons d ks ih => exact List.cons_lt_cons_iff.2 (Or.inr ⟨rfl, ih⟩)

theorem append_lt {k m : String} {a b : Char} {u v : List Char} (hk : k.toList = a :: u)
    (hm : m.toList = b :: v) (hab : a ≠ b) (h : k < m) (x : String) : k ++ x < m := by
  rw [String.lt_iff_toList_lt, hk, hm, List.cons_lt_cons_iff] at h
  rw [String.lt_iff_toList_lt, String.toList_append, hk, hm, List.cons_append,
    List.cons_lt_cons_iff]
  exact Or.inl (h.resolve_right fun h => hab h.1)

section Neighbours

variable {texts texts' front back : List String} {k m j : String}

theorem lt_of_neighbours (h : distinct texts = front ++ k :: m :: back) :
    k < m ∧ (∀ x ∈ front, x < k) ∧ ∀ y ∈ back, m < y := by
  have hsorted := h ▸ pairwise_distinct texts
  obtain ⟨-, htail, hfront⟩ := List.pairwise_append.1 hsorted
  obtain ⟨hk, htail⟩ := List.pairwise_cons.1 htail
  exact ⟨hk m (by simp), fun x hx => hfront x hx k (by simp), (List.pairwise_cons.1 htail).1⟩

theorem not_mem_of_neighbours (h : distinct texts = front ++ k :: m :: back) (hkj : k < j)
    (hjm : j < m) : j ∉ texts := by
  obtain ⟨-, hfront, hback⟩ := lt_of_neighbours h
  rw [← mem_distinct, h]
  simp only [List.mem_append, List.mem_cons]
  rintro (hj | rfl | rfl | hj)
  · exact lt_asymm (hfront j hj) hkj
  · exact lt_irrefl _ hkj
  · exact lt_irrefl _ hjm
  · exact lt_asymm (hback j hj) hjm

/-- Two neighbours among the distinct texts may be replaced by one between them. -/
theorem distinct_of_neighbours (h : distinct texts = front ++ k :: m :: back) (hkj : k < j)
    (hjm : j < m) (hmem : ∀ t, t ∈ texts' ↔ t = j ∨ (t ∈ texts ∧ t ≠ k ∧ t ≠ m)) :
    distinct texts' = front ++ j :: back := by
  obtain ⟨hkm, hfront, hback⟩ := lt_of_neighbours h
  have hsorted := h ▸ pairwise_distinct texts
  obtain ⟨hpfront, hptail, hcross⟩ := List.pairwise_append.1 hsorted
  have hpback := (List.pairwise_cons.1 (List.pairwise_cons.1 hptail).2).2
  refine eq_of_pairwise_lt (pairwise_distinct texts') ?_ fun t => ?_
  · refine List.pairwise_append.2 ⟨hpfront, List.pairwise_cons.2 ⟨?_, hpback⟩, fun x hx y hy => ?_⟩
    · exact fun y hy => hjm.trans (hback y hy)
    · rcases List.mem_cons.1 hy with rfl | hy
      · exact (hfront x hx).trans hkj
      · exact hcross x hx y (by simp [hy])
  · have htexts : t ∈ texts ↔ t ∈ front ++ k :: m :: back := by rw [← h, mem_distinct]
    have hne (ht : t ∈ front ∨ t ∈ back) : t ≠ k ∧ t ≠ m := by
      rcases ht with ht | ht
      · exact ⟨ne_of_lt (hfront t ht), ne_of_lt ((hfront t ht).trans hkm)⟩
      · exact ⟨ne_of_gt (hkm.trans (hback t ht)), ne_of_gt (hback t ht)⟩
    rw [mem_distinct, hmem, htexts]
    simp only [List.mem_append, List.mem_cons]
    grind

theorem intercalate_neighbours (front back : List String) (k m : String) :
    "".intercalate (front ++ (k ++ m) :: back) = "".intercalate (front ++ k :: m :: back) := by
  have hflatten (ks : List (List Char)) : [].intercalate ks = ks.flatten := by
    induction ks with
    | nil => rfl
    | cons k ks ih =>
      cases ks with
      | nil => simp
      | cons l ks => simp [List.intercalate_cons_cons, ih]
  rw [← String.toList_inj, String.toList_intercalate, String.toList_intercalate,
    String.toList_empty, hflatten, hflatten]
  simp

end Neighbours

theorem Label.kind_of_takes {l : Label} {m : String} (h : l.takes m) : l.kind ≠ .typeName := by
  intro hk
  simp [takes, hk] at h

section Prolonged

variable {s u : Simple} {m : String}

theorem Simple.exists_prolonged (hs : s.isProper) (hsel : s.selector = none)
    (h : s.toLabel.takes m) (hm : isName m.toList) :
    ∃ t : Simple, t.isProper ∧ t.kind ≠ .typeName ∧ t.key = s.key ++ m := by
  have hlabel := (isProper_iff.1 hs).1
  rw [hsel] at hlabel
  have hkind : s.kind ≠ .typeName := Label.kind_of_takes h
  refine ⟨⟨s.toLabel.prolonged m, none⟩, ?_, hkind, ?_⟩
  · exact isProper_iff.2 ⟨Label.isProper_prolonged hlabel hm h, by simp⟩
  · rw [key_eq, key_eq, hsel]
    exact Label.key_prolonged h

theorem Simple.key_append_lt (hs : s.isProper) (hu : u.isProper) (h : s.toLabel.takes u.key)
    (hname : isName u.key.toList) (hlt : s.key < u.key) : s.key ++ u.key < u.key := by
  obtain ⟨a, v, ha, hopen⟩ := Simple.key_cons hs
  obtain ⟨b, w, hb, hopen'⟩ := Simple.key_cons hu
  rw [hb] at hname
  have hab : a ≠ b := by
    rintro rfl
    have htype : Kind.typeName.opens a := by simp [Kind.opens, isName_cons hname]
    exact Label.kind_of_takes h (Kind.opens_inj hopen htype)
  exact append_lt ha hb hab hlt _

end Prolonged

theorem proper_filter_append {c : Compound} (hp : proper.ofComponent (.compound c))
    {p : Simple → Bool} {ts : List Simple} (hne : c.simples.filter p ++ ts ≠ [])
    (hts : ∀ t ∈ ts, t.isProper ∧ t.kind ≠ .typeName ∧ ∀ s ∈ c.simples.filter p, ¬ s.equal t)
    (hapart : ts.Pairwise fun s t => ¬ s.equal t) :
    proper.ofComponent (.compound (.ofSimples (c.simples.filter p ++ ts))) := by
  obtain ⟨-, htail, hapart', hproper⟩ := proper_compound_iff.1 hp
  have hsub : (c.simples.filter p).Sublist c.simples := List.filter_sublist
  refine proper_compound_iff.2 ⟨hne, fun s hs => ?_, ?_, fun s hs => ?_⟩
  · have hs : s ∈ (c.simples.filter p).tail ∨ s ∈ ts := by
      cases hf : c.simples.filter p with
      | nil =>
        rw [Compound.ofSimples, hf] at hs
        exact Or.inr (List.mem_of_mem_tail hs)
      | cons v vs => simpa [Compound.ofSimples, hf] using hs
    rcases hs with hs | hs
    · exact htail s (hsub.tail.subset hs)
    · exact (hts s hs).2.1
  · exact List.pairwise_append.2
      ⟨hapart'.sublist hsub, hapart, fun s hs t ht => (hts t ht).2.2 s hs⟩
  · rcases List.mem_append.1 hs with hs | hs
    · exact hproper s (hsub.subset hs)
    · exact (hts s hs).1

/-- A glued compound has the key of one with the type at the end of the name. -/
theorem Compound.exists_twin {c : Compound} (hp : proper.ofComponent (.compound c))
    (h : c.isGlued) : ∃ d : Compound, proper.ofComponent (.compound d) ∧
      keys.ofComponent (.compound c) = keys.ofComponent (.compound d) ∧ ¬ c.equal d := by
  have hproper := (proper_compound_iff.1 hp).2.2.2
  simp only [isGlued, List.any_eq_true, Bool.and_eq_true, Option.isNone_iff_eq_none] at h
  obtain ⟨s, hs, u, hu, ⟨⟨hsel, htakes⟩, hname⟩, hneighbours⟩ := h
  obtain ⟨front, back, hdistinct⟩ := exists_of_areNeighbours hneighbours
  obtain ⟨t, ht, hkind, htkey⟩ := Simple.exists_prolonged (hproper s hs) hsel htakes hname
  have hst : s.key < t.key := by
    rw [htkey]
    refine lt_append fun hempty => ?_
    simp [hempty, isName] at hname
  have htu : t.key < u.key := by
    rw [htkey]
    exact Simple.key_append_lt (hproper s hs) (hproper u hu) htakes hname
      (lt_of_neighbours hdistinct).1
  have hnew : t.key ∉ c.simples.map Simple.key := not_mem_of_neighbours hdistinct hst htu
  let isOther : String → Bool := fun k => k ≠ s.key ∧ k ≠ u.key
  refine ⟨.ofSimples (c.simples.filter (isOther ∘ Simple.key) ++ [t]), ?_, ?_, fun hequal => ?_⟩
  · refine proper_filter_append hp (by simp) (fun t' ht' => ?_) (List.pairwise_singleton _ _)
    rw [List.mem_singleton.1 ht']
    refine ⟨ht, hkind, fun v hv hequal => hnew ?_⟩
    rw [← Simple.key_eq_of_equal hequal]
    exact List.mem_map_of_mem (List.mem_filter.1 hv).1
  · rw [keys_compound, keys_compound, joinDistinct, joinDistinct, hdistinct,
      distinct_of_neighbours hdistinct hst htu, htkey, intercalate_neighbours]
    intro k
    rw [ofSimples, List.map_append, List.mem_append, ← List.filter_map, List.mem_filter,
      List.map_singleton, List.mem_singleton, or_comm, decide_eq_true_eq]
  · obtain ⟨-, hmatch, -⟩ := Compound.equal_iff.1 hequal
    obtain ⟨v, hv, hsv⟩ := hmatch s hs
    have hkey := Simple.key_eq_of_equal hsv
    rcases List.mem_append.1 hv with hv | hv
    · simp [isOther, hkey] at hv
    · rw [List.mem_singleton.1 hv] at hkey
      exact ne_of_lt hst hkey

/-! ### Twins of selectors -/

/-- Selectors in whose arguments some compound is glued, however deep. -/
def glued : Interpretation Bool Bool Bool where
  simple _ parts := parts.any id
  component
    | .compound c, parts => c.isGlued || parts.any id
    | .combinator _, _ => false
  complex _ parts := parts.any id

def Simple.isGlued (s : Simple) : Bool := glued.ofSimple s

theorem Simple.isGlued_iff {s : Simple} :
    s.isGlued ↔ ∃ l ∈ s.selector, ∃ c ∈ l, glued.ofComplex c := by
  rw [isGlued, Interpretation.ofSimple_eq]
  cases s.selector <;> simp [glued]

theorem glued_compound_iff {c : Compound} :
    glued.ofComponent (.compound c) ↔ c.isGlued ∨ ∃ s ∈ c.simples, s.isGlued := by
  rw [Interpretation.ofComponent_compound, Interpretation.ofCompound_eq]
  simp [glued, Simple.isGlued]

theorem glued_complex_iff {c : Complex} :
    glued.ofComplex c ↔ ∃ d ∈ c.components, glued.ofComponent d := by
  rw [Interpretation.ofComplex_eq]
  simp [glued]

/-- A list with one member in the place of all that equal another, unless an equal one is there. -/
def swapped (equal : α → α → Bool) (x y : α) (xs : List α) : List α :=
  xs.filter (fun z => !equal x z) ++
    if xs.any fun z => !equal x z && equal z y then [] else [y]

section Swapped

variable {equal : α → α → Bool} {x y z : α} {xs : List α}

theorem mem_swapped_iff : z ∈ swapped equal x y xs ↔
    (z ∈ xs ∧ ¬ equal x z) ∨ (z = y ∧ ∀ w ∈ xs, ¬ equal x w → ¬ equal w y) := by
  unfold swapped
  rw [List.mem_append, List.mem_filter, Bool.not_eq_true', Bool.not_eq_true]
  refine or_congr_right ?_
  split_ifs with h
  · obtain ⟨w, hw, hboth⟩ := List.any_eq_true.1 h
    simp only [Bool.and_eq_true, Bool.not_eq_true'] at hboth
    exact iff_of_false List.not_mem_nil fun hz => hz.2 w hw (by simp [hboth.1]) hboth.2
  · rw [List.mem_singleton, iff_self_and]
    rintro rfl w hw hxw hwy
    exact h (List.any_eq_true.2 ⟨w, hw, by simp [hxw, hwy]⟩)

theorem exists_mem_swapped (hrefl : equal y y) : ∃ z ∈ swapped equal x y xs, equal z y := by
  by_cases h : ∀ w ∈ xs, ¬ equal x w → ¬ equal w y
  · exact ⟨y, mem_swapped_iff.2 (Or.inr ⟨rfl, h⟩), hrefl⟩
  · push Not at h
    obtain ⟨w, hw, hxw, hwy⟩ := h
    exact ⟨w, mem_swapped_iff.2 (Or.inl ⟨hw, hxw⟩), hwy⟩

theorem mem_map_swapped {f : α → String} (hf : ∀ z w, equal z w → f z = f w) (hrefl : equal y y)
    (hx : x ∈ xs) (hxy : f x = f y) (t : String) :
    t ∈ (swapped equal x y xs).map f ↔ t ∈ xs.map f := by
  simp only [List.mem_map]
  constructor
  · rintro ⟨z, hz, rfl⟩
    rcases mem_swapped_iff.1 hz with ⟨hz, -⟩ | ⟨rfl, -⟩
    · exact ⟨z, hz, rfl⟩
    · exact ⟨x, hx, hxy⟩
  · rintro ⟨z, hz, rfl⟩
    by_cases hxz : equal x z
    · obtain ⟨w, hw, hwy⟩ := exists_mem_swapped hrefl
      exact ⟨w, hw, by rw [hf w y hwy, ← hxy, hf x z hxz]⟩
    · exact ⟨z, mem_swapped_iff.2 (Or.inl ⟨hz, hxz⟩), rfl⟩

/-- A member that has been swapped has no equal any more. -/
theorem not_equal_of_mem_swapped (hxy : ¬ equal x y) (h : z ∈ swapped equal x y xs) :
    ¬ equal x z := by
  rcases mem_swapped_iff.1 h with ⟨-, h⟩ | ⟨rfl, -⟩
  · exact h
  · exact hxy

theorem swapped_ne_nil (hrefl : equal y y) : swapped equal x y xs ≠ [] := by
  obtain ⟨z, hz, -⟩ := exists_mem_swapped hrefl
  exact List.ne_nil_of_mem hz

end Swapped

theorem Simple.kind_of_isGlued {s : Simple} (hs : s.isProper) (h : s.isGlued) :
    s.kind = .pseudo := by
  obtain ⟨l, hl, -⟩ := isGlued_iff.1 h
  have hlabel := (isProper_iff.1 hs).1
  rw [Option.mem_def.1 hl] at hlabel
  unfold Label.isProper at hlabel
  cases hk : s.kind <;> simp [hk] at hlabel ⊢

theorem Simple.kind_eq_of_key_eq {s t : Simple} (hs : s.isProper) (ht : t.isProper)
    (h : s.key = t.key) : s.kind = t.kind := by
  obtain ⟨c, u, hc, hopen⟩ := Simple.key_cons hs
  obtain ⟨d, v, hd, hopen'⟩ := Simple.key_cons ht
  rw [h, hd] at hc
  exact Kind.opens_inj hopen ((List.cons.inj hc).1 ▸ hopen')

theorem exists_twin_list {l : SelectorList} (hl : ∀ c ∈ l, proper.ofComplex c) {c d : Complex}
    (hc : c ∈ l) (hd : proper.ofComplex d) (hkey : keys.ofComplex c = keys.ofComplex d)
    (hcd : ¬ c.equal d) : ∃ l' : SelectorList, (l' ≠ [] ∧ ∀ c ∈ l', proper.ofComplex c) ∧
      joinDistinct ", " (l.map keys.ofComplex) = joinDistinct ", " (l'.map keys.ofComplex) ∧
        ¬ equalLists l l' := by
  refine ⟨swapped Complex.equal c d l, ⟨swapped_ne_nil d.equal_refl, fun e he => ?_⟩, ?_,
    fun h => ?_⟩
  · rcases mem_swapped_iff.1 he with ⟨he, -⟩ | ⟨rfl, -⟩
    · exact hl e he
    · exact hd
  · have hmem := @mem_map_swapped _ Complex.equal c d l keys.ofComplex
      (fun _ _ => Complex.key_eq_of_equal) d.equal_refl hc hkey
    rw [joinDistinct, joinDistinct, distinct_congr hmem]
  · obtain ⟨e, he, hce⟩ := (equalLists_iff.1 h).1 c hc
    exact not_equal_of_mem_swapped hcd he hce

theorem exists_twin_compound {c : Compound} (hp : proper.ofComponent (.compound c)) {s t : Simple}
    (hs : s ∈ c.simples) (ht : t.isProper) (hkind : t.kind ≠ .typeName) (hkey : s.key = t.key)
    (hst : ¬ s.equal t) : ∃ d : Compound, proper.ofComponent (.compound d) ∧
      keys.ofComponent (.compound c) = keys.ofComponent (.compound d) ∧ ¬ c.equal d := by
  refine ⟨.ofSimples (swapped Simple.equal s t c.simples), ?_, ?_, fun h => ?_⟩
  · refine proper_filter_append hp (swapped_ne_nil t.equal_refl) (fun t' ht' => ?_) ?_
    · split_ifs at ht' with hany
      · cases ht'
      · rw [List.mem_singleton.1 ht']
        refine ⟨ht, hkind, fun u hu hut => hany ?_⟩
        obtain ⟨hu, hsu⟩ := List.mem_filter.1 hu
        exact List.any_eq_true.2 ⟨u, hu, Bool.and_eq_true_iff.2 ⟨hsu, hut⟩⟩
    · split_ifs <;> simp
  · have hmem := @mem_map_swapped _ Simple.equal s t c.simples Simple.key
      (fun _ _ => Simple.key_eq_of_equal) t.equal_refl hs hkey
    rw [keys_compound, keys_compound, joinDistinct, joinDistinct, Compound.ofSimples,
      distinct_congr hmem]
  · obtain ⟨u, hu, hsu⟩ := (Compound.equal_iff.1 h).2.1 s hs
    exact not_equal_of_mem_swapped hst hu hsu

theorem rel_of_forall₂_append {R : α → α → Prop} {front back : List α} {x y : α}
    (h : List.Forall₂ R (front ++ x :: back) (front ++ y :: back)) : R x y := by
  induction front with
  | nil =>
    cases h with
    | cons h _ => exact h
  | cons z front ih =>
    cases h with
    | cons _ h => exact ih h

theorem exists_twin_complex {c : Complex} (hp : proper.ofComplex c) {d e : Component}
    (hd : d ∈ c.components) (he : proper.ofComponent e)
    (hkey : keys.ofComponent d = keys.ofComponent e) (hde : ¬ d.equal e) :
    ∃ c' : Complex, proper.ofComplex c' ∧ keys.ofComplex c = keys.ofComplex c' ∧ ¬ c.equal c' := by
  obtain ⟨front, back, hsplit⟩ := List.append_of_mem hd
  have hproper := (proper_complex_iff.1 hp).2
  rw [hsplit] at hproper
  refine ⟨.ofComponents (front ++ e :: back), proper_complex_iff.2 ⟨by simp [Complex.ofComponents,
    Complex.components], fun f hf => ?_⟩, ?_, fun h => ?_⟩
  · have hf : f ∈ front ++ e :: back := hf
    simp only [List.mem_append, List.mem_cons] at hf
    rcases hf with hf | rfl | hf
    · exact hproper f (by simp [hf])
    · exact he
    · exact hproper f (by simp [hf])
  · rw [keys_complex, keys_complex, hsplit, List.map_append, List.map_cons, hkey]
    simp [Complex.ofComponents, Complex.components]
  · have hpaths := equalPaths_iff.1 (Complex.equal.equalPaths h)
    rw [hsplit] at hpaths
    exact hde (rel_of_forall₂_append (R := fun d e => Component.equal d e) hpaths)

/-- Glue anywhere in a proper selector gives it a twin. -/
theorem hereditary_twins : Hereditary
    (fun s => s.isProper → s.isGlued → ∃ t : Simple, t.isProper ∧ s.key = t.key ∧ ¬ s.equal t)
    (fun c => proper.ofComponent c → glued.ofComponent c →
      ∃ d, proper.ofComponent d ∧ keys.ofComponent c = keys.ofComponent d ∧ ¬ c.equal d)
    (fun c => proper.ofComplex c → glued.ofComplex c →
      ∃ d, proper.ofComplex d ∧ keys.ofComplex c = keys.ofComplex d ∧ ¬ c.equal d) where
  simple s ih hp hg := by
    have hkind := Simple.kind_of_isGlued hp hg
    obtain ⟨l, hl, c, hc, hg⟩ := Simple.isGlued_iff.1 hg
    obtain ⟨hlabel, hsel⟩ := Simple.isProper_iff.1 hp
    have hproper := (hsel l hl).2
    obtain ⟨d, hd, hkey, hcd⟩ := ih l hl c hc (hproper c hc) hg
    obtain ⟨l', hl', hkeys, hne⟩ := exists_twin_list hproper hc hd hkey hcd
    rw [Option.mem_def] at hl
    rw [hl] at hlabel
    refine ⟨⟨s.toLabel, some l'⟩, Simple.isProper_iff.2 ⟨hlabel, by simpa using hl'⟩, ?_,
      fun h => ?_⟩
    · rw [Simple.key_eq, Simple.key_eq, hl]
      simp only [Option.map_some, hkeys]
    · have hequal := (Simple.equal_iff.1 h).2 hkind
      rw [hl] at hequal
      exact hne hequal
  compound c ih hp hg := by
    have htwin : ∃ d : Compound, proper.ofComponent (.compound d) ∧
        keys.ofComponent (.compound c) = keys.ofComponent (.compound d) ∧ ¬ c.equal d := by
      rcases glued_compound_iff.1 hg with hg | ⟨s, hs, hg⟩
      · exact c.exists_twin hp hg
      · have hps := (proper_compound_iff.1 hp).2.2.2 s hs
        obtain ⟨t, ht, hkey, hst⟩ := ih s hs hps hg
        have hkind : t.kind = .pseudo := by
          rw [← Simple.kind_eq_of_key_eq hps ht hkey]
          exact Simple.kind_of_isGlued hps hg
        exact exists_twin_compound hp hs ht (by simp [hkind]) hkey hst
    obtain ⟨d, hd, hkey, hcd⟩ := htwin
    exact ⟨.compound d, hd, hkey, hcd⟩
  combinator k hp hg := by cases hg
  complex c ih hp hg := by
    obtain ⟨d, hd, hg⟩ := glued_complex_iff.1 hg
    obtain ⟨e, he, hkey, hde⟩ := ih d hd ((proper_complex_iff.1 hp).2 d hd) hg
    exact exists_twin_complex hp hd he hkey hde

namespace Simple

/-- What a key tells about a proper simple selector. If it is clear, all clear selectors with the
same key are equal to it. If it is glued, some other selector has the same key. -/
theorem equal_of_key_eq {s : Simple} (hs : s.isProper) :
    (s.isClear → ∀ t : Simple, t.isProper → t.isClear → s.key = t.key → s.equal t) ∧
    (s.isGlued → ∃ t : Simple, t.isProper ∧ s.key = t.key ∧ ¬ s.equal t) := by
  constructor
  · intro hclear t ht htclear hkey
    exact (hereditary_readable.ofSimple s hs hclear t ht htclear [] [] (EndsKey.nil _)
      (EndsKey.nil _) (by rw [hkey])).1
  · exact hereditary_twins.ofSimple s hs

/-- `:is` with one compound. -/
def anyOf (ss : List Simple) : Simple :=
  { kind := .pseudo, name := "is", selector := some [.ofComponents [.compound (.ofSimples ss)]] }

/-- `:is(.b.a)` and `:is(.a.b)` are equal, and `:is(div.a)` has a key that another selector has
too. -/
theorem equal_of_key_eq_anyOf :
    let a : Simple := { kind := .className, name := "a" }
    let b : Simple := { kind := .className, name := "b" }
    let div : Simple := { kind := .typeName, name := "div" }
    (anyOf [b, a]).equal (anyOf [a, b]) ∧
      ∃ t : Simple, t.isProper ∧ (anyOf [div, a]).key = t.key ∧ ¬ (anyOf [div, a]).equal t := by
  intro a b div
  have hclear : (anyOf [b, a]).isClear ∧ (anyOf [a, b]).isClear := by
    simp only [isClear, clear, distinct_eq_insertionSort]
    decide +kernel
  have hkey : (anyOf [b, a]).key = (anyOf [a, b]).key := by
    simp only [key, keys, joinDistinct, distinct_eq_insertionSort]
    decide +kernel
  have hglued : (anyOf [div, a]).isGlued := by
    simp only [isGlued, glued, Compound.isGlued, distinct_eq_insertionSort]
    decide +kernel
  exact ⟨(equal_of_key_eq (by decide +kernel)).1 hclear.1 _ (by decide +kernel) hclear.2 hkey,
    (equal_of_key_eq (by decide +kernel)).2 hglued⟩

/-- `:is(div.a)` and `:is(.adiv)` have the same key. -/
theorem equal_of_key_eq_not :
    let div : Simple := { kind := .typeName, name := "div" }
    let a : Simple := { kind := .className, name := "a" }
    let adiv : Simple := { kind := .className, name := "adiv" }
    (anyOf [div, a]).isProper ∧ (anyOf [adiv]).isProper ∧
      (anyOf [div, a]).key = (anyOf [adiv]).key ∧ ¬ (anyOf [div, a]).equal (anyOf [adiv]) := by
  simp only [key, keys, joinDistinct, distinct_eq_insertionSort]
  decide +kernel

end Simple

end SelectorCalculus
