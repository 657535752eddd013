import SelectorCalculus.Proofs.EqualityLaws
import SelectorCalculus.Selector.Key
import Mathlib.Data.List.Nodup
import Mathlib.Data.List.Sort
import Mathlib.Data.String.Basic
/-! Equal selectors share a key, since the distinct texts in increasing order depend only on which
texts there are. -/

namespace SelectorCalculus

/-! ### Distinct texts in increasing order -/

theorem nodup_eraseDups (keys : List String) : keys.eraseDups.Nodup := by
  match keys with
  | [] => simp
  | key :: rest =>
    have hlen : (rest.filter fun k => !k == key).length ≤ rest.length := List.length_filter_le ..
    rw [List.eraseDups_cons, List.nodup_cons]
    exact ⟨by simp, nodup_eraseDups _⟩
termination_by keys.length
decreasing_by simp only [List.length_cons]; omega

theorem mem_distinct {t : String} {texts : List String} : t ∈ distinct texts ↔ t ∈ texts := by
  rw [distinct, List.mem_mergeSort, List.mem_eraseDups]

theorem pairwise_distinct (texts : List String) : (distinct texts).Pairwise (· < ·) := by
  have hle : (distinct texts).Pairwise (· ≤ ·) := List.pairwise_mergeSort' ..
  have hne : (distinct texts).Nodup :=
    (List.mergeSort_perm _ _).nodup_iff.2 (nodup_eraseDups texts)
  exact hle.imp₂ (fun _ _ => lt_of_le_of_ne) hne

/-- Insertion can be evaluated where merging cannot. -/
theorem distinct_eq_insertionSort (texts : List String) :
    distinct texts = texts.eraseDups.insertionSort (· ≤ ·) := List.mergeSort_eq_insertionSort ..

/-- A strictly increasing list is determined by its members. -/
theorem eq_of_pairwise_lt [LinearOrder α] {xs ys : List α} (h : xs.Pairwise (· < ·))
    (h' : ys.Pairwise (· < ·)) (hmem : ∀ x, x ∈ xs ↔ x ∈ ys) : xs = ys := by
  have hperm : xs.Perm ys :=
    (List.perm_ext_iff_of_nodup (h.imp ne_of_lt) (h'.imp ne_of_lt)).2 hmem
  refine hperm.eq_of_pairwise ?_ (h.imp le_of_lt) (h'.imp le_of_lt)
  exact fun a b _ _ hab hba => le_antisymm hab hba

theorem distinct_congr {texts texts' : List String} (h : ∀ t, t ∈ texts ↔ t ∈ texts') :
    distinct texts = distinct texts' := by
  refine eq_of_pairwise_lt (pairwise_distinct texts) (pairwise_distinct texts') fun t => ?_
  rw [mem_distinct, mem_distinct, h]

theorem length_distinct {texts : List String} (h : texts.Nodup) :
    (distinct texts).length = texts.length := by
  have hnodup : (distinct texts).Nodup := (pairwise_distinct texts).imp ne_of_lt
  exact ((List.perm_ext_iff_of_nodup hnodup h).2 fun t => mem_distinct).length_eq

/-! ### Keys, level by level -/

theorem Simple.key_eq (s : Simple) : s.key = s.toLabel.key
    (s.selector.map fun l => joinDistinct ", " (l.map keys.ofComplex)) := by
  rw [key, Interpretation.ofSimple_eq]
  obtain ⟨l, _ | list⟩ := s <;> rfl

theorem keys_compound (c : Compound) :
    keys.ofComponent (.compound c) = joinDistinct "" (c.simples.map Simple.key) :=
  Interpretation.ofCompound_eq keys c

theorem keys_complex (c : Complex) :
    keys.ofComplex c = " ".intercalate (c.components.map keys.ofComponent) :=
  Interpretation.ofComplex_eq keys c

/-- Only a pseudo selector shows its selector argument. -/
theorem Label.key_congr {a b : Label} (h : a.alike b) {selector selector' : Option String}
    (hsel : a.kind = .pseudo → selector = selector') : a.key selector = b.key selector' := by
  have hkind := Label.kind_eq_of_alike h
  unfold alike at h
  unfold key
  cases hk : a.kind with
  | pseudo =>
    have hkb : b.kind = .pseudo := hkind ▸ hk
    simp only [hk, Bool.and_eq_true, beq_iff_eq] at h
    simp [colons, parenthesized, hkb, h.2, hsel hk]
  | _ =>
    rw [hk] at hkind
    simp only [hk, Bool.and_eq_true, beq_iff_eq] at h
    simp [render, hk, ← hkind, h.2]

theorem joinDistinct_congr {R : α → α → Prop} {f : α → String} {xs ys : List α}
    (hf : ∀ x ∈ xs, ∀ y, R x y → f x = f y) (hxy : ∀ x ∈ xs, ∃ y ∈ ys, R x y)
    (hyx : ∀ y ∈ ys, ∃ x ∈ xs, R x y) (separator : String) :
    joinDistinct separator (xs.map f) = joinDistinct separator (ys.map f) := by
  have htexts := mem_map_congr (fun x hx y _ => hf x hx y) hxy hyx
  rw [joinDistinct, joinDistinct, distinct_congr htexts]

theorem hereditary_keys : Hereditary (fun s => ∀ t : Simple, s.equal t → s.key = t.key)
    (fun c => ∀ d : Component, c.equal d → keys.ofComponent c = keys.ofComponent d)
    (fun c => ∀ d : Complex, c.equal d → keys.ofComplex c = keys.ofComplex d) where
  simple s ih t h := by
    obtain ⟨halike, hsel⟩ := Simple.equal_iff.1 h
    rw [Simple.key_eq, Simple.key_eq]
    refine Label.key_congr halike fun hk => ?_
    have hsel := hsel hk
    cases hs : s.selector with
    | none =>
      cases ht : t.selector with
      | none => rfl
      | some l' => simp [hs, ht] at hsel
    | some l =>
      cases ht : t.selector with
      | none => simp [hs, ht] at hsel
      | some l' =>
        simp only [hs, ht] at hsel
        obtain ⟨h₁, h₂⟩ := equalLists_iff.1 hsel
        exact congrArg some (joinDistinct_congr (ih l (Option.mem_def.2 hs)) h₁ h₂ ", ")
  compound c ih d h := by
    obtain ⟨d', rfl, hd⟩ := Component.equal_compound_iff.1 h
    obtain ⟨-, h₁, h₂⟩ := Compound.equal_iff.1 hd
    rw [keys_compound, keys_compound, joinDistinct_congr ih h₁ h₂]
  combinator k d h := by rw [Component.equal_combinator_iff.1 h]
  complex c ih d h := by
    rw [keys_complex, keys_complex]
    have hpaths := equalPaths_iff.1 (Complex.equal.equalPaths h)
    rw [map_eq_of_forall₂ hpaths fun d hd d' _ => ih d hd d']

theorem Simple.key_eq_of_equal {s t : Simple} (h : s.equal t) : s.key = t.key :=
  hereditary_keys.ofSimple s t h

theorem Component.key_eq_of_equal {c d : Component} (h : c.equal d) :
    keys.ofComponent c = keys.ofComponent d :=
  hereditary_keys.ofComponent c d h

theorem Complex.key_eq_of_equal {c d : Complex} (h : c.equal d) :
    keys.ofComplex c = keys.ofComplex d :=
  hereditary_keys.ofComplex c d h

/-- Simple selectors, compounds, complex selectors and lists share a key with their equals, whatever
the order, the repetition and the letter case in them. -/
theorem keys_eq_of_equal :
    (∀ s t : Simple, s.equal t → s.key = t.key) ∧
    (∀ c d : Compound, c.equal d → keys.ofCompound c = keys.ofCompound d) ∧
    (∀ c d : Complex, c.equal d → keys.ofComplex c = keys.ofComplex d) ∧
    ∀ l l' : SelectorList, equalLists l l' →
      joinDistinct ", " (keys.ofList l) = joinDistinct ", " (keys.ofList l') := by
  refine ⟨fun _ _ => Simple.key_eq_of_equal, fun c d h => ?_, fun _ _ => Complex.key_eq_of_equal,
    fun l l' h => ?_⟩
  · have hcomponents : (Component.compound c).equal (.compound d) := h
    exact Component.key_eq_of_equal hcomponents
  · obtain ⟨hto, hof⟩ := equalLists_iff.1 h
    have hkeys (c : Complex) (_ : c ∈ l) (d : Complex) (h : c.equal d) :
        keys.ofComplex c = keys.ofComplex d := Complex.key_eq_of_equal h
    rw [Interpretation.ofList_eq_map, Interpretation.ofList_eq_map]
    exact joinDistinct_congr hkeys hto hof ", "

/-- `:NOT(.a.a.b, .c)` and `:not(.c, .b.a.b, .c)` share the key `:not(.a.b, .c)`. -/
theorem keys_eq_of_equal_reordered :
    let single (names : List String) : Complex :=
      .ofComponents [.compound (.ofSimples (names.map fun name => { kind := .className, name }))]
    let pseudo (name : String) (l : SelectorList) : Simple :=
      { kind := .pseudo, name, selector := some l }
    let s := pseudo "NOT" [single ["a", "a", "b"], single ["c"]]
    let t := pseudo "not" [single ["c"], single ["b", "a", "b"], single ["c"]]
    s.equal t ∧ s.key = t.key ∧ t.key = ":not(.a.b, .c)" := by
  intro single pseudo s t
  have hequal : s.equal t := by decide +kernel
  have hkey : t.key = ":not(.a.b, .c)" := by
    simp only [Simple.key, keys, joinDistinct, distinct_eq_insertionSort]
    decide +kernel
  exact ⟨hequal, keys_eq_of_equal.1 s t hequal, hkey⟩

end SelectorCalculus
