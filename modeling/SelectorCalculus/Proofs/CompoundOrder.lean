import SelectorCalculus.Proofs.CompoundMeaning
import SelectorCalculus.Proofs.EqualityLaws
/-! The superselector check on compounds as an order, in which what is unified is below both
compounds. -/

namespace SelectorCalculus

/-! ### Simple selectors -/

namespace Simple

theorem isUniversal_eq {s : Simple} (hs : s.kind = .typeName) :
    s.isUniversal = (s.name == "*") := by
  simp [Label.isUniversal, hs]

/-- A type selector is above everything if it is open, and else above the types that it leaves room
for. -/
theorem isSuperselectorOf_type_iff {s t : Simple} (hs : s.kind = .typeName) :
    s.isSuperselectorOf t ↔ (s.isUniversal ∧ s.anyNamespace) ∨ (t.kind = .typeName ∧
      (s.anyNamespace ∨ s.ns = t.ns) ∧ (s.isUniversal ∨ s.name = t.name)) := by
  have hequal : s.equal t → t.kind = .typeName ∧ s.ns = t.ns ∧ s.name = t.name := by
    intro h
    have halike := (Simple.equal_iff.1 h).1
    have hkind := Label.kind_eq_of_alike halike
    simp only [Label.alike, hs, Bool.and_eq_true, beq_iff_eq] at halike
    exact ⟨hkind ▸ hs, halike.2.2, halike.2.1⟩
  simp only [isSuperselectorOf, hs, beq_self_eq_true, Bool.true_and, Bool.or_eq_true,
    Bool.and_eq_true, beq_iff_eq, and_assoc]
  constructor
  · rintro (h | h | h)
    · obtain ⟨hk, hns, hname⟩ := hequal h
      exact Or.inr ⟨hk, Or.inr hns, Or.inr hname⟩
    · exact Or.inl h
    · exact Or.inr h
  · exact Or.inr

theorem isSuperselectorOf_iff_equal {s t : Simple} (hs : s.kind ≠ .typeName) :
    s.isSuperselectorOf t ↔ s.equal t := by
  simp [isSuperselectorOf, hs]

theorem isSuperselectorOf_trans {s t r : Simple} (hst : s.isSuperselectorOf t)
    (htr : t.isSuperselectorOf r) : s.isSuperselectorOf r := by
  by_cases hs : s.kind = .typeName
  · rw [isSuperselectorOf_type_iff hs] at hst ⊢
    rcases hst with hopen | ⟨ht, hns, hname⟩
    · exact Or.inl hopen
    · rw [isSuperselectorOf_type_iff ht] at htr
      rcases htr with ⟨huniversal, hany⟩ | ⟨hr, hns', hname'⟩
      · left
        constructor
        · rcases hname with h | h
          · exact h
          · simpa only [isUniversal_eq hs, isUniversal_eq ht, h] using huniversal
        · rcases hns with h | h
          · exact h
          · simpa only [Label.anyNamespace, h] using hany
      · right
        refine ⟨hr, ?_, ?_⟩
        · rcases hns with h | h
          · exact Or.inl h
          · simpa only [Label.anyNamespace, h] using hns'
        · rcases hname with h | h
          · exact Or.inl h
          · simpa only [isUniversal_eq hs, isUniversal_eq ht, h] using hname'
  · rw [isSuperselectorOf_iff_equal hs] at hst ⊢
    have hkind := Simple.kind_congr hst
    rw [isSuperselectorOf_iff_equal (hkind ▸ hs)] at htr
    exact Simple.equal_trans hst htr

theorem isSuperselectorOf_unifyType {s t r : Simple} (hs : s.kind = .typeName)
    (ht : t.kind = .typeName) (h : s.unifyType? t = some r) :
    s.isSuperselectorOf r ∧ t.isSuperselectorOf r := by
  simp only [unifyType?, Option.bind_eq_bind, Option.bind_eq_some_iff, Option.pure_def,
    Option.some.injEq] at h
  obtain ⟨ns, hns, name, hname, rfl⟩ := h
  have hns := (agree?_some hns ns).1 (Or.inr rfl)
  have hname := (agree?_some hname name).1 (Or.inr rfl)
  constructor
  · rw [isSuperselectorOf_type_iff hs]
    rw [isUniversal_eq hs]
    exact Or.inr ⟨rfl, hns.1, hname.1⟩
  · rw [isSuperselectorOf_type_iff ht]
    rw [isUniversal_eq ht]
    exact Or.inr ⟨rfl, hns.2, hname.2⟩

end Simple

/-! ### Compounds -/

/-- Each of the first simple selectors is above one of the second. -/
def EachAbove (ss rs : List Simple) : Prop := ∀ s ∈ ss, ∃ r ∈ rs, s.isSuperselectorOf r

namespace EachAbove

variable {s : Simple} {ss ts rs : List Simple}

theorem of_subset (h : ss ⊆ rs) : EachAbove ss rs :=
  fun s hs => ⟨s, h hs, s.isSuperselectorOf_refl⟩

theorem trans (hst : EachAbove ss ts) (htr : EachAbove ts rs) : EachAbove ss rs := by
  intro s hs
  obtain ⟨t, ht, hst⟩ := hst s hs
  obtain ⟨r, hr, htr⟩ := htr t ht
  exact ⟨r, hr, Simple.isSuperselectorOf_trans hst htr⟩

theorem cons_iff : EachAbove (s :: ss) rs ↔ (∃ r ∈ rs, s.isSuperselectorOf r) ∧ EachAbove ss rs :=
  List.forall_mem_cons

theorem addType (hs : s.kind = .typeName) (h : addType? s ss = some rs) :
    EachAbove (s :: ss) rs := by
  cases ss with
  | nil =>
    cases h
    exact of_subset (List.Subset.refl _)
  | cons t rest =>
    simp only [addType?] at h
    split_ifs at h with hk hopen
    · obtain ⟨r, hr, rfl⟩ := Option.map_eq_some_iff.1 h
      obtain ⟨hsr, htr⟩ := Simple.isSuperselectorOf_unifyType hs hk hr
      have hrest : EachAbove rest (r :: rest) := of_subset (List.subset_cons_self _ _)
      exact cons_iff.2 ⟨⟨r, by simp, hsr⟩, cons_iff.2 ⟨⟨r, by simp, htr⟩, hrest⟩⟩
    · cases h
      have hs : s.isSuperselectorOf t := by
        rw [Simple.isSuperselectorOf_type_iff hs]
        exact Or.inl (Bool.and_eq_true_iff.1 hopen)
      exact cons_iff.2 ⟨⟨t, by simp, hs⟩, of_subset (List.Subset.refl _)⟩
    · cases h
      exact of_subset (List.Subset.refl _)

theorem add (h : addSimple?.add s ss = some rs) : EachAbove (s :: ss) rs := by
  unfold addSimple?.add at h
  split_ifs at h with hc hs
  · cases h
    obtain ⟨t, ht, hst⟩ := containsSimple_iff.1 hs
    have hst : s.isSuperselectorOf t := by simp [Simple.isSuperselectorOf, hst]
    exact cons_iff.2 ⟨⟨t, ht, hst⟩, of_subset (List.Subset.refl _)⟩
  · cases h
    exact of_subset fun r hr => mem_insertBeforeElement.2 (List.mem_cons.1 hr)

theorem addSimple (h : addSimple? s ss = some rs) : EachAbove (s :: ss) rs := by
  unfold addSimple? at h
  split_ifs at h with hk
  · exact addType hk h
  · split at h
    · rename_i t
      split_ifs at h with hu
      · have ht : t.kind = .typeName := by
          simp only [Label.isUniversal, Bool.and_eq_true, beq_iff_eq] at hu
          exact hu.1
        have hswap : EachAbove [t, s] rs := addType ht h
        exact fun r hr => hswap r (by simpa [or_comm] using hr)
      · exact add h
    · exact add h

theorem foldlM_addSimple {ds : List Simple}
    (h : ds.foldlM (fun ss s => addSimple? s ss) ss = some rs) : EachAbove (ss ++ ds) rs := by
  induction ds generalizing ss with
  | nil =>
    cases h
    exact of_subset (by simp)
  | cons s ds ih =>
    rw [List.foldlM_cons] at h
    obtain ⟨ss', hs', h⟩ := Option.bind_eq_some_iff.1 h
    have hrest := ih h
    have hss' : EachAbove ss' rs := fun t ht => hrest t (List.mem_append_left _ ht)
    obtain ⟨hs, hss⟩ := cons_iff.1 (trans (addSimple hs') hss')
    intro r hr
    rcases List.mem_append.1 hr with hr | hr
    · exact hss r hr
    · rcases List.mem_cons.1 hr with rfl | hr
      · exact hs
      · exact hrest r (List.mem_append_right _ hr)

theorem unify {c d u : Compound} (h : c.unify? d = some u) :
    EachAbove c.simples u.simples ∧ EachAbove d.simples u.simples := by
  unfold Compound.unify? at h
  split_ifs at h with hc hd
  · cases h
    have hnil : c.simples = [] := List.isEmpty_iff.1 hc
    exact ⟨by simp [EachAbove, hnil], of_subset (List.Subset.refl _)⟩
  · cases h
    have hnil : d.simples = [] := List.isEmpty_iff.1 hd
    exact ⟨of_subset (List.Subset.refl _), by simp [EachAbove, hnil]⟩
  · obtain ⟨rs, hrs, rfl⟩ := Option.map_eq_some_iff.1 h
    have hboth := foldlM_addSimple hrs
    exact ⟨fun s hs => hboth s (List.mem_append_left _ hs),
      fun s hs => hboth s (List.mem_append_right _ hs)⟩

end EachAbove

open Superselector in
theorem compoundTest_eq {test : PathTest} {c d : Compound} {parents : List Component}
    (hc : c.isPlain) (hd : d.isPlain) : compoundTest test c d parents = c.isSuperselectorOf d :=
  Bool.eq_iff_iff.2 ((compoundTest_iff hc hd).trans (compoundTest_iff hc hd).symm)

theorem Compound.isSuperselectorOf_unify {c d u : Compound} (hc : c.isPlain) (hd : d.isPlain)
    (h : c.unify? d = some u) : c.isSuperselectorOf u ∧ d.isSuperselectorOf u := by
  have hu := isPlain_unify h hc hd
  obtain ⟨hcu, hdu⟩ := EachAbove.unify h
  exact ⟨(Superselector.compoundTest_iff hc hu).2 hcu, (Superselector.compoundTest_iff hd hu).2 hdu⟩

end SelectorCalculus
