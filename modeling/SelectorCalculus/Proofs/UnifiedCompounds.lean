import SelectorCalculus.Proofs.CompoundMeaning
import SelectorCalculus.Proofs.EqualityLaws
/-! Unification of well-formed compounds is exact: it fails if two simple selectors clash and
intersects otherwise. -/

namespace SelectorCalculus

/-! ### Well-formed compounds and clashes -/

/-- The order in which simple selectors stand in a compound. -/
structure InOrder (ss : List Simple) : Prop where
  type_first : ∀ s ∈ ss.tail, s.kind ≠ .typeName
  one_id : ss.Pairwise fun s t => ¬ (s.kind = .id ∧ t.kind = .id)
  element_last : ∀ s ∈ ss.dropLast, ¬ s.isPseudoElement

/-- A type only at the head, at most one identifier, and a pseudo element only at the end. -/
def Compound.WellFormed (c : Compound) : Prop := InOrder c.simples

/-- Two concrete type names or namespaces that differ, two identifiers that differ, or two pseudo
elements that are not equal. -/
def Clash (s t : Simple) : Prop :=
  (s.kind = .typeName ∧ t.kind = .typeName ∧
    ((s.name ≠ "*" ∧ t.name ≠ "*" ∧ s.name ≠ t.name) ∨
      (¬ s.anyNamespace ∧ ¬ t.anyNamespace ∧ s.ns ≠ t.ns))) ∨
  (s.kind = .id ∧ t.kind = .id ∧ s.name ≠ t.name) ∨
  (s.isPseudoElement ∧ t.isPseudoElement ∧ ¬ s.equal t)

theorem kind_of_isPseudoElement {s : Simple} (h : s.isPseudoElement) : s.kind = .pseudo := by
  simp only [Label.isPseudoElement, Bool.and_eq_true, beq_iff_eq] at h
  exact h.1

namespace Clash

variable {s t : Simple}

theorem symm (h : Clash s t) : Clash t s := by
  rcases h with ⟨hs, ht, ⟨hs', ht', hne⟩ | ⟨hs', ht', hne⟩⟩ | ⟨hs, ht, hne⟩ | ⟨hs, ht, hne⟩
  · exact Or.inl ⟨ht, hs, Or.inl ⟨ht', hs', hne.symm⟩⟩
  · exact Or.inl ⟨ht, hs, Or.inr ⟨ht', hs', hne.symm⟩⟩
  · exact Or.inr (Or.inl ⟨ht, hs, hne.symm⟩)
  · exact Or.inr (Or.inr ⟨ht, hs, fun h => hne (Simple.equal_symm h)⟩)

theorem irrefl : ¬ Clash s s := by
  simp [Clash, Simple.equal_refl]

theorem kind_eq (h : Clash s t) : s.kind = t.kind := by
  rcases h with ⟨hs, ht, -⟩ | ⟨hs, ht, -⟩ | ⟨hs, ht, -⟩
  · rw [hs, ht]
  · rw [hs, ht]
  · rw [kind_of_isPseudoElement hs, kind_of_isPseudoElement ht]

theorem type_iff (hs : s.kind = .typeName) (ht : t.kind = .typeName) : Clash s t ↔
    (s.name ≠ "*" ∧ t.name ≠ "*" ∧ s.name ≠ t.name) ∨
      (¬ s.anyNamespace ∧ ¬ t.anyNamespace ∧ s.ns ≠ t.ns) := by
  simp [Clash, hs, ht, Label.isPseudoElement]

/-- Types apart, clashes are what unification looks for. -/
theorem conflicts_iff (hs : s.kind ≠ .typeName) : conflicts s t ↔ Clash t s := by
  simp only [conflicts, Clash, hs, false_and, and_false, false_or, Bool.or_eq_true,
    Bool.and_eq_true, beq_iff_eq, bne_iff_ne, Bool.not_eq_true', Bool.eq_false_iff]
  tauto

end Clash

namespace InOrder

variable {s t : Simple} {ss rs : List Simple}

theorem tail (h : InOrder (s :: ss)) : InOrder ss where
  type_first t ht := h.type_first t (List.mem_of_mem_tail ht)
  one_id := (List.pairwise_cons.1 h.one_id).2
  element_last t ht := by
    cases ss with
    | nil => cases ht
    | cons u ss => exact h.element_last t (List.mem_cons_of_mem _ ht)

theorem not_clash (h : InOrder (s :: ss)) (ht : t ∈ ss) : ¬ Clash s t := by
  rintro (⟨-, hk, -⟩ | ⟨hs, hk, -⟩ | ⟨hs, -, -⟩)
  · exact h.type_first t ht hk
  · exact (List.pairwise_cons.1 h.one_id).1 t ht ⟨hs, hk⟩
  · refine h.element_last s ?_ hs
    cases ss with
    | nil => cases ht
    | cons u ss => exact List.mem_cons_self

theorem not_clash_of_mem (h : InOrder ss) (hs : s ∈ ss) (ht : t ∈ ss) : ¬ Clash s t := by
  induction ss with
  | nil => cases hs
  | cons u ss ih =>
    rcases List.mem_cons.1 hs with rfl | hs'
    · rcases List.mem_cons.1 ht with rfl | ht'
      · exact Clash.irrefl
      · exact h.not_clash ht'
    · rcases List.mem_cons.1 ht with rfl | ht'
      · exact fun hclash => h.not_clash hs' hclash.symm
      · exact ih h.tail hs' ht'

theorem insertBeforeElement_eq (h : InOrder ss) (s : Simple) :
    ((∀ t ∈ ss, ¬ t.isPseudoElement) ∧ insertBeforeElement s ss = ss ++ [s]) ∨
      ∃ before e, ss = before ++ [e] ∧ e.isPseudoElement ∧
        insertBeforeElement s ss = before ++ [s, e] := by
  simp only [insertBeforeElement, List.span_eq_takeWhile_dropWhile]
  rcases List.eq_nil_or_concat ss with rfl | ⟨before, e, rfl⟩
  · exact Or.inl ⟨by simp, rfl⟩
  · have hbefore : ∀ t ∈ before, (!t.isPseudoElement) = true := by
      intro t ht
      simpa using h.element_last t (by simpa using ht)
    simp only [List.concat_eq_append]
    rw [List.takeWhile_append_of_pos hbefore, List.dropWhile_append_of_pos hbefore]
    by_cases he : e.isPseudoElement
    · exact Or.inr ⟨before, e, rfl, he, by simp [he]⟩
    · refine Or.inl ⟨fun t ht => ?_, by simp [he]⟩
      rcases List.mem_append.1 ht with ht | ht
      · simpa using hbefore t ht
      · rwa [List.mem_singleton.1 ht]

theorem cons_type (h : InOrder ss) (hs : s.kind = .typeName) (hss : ∀ t ∈ ss, t.kind ≠ .typeName) :
    InOrder (s :: ss) where
  type_first := hss
  one_id := List.pairwise_cons.2 ⟨fun t _ hid => by simp [hs] at hid, h.one_id⟩
  element_last t ht := by
    cases ss with
    | nil => cases ht
    | cons u ss =>
      rcases List.mem_cons.1 ht with rfl | ht
      · simp [Label.isPseudoElement, hs]
      · exact h.element_last t ht

theorem addType (h : InOrder ss) (hs : s.kind = .typeName) (hr : addType? s ss = some rs) :
    InOrder rs := by
  cases ss with
  | nil =>
    cases hr
    exact h.cons_type hs (by simp)
  | cons t rest =>
    simp only [addType?] at hr
    split_ifs at hr with hk
    · obtain ⟨r, hu, rfl⟩ := Option.map_eq_some_iff.1 hr
      exact h.tail.cons_type (Simple.kind_unifyType hu) h.type_first
    · cases hr
      exact h
    · cases hr
      refine h.cons_type hs fun u hu => ?_
      rcases List.mem_cons.1 hu with rfl | hu
      · exact hk
      · exact h.type_first u hu

theorem insert (h : InOrder ss) (hs : s.kind ≠ .typeName) (hclash : ∀ t ∈ ss, ¬ Clash t s)
    (hnew : ∀ t ∈ ss, ¬ s.equal t) : InOrder (insertBeforeElement s ss) := by
  have hid : ∀ t ∈ ss, ¬ (t.kind = .id ∧ s.kind = .id) := by
    rintro t ht ⟨hkt, hks⟩
    have hname : t.name ≠ s.name := by
      intro hname
      refine hnew t ht (Simple.equal_iff.2 ⟨?_, by simp [hks]⟩)
      simp [Label.alike, hkt, hks, hname]
    exact hclash t ht (Or.inr (Or.inl ⟨hkt, hks, hname⟩))
  have hpair : (ss ++ [s]).Pairwise fun t u => ¬ (t.kind = .id ∧ u.kind = .id) := by
    refine List.pairwise_append.2 ⟨h.one_id, List.pairwise_singleton _ _, fun t ht u hu => ?_⟩
    rw [List.mem_singleton.1 hu]
    exact hid t ht
  have htype : ∀ t ∈ (ss ++ [s]).tail, t.kind ≠ .typeName := by
    intro t ht
    cases ss with
    | nil => cases ht
    | cons u rest =>
      rcases List.mem_append.1 ht with ht | ht
      · exact h.type_first t ht
      · rwa [List.mem_singleton.1 ht]
  rcases h.insertBeforeElement_eq s with ⟨hno, heq⟩ | ⟨before, e, rfl, he, heq⟩
  · rw [heq]
    exact ⟨htype, hpair, by simpa using hno⟩
  · have hnot : ¬ s.isPseudoElement := by
      intro hel
      refine hclash e (by simp) (Or.inr (Or.inr ⟨he, hel, fun heq => ?_⟩))
      exact hnew e (by simp) (Simple.equal_symm heq)
    have hperm : (before ++ [e] ++ [s]).Perm (before ++ [s, e]) := by
      rw [List.append_assoc]
      exact (List.Perm.swap s e []).append_left before
    have htail : (before ++ [s, e]).tail ⊆ e :: (before ++ [e] ++ [s]).tail := by
      cases before <;> simp
    have hlast : (before ++ [s, e]).dropLast = before ++ [s] := by
      rw [List.dropLast_append_of_ne_nil (by simp)]
      rfl
    rw [heq]
    refine ⟨fun t ht => ?_, hperm.pairwise hpair fun hne => ?_, fun t ht => ?_⟩
    · rcases List.mem_cons.1 (htail ht) with rfl | ht
      · simp [kind_of_isPseudoElement he]
      · exact htype t ht
    · rwa [and_comm]
    · rw [hlast] at ht
      rcases List.mem_append.1 ht with ht | ht
      · exact h.element_last t (by simpa using ht)
      · rwa [List.mem_singleton.1 ht]

theorem add (h : InOrder ss) (hs : s.kind ≠ .typeName) (hr : addSimple?.add s ss = some rs) :
    InOrder rs := by
  unfold addSimple?.add at hr
  split_ifs at hr with hconflict hcontains
  · cases hr
    exact h
  · cases hr
    refine h.insert hs (fun t ht hclash => ?_) fun t ht heq => ?_
    · exact hconflict (List.any_eq_true.2 ⟨t, ht, (Clash.conflicts_iff hs).2 hclash⟩)
    · exact hcontains (containsSimple_iff.2 ⟨t, ht, heq⟩)

theorem addSimple (h : InOrder ss) (hr : addSimple? s ss = some rs) : InOrder rs := by
  unfold addSimple? at hr
  split_ifs at hr with hk
  · exact h.addType hk hr
  · split at hr
    · rename_i t
      split_ifs at hr with hu
      · have hss : InOrder [s] := ⟨by simp, List.pairwise_singleton _ s, by simp⟩
        exact hss.addType (Label.kind_of_isUniversal hu) hr
      · exact h.add hk hr
    · exact h.add hk hr

end InOrder

/-! ### When unification fails -/

theorem agree?_eq_none_iff {isOpen : String → Bool} {a b : String} :
    agree? isOpen a b = none ↔ a ≠ b ∧ ¬ isOpen a ∧ ¬ isOpen b := by
  unfold agree?
  split_ifs with hab ha
  · simp only [false_iff]
    tauto
  · simp [ha]
  · simp only [true_iff]
    tauto

theorem unifyType?_eq_none_iff {s t : Simple} (hs : s.kind = .typeName) (ht : t.kind = .typeName) :
    s.unifyType? t = none ↔ Clash s t := by
  have hns : agree? (fun x => x == "" || x == "*") s.ns t.ns = none ↔
      ¬ s.anyNamespace ∧ ¬ t.anyNamespace ∧ s.ns ≠ t.ns := by
    rw [agree?_eq_none_iff, and_comm, and_assoc]
    rfl
  have hname : agree? (· == "*") s.name t.name = none ↔
      s.name ≠ "*" ∧ t.name ≠ "*" ∧ s.name ≠ t.name := by
    rw [agree?_eq_none_iff, and_comm, and_assoc]
    simp
  rw [Clash.type_iff hs ht, ← hns, ← hname, Simple.unifyType?]
  cases agree? (fun x => x == "" || x == "*") s.ns t.ns <;>
    cases agree? (· == "*") s.name t.name <;> simp

theorem addType?_eq_none_iff {s : Simple} {ss : List Simple} (hs : s.kind = .typeName)
    (hss : InOrder ss) : addType? s ss = none ↔ ∃ t ∈ ss, Clash t s := by
  have hkind {t : Simple} (h : Clash t s) : t.kind = .typeName := h.kind_eq.trans hs
  cases ss with
  | nil => simp [addType?]
  | cons t rest =>
    simp only [addType?]
    split_ifs with ht hopen
    · rw [Option.map_eq_none_iff, unifyType?_eq_none_iff hs ht]
      constructor
      · exact fun h => ⟨t, List.mem_cons_self, h.symm⟩
      · rintro ⟨u, hu, h⟩
        rcases List.mem_cons.1 hu with rfl | hu
        · exact h.symm
        · exact absurd (hkind h) (hss.type_first u hu)
    all_goals
      simp only [false_iff, not_exists, not_and]
      intro u hu h
      rcases List.mem_cons.1 hu with rfl | hu
      · exact ht (hkind h)
      · exact hss.type_first u hu (hkind h)

theorem add_eq_none_iff {s : Simple} {ss : List Simple} (hs : s.kind ≠ .typeName) :
    addSimple?.add s ss = none ↔ ∃ t ∈ ss, Clash t s := by
  have hany : ss.any (conflicts s) ↔ ∃ t ∈ ss, Clash t s := by
    simp only [List.any_eq_true, Clash.conflicts_iff hs]
  rw [← hany]
  unfold addSimple?.add
  split_ifs with hconflict <;> simp [hconflict]

/-- Adding a simple selector fails exactly if it clashes with one that is there. -/
theorem addSimple?_eq_none_iff {s : Simple} {ss : List Simple} (hss : InOrder ss) :
    addSimple? s ss = none ↔ ∃ t ∈ ss, Clash t s := by
  unfold addSimple?
  split_ifs with hk
  · exact addType?_eq_none_iff hk hss
  · split
    · rename_i t
      split_ifs with hu
      · have hno : ¬ Clash t s := fun h => hk (h.kind_eq ▸ Label.kind_of_isUniversal hu)
        simp only [addType?, hk, if_false, List.mem_singleton, exists_eq_left, hno, iff_false]
        split_ifs <;> simp
      · exact add_eq_none_iff hk
    · exact add_eq_none_iff hk

theorem mem_of_mem_addSimple {s t : Simple} {ss rs : List Simple} (h : addSimple? s ss = some rs)
    (ht : t ∈ ss) (hk : t.kind ≠ .typeName) : t ∈ rs := by
  have hadd (h : addSimple?.add s ss = some rs) : t ∈ rs := by
    unfold addSimple?.add at h
    split_ifs at h
    · cases h
      exact ht
    · cases h
      exact mem_insertBeforeElement.2 (Or.inr ht)
  unfold addSimple? at h
  split_ifs at h with hs
  · cases ss with
    | nil => cases ht
    | cons u rest =>
      simp only [addType?] at h
      split_ifs at h with hu
      · obtain ⟨r, -, rfl⟩ := Option.map_eq_some_iff.1 h
        rcases List.mem_cons.1 ht with rfl | ht
        · exact absurd hu hk
        · exact List.mem_cons_of_mem _ ht
      · cases h
        exact ht
      · cases h
        exact List.mem_cons_of_mem _ ht
  · split at h
    · rename_i u
      split_ifs at h with hu
      · rw [List.mem_singleton.1 ht] at hk
        exact absurd (Label.kind_of_isUniversal hu) hk
      · exact hadd h
    · exact hadd h

/-- What clashes after an addition has clashed before, unless it clashes with what was added. -/
theorem exists_clash_addSimple {s t : Simple} {ss rs : List Simple} (h : addSimple? s ss = some rs)
    (ht : t.kind ≠ .typeName) (hst : ¬ Clash s t) :
    (∃ u ∈ rs, Clash u t) ↔ ∃ u ∈ ss, Clash u t := by
  constructor
  · rintro ⟨u, hu, hclash⟩
    rcases mem_addSimple h hu with rfl | hu | ⟨ns, name, rfl⟩
    · exact absurd hclash hst
    · exact ⟨u, hu, hclash⟩
    · exact absurd hclash.kind_eq.symm ht
  · rintro ⟨u, hu, hclash⟩
    exact ⟨u, mem_of_mem_addSimple h hu (hclash.kind_eq ▸ ht), hclash⟩

theorem foldlM_addSimple_eq_none_iff {ds ss : List Simple} (hds : InOrder ds) (hss : InOrder ss) :
    ds.foldlM (fun ss s => addSimple? s ss) ss = none ↔ ∃ t ∈ ds, ∃ u ∈ ss, Clash u t := by
  induction ds generalizing ss with
  | nil => simp
  | cons s ds ih =>
    rw [List.foldlM_cons, List.exists_mem_cons_iff]
    cases hr : addSimple? s ss with
    | none => simp [(addSimple?_eq_none_iff hss).1 hr]
    | some rs =>
      have hno : ¬ ∃ u ∈ ss, Clash u s := fun h => by simp [(addSimple?_eq_none_iff hss).2 h] at hr
      have hrest : ∀ t ∈ ds, ((∃ u ∈ rs, Clash u t) ↔ ∃ u ∈ ss, Clash u t) := fun t ht =>
        exists_clash_addSimple hr (hds.type_first t ht) (hds.not_clash ht)
      have ih := ih hds.tail (hss.addSimple hr)
      simp only [Option.bind_eq_bind, Option.bind_some, ih, hno, false_or]
      exact exists_congr fun t => and_congr_right (hrest t)

theorem InOrder.foldlM {ds ss rs : List Simple} (hss : InOrder ss)
    (h : ds.foldlM (fun ss s => addSimple? s ss) ss = some rs) : InOrder rs := by
  induction ds generalizing ss with
  | nil =>
    cases h
    exact hss
  | cons s ds ih =>
    rw [List.foldlM_cons] at h
    obtain ⟨ss', hs', h⟩ := Option.bind_eq_some_iff.1 h
    exact ih (hss.addSimple hs') h

/-! ### Unifying twice the same -/

/-- A type selector with nothing but its name and namespace; other simple selectors as they are. -/
def Simple.bare (s : Simple) : Simple :=
  if s.kind = .typeName then .ofType s.ns s.name else s

theorem Simple.bare_of_kind {s : Simple} (h : s.kind ≠ .typeName) : s.bare = s := if_neg h

theorem Simple.unifyType?_self {s : Simple} (h : s.kind = .typeName) :
    s.unifyType? s = some s.bare := by
  simp [unifyType?, agree?, bare, h]

theorem addSimple?_of_mem {s : Simple} {ss : List Simple} (hss : InOrder ss) (hs : s ∈ ss)
    (hk : s.kind ≠ .typeName) : addSimple? s ss = some ss := by
  have hadd : addSimple?.add s ss = some ss := by
    have hno : ¬ ss.any (conflicts s) := by
      intro h
      obtain ⟨t, ht, hconf⟩ := List.any_eq_true.1 h
      exact hss.not_clash_of_mem ht hs ((Clash.conflicts_iff hk).1 hconf)
    have hin : containsSimple ss s := containsSimple_iff.2 ⟨s, hs, s.equal_refl⟩
    rw [addSimple?.add, if_neg hno, if_pos hin]
  unfold addSimple?
  rw [if_neg hk]
  split
  · rename_i t
    rw [List.mem_singleton] at hs
    rw [if_neg fun hu => hk (hs ▸ Label.kind_of_isUniversal hu)]
    exact hadd
  · exact hadd

theorem foldlM_addSimple_of_subset {ds ss : List Simple} (hss : InOrder ss) (hsub : ds ⊆ ss)
    (hds : ∀ s ∈ ds, s.kind ≠ .typeName) :
    ds.foldlM (fun ss s => addSimple? s ss) ss = some ss := by
  induction ds with
  | nil => rfl
  | cons s ds ih =>
    obtain ⟨hs, hsub⟩ := List.cons_subset.1 hsub
    obtain ⟨hk, hds⟩ := List.forall_mem_cons.1 hds
    rw [List.foldlM_cons, addSimple?_of_mem hss hs hk]
    exact ih hsub hds

theorem foldlM_addSimple_self {ss : List Simple} (hss : InOrder ss) :
    ss.foldlM (fun ss s => addSimple? s ss) ss = some (ss.map Simple.bare) := by
  cases ss with
  | nil => rfl
  | cons s rest =>
    have hrest : rest.map Simple.bare = rest := by
      conv_rhs => rw [← List.map_id rest]
      exact List.map_congr_left fun t ht => Simple.bare_of_kind (hss.type_first t ht)
    rw [List.map_cons, hrest]
    by_cases hk : s.kind = .typeName
    · have hbare : InOrder (s.bare :: rest) :=
        hss.tail.cons_type (Simple.kind_unifyType (Simple.unifyType?_self hk)) hss.type_first
      have hhead : addSimple? s (s :: rest) = some (s.bare :: rest) := by
        simp [addSimple?, addType?, hk, Simple.unifyType?_self hk]
      rw [List.foldlM_cons, hhead]
      exact foldlM_addSimple_of_subset hbare (List.subset_cons_self _ _) hss.type_first
    · rw [Simple.bare_of_kind hk]
      exact foldlM_addSimple_of_subset hss (List.Subset.refl _)
        (List.forall_mem_cons.2 ⟨hk, hss.type_first⟩)

/-! ### Unification of well-formed compounds -/

/-- An element as unification sees it: it has one type and one namespace, and everything else,
identifiers included, is a test that equal simple selectors pass together. -/
structure OpenSubject where
  typeName : String
  ns : String
  passes : Simple → Prop
  passes_congr : ∀ {s t : Simple}, s.equal t → (passes s ↔ passes t)

namespace OpenSubject

def Satisfies (x : OpenSubject) (s : Simple) : Prop :=
  if s.kind = .typeName then s.Admits x.typeName x.ns else x.passes s

/-- All simple selectors of a compound hold. -/
def Fits (x : OpenSubject) (c : Compound) : Prop := ∀ s ∈ c.simples, x.Satisfies s

theorem isReading (x : OpenSubject) : IsReading x.Satisfies x.typeName x.ns where
  congr {s t} h := by
    have halike := (Simple.equal_iff.1 h).1
    have hkind := Label.kind_eq_of_alike halike
    unfold Satisfies
    by_cases hk : s.kind = .typeName
    · simp only [Label.alike, hk, Bool.and_eq_true, beq_iff_eq] at halike
      obtain ⟨-, hname, hns⟩ := halike
      rw [if_pos hk, if_pos (hkind ▸ hk), Simple.Admits, Simple.Admits, hname, hns]
    · rw [if_neg hk, if_neg (hkind ▸ hk)]
      exact x.passes_congr h
  type hs := by rw [Satisfies, if_pos hs]

end OpenSubject

namespace Compound

theorem unify?_eq_none_iff {c d : Compound} (hc : c.WellFormed) (hd : d.WellFormed) :
    c.unify? d = none ↔ ∃ s ∈ c.simples, ∃ t ∈ d.simples, Clash s t := by
  unfold unify?
  split_ifs with hce hde
  · simp [List.isEmpty_iff.1 hce]
  · simp [List.isEmpty_iff.1 hde]
  · rw [Option.map_eq_none_iff, foldlM_addSimple_eq_none_iff hd hc]
    constructor
    · rintro ⟨t, ht, s, hs, h⟩
      exact ⟨s, hs, t, ht, h⟩
    · rintro ⟨s, hs, t, ht, h⟩
      exact ⟨t, ht, s, hs, h⟩

theorem WellFormed.unify {c d u : Compound} (hc : c.WellFormed) (hd : d.WellFormed)
    (h : c.unify? d = some u) : u.WellFormed := by
  unfold unify? at h
  split_ifs at h
  · cases h
    exact hd
  · cases h
    exact hc
  · obtain ⟨rs, hrs, rfl⟩ := Option.map_eq_some_iff.1 h
    exact InOrder.foldlM hc hrs

theorem unify?_self {c : Compound} (hc : c.WellFormed) :
    c.unify? c = some { c with simples := c.simples.map Simple.bare } := by
  unfold unify?
  split_ifs with hempty
  · have hnil : c.simples = [] := List.isEmpty_iff.1 hempty
    obtain ⟨ss, p, e⟩ := c
    cases hnil
    rfl
  · rw [foldlM_addSimple_self hc]
    rfl

/-- Unification of well-formed compounds is exact. It fails if and only if two simple selectors
clash, the same in either order; otherwise the result is well formed and holds exactly where both
compounds do. A compound unified with itself keeps its simple selectors. -/
theorem unify?_exact {c d : Compound} (hc : c.WellFormed) (hd : d.WellFormed) :
    (c.unify? d = none ↔ ∃ s ∈ c.simples, ∃ t ∈ d.simples, Clash s t) ∧
    (c.unify? d = none ↔ d.unify? c = none) ∧
    (∀ u, c.unify? d = some u →
      u.WellFormed ∧ ∀ x : OpenSubject, x.Fits u ↔ x.Fits c ∧ x.Fits d) ∧
    ∃ u, c.unify? c = some u ∧ u.simples = c.simples.map Simple.bare := by
  refine ⟨unify?_eq_none_iff hc hd, ?_, fun u hu => ⟨hc.unify hd hu, fun x => ?_⟩, ?_⟩
  · rw [unify?_eq_none_iff hc hd, unify?_eq_none_iff hd hc]
    constructor
    · rintro ⟨s, hs, t, ht, h⟩
      exact ⟨t, ht, s, hs, h.symm⟩
    · rintro ⟨t, ht, s, hs, h⟩
      exact ⟨s, hs, t, ht, h.symm⟩
  · exact x.isReading.unify hu
  · exact ⟨_, unify?_self hc, rfl⟩

/-- `svg|*.x::before` with `a#i` is `svg|a.x#i::before`. -/
theorem unify?_exact_element :
    let x : Simple := { kind := .className, name := "x" }
    let i : Simple := { kind := .id, name := "i" }
    let before : Simple := { kind := .pseudo, name := "before", element := true }
    let c : Compound := .ofSimples [.ofType "svg" "*", x, before]
    let d : Compound := .ofSimples [.ofType "" "a", i]
    let u : Compound := .ofSimples [.ofType "svg" "a", x, i, before]
    c.unify? d = some u ∧ u.WellFormed ∧ ∀ y : OpenSubject, y.Fits u ↔ y.Fits c ∧ y.Fits d := by
  intro x i before c d u
  have hc : c.WellFormed := ⟨by decide, by decide, by decide⟩
  have hd : d.WellFormed := ⟨by decide, by decide, by decide⟩
  have hu : c.unify? d = some u := rfl
  exact ⟨hu, (unify?_exact hc hd).2.2.1 u hu⟩

end Compound

end SelectorCalculus
