import SelectorCalculus.Proofs.EqualSelectors
import SelectorCalculus.Selector.Unify
import SelectorCalculus.Selector.Superselector
import Mathlib.Data.List.TakeDrop
import Mathlib.Data.List.TakeWhile
/-! What unification and the superselector check say about plain compounds, whose meaning is a
matter of one element. -/

namespace SelectorCalculus

/-- Neither a pseudo selector with a selector argument nor a pseudo element. -/
def Simple.isPlain (s : Simple) : Bool := !s.hasSelector && !s.isPseudoElement

def Compound.isPlain (c : Compound) : Bool := c.simples.all Simple.isPlain

/-- All compounds of a path are plain. -/
def isPlainPath (cs : List Component) : Bool := (compoundsOf cs).all Compound.isPlain

theorem Compound.isPlain_iff {c : Compound} : c.isPlain ↔ ∀ s ∈ c.simples, s.isPlain := by
  simp [isPlain]

theorem Simple.isPlain_of_kind {s : Simple} (h : s.kind ≠ .pseudo) : s.isPlain := by
  simp [isPlain, hasSelector, Label.isPseudoElement, h]

theorem isPlainPath_singleton {c : Compound} : isPlainPath [.compound c] ↔ c.isPlain := by
  simp [isPlainPath, compoundsOf, Component.compound?]

theorem isPlainPath_cons {c : Component} {cs : List Component} :
    isPlainPath (c :: cs) ↔ isPlainPath [c] ∧ isPlainPath cs := by
  cases c <;> simp [isPlainPath, compoundsOf, Component.compound?]

theorem isPlainPath_append {cs ds : List Component} :
    isPlainPath (cs ++ ds) ↔ isPlainPath cs ∧ isPlainPath ds := by
  simp [isPlainPath, compoundsOf]

@[simp] theorem isPlainPath_reverse (cs : List Component) :
    isPlainPath cs.reverse = isPlainPath cs := by
  simp [isPlainPath]

theorem isPlainPath_of_mem {c : Component} {cs : List Component} (h : isPlainPath cs) (hc : c ∈ cs) :
    isPlainPath [c] := by
  induction cs with
  | nil => cases hc
  | cons d cs ih =>
    obtain ⟨hd, hcs⟩ := isPlainPath_cons.1 h
    rcases List.mem_cons.1 hc with rfl | hc
    · exact hd
    · exact ih hcs hc

/-! ### Unification -/

theorem agree?_some {isOpen : String → Bool} {a b r : String} (h : agree? isOpen a b = some r)
    (v : String) : (isOpen r ∨ r = v) ↔ (isOpen a ∨ a = v) ∧ (isOpen b ∨ b = v) := by
  unfold agree? at h
  split_ifs at h with hab ha
  · cases h
    rcases hab with rfl | hb
    · simp
    · simp [hb]
  · cases h
    simp [ha]

theorem agree?_none {isOpen : String → Bool} {a b : String} (h : agree? isOpen a b = none)
    (v : String) : ¬ ((isOpen a ∨ a = v) ∧ (isOpen b ∨ b = v)) := by
  unfold agree? at h
  split_ifs at h with hab ha
  rintro ⟨ha' | rfl, hb' | rfl⟩
  · exact ha ha'
  · exact ha ha'
  · exact hab (Or.inr hb')
  · exact hab (Or.inl rfl)

theorem mem_insertBeforeElement {s r : Simple} {ss : List Simple} :
    r ∈ insertBeforeElement s ss ↔ r = s ∨ r ∈ ss := by
  have hss : r ∈ ss ↔
      r ∈ ss.takeWhile (!·.isPseudoElement) ∨ r ∈ ss.dropWhile (!·.isPseudoElement) := by
    rw [← List.mem_append, List.takeWhile_append_dropWhile]
  simp only [insertBeforeElement, List.span_eq_takeWhile_dropWhile, List.mem_append, List.mem_cons,
    hss]
  exact or_left_comm

/-- Whether a type selector lets an element of a type and namespace through. A universal name and an
open namespace constrain nothing. -/
def Simple.Admits (s : Simple) (typeName ns : String) : Prop :=
  (s.name == "*" ∨ s.name = typeName) ∧ ((s.ns == "" || s.ns == "*") ∨ s.ns = ns)

theorem Simple.admits_unifyType {s t r : Simple} (h : s.unifyType? t = some r)
    (typeName ns : String) :
    r.Admits typeName ns ↔ s.Admits typeName ns ∧ t.Admits typeName ns := by
  simp only [unifyType?, Option.bind_eq_bind, Option.bind_eq_some_iff, Option.pure_def,
    Option.some.injEq] at h
  obtain ⟨ns', hns, name, hname, rfl⟩ := h
  have h₁ := agree?_some hns ns
  have h₂ := agree?_some hname typeName
  refine (and_congr h₂ h₁).trans ?_
  exact and_and_and_comm

theorem Simple.kind_unifyType {s t r : Simple} (h : s.unifyType? t = some r) :
    r.kind = .typeName := by
  simp only [unifyType?, Option.bind_eq_bind, Option.bind_eq_some_iff, Option.pure_def,
    Option.some.injEq] at h
  obtain ⟨ns, -, name, -, rfl⟩ := h
  rfl

theorem Label.kind_of_isUniversal {l : Label} (h : l.isUniversal) : l.kind = .typeName := by
  simp only [isUniversal, Bool.and_eq_true, beq_iff_eq] at h
  exact h.1

/-- A way to read the simple selectors of one element, as far as unification is concerned: equal ones
hold together, and types are read off the type and namespace of the element. -/
structure IsReading (holds : Simple → Prop) (typeName ns : String) : Prop where
  congr : ∀ {s t : Simple}, s.equal t → (holds s ↔ holds t)
  type : ∀ {s : Simple}, s.kind = .typeName → (holds s ↔ s.Admits typeName ns)

namespace IsReading

variable {holds : Simple → Prop} {typeName ns : String} (reading : IsReading holds typeName ns)
  {s t r : Simple} {ss rs : List Simple}

include reading

theorem of_open (hu : s.isUniversal) (hn : s.anyNamespace) : holds s := by
  have hname : s.name == "*" := by
    simp only [Label.isUniversal, Bool.and_eq_true] at hu
    exact hu.2
  exact (reading.type (Label.kind_of_isUniversal hu)).2 ⟨Or.inl hname, Or.inl hn⟩

theorem unifyType (hs : s.kind = .typeName) (ht : t.kind = .typeName)
    (h : s.unifyType? t = some r) : holds r ↔ holds s ∧ holds t := by
  rw [reading.type hs, reading.type ht, reading.type (Simple.kind_unifyType h)]
  exact Simple.admits_unifyType h typeName ns

theorem addType (hs : s.kind = .typeName) (h : addType? s ss = some rs) :
    (∀ r ∈ rs, holds r) ↔ holds s ∧ ∀ r ∈ ss, holds r := by
  cases ss with
  | nil =>
    cases h
    exact List.forall_mem_cons
  | cons s' rest =>
    simp only [addType?] at h
    split_ifs at h with hk ho
    · obtain ⟨r, hr, rfl⟩ := Option.map_eq_some_iff.1 h
      rw [List.forall_mem_cons, List.forall_mem_cons, reading.unifyType hs hk hr]
      exact and_assoc
    · cases h
      simp only [Bool.and_eq_true] at ho
      exact (and_iff_right (reading.of_open ho.1 ho.2)).symm
    · cases h
      exact List.forall_mem_cons

theorem add (h : addSimple?.add s ss = some rs) :
    (∀ r ∈ rs, holds r) ↔ holds s ∧ ∀ r ∈ ss, holds r := by
  unfold addSimple?.add at h
  split_ifs at h with hc hs
  · cases h
    obtain ⟨s', hs', he⟩ := containsSimple_iff.1 hs
    exact ⟨fun hx => ⟨(reading.congr he).2 (hx s' hs'), hx⟩, And.right⟩
  · cases h
    simp only [mem_insertBeforeElement, forall_eq_or_imp]

theorem addSimple (h : addSimple? s ss = some rs) :
    (∀ r ∈ rs, holds r) ↔ holds s ∧ ∀ r ∈ ss, holds r := by
  unfold addSimple? at h
  split_ifs at h with hk
  · exact reading.addType hk h
  · split at h
    · rename_i s'
      split_ifs at h with hu
      · rw [reading.addType (Label.kind_of_isUniversal hu) h, List.forall_mem_singleton,
          List.forall_mem_singleton]
        exact and_comm
      · exact reading.add h
    · exact reading.add h

theorem foldlM {ds : List Simple} (h : ds.foldlM (fun ss s => addSimple? s ss) ss = some rs) :
    (∀ r ∈ rs, holds r) ↔ (∀ r ∈ ss, holds r) ∧ ∀ r ∈ ds, holds r := by
  induction ds generalizing ss with
  | nil =>
    cases h
    simp
  | cons s ds ih =>
    rw [List.foldlM_cons] at h
    obtain ⟨ss', hs', h⟩ := Option.bind_eq_some_iff.1 h
    rw [ih h, reading.addSimple hs', List.forall_mem_cons]
    tauto

theorem unify {c d u : Compound} (h : c.unify? d = some u) :
    (∀ r ∈ u.simples, holds r) ↔ (∀ r ∈ c.simples, holds r) ∧ ∀ r ∈ d.simples, holds r := by
  unfold Compound.unify? at h
  split_ifs at h with hc hd
  · cases h
    have : c.simples = [] := List.isEmpty_iff.1 hc
    simp [this]
  · cases h
    have : d.simples = [] := List.isEmpty_iff.1 hd
    simp [this]
  · obtain ⟨rs, hr, rfl⟩ := Option.map_eq_some_iff.1 h
    exact reading.foldlM hr

end IsReading

namespace Subject

variable {x : Subject}

/-- All of some simple selectors hold. -/
def SatisfiesAll (x : Subject) (ss : List Simple) : Prop := ∀ s ∈ ss, x.Satisfies s

theorem satisfiesAll_cons {s : Simple} {ss : List Simple} :
    x.SatisfiesAll (s :: ss) ↔ x.Satisfies s ∧ x.SatisfiesAll ss := List.forall_mem_cons

theorem satisfies_type {s : Simple} (hs : s.kind = .typeName) :
    x.Satisfies s ↔ s.Admits x.typeName x.ns := by
  simp [Satisfies, hs, Simple.Admits, Label.isUniversal, Label.anyNamespace]

theorem satisfies_id {s : Simple} (hs : s.kind = .id) : x.Satisfies s ↔ x.id = some s.name := by
  simp [Satisfies, hs]

theorem isReading (x : Subject) : IsReading x.Satisfies x.typeName x.ns where
  congr := satisfies_congr
  type := satisfies_type

theorem satisfies_open {s : Simple} (hu : s.isUniversal) (hn : s.anyNamespace) : x.Satisfies s :=
  x.isReading.of_open hu hn

theorem not_satisfies_of_unifyType {s s' : Simple} (hs : s.kind = .typeName)
    (hs' : s'.kind = .typeName) (h : s.unifyType? s' = none) :
    ¬ (x.Satisfies s ∧ x.Satisfies s') := by
  rw [satisfies_type hs, satisfies_type hs']
  rintro ⟨⟨hname, hns⟩, hname', hns'⟩
  cases hn : agree? (fun v => v == "" || v == "*") s.ns s'.ns with
  | none => exact agree?_none hn x.ns ⟨hns, hns'⟩
  | some ns =>
    cases hm : agree? (· == "*") s.name s'.name with
    | none => exact agree?_none hm x.typeName ⟨hname, hname'⟩
    | some name => simp [Simple.unifyType?, hn, hm] at h

theorem not_satisfies_of_addType {s : Simple} {ss : List Simple} (hs : s.kind = .typeName)
    (h : addType? s ss = none) : ¬ (x.Satisfies s ∧ x.SatisfiesAll ss) := by
  cases ss with
  | nil => cases h
  | cons s' rest =>
    simp only [addType?] at h
    split_ifs at h with hk
    rw [Option.map_eq_none_iff] at h
    rintro ⟨h₁, h₂⟩
    exact not_satisfies_of_unifyType hs hk h ⟨h₁, (satisfiesAll_cons.1 h₂).1⟩

/-- An identifier is the only thing that keeps a plain simple selector out of a compound, types
apart. -/
theorem not_satisfies_of_add {s : Simple} {ss : List Simple} (hs : s.isPlain)
    (h : addSimple?.add s ss = none) : ¬ (x.Satisfies s ∧ x.SatisfiesAll ss) := by
  unfold addSimple?.add at h
  split_ifs at h with hc
  rintro ⟨h₁, h₂⟩
  obtain ⟨s', hs', hcs⟩ := List.any_eq_true.1 hc
  have hel : s.isPseudoElement = false := by
    simp only [Simple.isPlain, Bool.and_eq_true, Bool.not_eq_true'] at hs
    exact hs.2
  simp only [conflicts, hel, Bool.false_and, Bool.or_false, Bool.and_eq_true, beq_iff_eq,
    bne_iff_ne] at hcs
  obtain ⟨⟨hk, hk'⟩, hne⟩ := hcs
  have hid := (satisfies_id hk).1 h₁
  rw [(satisfies_id hk').1 (h₂ s' hs')] at hid
  exact hne (Option.some.inj hid)

theorem not_satisfies_of_addSimple {s : Simple} {ss : List Simple} (hs : s.isPlain)
    (h : addSimple? s ss = none) : ¬ (x.Satisfies s ∧ x.SatisfiesAll ss) := by
  unfold addSimple? at h
  split_ifs at h with hk
  · exact not_satisfies_of_addType hk h
  · split at h
    · rename_i s'
      split_ifs at h with hu
      · simp only [addType?, hk, if_false] at h
        split_ifs at h
      · exact not_satisfies_of_add hs h
    · exact not_satisfies_of_add hs h

theorem not_satisfiesAll_of_foldlM {ds ss : List Simple} (hd : ∀ s ∈ ds, s.isPlain)
    (h : ds.foldlM (fun ss s => addSimple? s ss) ss = none) :
    ¬ (x.SatisfiesAll ss ∧ x.SatisfiesAll ds) := by
  induction ds generalizing ss with
  | nil => cases h
  | cons s ds ih =>
    obtain ⟨hs, hd⟩ := List.forall_mem_cons.1 hd
    rw [List.foldlM_cons] at h
    rintro ⟨hx, hx'⟩
    obtain ⟨hxs, hxd⟩ := satisfiesAll_cons.1 hx'
    cases hs' : addSimple? s ss with
    | none => exact not_satisfies_of_addSimple hs hs' ⟨hxs, hx⟩
    | some ss' =>
      simp only [hs', Option.bind_eq_bind, Option.bind_some] at h
      exact ih hd h ⟨(x.isReading.addSimple hs').2 ⟨hxs, hx⟩, hxd⟩

theorem fits_unify {c d u : Compound} (h : c.unify? d = some u) :
    x.Fits u ↔ x.Fits c ∧ x.Fits d :=
  x.isReading.unify h

theorem not_fits_of_unify {c d : Compound} (hd : d.isPlain) (h : c.unify? d = none) :
    ¬ (x.Fits c ∧ x.Fits d) := by
  unfold Compound.unify? at h
  split_ifs at h
  exact not_satisfiesAll_of_foldlM (Compound.isPlain_iff.1 hd) (Option.map_eq_none_iff.1 h)

end Subject

/-! ### Where the simple selectors of a unified compound come from -/

theorem mem_addType {s r : Simple} {ss rs : List Simple} (h : addType? s ss = some rs)
    (hr : r ∈ rs) : r = s ∨ r ∈ ss ∨ ∃ ns name, r = .ofType ns name := by
  cases ss with
  | nil =>
    cases h
    exact Or.inl (List.mem_singleton.1 hr)
  | cons s' rest =>
    simp only [addType?] at h
    split_ifs at h
    · obtain ⟨u, hu, rfl⟩ := Option.map_eq_some_iff.1 h
      simp only [Simple.unifyType?, Option.bind_eq_bind, Option.bind_eq_some_iff, Option.pure_def,
        Option.some.injEq] at hu
      obtain ⟨ns, -, name, -, rfl⟩ := hu
      rcases List.mem_cons.1 hr with rfl | hr
      · exact Or.inr (Or.inr ⟨ns, name, rfl⟩)
      · exact Or.inr (Or.inl (List.mem_cons_of_mem _ hr))
    · cases h
      exact Or.inr (Or.inl hr)
    · cases h
      exact (List.mem_cons.1 hr).imp_right Or.inl

theorem mem_add {s r : Simple} {ss rs : List Simple} (h : addSimple?.add s ss = some rs)
    (hr : r ∈ rs) : r = s ∨ r ∈ ss := by
  unfold addSimple?.add at h
  split_ifs at h
  · cases h
    exact Or.inr hr
  · cases h
    exact mem_insertBeforeElement.1 hr

theorem mem_addSimple {s r : Simple} {ss rs : List Simple} (h : addSimple? s ss = some rs)
    (hr : r ∈ rs) : r = s ∨ r ∈ ss ∨ ∃ ns name, r = .ofType ns name := by
  have hadd (h : addSimple?.add s ss = some rs) : r = s ∨ r ∈ ss ∨ ∃ ns name, r = .ofType ns name :=
    (mem_add h hr).imp_right Or.inl
  unfold addSimple? at h
  split_ifs at h
  · exact mem_addType h hr
  · split at h
    · split_ifs at h
      · rcases mem_addType h hr with hr | hr | hr
        · exact Or.inr (Or.inl (List.mem_singleton.2 hr))
        · exact Or.inl (List.mem_singleton.1 hr)
        · exact Or.inr (Or.inr hr)
      · exact hadd h
    · exact hadd h

theorem mem_foldlM_addSimple {r : Simple} {ds ss rs : List Simple}
    (h : ds.foldlM (fun ss s => addSimple? s ss) ss = some rs) (hr : r ∈ rs) :
    r ∈ ss ∨ r ∈ ds ∨ ∃ ns name, r = .ofType ns name := by
  induction ds generalizing ss with
  | nil =>
    cases h
    exact Or.inl hr
  | cons s ds ih =>
    rw [List.foldlM_cons] at h
    obtain ⟨ss', hs', h⟩ := Option.bind_eq_some_iff.1 h
    rcases ih h with hr | hr | hr
    · rcases mem_addSimple hs' hr with rfl | hr | hr
      · exact Or.inr (Or.inl (List.mem_cons_self ..))
      · exact Or.inl hr
      · exact Or.inr (Or.inr hr)
    · exact Or.inr (Or.inl (List.mem_cons_of_mem _ hr))
    · exact Or.inr (Or.inr hr)

theorem mem_unify {c d u : Compound} (h : c.unify? d = some u) {r : Simple} (hr : r ∈ u.simples) :
    r ∈ c.simples ∨ r ∈ d.simples ∨ ∃ ns name, r = .ofType ns name := by
  unfold Compound.unify? at h
  split_ifs at h
  · cases h
    exact Or.inr (Or.inl hr)
  · cases h
    exact Or.inl hr
  · obtain ⟨rs, hrs, rfl⟩ := Option.map_eq_some_iff.1 h
    exact mem_foldlM_addSimple hrs hr

theorem isPlain_unify {c d u : Compound} (h : c.unify? d = some u) (hc : c.isPlain)
    (hd : d.isPlain) : u.isPlain := by
  refine Compound.isPlain_iff.2 fun r hr => ?_
  rcases mem_unify h hr with hr | hr | ⟨ns, name, rfl⟩
  · exact Compound.isPlain_iff.1 hc r hr
  · exact Compound.isPlain_iff.1 hd r hr
  · exact Simple.isPlain_of_kind (by simp [Simple.ofType])

/-! ### The superselector check -/

namespace Superselector

theorem splitAtElement_of_forall {ss : List Simple} (h : ∀ s ∈ ss, ¬ s.isPseudoElement) :
    splitAtElement ss = none := by
  have hdrop : ss.dropWhile (!·.isPseudoElement) = [] := by
    apply List.dropWhile_eq_nil_iff.2
    intro s hs
    simpa using h s hs
  simp [splitAtElement, List.span_eq_takeWhile_dropWhile, hdrop]

theorem splitAtElement_eq_none {c : Compound} (hc : c.isPlain) : splitAtElement c.simples = none := by
  apply splitAtElement_of_forall
  intro s hs
  have hplain := Compound.isPlain_iff.1 hc s hs
  simp only [Simple.isPlain, Bool.and_eq_true, Bool.not_eq_true'] at hplain
  simp [hplain.2]

theorem alternativesHold_eq_false (s : Simple) {s' : Simple} (h : s'.isPlain) :
    alternativesHold s s' = false := by
  simp only [Simple.isPlain, Bool.and_eq_true, Bool.not_eq_true'] at h
  simp [alternativesHold, h.1]

theorem compoundTest_iff {test : PathTest} {c d : Compound} {parents : List Component}
    (hc : c.isPlain) (hd : d.isPlain) : compoundTest test c d parents ↔
      ∀ s ∈ c.simples, ∃ s' ∈ d.simples, s.isSuperselectorOf s' := by
  have hs (s : Simple) : simpleTest s d.simples ↔ ∃ s' ∈ d.simples, s.isSuperselectorOf s' := by
    simp only [simpleTest, List.any_eq_true, Bool.or_eq_true]
    refine exists_congr fun s' => and_congr_right fun hs' => ?_
    simp [alternativesHold_eq_false s (Compound.isPlain_iff.1 hd s' hs')]
  simp only [compoundTest, splitAtElement_eq_none hc, splitAtElement_eq_none hd, simplesTest,
    List.all_eq_true]
  refine forall_congr' fun s => imp_congr_right fun hmem => ?_
  have hp := Compound.isPlain_iff.1 hc s hmem
  cases hsel : s.selector with
  | none => exact hs s
  | some list =>
    have hk : s.kind ≠ .pseudo := by
      intro hk
      simp [Simple.isPlain, Simple.hasSelector, hk, hsel] at hp
    simpa only [hk, if_false] using hs s

end Superselector

theorem Simple.isSuperselectorOf_refl (s : Simple) : s.isSuperselectorOf s := by
  simp [isSuperselectorOf, s.equal_refl]

theorem Simple.isSuperselectorOf_sound {s s' : Simple} (h : s.isSuperselectorOf s') {x : Subject}
    (hx : x.Satisfies s') : x.Satisfies s := by
  simp only [isSuperselectorOf, Bool.or_eq_true, Bool.and_eq_true, beq_iff_eq] at h
  rcases h with h | ⟨hk, ⟨hu, hn⟩ | ⟨⟨hk', hns⟩, hname⟩⟩
  · exact (Subject.satisfies_congr h).2 hx
  · exact Subject.satisfies_open hu hn
  · simp only [Subject.Satisfies, hk, hk'] at hx ⊢
    refine ⟨?_, ?_⟩
    · rcases hname with hu | hname
      · exact Or.inl hu
      · simpa only [Label.isUniversal, hk, hk', hname] using hx.1
    · rcases hns with ho | hns
      · exact Or.inl ho
      · simpa only [Label.anyNamespace, hns] using hx.2

open Superselector in
/-- What a compound is above fits wherever the other one does. -/
theorem compoundTest_sound {test : PathTest} {c d : Compound} {parents : List Component}
    (hc : c.isPlain) (hd : d.isPlain) (h : compoundTest test c d parents) {x : Subject}
    (hx : x.Fits d) : x.Fits c := by
  intro s hs
  obtain ⟨s', hs', hsuper⟩ := (compoundTest_iff hc hd).1 h s hs
  exact Simple.isSuperselectorOf_sound hsuper (hx s' hs')

open Superselector in
theorem compoundTest_refl {test : PathTest} {c : Compound} {parents : List Component}
    (hc : c.isPlain) : compoundTest test c c parents :=
  (compoundTest_iff hc hc).2 fun s hs => ⟨s, hs, s.isSuperselectorOf_refl⟩

namespace Compound

theorem isSuperselectorOf_sound {c d : Compound} (hc : c.isPlain) (hd : d.isPlain)
    (h : c.isSuperselectorOf d) {x : Subject} (hx : x.Fits d) : x.Fits c :=
  compoundTest_sound hc hd h hx

theorem isSuperselectorOf_refl {c : Compound} (hc : c.isPlain) : c.isSuperselectorOf c :=
  compoundTest_refl hc

end Compound

end SelectorCalculus
