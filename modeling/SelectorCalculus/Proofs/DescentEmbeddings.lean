import SelectorCalculus.Proofs.ExtensionResults
import SelectorCalculus.Proofs.NestedChecks
import Mathlib.Data.Fin.VecNotation
import Mathlib.Order.Fin.Basic
/-! The superselector check on paths without explicit combinators is exact: it finds an increasing
map of positions whenever there is one. -/

namespace SelectorCalculus

open Superselector

/-! ### Threads as maps of positions -/

/-- A map of the positions of some compounds to those of others: it is strictly increasing, each
compound is related to the one at its image, and the last position goes to the last. -/
structure IsThreading (R : Compound → Compound → Prop) (cs ds : List Compound)
    (f : Fin cs.length → Fin ds.length) : Prop where
  increasing : StrictMono f
  related : ∀ i, R (cs.get i) (ds.get (f i))
  last : ∀ i, i.val + 1 = cs.length → (f i).val + 1 = ds.length

namespace IsThreading

variable {R : Compound → Compound → Prop} {c d : Compound} {cs ds : List Compound}

theorem skip {f : Fin cs.length → Fin ds.length} (h : IsThreading R cs ds f) (d : Compound) :
    IsThreading R cs (d :: ds) (fun i => (f i).succ) where
  increasing := by
    intro i j hij
    have hlt := h.increasing hij
    exact Fin.succ_lt_succ_iff.2 hlt
  related := h.related
  last := by
    intro i hi
    have hlast := h.last i hi
    simp only [Fin.val_succ, List.length_cons]
    omega

theorem take {f : Fin cs.length → Fin ds.length} (h : IsThreading R cs ds f) (hcs : cs ≠ [])
    (hcd : R c d) :
    IsThreading R (c :: cs) (d :: ds) (Fin.cases 0 fun i => (f i).succ) where
  increasing := by
    intro i j hij
    cases j using Fin.cases with
    | zero => exact absurd hij (Fin.not_lt_zero i)
    | succ j =>
      cases i using Fin.cases with
      | zero => exact Fin.succ_pos (f j)
      | succ i =>
        have hlt := h.increasing (Fin.succ_lt_succ_iff.1 hij)
        exact Fin.succ_lt_succ_iff.2 hlt
  related := by
    intro i
    cases i using Fin.cases with
    | zero => exact hcd
    | succ i => exact h.related i
  last := by
    intro i hi
    have hpos : 0 < cs.length := List.length_pos_iff.2 hcs
    cases i using Fin.cases with
    | zero =>
      simp only [Fin.val_zero, List.length_cons] at hi
      omega
    | succ i =>
      have hlast := h.last i (by simpa using hi)
      simpa using hlast

theorem tail {f : Fin (c :: cs).length → Fin ds.length} (h : IsThreading R (c :: cs) ds f) :
    IsThreading R cs ds (fun i => f i.succ) where
  increasing := by
    intro i j hij
    apply h.increasing
    exact Fin.succ_lt_succ_iff.2 hij
  related i := h.related i.succ
  last := by
    intro i hi
    apply h.last
    simp only [Fin.val_succ, List.length_cons]
    omega

theorem lower {f : Fin cs.length → Fin (d :: ds).length} (h : IsThreading R cs (d :: ds) f)
    (hf : ∀ i, f i ≠ 0) : IsThreading R cs ds (fun i => (f i).pred (hf i)) where
  increasing := by
    intro i j hij
    have hlt := h.increasing hij
    exact Fin.pred_lt_pred_iff.2 hlt
  related := by
    intro i
    have hrelated := h.related i
    rw [← Fin.succ_pred (f i) (hf i)] at hrelated
    exact hrelated
  last := by
    intro i hi
    have hlast := h.last i hi
    have hpos : 0 < (f i).val := Fin.pos_iff_ne_zero.2 (hf i)
    simp only [Fin.val_pred, List.length_cons] at hlast ⊢
    omega

end IsThreading

theorem Threads.exists_isThreading {R : Compound → Compound → Prop} {cs ds : List Compound}
    (h : Threads R cs ds) : ∃ f, IsThreading R cs ds f := by
  induction h with
  | last hcd =>
    refine ⟨id, strictMono_id, ?_, fun _ h => h⟩
    intro i
    rw [Fin.eq_zero i]
    exact hcd
  | take hcd rest ih =>
    obtain ⟨f, hf⟩ := ih
    exact ⟨_, hf.take rest.ne_nil hcd⟩
  | skip _ ih =>
    obtain ⟨f, hf⟩ := ih
    exact ⟨_, hf.skip _⟩

theorem IsThreading.threads {R : Compound → Compound → Prop} {cs ds : List Compound} (hcs : cs ≠ [])
    {f : Fin cs.length → Fin ds.length} (h : IsThreading R cs ds f) : Threads R cs ds := by
  obtain ⟨c, cs, rfl⟩ := List.exists_cons_of_ne_nil hcs
  induction ds generalizing c cs with
  | nil => exact (f 0).elim0
  | cons d ds ih =>
    by_cases hzero : f 0 = 0
    · have hcd : R c d := by
        have hrelated := h.related 0
        rw [hzero] at hrelated
        exact hrelated
      cases cs with
      | nil =>
        have hlast := h.last 0 rfl
        rw [hzero] at hlast
        have hds : ds = [] := List.eq_nil_of_length_eq_zero (by simpa using hlast)
        rw [hds]
        exact .last hcd
      | cons c' cs =>
        have hpos : ∀ i : Fin (c' :: cs).length, f i.succ ≠ 0 := by
          intro i
          have hlt := h.increasing (Fin.succ_pos i)
          exact Fin.ne_zero_of_lt hlt
        exact .take hcd (ih c' cs (List.cons_ne_nil _ _) (h.tail.lower hpos))
    · have hpos : ∀ i, f i ≠ 0 := by
        intro i hi
        have hle : f 0 ≤ f i := h.increasing.monotone (Fin.zero_le i)
        rw [hi] at hle
        exact hzero (Fin.le_zero_iff.1 hle)
      exact .skip (ih c cs hcs (h.lower hpos))

theorem Threads.imp {R S : Compound → Compound → Prop} {cs ds : List Compound}
    (h : Threads R cs ds) (hRS : ∀ c ∈ cs, ∀ d ∈ ds, R c d → S c d) : Threads S cs ds := by
  induction h with
  | last hcd => exact .last (hRS _ (by simp) _ (by simp) hcd)
  | take hcd _ ih =>
    refine .take (hRS _ (by simp) _ (by simp) hcd) (ih ?_)
    intro c hc d hd
    exact hRS c (List.mem_cons_of_mem _ hc) d (List.mem_cons_of_mem _ hd)
  | skip _ ih =>
    refine .skip (ih ?_)
    intro c hc d hd
    exact hRS c hc d (List.mem_cons_of_mem _ hd)

/-! ### The check on compounds without selector arguments -/

namespace Superselector

theorem simplesTest_flat {ss : List Simple} (h : ∀ s ∈ ss, s.hasSelector = false)
    (test test' : PathTest) (ts : List Simple) (parents parents' : List Component) :
    simplesTest test ss ts parents = simplesTest test' ss ts parents' := by
  rw [Bool.eq_iff_iff, simplesTest_iff, simplesTest_iff]
  apply forall₂_congr
  intro s hs
  have hplain : ¬ s.hasSelector := by simp [h s hs]
  rw [simplesTest_plain hplain, simplesTest_plain hplain]

/-- What a compound without selector arguments is above depends neither on the check for nested
selectors nor on the path before the other compound. -/
theorem compoundTest_flat {c : Compound} (hc : c.isFlat) (test : PathTest) (d : Compound)
    (parents : List Component) : compoundTest test c d parents = c.isSuperselectorOf d := by
  have hflat := Compound.isFlat_iff.1 hc
  unfold Compound.isSuperselectorOf compoundTest
  cases hsplit : splitAtElement c.simples with
  | none =>
    cases splitAtElement d.simples with
    | none => exact simplesTest_flat hflat ..
    | some _ => rfl
  | some parts =>
    obtain ⟨before, e, after⟩ := parts
    have hsimples := splitAtElement_eq_some hsplit
    have hbefore : ∀ s ∈ before, s.hasSelector = false := by
      intro s hs
      apply hflat
      simp [hsimples, hs]
    have hafter : ∀ s ∈ after, s.hasSelector = false := by
      intro s hs
      apply hflat
      simp [hsimples, hs]
    cases splitAtElement d.simples with
    | none => rfl
    | some _ =>
      have hleft := simplesTest_flat hbefore test
      have hright := simplesTest_flat hafter test
      simp only
      rw [hleft, hright]

/-- On paths of compounds the greedy walk finds every thread. -/
theorem walk_iff_threads {test : PathTest} {cs ds : List Compound} (hcs : ∀ c ∈ cs, c.isFlat) :
    walk test (descent cs) (descent ds) ↔ Threads (fun c d => c.isSuperselectorOf d) cs ds := by
  constructor
  · intro h
    have hthreads := threads_of_walk h
    rw [compoundsOf_descent, compoundsOf_descent] at hthreads
    apply hthreads.imp
    intro c hc d _ habove
    obtain ⟨parents, htest⟩ := habove
    rwa [compoundTest_flat (hcs c hc)] at htest
  · intro h
    have hcompounds : (descent ds).all Component.isCompound := by
      simp [descent, Component.isCompound]
    have hne : descent ds ≠ [] := by
      intro hnil
      rw [List.map_eq_nil_iff.1 hnil] at h
      exact h.not_nil_right
    apply walk_of_threads (isWellFormed_of_all hcompounds hne) (isSiblingFree_of_all hcompounds)
    · intro c hc d _ habove parents
      rwa [compoundTest_flat (hcs c hc)]
    · rwa [compoundsOf_descent]

theorem isSuperpath_iff_threads {cs ds : List Compound} (hcs : ∀ c ∈ cs, c.isFlat) :
    isSuperpath (descent cs) (descent ds) ↔ Threads (fun c d => c.isSuperselectorOf d) cs ds := by
  have hends (cs : List Compound) : endsWithCombinator (descent cs) = false := by
    rw [endsWithCombinator, descent, List.getLast?_map]
    cases cs.getLast? <;> rfl
  unfold isSuperpath
  rw [pathTest_eq, layer, hends, hends]
  exact walk_iff_threads hcs

end Superselector

namespace Complex

/-- On selectors without explicit combinators the greedy check is exact: a selector whose compounds
have no selector arguments is found to be above another exactly if neither is empty and its
positions can be mapped to those of the other, strictly increasing and the last to the last, so that
each compound is above the one at its image. -/
theorem isSuperselectorOf_iff_exists_isThreading {c d : Complex}
    (hc : c.components.all Component.isCompound) (hd : d.components.all Component.isCompound)
    (hflat : isFlatPath c.components) :
    c.isSuperselectorOf d ↔ c.compounds ≠ [] ∧ d.compounds ≠ [] ∧
      ∃ f, IsThreading (fun a b => a.isSuperselectorOf b) c.compounds d.compounds f := by
  have hcs : ∀ a ∈ compoundsOf c.components, a.isFlat := List.all_eq_true.1 hflat
  have hthreads : c.isSuperselectorOf d ↔
      Threads (fun a b => a.isSuperselectorOf b) c.compounds d.compounds := by
    unfold isSuperselectorOf
    rw [← descent_compoundsOf hc, ← descent_compoundsOf hd]
    exact isSuperpath_iff_threads hcs
  constructor
  · intro h
    have h := hthreads.1 h
    have hne : d.compounds ≠ [] := by
      intro hnil
      rw [hnil] at h
      exact h.not_nil_right
    exact ⟨h.ne_nil, hne, h.exists_isThreading⟩
  · intro h
    obtain ⟨hne, -, f, hf⟩ := h
    exact hthreads.2 (hf.threads hne)

/-- In `.a .x .a .b.y::before` the path `.a .b::before` is found, its first compound at the first of
two places where it could be. -/
theorem isSuperselectorOf_iff_exists_isThreading_element :
    let name (s : String) : Simple := { kind := .className, name := s }
    let before : Simple := { kind := .pseudo, name := "before", element := true }
    let c := ofComponents (descent [.ofClass "a", .ofSimples [name "b", before]])
    let d := ofComponents (descent
      [.ofClass "a", .ofClass "x", .ofClass "a", .ofSimples [name "b", name "y", before]])
    c.isSuperselectorOf d ∧
      ∃ f, IsThreading (fun a b => a.isSuperselectorOf b) c.compounds d.compounds f := by
  intro name before c d
  have hf : ∃ f, IsThreading (fun a b => a.isSuperselectorOf b) c.compounds d.compounds f :=
    ⟨(![0, 3] : Fin 2 → Fin 4), by unfold StrictMono; decide, by decide +kernel, by decide⟩
  have hexact := isSuperselectorOf_iff_exists_isThreading (c := c) (d := d) rfl rfl rfl
  exact ⟨hexact.2 ⟨List.cons_ne_nil _ _, List.cons_ne_nil _ _, hf⟩, hf⟩

end Complex

end SelectorCalculus
