import SelectorCalculus.Proofs.LongestCommon
import SelectorCalculus.Weave.Combinators
/-! Longest common subsequences by positions, and the merging of the combinators in front of two
paths. -/

namespace SelectorCalculus

open scoped List

variable {select : α → β → Option γ} {xs : List α} {ys : List β} {vs : List γ}

/-! ### Chains of positions -/

/-- Pairs of positions that increase in both lists, with the values selected at them. -/
structure IsCommonChain (select : α → β → Option γ) (xs : List α) (ys : List β)
    (pairs : List (Nat × Nat)) (vs : List γ) : Prop where
  increasing : pairs.Pairwise fun p q => p.1 < q.1 ∧ p.2 < q.2
  selected : List.Forall₂ (fun p v => ∃ x y, xs[p.1]? = some x ∧ ys[p.2]? = some y ∧
    select x y = some v) pairs vs

namespace IsCommonChain

variable {pairs : List (Nat × Nat)}

theorem length_eq (h : IsCommonChain select xs ys pairs vs) : pairs.length = vs.length :=
  h.selected.length_eq

theorem shift {xs' : List α} {ys' : List β} {m n : Nat} (h : IsCommonChain select xs ys pairs vs)
    (hxs : ∀ i, xs'[i + m]? = xs[i]?) (hys : ∀ j, ys'[j + n]? = ys[j]?) :
    IsCommonChain select xs' ys' (pairs.map fun p => (p.1 + m, p.2 + n)) vs where
  increasing := by
    rw [List.pairwise_map]
    refine h.increasing.imp fun hlt => ?_
    exact ⟨Nat.add_lt_add_right hlt.1 m, Nat.add_lt_add_right hlt.2 n⟩
  selected := by
    rw [List.forall₂_map_left_iff]
    refine h.selected.imp fun p v hv => ?_
    rw [hxs, hys]
    exact hv

theorem cons {x : α} {y : β} {v : γ} (hv : select x y = some v)
    (h : IsCommonChain select xs ys pairs vs) :
    IsCommonChain select (x :: xs) (y :: ys) ((0, 0) :: pairs.map fun p => (p.1 + 1, p.2 + 1))
      (v :: vs) := by
  have hlater : IsCommonChain select (x :: xs) (y :: ys)
      (pairs.map fun p => (p.1 + 1, p.2 + 1)) vs := h.shift (fun _ => rfl) fun _ => rfl
  refine ⟨List.pairwise_cons.2 ⟨fun p hp => ?_, hlater.increasing⟩,
    .cons ⟨x, y, rfl, rfl, hv⟩ hlater.selected⟩
  obtain ⟨q, -, rfl⟩ := List.mem_map.1 hp
  exact ⟨Nat.succ_pos _, Nat.succ_pos _⟩

end IsCommonChain

theorem Common.exists_isCommonChain (h : Common select xs ys vs) :
    ∃ pairs, IsCommonChain select xs ys pairs vs := by
  induction h with
  | done xs ys => exact ⟨[], .nil, .nil⟩
  | skipLeft x _ ih =>
    obtain ⟨pairs, hpairs⟩ := ih
    exact ⟨_, hpairs.shift (m := 1) (n := 0) (fun _ => rfl) fun _ => rfl⟩
  | skipRight y _ ih =>
    obtain ⟨pairs, hpairs⟩ := ih
    exact ⟨_, hpairs.shift (m := 0) (n := 1) (fun _ => rfl) fun _ => rfl⟩
  | take hv _ ih =>
    obtain ⟨pairs, hpairs⟩ := ih
    exact ⟨_, hpairs.cons hv⟩

theorem Common.of_suffix {xs' : List α} {ys' : List β} (h : Common select xs ys vs)
    (hxs : xs <:+ xs') (hys : ys <:+ ys') : Common select xs' ys' vs := by
  obtain ⟨front, rfl⟩ := hxs
  obtain ⟨front', rfl⟩ := hys
  have hleft : Common select (front ++ xs) ys vs := by
    induction front with
    | nil => exact h
    | cons x front ih => exact .skipLeft x ih
  induction front' with
  | nil => exact hleft
  | cons y front' ih => exact .skipRight y ih

theorem IsCommonChain.common_drop {pairs : List (Nat × Nat)}
    (h : IsCommonChain select xs ys pairs vs) {i j : Nat} (hle : ∀ p ∈ pairs, i ≤ p.1 ∧ j ≤ p.2) :
    Common select (xs.drop i) (ys.drop j) vs := by
  obtain ⟨hincreasing, hselected⟩ := h
  induction hselected generalizing i j with
  | nil => exact .done _ _
  | @cons p v pairs vs hv _ ih =>
    obtain ⟨hfirst, hincreasing⟩ := List.pairwise_cons.1 hincreasing
    obtain ⟨x, y, hx, hy, hv⟩ := hv
    obtain ⟨hi, hj⟩ := hle p (List.mem_cons_self ..)
    have hrest : Common select (xs.drop (p.1 + 1)) (ys.drop (p.2 + 1)) vs :=
      ih (fun q hq => hfirst q hq) hincreasing
    have htake : Common select (xs.drop p.1) (ys.drop p.2) (v :: vs) := by
      rw [List.drop_eq_getElem?_toList_append, List.drop_eq_getElem?_toList_append (l := ys), hx,
        hy]
      exact .take hv hrest
    exact htake.of_suffix (List.drop_suffix_drop_left _ hi) (List.drop_suffix_drop_left _ hj)

/-- Common lists are what is selected along chains. -/
theorem common_iff_exists_isCommonChain :
    Common select xs ys vs ↔ ∃ pairs, IsCommonChain select xs ys pairs vs := by
  refine ⟨Common.exists_isCommonChain, fun ⟨pairs, hpairs⟩ => ?_⟩
  have hdrop : Common select (xs.drop 0) (ys.drop 0) vs :=
    hpairs.common_drop fun p _ => ⟨Nat.zero_le _, Nat.zero_le _⟩
  simpa using hdrop

/-! ### Equality as selection -/

section Equality

variable [DecidableEq α] {zs : List α}

/-- Two elements count as common if they are the same. -/
def same? (x y : α) : Option α := if x = y then some x else none

theorem same?_eq_some_iff {x y z : α} : same? x y = some z ↔ x = y ∧ x = z := by
  simp [same?]

theorem Common.sublist {ys : List α} (h : Common same? xs ys zs) : zs <+ xs ∧ zs <+ ys := by
  induction h with
  | done xs ys => exact ⟨xs.nil_sublist, ys.nil_sublist⟩
  | skipLeft x _ ih => exact ⟨ih.1.cons x, ih.2⟩
  | skipRight y _ ih => exact ⟨ih.1, ih.2.cons y⟩
  | take hv _ ih =>
    obtain ⟨rfl, rfl⟩ := same?_eq_some_iff.1 hv
    exact ⟨ih.1.cons_cons _, ih.2.cons_cons _⟩

theorem common_of_sublist {ys : List α} (h : xs <+ ys) : Common same? xs ys xs := by
  induction h with
  | slnil => exact .done [] []
  | cons y _ ih => exact .skipRight y ih
  | cons_cons x _ ih => exact .take (same?_eq_some_iff.2 ⟨rfl, rfl⟩) ih

theorem Common.symm {ys : List α} (h : Common same? xs ys zs) : Common same? ys xs zs := by
  induction h with
  | done xs ys => exact .done ys xs
  | skipLeft x _ ih => exact .skipRight x ih
  | skipRight y _ ih => exact .skipLeft y ih
  | take hv _ ih =>
    obtain ⟨rfl, rfl⟩ := same?_eq_some_iff.1 hv
    exact .take (same?_eq_some_iff.2 ⟨rfl, rfl⟩) ih

theorem longestCommon_same_sublist (xs ys : List α) :
    longestCommon same? xs ys <+ xs ∧ longestCommon same? xs ys <+ ys :=
  (common_longestCommon xs ys).sublist

theorem longestCommon_same_eq_left_iff {ys : List α} :
    longestCommon same? xs ys = xs ↔ xs <+ ys := by
  obtain ⟨hleft, hright⟩ := longestCommon_same_sublist xs ys
  refine ⟨fun h => h ▸ hright, fun h => ?_⟩
  exact hleft.eq_of_length_le (common_of_sublist h).length_le_longestCommon

theorem longestCommon_same_eq_right_iff {ys : List α} :
    longestCommon same? xs ys = ys ↔ ys <+ xs := by
  obtain ⟨hleft, hright⟩ := longestCommon_same_sublist xs ys
  refine ⟨fun h => h ▸ hleft, fun h => ?_⟩
  exact hright.eq_of_length_le (common_of_sublist h).symm.length_le_longestCommon

/-- The longer of two lists, the second if they are of the same length. -/
def longer (xs ys : List α) : List α := if xs.length ≤ ys.length then ys else xs

theorem longerOf?_eq (xs ys : List α) :
    longerOf? xs ys = if xs <+ ys ∨ ys <+ xs then some (longer xs ys) else none := by
  have hcommon : longerOf? xs ys =
      if longestCommon same? xs ys = xs then some ys
      else if longestCommon same? xs ys = ys then some xs else none := rfl
  rw [hcommon]
  simp only [longestCommon_same_eq_left_iff, longestCommon_same_eq_right_iff]
  by_cases hleft : xs <+ ys
  · rw [if_pos hleft, if_pos (Or.inl hleft), longer, if_pos hleft.length_le]
  · by_cases hright : ys <+ xs
    · have hlt : ¬ xs.length ≤ ys.length := fun hle =>
        hleft (hright.eq_of_length_le hle ▸ List.Sublist.refl _)
      rw [if_neg hleft, if_pos hright, if_pos (Or.inr hright), longer, if_neg hlt]
    · rw [if_neg hleft, if_neg hright, if_neg (not_or.2 ⟨hleft, hright⟩)]

end Equality

/-! ### Combinators in front of paths -/

namespace Weave

/-- The combinators in front of a path. -/
def leadingCombinators (cs : List Component) : List Combinator :=
  (cs.takeWhile Component.isCombinator).filterMap Component.combinator?

theorem takeCombinators_eq (cs : List Component) :
    takeCombinators cs = (leadingCombinators cs, cs.dropWhile Component.isCombinator) := by
  induction cs with
  | nil => rfl
  | cons c cs ih =>
    cases c with
    | compound c => rfl
    | combinator k =>
      rw [takeCombinators, ih]
      rfl

theorem mergeLeading?_eq (cs ds : List Component) :
    mergeLeading? cs ds =
      if leadingCombinators cs <+ leadingCombinators ds ∨
          leadingCombinators ds <+ leadingCombinators cs then
        some (longer (leadingCombinators cs) (leadingCombinators ds),
          cs.dropWhile Component.isCombinator, ds.dropWhile Component.isCombinator)
      else none := by
  unfold mergeLeading?
  rw [takeCombinators_eq, takeCombinators_eq]
  simp only [longerOf?_eq]
  split <;> rfl

end Weave

open Weave

/-- The computed list is selected along a chain of positions, and no chain is longer. So the
combinators in front of two paths are merged exactly if those of one are a subsequence of those of
the other, and then the longer run is taken. -/
theorem longestCommon_isLongest (select : α → β → Option γ) (xs : List α) (ys : List β) :
    (∃ pairs, IsCommonChain select xs ys pairs (longestCommon select xs ys)) ∧
    (∀ pairs vs, IsCommonChain select xs ys pairs vs →
      pairs.length ≤ (longestCommon select xs ys).length) ∧
    ∀ cs ds : List Component,
      let ks := leadingCombinators cs
      let ks' := leadingCombinators ds
      ((mergeLeading? cs ds).isSome ↔ ks <+ ks' ∨ ks' <+ ks) ∧
      ∀ merged, mergeLeading? cs ds = some merged → merged =
        (if ks.length ≤ ks'.length then ks' else ks, cs.dropWhile Component.isCombinator,
          ds.dropWhile Component.isCombinator) := by
  refine ⟨(common_longestCommon xs ys).exists_isCommonChain, fun pairs vs h => ?_, fun cs ds => ?_⟩
  · have hcommon : Common select xs ys vs := common_iff_exists_isCommonChain.2 ⟨pairs, h⟩
    rw [h.length_eq]
    exact hcommon.length_le_longestCommon
  · intro ks ks'
    rw [mergeLeading?_eq]
    refine ⟨by simp [ks, ks'], fun merged h => ?_⟩
    obtain ⟨-, h⟩ := Option.ite_none_right_eq_some.1 h
    exact (Option.some.inj h).symm

/-- Where smaller elements are selected with larger ones, two chains of `3, 1, 2` and `2, 4, 3` are
longest. Of `~` and `> ~` in front of two paths the second is taken. -/
theorem longestCommon_isLongest_smaller :
    let select (x y : Nat) : Option (Nat × Nat) := if x < y then some (x, y) else none
    let path (ks : List Combinator) : List Component :=
      ks.map .combinator ++ [.compound (.ofSimples [])]
    let merged := ([Combinator.child, .general], path [], path [])
    IsCommonChain select [3, 1, 2] [2, 4, 3] [(0, 1), (2, 2)] [(3, 4), (2, 3)] ∧
      longestCommon select [3, 1, 2] [2, 4, 3] = [(1, 4), (2, 3)] ∧
      2 ≤ (longestCommon select [3, 1, 2] [2, 4, 3]).length ∧
      mergeLeading? (path [.general]) (path [.child, .general]) = some merged := by
  intro select path merged
  have hchain : IsCommonChain select [3, 1, 2] [2, 4, 3] [(0, 1), (2, 2)] [(3, 4), (2, 3)] := by
    exact ⟨by decide, .cons ⟨3, 4, rfl, rfl, rfl⟩ (.cons ⟨2, 3, rfl, rfl, rfl⟩ .nil)⟩
  obtain ⟨-, hlongest, hleading⟩ := longestCommon_isLongest select [3, 1, 2] [2, 4, 3]
  obtain ⟨hsome, hmerged⟩ := hleading (path [.general]) (path [.child, .general])
  obtain ⟨result, hresult⟩ := Option.isSome_iff_exists.1 (hsome.2 (Or.inl (by decide)))
  refine ⟨hchain, by decide, hlongest _ _ hchain, ?_⟩
  rw [hresult, hmerged result hresult]
  rfl

end SelectorCalculus
