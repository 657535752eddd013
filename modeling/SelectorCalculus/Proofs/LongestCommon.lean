import SelectorCalculus.Weave.CommonSubsequence
import Mathlib.Data.List.Forall2
/-! The table of longest common subsequences against a recursion over both lists, last element
first. -/

namespace SelectorCalculus

/-- The lists of values selected along pairs that increase in both lists. -/
inductive Common (select : α → β → Option γ) : List α → List β → List γ → Prop where
  | done (xs : List α) (ys : List β) : Common select xs ys []
  | skipLeft {xs : List α} {ys : List β} {vs : List γ} (x : α) :
      Common select xs ys vs → Common select (x :: xs) ys vs
  | skipRight {xs : List α} {ys : List β} {vs : List γ} (y : β) :
      Common select xs ys vs → Common select xs (y :: ys) vs
  | take {x : α} {y : β} {v : γ} {xs : List α} {ys : List β} {vs : List γ} :
      select x y = some v → Common select xs ys vs → Common select (x :: xs) (y :: ys) (v :: vs)

variable {select : α → β → Option γ}

/-- A longest one, built from the heads of the lists. -/
def longest (select : α → β → Option γ) : List α → List β → List γ
  | x :: xs, y :: ys =>
    match select x y with
    | some v => v :: longest select xs ys
    | none =>
      if (longest select xs (y :: ys)).length < (longest select (x :: xs) ys).length then
        longest select (x :: xs) ys
      else longest select xs (y :: ys)
  | [], _ => []
  | _ :: _, [] => []
termination_by xs ys => xs.length + ys.length

/-! ### The recursion is optimal -/

theorem common_longest (xs : List α) (ys : List β) :
    Common select xs ys (longest select xs ys) := by
  fun_induction longest select xs ys with
  | case1 x xs y ys v hv ih => exact .take hv ih
  | case2 x xs y ys _ _ above left => exact .skipRight y left
  | case3 x xs y ys _ _ above left => exact .skipLeft x above
  | case4 ys => exact .done [] ys
  | case5 x xs => exact .done _ []

theorem Common.drop_left {x : α} {xs : List α} {ys : List β} {vs : List γ}
    (h : Common select (x :: xs) ys vs) :
    ∃ vs', Common select xs ys vs' ∧ vs.length ≤ vs'.length + 1 := by
  generalize hzs : x :: xs = zs at h
  induction h with
  | done zs ys => exact ⟨[], .done xs ys, Nat.zero_le _⟩
  | skipLeft z h _ =>
    cases hzs
    exact ⟨_, h, Nat.le_succ _⟩
  | skipRight y _ ih =>
    obtain ⟨vs', h, hle⟩ := ih hzs
    exact ⟨vs', .skipRight y h, hle⟩
  | take _ h _ =>
    cases hzs
    exact ⟨_, .skipRight _ h, Nat.le_refl _⟩

theorem Common.drop_right {y : β} {xs : List α} {ys : List β} {vs : List γ}
    (h : Common select xs (y :: ys) vs) :
    ∃ vs', Common select xs ys vs' ∧ vs.length ≤ vs'.length + 1 := by
  generalize hzs : y :: ys = zs at h
  induction h with
  | done xs zs => exact ⟨[], .done xs ys, Nat.zero_le _⟩
  | skipLeft x _ ih =>
    obtain ⟨vs', h, hle⟩ := ih hzs
    exact ⟨vs', .skipLeft x h, hle⟩
  | skipRight z h _ =>
    cases hzs
    exact ⟨_, h, Nat.le_succ _⟩
  | take _ h _ =>
    cases hzs
    exact ⟨_, .skipLeft _ h, Nat.le_refl _⟩

theorem Common.length_le {xs : List α} {ys : List β} {vs : List γ} (h : Common select xs ys vs) :
    vs.length ≤ (longest select xs ys).length := by
  fun_induction longest select xs ys generalizing vs with
  | case1 x xs y ys v hv ih =>
    -- At most one pair has to do with the heads, so leaving both out costs one value.
    have hle : ∃ vs', Common select xs ys vs' ∧ vs.length ≤ vs'.length + 1 := by
      cases h with
      | done => exact ⟨[], .done xs ys, Nat.zero_le _⟩
      | skipLeft _ h => exact h.drop_right
      | skipRight _ h => exact h.drop_left
      | take _ h => exact ⟨_, h, Nat.le_refl _⟩
    obtain ⟨vs', h, hle⟩ := hle
    have := ih h
    simp only [List.length_cons]
    omega
  | case2 x xs y ys hnone hlt above left =>
    cases h with
    | done => exact Nat.zero_le _
    | skipLeft _ h =>
      have := above h
      omega
    | skipRight _ h => exact left h
    | take hv _ => simp [hnone] at hv
  | case3 x xs y ys hnone hlt above left =>
    cases h with
    | done => exact Nat.zero_le _
    | skipLeft _ h => exact above h
    | skipRight _ h =>
      have := left h
      omega
    | take hv _ => simp [hnone] at hv
  | case4 ys =>
    generalize hxs : ([] : List α) = xs at h
    induction h with
    | done => exact Nat.zero_le _
    | skipLeft => cases hxs
    | skipRight _ _ ih => exact ih hxs
    | take => cases hxs
  | case5 x xs =>
    generalize hys : ([] : List β) = ys at h
    generalize x :: xs = zs at h
    induction h with
    | done => exact Nat.zero_le _
    | skipLeft _ _ ih => exact ih hys
    | skipRight => cases hys
    | take => cases hys

/-! ### The table follows the recursion -/

theorem longest_nil_right (xs : List α) : longest select xs ([] : List β) = [] := by
  cases xs <;> simp [longest]

/-- The cells of a row, from a column on. -/
def rowFrom (select : α → β → Option γ) (xs : List α) : List β → List β → List (List γ)
  | [], seen => [longest select xs seen]
  | y :: ys, seen => longest select xs seen :: rowFrom select xs ys (y :: seen)

theorem rowFrom_eq_cons (select : α → β → Option γ) (xs : List α) (ys seen : List β) :
    ∃ more, rowFrom select xs ys seen = longest select xs seen :: more := by
  cases ys with
  | nil => exact ⟨[], rfl⟩
  | cons y ys => exact ⟨rowFrom select xs ys (y :: seen), rfl⟩

theorem nextCells_rowFrom (x : α) (xs : List α) (ys seen : List β) :
    longest select (x :: xs) seen ::
        nextCells select x ys (rowFrom select xs ys seen) (longest select (x :: xs) seen) =
      rowFrom select (x :: xs) ys seen := by
  induction ys generalizing seen with
  | nil => rfl
  | cons y ys ih =>
    obtain ⟨more, hmore⟩ := rowFrom_eq_cons select xs ys (y :: seen)
    rw [rowFrom, rowFrom, ← ih (y :: seen), hmore, nextCells]
    cases hv : select x y with
    | some v =>
      have hcell : longest select (x :: xs) (y :: seen) = v :: longest select xs seen := by
        rw [longest, hv]
      rw [hcell]
    | none =>
      have hcell : longest select (x :: xs) (y :: seen) =
          if (longest select xs (y :: seen)).length < (longest select (x :: xs) seen).length then
            longest select (x :: xs) seen
          else longest select xs (y :: seen) := by
        rw [longest, hv]
      rw [hcell]

theorem rowFrom_nil (ys seen : List β) :
    rowFrom select ([] : List α) ys seen = List.replicate (ys.length + 1) [] := by
  induction ys generalizing seen with
  | nil => simp [rowFrom, longest]
  | cons y ys ih => simp [rowFrom, longest, ih, List.replicate_succ]

theorem foldl_nextRow (select : α → β → Option γ) (xs before : List α) (ys : List β) :
    xs.foldl (nextRow select ys) (rowFrom select before ys []) =
      rowFrom select (xs.reverse ++ before) ys [] := by
  induction xs generalizing before with
  | nil => rfl
  | cons x xs ih =>
    have hrow : nextRow select ys (rowFrom select before ys []) x =
        rowFrom select (x :: before) ys [] := by
      rw [← nextCells_rowFrom, longest_nil_right]
      rfl
    rw [List.foldl_cons, hrow, ih, List.reverse_cons, List.append_assoc]
    rfl

theorem getLast?_rowFrom (xs : List α) (ys seen : List β) :
    (rowFrom select xs ys seen).getLast? = some (longest select xs (ys.reverse ++ seen)) := by
  induction ys generalizing seen with
  | nil => rfl
  | cons y ys ih =>
    obtain ⟨more, hmore⟩ := rowFrom_eq_cons select xs ys (y :: seen)
    rw [rowFrom, hmore, List.getLast?_cons_cons, ← hmore, ih]
    simp

theorem longestCommon_eq (xs : List α) (ys : List β) :
    longestCommon select xs ys = (longest select xs.reverse ys.reverse).reverse := by
  have hrow := foldl_nextRow select xs [] ys
  rw [rowFrom_nil] at hrow
  simp only [longestCommon, hrow, getLast?_rowFrom, List.append_nil, Option.getD_some]

/-! ### The result as a common list -/

namespace Common

variable {xs : List α} {ys : List β} {vs : List γ}

theorem snoc_left (x : α) (h : Common select xs ys vs) : Common select (xs ++ [x]) ys vs := by
  induction h with
  | done => exact .done _ _
  | skipLeft z _ ih => exact .skipLeft z ih
  | skipRight z _ ih => exact .skipRight z ih
  | take hv _ ih => exact .take hv ih

theorem snoc_right (y : β) (h : Common select xs ys vs) : Common select xs (ys ++ [y]) vs := by
  induction h with
  | done => exact .done _ _
  | skipLeft z _ ih => exact .skipLeft z ih
  | skipRight z _ ih => exact .skipRight z ih
  | take hv _ ih => exact .take hv ih

theorem snoc {x : α} {y : β} {v : γ} (hv : select x y = some v) (h : Common select xs ys vs) :
    Common select (xs ++ [x]) (ys ++ [y]) (vs ++ [v]) := by
  induction h with
  | done xs ys =>
    induction xs with
    | nil =>
      induction ys with
      | nil => exact .take hv (.done [] [])
      | cons z ys ih => exact .skipRight z ih
    | cons z xs ih => exact .skipLeft z ih
  | skipLeft z _ ih => exact .skipLeft z ih
  | skipRight z _ ih => exact .skipRight z ih
  | take hw _ ih => exact .take hw ih

theorem reverse (h : Common select xs ys vs) :
    Common select xs.reverse ys.reverse vs.reverse := by
  induction h with
  | done => exact .done _ _
  | skipLeft x _ ih =>
    rw [List.reverse_cons]
    exact ih.snoc_left x
  | skipRight y _ ih =>
    rw [List.reverse_cons]
    exact ih.snoc_right y
  | take hv _ ih =>
    rw [List.reverse_cons, List.reverse_cons, List.reverse_cons]
    exact ih.snoc hv

/-- No common list is longer than the result. -/
theorem length_le_longestCommon (h : Common select xs ys vs) :
    vs.length ≤ (longestCommon select xs ys).length := by
  have hle := h.reverse.length_le
  rw [longestCommon_eq, List.length_reverse]
  rwa [List.length_reverse] at hle

theorem first_left {x : α} {v : γ} (h : Common select (x :: xs) ys (v :: vs)) :
    (∃ y ∈ ys, select x y = some v) ∨ Common select xs ys (v :: vs) := by
  generalize hzs : x :: xs = zs at h
  generalize hws : v :: vs = ws at h
  induction h with
  | done => cases hws
  | skipLeft z h _ =>
    cases hzs
    exact Or.inr (hws ▸ h)
  | skipRight y _ ih =>
    rcases ih hzs hws with ⟨y', hy, hv⟩ | h
    · exact Or.inl ⟨y', List.mem_cons_of_mem y hy, hv⟩
    · exact Or.inr (.skipRight y h)
  | take hv _ _ =>
    cases hzs
    cases hws
    exact Or.inl ⟨_, List.mem_cons_self .., hv⟩

theorem first_right {y : β} {v : γ} (h : Common select xs (y :: ys) (v :: vs)) :
    (∃ x ∈ xs, select x y = some v) ∨ Common select xs ys (v :: vs) := by
  generalize hzs : y :: ys = zs at h
  generalize hws : v :: vs = ws at h
  induction h with
  | done => cases hws
  | skipLeft x _ ih =>
    rcases ih hzs hws with ⟨x', hx, hv⟩ | h
    · exact Or.inl ⟨x', List.mem_cons_of_mem x hx, hv⟩
    · exact Or.inr (.skipLeft x h)
  | skipRight z h _ =>
    cases hzs
    exact Or.inr (hws ▸ h)
  | take hv _ _ =>
    cases hzs
    cases hws
    exact Or.inl ⟨_, List.mem_cons_self .., hv⟩

end Common

theorem common_longestCommon (xs : List α) (ys : List β) :
    Common select xs ys (longestCommon select xs ys) := by
  rw [longestCommon_eq]
  simpa using (common_longest xs.reverse ys.reverse).reverse

theorem exists_longestCommon_head {x : α} {y : β} {xs : List α} {ys : List β}
    (hxy : (select x y).isSome) : ∃ v vs, longestCommon select (x :: xs) (y :: ys) = v :: vs ∧
      ((∃ y' ∈ y :: ys, select x y' = some v) ∨ ∃ x' ∈ x :: xs, select x' y = some v) := by
  obtain ⟨w, hw⟩ := Option.isSome_iff_exists.1 hxy
  have hcommon : Common select (x :: xs) (y :: ys) (longestCommon select (x :: xs) (y :: ys)) :=
    common_longestCommon (x :: xs) (y :: ys)
  cases hvs : longestCommon select (x :: xs) (y :: ys) with
  | nil =>
    have hle := (Common.take hw (.done xs ys)).length_le_longestCommon
    rw [hvs] at hle
    simp at hle
  | cons v vs =>
    refine ⟨v, vs, rfl, ?_⟩
    rw [hvs] at hcommon
    rcases hcommon.first_left with h | h
    · exact Or.inl h
    · rcases h.first_right with ⟨x', hx', hv⟩ | h
      · exact Or.inr ⟨x', List.mem_cons_of_mem x hx', hv⟩
      · have hle := (Common.take hw h).length_le_longestCommon
        rw [hvs, List.length_cons] at hle
        omega

theorem longestCommon_congr {select' : α → β → Option γ} {xs : List α} {ys : List β}
    (h : ∀ x ∈ xs, ∀ y ∈ ys, select x y = select' x y) :
    longestCommon select xs ys = longestCommon select' xs ys := by
  have hlongest (xs : List α) (ys : List β) (h : ∀ x ∈ xs, ∀ y ∈ ys, select x y = select' x y) :
      longest select xs ys = longest select' xs ys := by
    fun_induction longest select xs ys with
    | case1 x xs y ys v hv ih =>
      rw [h x (List.mem_cons_self ..) y (List.mem_cons_self ..)] at hv
      have hrest := ih fun x hx y hy =>
        h x (List.mem_cons_of_mem _ hx) y (List.mem_cons_of_mem _ hy)
      rw [longest, hv, hrest]
    | case2 x xs y ys hv hlt above left =>
      have habove := above fun x hx y hy => h x (List.mem_cons_of_mem _ hx) y hy
      have hleft := left fun x hx y hy => h x hx y (List.mem_cons_of_mem _ hy)
      rw [h x (List.mem_cons_self ..) y (List.mem_cons_self ..)] at hv
      rw [habove, hleft] at hlt
      rw [longest, hv, hleft, if_pos hlt]
    | case3 x xs y ys hv hlt above left =>
      have habove := above fun x hx y hy => h x (List.mem_cons_of_mem _ hx) y hy
      have hleft := left fun x hx y hy => h x hx y (List.mem_cons_of_mem _ hy)
      rw [h x (List.mem_cons_self ..) y (List.mem_cons_self ..)] at hv
      rw [habove, hleft] at hlt
      rw [longest, hv, habove, if_neg hlt]
    | case4 ys => rw [longest]
    | case5 x xs => rw [longest]
  rw [longestCommon_eq, longestCommon_eq, hlongest]
  simpa using h

/-! ### What is selected -/

theorem Common.exists_of_mem {xs : List α} {ys : List β} {vs : List γ} (h : Common select xs ys vs)
    {v : γ} (hv : v ∈ vs) : ∃ x ∈ xs, ∃ y ∈ ys, select x y = some v := by
  induction h with
  | done => cases hv
  | skipLeft x _ ih =>
    obtain ⟨x', hx, hy⟩ := ih hv
    exact ⟨x', List.mem_cons_of_mem x hx, hy⟩
  | skipRight y _ ih =>
    obtain ⟨x, hx, y', hy, hs⟩ := ih hv
    exact ⟨x, hx, y', List.mem_cons_of_mem y hy, hs⟩
  | take hs _ ih =>
    rcases List.mem_cons.1 hv with rfl | hv
    · exact ⟨_, List.mem_cons_self .., _, List.mem_cons_self .., hs⟩
    · obtain ⟨x, hx, y, hy, hs⟩ := ih hv
      exact ⟨x, List.mem_cons_of_mem _ hx, y, List.mem_cons_of_mem _ hy, hs⟩

theorem Common.exists_of_mem_tail {xs : List α} {ys : List β} {vs : List γ}
    (h : Common select xs ys vs) {v : γ} (hv : v ∈ vs.tail) :
    ∃ x ∈ xs.tail, ∃ y ∈ ys.tail, select x y = some v := by
  induction h with
  | done => cases hv
  | skipLeft x _ ih =>
    obtain ⟨x', hx, hy⟩ := ih hv
    exact ⟨x', List.mem_of_mem_tail hx, hy⟩
  | skipRight y _ ih =>
    obtain ⟨x, hx, y', hy, hs⟩ := ih hv
    exact ⟨x, hx, y', List.mem_of_mem_tail hy, hs⟩
  | take _ h _ => exact h.exists_of_mem hv

theorem exists_of_mem_longestCommon {xs : List α} {ys : List β} {v : γ}
    (h : v ∈ longestCommon select xs ys) : ∃ x ∈ xs, ∃ y ∈ ys, select x y = some v :=
  (common_longestCommon xs ys).exists_of_mem h

/-- Where the elements at the same places go together and the first ones stand for both, these are
selected. -/
theorem longestCommon_diagonal {select : α → β → Option α} {xs : List α} {ys : List β}
    (h : List.Forall₂ (fun x y => select x y = some x) xs ys) : longestCommon select xs ys = xs := by
  have hlongest {xs : List α} {ys : List β}
      (h : List.Forall₂ (fun x y => select x y = some x) xs ys) : longest select xs ys = xs := by
    induction h with
    | nil => rw [longest]
    | cons hx _ ih => rw [longest, hx, ih]
  rw [longestCommon_eq, hlongest (List.rel_reverse h), List.reverse_reverse]

end SelectorCalculus
