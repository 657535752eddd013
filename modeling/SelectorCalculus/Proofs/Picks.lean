import SelectorCalculus.Weave.Choices
import Mathlib.Algebra.Group.Nat.Defs
import Mathlib.Data.List.Forall2
import Mathlib.Data.List.Induction
import Mathlib.Logic.ExistsUnique
/-! The picks from several choices are numbered in mixed radix, with the first choice as the digit
of least weight. -/

namespace SelectorCalculus

/-! ### Recursion over the choices -/

theorem picks_snoc (choices : List (List α)) (choice : List α) :
    picks (choices ++ [choice]) =
      choice.flatMap fun option => (picks choices).map (· ++ [option]) := by
  unfold picks
  rw [List.foldl_concat]

/-- The first choice varies fastest: for every pick from the others it runs through its options. -/
theorem picks_cons (choice : List α) (choices : List (List α)) :
    picks (choice :: choices) = (picks choices).flatMap fun path => choice.map (· :: path) := by
  -- The last choice is the outermost one on both sides, so the induction is from the end.
  induction choices using List.reverseRecOn with
  | nil => simp [picks, List.map_eq_flatMap]
  | append_singleton choices last ih =>
    have hsnoc : choice :: (choices ++ [last]) = (choice :: choices) ++ [last] := rfl
    rw [hsnoc, picks_snoc, picks_snoc, ih, List.flatMap_assoc]
    simp only [List.map_flatMap, List.flatMap_map, List.map_map, Function.comp_def,
      List.cons_append]

example : picks [[1, 2], [3], [4, 5]] = [[1, 3, 4], [2, 3, 4], [1, 3, 5], [2, 3, 5]] := by
  decide

/-- The picks are the lists with one option from each choice, in order. -/
theorem mem_picks {choices : List (List α)} {path : List α} :
    path ∈ picks choices ↔ List.Forall₂ (· ∈ ·) path choices := by
  induction choices generalizing path with
  | nil => simp [picks]
  | cons choice choices ih =>
    rw [picks_cons, List.mem_flatMap, List.forall₂_cons_right_iff]
    constructor
    · rintro ⟨rest, hrest, hpath⟩
      obtain ⟨option, hoption, rfl⟩ := List.mem_map.1 hpath
      exact ⟨option, rest, hoption, ih.1 hrest, rfl⟩
    · rintro ⟨option, rest, hoption, hrest, rfl⟩
      exact ⟨rest, ih.2 hrest, List.mem_map.2 ⟨option, hoption, rfl⟩⟩

theorem length_picks (choices : List (List α)) :
    (picks choices).length = (choices.map List.length).prod := by
  induction choices with
  | nil => rfl
  | cons choice choices ih =>
    have hblocks : (picks (choice :: choices)).length =
        (picks choices).length * choice.length := by
      rw [picks_cons, List.length_flatMap]
      simp only [List.length_map, List.map_const', List.sum_replicate_nat]
    rw [hblocks, ih, List.map_cons, List.prod_cons, Nat.mul_comm]

theorem picks_eq_nil_iff {choices : List (List α)} : picks choices = [] ↔ [] ∈ choices := by
  induction choices with
  | nil => simp [picks]
  | cons choice choices ih =>
    rw [picks_cons, List.flatMap_eq_nil_iff, List.mem_cons, ← ih]
    constructor
    · intro h
      cases hrest : picks choices with
      | nil => exact Or.inr rfl
      | cons path paths =>
        have hmap : choice.map (· :: path) = [] := h path (hrest ▸ List.mem_cons_self ..)
        exact Or.inl (List.map_eq_nil_iff.1 hmap).symm
    · rintro (rfl | hrest) path hpath
      · rfl
      · rw [hrest] at hpath
        cases hpath

theorem exists_pick {choices : List (List α)} (h : ∀ choice ∈ choices, choice ≠ []) :
    ∃ path, List.Forall₂ (· ∈ ·) path choices := by
  have hne : picks choices ≠ [] := fun hnil => h [] (picks_eq_nil_iff.1 hnil) rfl
  obtain ⟨path, hpath⟩ := List.exists_mem_of_ne_nil _ hne
  exact ⟨path, mem_picks.1 hpath⟩

/-! ### Numbers of options -/

/-- The numbers of the options in pick number `k` from choices of the given sizes. They are the
digits of `k`, where each size is the base of its digit and the first digit has the least weight. -/
def optionNumbers (sizes : List Nat) (k : Nat) : List Nat :=
  sizes.mapIdx fun i size => k / (sizes.take i).prod % size

theorem optionNumbers_cons (size : Nat) (sizes : List Nat) (k : Nat) :
    optionNumbers (size :: sizes) k = k % size :: optionNumbers sizes (k / size) := by
  have hlater (i : Nat) :
      k / ((size :: sizes).take (i + 1)).prod = k / size / (sizes.take i).prod := by
    rw [List.take_succ_cons, List.prod_cons, Nat.div_div_eq_div_mul]
  unfold optionNumbers
  rw [List.mapIdx_cons]
  simp only [hlater, List.take_zero, List.prod_nil, Nat.div_one]

/-- Numbers below the sizes are the digits of exactly one number. -/
theorem existsUnique_optionNumbers {numbers sizes : List Nat}
    (h : List.Forall₂ (· < ·) numbers sizes) :
    ∃! k, k < sizes.prod ∧ optionNumbers sizes k = numbers := by
  induction h with
  | nil =>
    refine ⟨0, ⟨by decide, rfl⟩, ?_⟩
    rintro k ⟨hk, -⟩
    exact Nat.lt_one_iff.1 hk
  | @cons number size numbers sizes hlt _ ih =>
    obtain ⟨k, ⟨hk, hnumbers⟩, hunique⟩ := ih
    have hpos : 0 < size := by omega
    refine ⟨number + size * k, ⟨?_, ?_⟩, ?_⟩
    · rw [List.prod_cons]
      calc number + size * k < size + size * k := by omega
        _ = size * (k + 1) := by rw [Nat.mul_succ, Nat.add_comm]
        _ ≤ size * sizes.prod := Nat.mul_le_mul_left size hk
    · have hfirst : (number + size * k) % size = number := by
        rw [Nat.add_mul_mod_self_left, Nat.mod_eq_of_lt hlt]
      have hrest : (number + size * k) / size = k := by
        rw [Nat.add_mul_div_left _ _ hpos, Nat.div_eq_of_lt hlt, Nat.zero_add]
      rw [optionNumbers_cons, hfirst, hrest, hnumbers]
    · rintro j ⟨hj, hdigits⟩
      rw [optionNumbers_cons] at hdigits
      obtain ⟨hfirst, hrest⟩ := List.cons.inj hdigits
      have hquotient : j / size = k := hunique _ ⟨Nat.div_lt_of_lt_mul hj, hrest⟩
      rw [← Nat.mod_add_div j size, hfirst, hquotient]

/-! ### The order of the picks -/

/-- In a list made of blocks of one length, the quotient of a position by that length says in which
block it is, and the remainder where in the block. -/
theorem getElem?_flatMap_map (f : β → α → γ) (xs : List β) (ys : List α) (k : Nat) :
    (xs.flatMap fun x => ys.map (f x))[k]? =
      xs[k / ys.length]?.bind fun x => ys[k % ys.length]?.map (f x) := by
  induction xs generalizing k with
  | nil => rfl
  | cons x xs ih =>
    rw [List.flatMap_cons, List.getElem?_append, List.length_map]
    split
    · rename_i hk
      rw [Nat.div_eq_of_lt hk, Nat.mod_eq_of_lt hk, List.getElem?_map]
      rfl
    · rename_i hk
      rcases Nat.eq_zero_or_pos ys.length with hzero | hpos
      · obtain rfl := List.length_eq_zero_iff.1 hzero
        simp
      · have hle : ys.length ≤ k := by omega
        rw [ih, Nat.div_eq_sub_div hpos hle, Nat.mod_eq_sub_mod hle]
        rfl

theorem getElem?_picks_cons (choice : List α) (choices : List (List α)) (k : Nat) :
    (picks (choice :: choices))[k]? =
      (picks choices)[k / choice.length]?.bind fun path =>
        choice[k % choice.length]?.map (· :: path) := by
  rw [picks_cons]
  exact getElem?_flatMap_map (fun path option => option :: path) _ _ _

theorem map_some_of_getElem?_picks {choices : List (List α)} {k : Nat} {path : List α}
    (h : (picks choices)[k]? = some path) :
    path.map some = List.zipWith (fun choice number => choice[number]?) choices
      (optionNumbers (choices.map List.length) k) := by
  induction choices generalizing k path with
  | nil =>
    obtain rfl : path = [] := by simpa [picks] using List.mem_of_getElem? h
    rfl
  | cons choice choices ih =>
    rw [getElem?_picks_cons] at h
    obtain ⟨rest, hrest, h⟩ := Option.bind_eq_some_iff.1 h
    obtain ⟨option, hoption, rfl⟩ := Option.map_eq_some_iff.1 h
    rw [List.map_cons, List.map_cons, optionNumbers_cons, List.zipWith_cons_cons, hoption,
      ih hrest]

/-- There are as many picks as the product of the sizes of the choices. Pick number `k` takes from
each choice the option whose number is the digit of `k` there, and every combination of numbers of
options belongs to exactly one pick. The first choice varies fastest, and there is no pick exactly
if some choice has no option. -/
theorem picks_mixedRadix (choices : List (List α)) :
    (picks choices).length = (choices.map List.length).prod ∧
    (∀ k < (choices.map List.length).prod, ∃ path, (picks choices)[k]? = some path ∧
      path.length = choices.length ∧
      path.map some = List.zipWith (fun choice number => choice[number]?) choices
        (optionNumbers (choices.map List.length) k)) ∧
    (∀ numbers, List.Forall₂ (· < ·) numbers (choices.map List.length) →
      ∃! k, k < (choices.map List.length).prod ∧
        optionNumbers (choices.map List.length) k = numbers) ∧
    (∀ (choice : List α) (rest : List (List α)),
      picks (choice :: rest) = (picks rest).flatMap fun path => choice.map (· :: path)) ∧
    (picks choices = [] ↔ [] ∈ choices) := by
  refine ⟨length_picks choices, ?_, ?_, picks_cons, picks_eq_nil_iff⟩
  · intro k hk
    rw [← length_picks] at hk
    have hpath : (picks choices)[k]? = some (picks choices)[k] := List.getElem?_eq_getElem hk
    have hpicked := mem_picks.1 (List.mem_of_getElem? hpath)
    exact ⟨_, hpath, hpicked.length_eq, map_some_of_getElem?_picks hpath⟩
  · intro numbers hnumbers
    exact existsUnique_optionNumbers hnumbers

/-- The last choice offers `4` twice, so two picks look the same. Only one of them is that of the
numbers `1`, `0` and `2`. -/
theorem picks_mixedRadix_repeated :
    5 < [2, 1, 3].prod ∧
      (picks [[1, 2], [3], [4, 5, 4]])[1]? = some [2, 3, 4] ∧
      (picks [[1, 2], [3], [4, 5, 4]])[5]? = some [2, 3, 4] ∧
      List.Forall₂ (· < ·) [1, 0, 2] [2, 1, 3] ∧
      ∃! k, k < [2, 1, 3].prod ∧ optionNumbers [2, 1, 3] k = [1, 0, 2] := by
  obtain ⟨-, htaken, hunique, -, -⟩ := picks_mixedRadix [[1, 2], [3], [4, 5, 4]]
  have hlt : 5 < [2, 1, 3].prod := by decide
  have hnumbers : List.Forall₂ (· < ·) [1, 0, 2] [2, 1, 3] :=
    .cons (by decide) (.cons (by decide) (.cons (by decide) .nil))
  obtain ⟨path, hpath, -, hoptions⟩ := htaken 5 hlt
  have hmap : path.map some = [2, 3, 4].map some := hoptions.trans (by decide)
  obtain rfl := List.map_injective_iff.2 (fun _ _ => Option.some.inj) hmap
  exact ⟨hlt, by decide, hpath, hnumbers, hunique _ hnumbers⟩

end SelectorCalculus
