import SelectorCalculus.Weave.Basic
import SelectorCalculus.Proofs.CompoundMeaning
import SelectorCalculus.Proofs.Reach
/-! Trails: what stands before the last compound of a path, last component first, and the steps that
merge them. -/

namespace SelectorCalculus

namespace Weave

/-- Whether every combinator of a trail has the compound that it binds behind it. -/
def isTrail : List Component → Bool
  | [] => true
  | .compound _ :: rest => isTrail rest
  | .combinator _ :: .compound _ :: rest => isTrail rest
  | .combinator _ :: _ => false

/-- Whether a trail starts with no combinator. -/
def isOpen (cs : List Component) : Bool := !cs.head?.any Component.isCombinator

theorem isTrail_append {cs ds : List Component} (hcs : isTrail cs) (hds : isTrail ds) :
    isTrail (cs ++ ds) := by
  fun_induction isTrail cs with
  | case1 => exact hds
  | case2 c rest ih => exact ih hcs
  | case3 k c rest ih => exact ih hcs
  | case4 => cases hcs

theorem isTrail_reverse {cs : List Component} {c : Compound}
    (h : isWellFormed (cs ++ [.compound c])) : isTrail cs.reverse := by
  fun_induction isWellFormed cs with
  | case1 c => rfl
  | case2 c k rest ih =>
    rw [List.reverse_cons, List.reverse_cons, List.append_assoc]
    exact isTrail_append (ih h) rfl
  | case3 c d rest ih =>
    rw [List.reverse_cons]
    exact isTrail_append (ih h) rfl
  | case4 => rfl
  | case5 k rest => cases h

theorem isTrail_cases {cs : List Component} (h : isTrail cs) :
    isOpen cs ∨ ∃ k c rest, cs = .combinator k :: .compound c :: rest ∧ isTrail rest := by
  rcases cs with _ | ⟨c | k, _ | ⟨c | k', rest⟩⟩
  · exact Or.inl rfl
  · exact Or.inl rfl
  · exact Or.inl rfl
  · exact Or.inl rfl
  · cases h
  · exact Or.inr ⟨k, c, rest, rfl, h⟩
  · cases h

theorem takeCombinators_of_isOpen {cs : List Component} (h : isOpen cs) :
    takeCombinators cs = ([], cs) := by
  rcases cs with _ | ⟨c | k, rest⟩
  · rfl
  · rfl
  · cases h

theorem takeCombinators_pair (k : Combinator) (c : Compound) (rest : List Component) :
    takeCombinators (.combinator k :: .compound c :: rest) = ([k], .compound c :: rest) := rfl

/-! ### One round of merging -/

variable {bound : Nat} {cs ds : List Component}

/-- What is left of merging after one step. -/
def mergeRest? (bound : Nat) (step : Step) :
    Option (List Choice × List Component × List Component) :=
  (mergeTrailing? bound step.2.1 step.2.2).map fun r => (r.1 ++ [step.1], r.2.1, r.2.2)

theorem mergeTrailing?_open (hcs : isOpen cs) (hds : isOpen ds) :
    mergeTrailing? bound cs ds = some ([], cs, ds) := by
  cases bound with
  | zero => rfl
  | succ bound =>
    rw [mergeTrailing?, takeCombinators_of_isOpen hcs, takeCombinators_of_isOpen hds]

theorem mergeTrailing?_both (k k' : Combinator) (c d : Compound) :
    mergeTrailing? (bound + 1) (.combinator k :: .compound c :: cs)
        (.combinator k' :: .compound d :: ds) =
      (stepBoth? c k cs d k' ds).bind (mergeRest? bound) := by
  rw [mergeTrailing?, takeCombinators_pair, takeCombinators_pair]
  dsimp only
  cases stepBoth? c k cs d k' ds with
  | none => rfl
  | some step =>
    obtain ⟨choice, cs, ds⟩ := step
    simp only [Option.bind_eq_bind, Option.bind_some, mergeRest?]
    cases mergeTrailing? bound cs ds <;> rfl

theorem mergeTrailing?_left (k : Combinator) (c : Compound) (hds : isOpen ds) :
    mergeTrailing? (bound + 1) (.combinator k :: .compound c :: cs) ds =
      mergeRest? bound ((stepOne c k ds).1, cs, (stepOne c k ds).2) := by
  rw [mergeTrailing?, takeCombinators_pair, takeCombinators_of_isOpen hds]
  simp only [mergeRest?]
  cases mergeTrailing? bound cs (stepOne c k ds).2 <;> rfl

theorem mergeTrailing?_right (k : Combinator) (d : Compound) (hcs : isOpen cs) :
    mergeTrailing? (bound + 1) cs (.combinator k :: .compound d :: ds) =
      mergeRest? bound ((stepOne d k cs).1, (stepOne d k cs).2, ds) := by
  rw [mergeTrailing?, takeCombinators_pair, takeCombinators_of_isOpen hcs]
  simp only [mergeRest?]
  cases mergeTrailing? bound (stepOne d k cs).2 ds <;> rfl

/-- What one step of merging can be: a step on both trails, or on the one that starts with a
combinator while the other is open. -/
inductive MergeStep : List Component → List Component → Step → Prop where
  | both {c d : Compound} {k k' : Combinator} {cs ds : List Component} {step : Step} :
      stepBoth? c k cs d k' ds = some step →
      MergeStep (.combinator k :: .compound c :: cs) (.combinator k' :: .compound d :: ds) step
  | left {c : Compound} {k : Combinator} {cs ds : List Component} :
      isOpen ds → MergeStep (.combinator k :: .compound c :: cs) ds
        ((stepOne c k ds).1, cs, (stepOne c k ds).2)
  | right {d : Compound} {k : Combinator} {cs ds : List Component} :
      isOpen cs → MergeStep cs (.combinator k :: .compound d :: ds)
        ((stepOne d k cs).1, (stepOne d k cs).2, ds)

theorem mergeRest?_eq_some {step : Step} {r : List Choice × List Component × List Component}
    (h : mergeRest? bound step = some r) :
    ∃ choices, mergeTrailing? bound step.2.1 step.2.2 = some (choices, r.2.1, r.2.2) ∧
      r.1 = choices ++ [step.1] := by
  obtain ⟨⟨choices, cs', ds'⟩, hm, rfl⟩ := Option.map_eq_some_iff.1 h
  exact ⟨choices, hm, rfl⟩

theorem mergeTrailing?_eq_some (hcs : isTrail cs) (hds : isTrail ds)
    {r : List Choice × List Component × List Component}
    (h : mergeTrailing? (bound + 1) cs ds = some r) :
    (isOpen cs ∧ isOpen ds ∧ r = ([], cs, ds)) ∨
      ∃ step choices, MergeStep cs ds step ∧
        mergeTrailing? bound step.2.1 step.2.2 = some (choices, r.2.1, r.2.2) ∧
        r.1 = choices ++ [step.1] := by
  rcases isTrail_cases hcs with hcs | ⟨k, c, cs, rfl, -⟩ <;>
    rcases isTrail_cases hds with hds | ⟨k', d, ds, rfl, -⟩
  · rw [mergeTrailing?_open hcs hds] at h
    exact Or.inl ⟨hcs, hds, (Option.some.inj h).symm⟩
  · rw [mergeTrailing?_right k' d hcs] at h
    obtain ⟨choices, hm, hr⟩ := mergeRest?_eq_some h
    exact Or.inr ⟨_, choices, .right hcs, hm, hr⟩
  · rw [mergeTrailing?_left k c hds] at h
    obtain ⟨choices, hm, hr⟩ := mergeRest?_eq_some h
    exact Or.inr ⟨_, choices, .left hds, hm, hr⟩
  · rw [mergeTrailing?_both, Option.bind_eq_some_iff] at h
    obtain ⟨step, hstep, h⟩ := h
    obtain ⟨choices, hm, hr⟩ := mergeRest?_eq_some h
    exact Or.inr ⟨step, choices, .both hstep, hm, hr⟩

/-- Merging that fails does so in a step on both trails, now or after some other step. -/
theorem mergeTrailing?_eq_none (hcs : isTrail cs) (hds : isTrail ds)
    (h : mergeTrailing? (bound + 1) cs ds = none) :
    (∃ k c cs' k' d ds', cs = .combinator k :: .compound c :: cs' ∧
      ds = .combinator k' :: .compound d :: ds' ∧ stepBoth? c k cs' d k' ds' = none) ∨
      ∃ step, MergeStep cs ds step ∧ mergeTrailing? bound step.2.1 step.2.2 = none := by
  rcases isTrail_cases hcs with hcs | ⟨k, c, cs, rfl, -⟩ <;>
    rcases isTrail_cases hds with hds | ⟨k', d, ds, rfl, -⟩
  · rw [mergeTrailing?_open hcs hds] at h
    cases h
  · rw [mergeTrailing?_right k' d hcs] at h
    exact Or.inr ⟨_, .right hcs, Option.map_eq_none_iff.1 h⟩
  · rw [mergeTrailing?_left k c hds] at h
    exact Or.inr ⟨_, .left hds, Option.map_eq_none_iff.1 h⟩
  · rw [mergeTrailing?_both] at h
    cases hstep : stepBoth? c k cs d k' ds with
    | none => exact Or.inl ⟨k, c, cs, k', d, ds, rfl, rfl, hstep⟩
    | some step =>
      rw [hstep, Option.bind_some] at h
      exact Or.inr ⟨step, .both hstep, Option.map_eq_none_iff.1 h⟩

/-! ### What a step leaves -/

theorem stepOne_snd (c : Compound) (k : Combinator) (others : List Component) :
    (stepOne c k others).2 = others ∨ ∃ d rest, k = .child ∧ d.isSuperselectorOf c ∧
      others = .compound d :: rest ∧ (stepOne c k others).2 = rest := by
  unfold stepOne
  dsimp only
  split
  · split
    · rename_i d rest hd
      exact Or.inr ⟨d, rest, rfl, hd, rfl, rfl⟩
    · exact Or.inl rfl
  · exact Or.inl rfl

/-- A step on both trails takes a compound off each, or off one of them while a child combinator of
the other one waits. -/
theorem stepBoth_rest {c d : Compound} {k k' : Combinator} {step : Step}
    (h : stepBoth? c k cs d k' ds = some step) :
    (step.2.1 = cs ∧ step.2.2 = ds ∧ (k = .child ↔ k' = .child)) ∨
      (k = .child ∧ k' ≠ .child ∧ step.2.1 = .combinator k :: .compound c :: cs ∧ step.2.2 = ds) ∨
      (k' = .child ∧ k ≠ .child ∧ step.2.1 = cs ∧ step.2.2 = .combinator k' :: .compound d :: ds) := by
  match k, k', h with
  | .child, .child, h | .adjacent, .adjacent, h =>
    obtain ⟨u, -, rfl⟩ := Option.map_eq_some_iff.1 h
    simp
  | .general, .general, h | .general, .adjacent, h | .adjacent, .general, h
  | .child, .general, h | .child, .adjacent, h | .general, .child, h | .adjacent, .child, h =>
    cases h
    simp

theorem MergeStep.suffix {step : Step} (h : MergeStep cs ds step) :
    step.2.1 <:+ cs ∧ step.2.2 <:+ ds := by
  have hpair (c : Compound) (k : Combinator) (cs : List Component) :
      cs <:+ .combinator k :: .compound c :: cs := ⟨[.combinator k, .compound c], rfl⟩
  have hone (c : Compound) (k : Combinator) (others : List Component) :
      (stepOne c k others).2 <:+ others := by
    rcases stepOne_snd c k others with h | ⟨d, rest, -, -, rfl, h⟩
    · exact ⟨[], h⟩
    · rw [h]
      exact List.suffix_cons ..
  cases h with
  | both h =>
    rcases stepBoth_rest h with ⟨h₁, h₂, -⟩ | ⟨-, -, h₁, h₂⟩ | ⟨-, -, h₁, h₂⟩ <;> rw [h₁, h₂]
    · exact ⟨hpair .., hpair ..⟩
    · exact ⟨List.suffix_rfl, hpair ..⟩
    · exact ⟨hpair .., List.suffix_rfl⟩
  | left _ => exact ⟨hpair .., hone ..⟩
  | right _ => exact ⟨hone .., hpair ..⟩

theorem MergeStep.length_lt {step : Step} (h : MergeStep cs ds step) :
    step.2.1.length + step.2.2.length < cs.length + ds.length := by
  have hle := h.suffix.1.length_le
  have hle' := h.suffix.2.length_le
  cases h with
  | both h =>
    rcases stepBoth_rest h with ⟨h₁, h₂, -⟩ | ⟨-, -, h₁, h₂⟩ | ⟨-, -, h₁, h₂⟩
    all_goals
      rw [h₁, h₂]
      simp only [List.length_cons]
      omega
  | left _ =>
    simp only [List.length_cons] at *
    omega
  | right _ =>
    simp only [List.length_cons] at *
    omega

/-- A property of compounds that unification keeps. -/
def KeptByUnify (P : Compound → Prop) : Prop :=
  ∀ c d u : Compound, c.unify? d = some u → P c → P d → P u

/-- Whether an option is made of one or two compounds with a property, each with a combinator behind
it. -/
def IsOptionOf (P : Compound → Prop) (o : List Component) : Prop :=
  ∃ c k, P c ∧ (o = pair c k ∨ ∃ d k', P d ∧ o = pair c k ++ pair d k')

/-- Whether an option is made of one or two plain compounds, each with a combinator behind it. -/
def IsOption (o : List Component) : Prop :=
  ∃ c k, c.isPlain ∧ (o = pair c k ∨ ∃ d k', d.isPlain ∧ o = pair c k ++ pair d k')

section Options

variable {P : Compound → Prop} {c d : Compound} {k : Combinator} {o : List Component}

theorem isOption_of_mem_single (hc : P c) (ho : o ∈ [pair c k]) : IsOptionOf P o :=
  ⟨c, k, hc, Or.inl (List.mem_singleton.1 ho)⟩

variable (hP : KeptByUnify P)

include hP

theorem isOption_of_mem_unified (hc : P c) (hd : P d) (ho : o ∈ match c.unify? d with
      | some u => [pair u k]
      | none => []) : IsOptionOf P o := by
  cases hu : c.unify? d with
  | none => simp [hu] at ho
  | some u =>
    rw [hu] at ho
    exact isOption_of_mem_single (hP c d u hu hc hd) ho

theorem isOption_of_mem_twoSiblings (hc : P c) (hd : P d) (ho : o ∈ twoSiblings c d) :
    IsOptionOf P o := by
  unfold twoSiblings at ho
  split at ho
  · exact isOption_of_mem_single hd ho
  · split at ho
    · exact isOption_of_mem_single hc ho
    · rcases List.mem_append.1 ho with ho | ho
      · simp only [List.mem_cons, List.not_mem_nil, or_false] at ho
        rcases ho with rfl | rfl
        · exact ⟨c, .general, hc, Or.inr ⟨d, .general, hd, rfl⟩⟩
        · exact ⟨d, .general, hd, Or.inr ⟨c, .general, hc, rfl⟩⟩
      · exact isOption_of_mem_unified hP hc hd ho

theorem isOption_of_mem_siblingAndNeighbour {g a : Compound} (hg : P g) (ha : P a) (hc : P c)
    (hd : P d) (ho : o ∈ siblingAndNeighbour g a (c.unify? d)) : IsOptionOf P o := by
  unfold siblingAndNeighbour at ho
  split at ho
  · exact isOption_of_mem_single ha ho
  · rcases List.mem_cons.1 ho with rfl | ho
    · exact ⟨g, .general, hg, Or.inr ⟨a, .adjacent, ha, rfl⟩⟩
    · exact isOption_of_mem_unified hP hc hd ho

theorem MergeStep.isOptionOf {step : Step} (h : MergeStep cs ds step)
    (hcs : ∀ c ∈ compoundsOf cs, P c) (hds : ∀ d ∈ compoundsOf ds, P d) (ho : o ∈ step.1) :
    IsOptionOf P o := by
  cases h with
  | @both c d k k' cs ds step h =>
    have hc : P c := hcs c (List.mem_cons_self ..)
    have hd : P d := hds d (List.mem_cons_self ..)
    match k, k', h with
    | .child, .child, h | .adjacent, .adjacent, h =>
      obtain ⟨u, hu, rfl⟩ := Option.map_eq_some_iff.1 h
      exact isOption_of_mem_single (hP c d u hu hc hd) ho
    | .general, .general, h =>
      cases h
      exact isOption_of_mem_twoSiblings hP hc hd ho
    | .general, .adjacent, h =>
      cases h
      exact isOption_of_mem_siblingAndNeighbour hP hc hd hc hd ho
    | .adjacent, .general, h =>
      cases h
      exact isOption_of_mem_siblingAndNeighbour hP hd hc hc hd ho
    | .child, .general, h | .child, .adjacent, h =>
      cases h
      exact isOption_of_mem_single hd ho
    | .general, .child, h | .adjacent, .child, h =>
      cases h
      exact isOption_of_mem_single hc ho
  | left _ => exact isOption_of_mem_single (hcs _ (List.mem_cons_self ..)) ho
  | right _ => exact isOption_of_mem_single (hds _ (List.mem_cons_self ..)) ho

end Options

theorem keptByUnify_isPlain : KeptByUnify fun c => c.isPlain :=
  fun _ _ _ h => isPlain_unify h

theorem isPlain_of_pair {c : Compound} {k : Combinator} {cs : List Component}
    (h : isPlainPath (.combinator k :: .compound c :: cs)) : c.isPlain :=
  isPlainPath_singleton.1 (isPlainPath_cons.1 (isPlainPath_cons.1 h).2).1

theorem MergeStep.isOption {step : Step} (h : MergeStep cs ds step) (hcs : isPlainPath cs)
    (hds : isPlainPath ds) {o : List Component} (ho : o ∈ step.1) : IsOption o :=
  h.isOptionOf keptByUnify_isPlain (List.all_eq_true.1 hcs) (List.all_eq_true.1 hds) ho

theorem MergeStep.choice_ne_nil {step : Step} (h : MergeStep cs ds step) : step.1 ≠ [] := by
  have htwo (c d : Compound) : twoSiblings c d ≠ [] := by
    unfold twoSiblings
    split
    · simp
    · split <;> simp
  have hneighbour (g a : Compound) (u : Option Compound) : siblingAndNeighbour g a u ≠ [] := by
    unfold siblingAndNeighbour
    split <;> simp
  cases h with
  | @both c d k k' cs ds step h =>
    match k, k', h with
    | .child, .child, h | .adjacent, .adjacent, h =>
      obtain ⟨u, -, rfl⟩ := Option.map_eq_some_iff.1 h
      simp
    | .general, .general, h =>
      cases h
      exact htwo c d
    | .general, .adjacent, h | .adjacent, .general, h =>
      cases h
      exact hneighbour _ _ _
    | .child, .general, h | .child, .adjacent, h | .general, .child, h | .adjacent, .child, h =>
      cases h
      simp
  | left _ => simp [stepOne]
  | right _ => simp [stepOne]

theorem isTrail_of_suffix (h : ds <:+ cs) (hcs : isTrail cs) : isTrail ds := by
  obtain ⟨front, rfl⟩ := h
  induction front with
  | nil => exact hcs
  | cons c front ih =>
    refine ih ?_
    cases c with
    | compound c => exact hcs
    | combinator k =>
      obtain ⟨c, rest, hrest⟩ : ∃ c rest, front ++ ds = .compound c :: rest := by
        cases h : front ++ ds with
        | nil => simp [h, isTrail] at hcs
        | cons c rest =>
          cases c with
          | compound c => exact ⟨c, rest, rfl⟩
          | combinator k' => simp [h, isTrail] at hcs
      rw [List.cons_append, hrest] at hcs
      rw [hrest]
      exact hcs

theorem isPlainPath_of_suffix (h : ds <:+ cs) (hcs : isPlainPath cs) : isPlainPath ds := by
  obtain ⟨front, rfl⟩ := h
  exact (isPlainPath_append.1 hcs).2

/-! ### Trails that elements can fit -/

/-- A plain trail whose compounds elements can fit. -/
structure IsLive (cs : List Component) : Prop where
  trail : isTrail cs
  plain : isPlainPath cs
  fits : ∀ c ∈ compoundsOf cs, ∃ x : Subject, x.Fits c

theorem IsLive.of_suffix (hcs : IsLive cs) (h : ds <:+ cs) : IsLive ds where
  trail := isTrail_of_suffix h hcs.trail
  plain := isPlainPath_of_suffix h hcs.plain
  fits := by
    obtain ⟨front, rfl⟩ := h
    intro c hc
    refine hcs.fits c ?_
    rw [compoundsOf_append]
    exact List.mem_append_right _ hc

theorem IsLive.head {k : Combinator} {c : Compound} (h : IsLive (.combinator k :: .compound c :: cs)) :
    c.isPlain ∧ ∃ x : Subject, x.Fits c :=
  ⟨isPlain_of_pair h.plain, h.fits c (List.mem_cons_self ..)⟩

theorem IsLive.append (hcs : IsLive cs) (hds : IsLive ds) : IsLive (cs ++ ds) where
  trail := isTrail_append hcs.trail hds.trail
  plain := isPlainPath_append.2 ⟨hcs.plain, hds.plain⟩
  fits := by
    rw [compoundsOf_append]
    exact List.forall_mem_append.2 ⟨hcs.fits, hds.fits⟩

theorem IsLive.left (h : IsLive (cs ++ ds)) (hcs : isTrail cs) : IsLive cs where
  trail := hcs
  plain := (isPlainPath_append.1 h.plain).1
  fits := by
    have := h.fits
    rw [compoundsOf_append] at this
    exact (List.forall_mem_append.1 this).1

end Weave

/-! ### Where a trail leads -/

namespace ElementTree

variable (t : ElementTree)

/-- The elements that a trail leads to. -/
def above (cs : List Component) : Place := t.reach cs.reverse anywhere

variable {t}

@[simp] theorem above_compound (c : Compound) (cs : List Component) :
    t.above (.compound c :: cs) = t.next none c (t.above cs) := by
  rw [above, List.reverse_cons, reach_snoc, above]

@[simp] theorem above_combinator (k : Combinator) (c : Compound) (cs : List Component) :
    t.above (.combinator k :: .compound c :: cs) = t.next (some k) c (t.above cs) := by
  rw [above, List.reverse_cons, List.reverse_cons, List.append_assoc, List.singleton_append,
    reach_snoc_pair, above]

/-- With an element all its later siblings are in the set. -/
def SiblingClosed (S : Place) : Prop :=
  ∀ x y, Related (some .general) x y → S x → S y

theorem Lasting.siblingClosed {S : Place} (h : Lasting S) : SiblingClosed S :=
  fun x y => h (some .general) x y

theorem lasting_above {cs : List Component} (h : Weave.isOpen cs) : Lasting (t.above cs) := by
  rcases cs with _ | ⟨c | k, rest⟩
  · exact lasting_anywhere
  · rw [above_compound]
    exact lasting_next_none c _
  · cases h

theorem siblingClosed_next_child (c : Compound) (S : Place) :
    SiblingClosed (t.next (some .child) c S) := by
  rintro x y ⟨i, j, p, _, rfl, rfl⟩ ⟨w, ⟨i', hw⟩, hc, hS⟩
  obtain rfl := (List.cons.inj hw).2
  exact ⟨p, ⟨j, rfl⟩, hc, hS⟩

/-- Only an element that has to be right behind another one cannot be exchanged for a later
sibling. -/
theorem siblingClosed_above {cs : List Component} (h : Weave.isTrail cs)
    (hadj : cs.head? ≠ some (.combinator .adjacent)) : SiblingClosed (t.above cs) := by
  rcases Weave.isTrail_cases h with hopen | ⟨k, c, rest, rfl, -⟩
  · exact (lasting_above hopen).siblingClosed
  · rw [above_combinator]
    cases k with
    | child => exact siblingClosed_next_child c _
    | general =>
      rintro x y hxy ⟨w, hw, hc, hS⟩
      exact ⟨w, Related.general_trans hw hxy, hc, hS⟩
    | adjacent => exact absurd rfl hadj

end ElementTree

end SelectorCalculus
