import SelectorCalculus.Proofs.Chains
import SelectorCalculus.Proofs.Interleaving
/-! Trails that start with the same explicit steps are merged to these steps, so any two paths can
be made to meet above a common end. -/

namespace SelectorCalculus

namespace Weave

/-! ### Steps of a trail -/

/-- The trail of explicit steps, innermost first. -/
def trailOf (steps : List (Combinator × Compound)) : List Component :=
  steps.flatMap fun s => [.combinator s.1, .compound s.2]

theorem trailOf_nil : trailOf [] = [] := rfl

theorem trailOf_cons (k : Combinator) (c : Compound) (steps : List (Combinator × Compound)) :
    trailOf ((k, c) :: steps) = .combinator k :: .compound c :: trailOf steps := rfl

theorem trailOf_append (steps steps' : List (Combinator × Compound)) :
    trailOf (steps ++ steps') = trailOf steps ++ trailOf steps' := List.flatMap_append

theorem length_trailOf (steps : List (Combinator × Compound)) :
    (trailOf steps).length = 2 * steps.length := by
  induction steps with
  | nil => rfl
  | cons s steps ih =>
    obtain ⟨k, c⟩ := s
    simp only [trailOf_cons, List.length_cons, ih]
    omega

theorem compoundsOf_trailOf (steps : List (Combinator × Compound)) :
    compoundsOf (trailOf steps) = steps.map Prod.snd := by
  induction steps with
  | nil => rfl
  | cons s steps ih => rw [trailOf_cons, List.map_cons, ← ih]; rfl

theorem isTrail_trailOf (steps : List (Combinator × Compound)) : isTrail (trailOf steps) := by
  induction steps with
  | nil => rfl
  | cons s steps ih => exact ih

/-- Every trail is made of explicit steps and an open trail. -/
theorem exists_trailOf {cs : List Component} (h : isTrail cs) :
    ∃ steps rest, cs = trailOf steps ++ rest ∧ isOpen rest ∧ isTrail rest := by
  fun_induction isTrail cs with
  | case1 => exact ⟨[], [], rfl, rfl, rfl⟩
  | case2 c rest _ => exact ⟨[], .compound c :: rest, rfl, rfl, h⟩
  | case3 k c rest ih =>
    obtain ⟨steps, rest, rfl, hopen, htrail⟩ := ih h
    exact ⟨(k, c) :: steps, rest, rfl, hopen, htrail⟩
  | case4 => cases h

/-! ### Paths that ask for no more -/

/-- Whether a path asks for no more than another one, step by step and in every tree. -/
def Milder (cs ds : List Component) : Prop := ∀ t : ElementTree, List.Forall₂ t.Weaker cs ds

theorem Milder.refl (cs : List Component) : Milder cs cs := fun t =>
  List.forall₂_same.2 fun c _ => by
    cases c with
    | compound c => exact fun _ _ h => h
    | combinator k => exact rfl

theorem Milder.append {cs cs' ds ds' : List Component} (h : Milder cs ds) (h' : Milder cs' ds') :
    Milder (cs ++ cs') (ds ++ ds') := fun t => List.rel_append (h t) (h' t)

theorem Milder.subsumes {cs ds ds' : List Component} (h : Milder ds ds') (hs : Subsumes cs ds) :
    Subsumes cs ds' := fun t e he hm => hs t e he (hm.weaken he (h t))

/-! ### A step against itself -/

theorem exists_unify_self {c : Compound} (hc : c.isPlain) (hfit : ∃ x : Subject, x.Fits c) :
    ∃ u, c.unify? c = some u ∧ ∀ x : Subject, x.Fits c → x.Fits u := by
  obtain ⟨x, hx⟩ := hfit
  cases hu : c.unify? c with
  | none => exact absurd ⟨hx, hx⟩ (Subject.not_fits_of_unify hc hu)
  | some u => exact ⟨u, rfl, fun y hy => (Subject.fits_unify hu).2 ⟨hy, hy⟩⟩

theorem stepBoth_same {c : Compound} (hc : c.isPlain) (hfit : ∃ x : Subject, x.Fits c)
    (k : Combinator) (cs ds : List Component) :
    ∃ choice o, stepBoth? c k cs c k ds = some (choice, cs, ds) ∧ o ∈ choice ∧
      Milder o (pair c k) := by
  obtain ⟨u, hu, hfits⟩ := exists_unify_self hc hfit
  have hmild (k : Combinator) : Milder (pair u k) (pair c k) := fun t =>
    .cons (fun _ _ h => hfits _ h) (.cons rfl .nil)
  cases k with
  | child => exact ⟨[pair u .child], _, by simp [stepBoth?, hu], List.mem_singleton.2 rfl, hmild _⟩
  | adjacent =>
    exact ⟨[pair u .adjacent], _, by simp [stepBoth?, hu], List.mem_singleton.2 rfl, hmild _⟩
  | general =>
    refine ⟨_, pair c .general, rfl, ?_, Milder.refl _⟩
    simp [twoSiblings, Compound.isSuperselectorOf_refl hc]

/-- Two trails that start with the same steps are merged as what stands behind these, and the steps
can be picked again. -/
theorem mergeTrailing_mirror {steps : List (Combinator × Compound)} (hsteps : IsLive (trailOf steps))
    (cs ds : List Component) :
    ∃ choices back, List.Forall₂ (· ∈ ·) back choices ∧
      Milder back.flatten (trailOf steps).reverse ∧
      ∀ n, mergeTrailing? (n + steps.length) (trailOf steps ++ cs) (trailOf steps ++ ds) =
        (mergeTrailing? n cs ds).map fun r => (r.1 ++ choices, r.2.1, r.2.2) := by
  induction steps with
  | nil =>
    refine ⟨[], [], .nil, Milder.refl _, fun n => ?_⟩
    simp [trailOf]
  | cons s steps ih =>
    obtain ⟨k, c⟩ := s
    rw [trailOf_cons] at hsteps
    obtain ⟨hc, hfit⟩ := hsteps.head
    obtain ⟨choices, back, hback, hmild, hmerge⟩ := ih (hsteps.of_suffix ⟨[_, _], rfl⟩)
    obtain ⟨choice, o, hstep, ho, hmildo⟩ := stepBoth_same hc hfit k (trailOf steps ++ cs)
      (trailOf steps ++ ds)
    refine ⟨choices ++ [choice], back ++ [o], List.rel_append hback (.cons ho .nil), ?_, fun n => ?_⟩
    · rw [List.flatten_append, List.flatten_singleton, trailOf_cons, List.reverse_cons,
        List.reverse_cons, List.append_assoc]
      exact hmild.append hmildo
    · rw [trailOf_cons, List.cons_append, List.cons_append, List.cons_append, List.cons_append,
        List.length_cons, ← Nat.add_assoc, mergeTrailing?_both, hstep, Option.bind_some, mergeRest?,
        hmerge n]
      cases mergeTrailing? n cs ds with
      | none => rfl
      | some r => simp

theorem mergeTrailing_alone (steps : List (Combinator × Compound)) {cs : List Component}
    (hcs : isOpen cs) :
    ∃ choices back, List.Forall₂ (· ∈ ·) back choices ∧
      back.flatten = (trailOf steps).reverse ∧
      ∀ n, mergeTrailing? (n + steps.length) (trailOf steps ++ cs) [] = some (choices, cs, []) := by
  induction steps with
  | nil =>
    refine ⟨[], [], .nil, rfl, fun n => ?_⟩
    exact mergeTrailing?_open hcs rfl
  | cons s steps ih =>
    obtain ⟨k, c⟩ := s
    obtain ⟨choices, back, hback, hflat, hmerge⟩ := ih
    refine ⟨choices ++ [[pair c k]], back ++ [pair c k],
      List.rel_append hback (.cons (List.mem_singleton.2 rfl) .nil), ?_, fun n => ?_⟩
    · rw [List.flatten_append, List.flatten_singleton, trailOf_cons, List.reverse_cons,
        List.reverse_cons, List.append_assoc, hflat]
      rfl
    · have hone : stepOne c k [] = ([pair c k], []) := by cases k <;> rfl
      rw [trailOf_cons, List.cons_append, List.cons_append, List.length_cons, ← Nat.add_assoc,
        mergeTrailing?_left k c rfl, hone, mergeRest?, hmerge n]
      rfl

end Weave

end SelectorCalculus
