import SelectorCalculus.Proofs.EqualSelectors
import SelectorCalculus.Proofs.Reach
import Mathlib.Data.Fintype.EquivFin
import Mathlib.Data.List.Nodup
/-! Trees made for one path: its compounds are laid along a chain of elements, and every other
element is of one kind. -/

namespace SelectorCalculus

/-! ### Addresses along a chain -/

/-- How far an address is from the root in steps to a first child or a next sibling. -/
def weight : Address → Nat
  | [] => 0
  | i :: p => weight p + i + 1

theorem IsAncestor.weight_lt {x y : Address} (h : IsAncestor x y) : weight x < weight y := by
  induction y with
  | nil => exact h.elim
  | cons i p ih =>
    have hp : weight p < weight (i :: p) := by
      simp only [weight]
      omega
    rcases h with rfl | h
    · exact hp
    · exact Nat.lt_trans (ih h) hp

theorem Related.weight_lt {s : Option Combinator} {x y : Address} (h : Related s x y) :
    weight x < weight y := by
  match s, h with
  | none, h => exact IsAncestor.weight_lt h
  | some .child, h => exact IsAncestor.weight_lt h.of_child
  | some .general, ⟨i, j, p, hij, hx, hy⟩ =>
    subst hx hy
    simp only [weight]
    omega
  | some .adjacent, ⟨i, p, hx, hy⟩ =>
    subst hx hy
    simp only [weight]
    omega

/-- The nearest element that a relation leads to: the first child or the next sibling. -/
def follow : Option Combinator → Address → Address
  | none, a => 0 :: a
  | some .child, a => 0 :: a
  | some _, i :: p => (i + 1) :: p
  | some _, [] => []

theorem related_follow (s : Option Combinator) {a : Address} (ha : a ≠ []) :
    Related s a (follow s a) := by
  obtain ⟨i, p, rfl⟩ := List.exists_cons_of_ne_nil ha
  match s with
  | none => exact Or.inl rfl
  | some .child => exact ⟨0, rfl⟩
  | some .general => exact ⟨i, i + 1, p, Nat.lt_succ_self i, rfl, rfl⟩
  | some .adjacent => exact ⟨i, p, rfl, rfl⟩

theorem follow_ne_nil (s : Option Combinator) {a : Address} (ha : a ≠ []) : follow s a ≠ [] := by
  obtain ⟨i, p, rfl⟩ := List.exists_cons_of_ne_nil ha
  match s with
  | none | some .child | some .general | some .adjacent => simp [follow]

theorem weight_follow (s : Option Combinator) {a : Address} (ha : a ≠ []) :
    weight (follow s a) = weight a + 1 := by
  obtain ⟨i, p, rfl⟩ := List.exists_cons_of_ne_nil ha
  match s with
  | none | some .child => rfl
  | some .general | some .adjacent =>
    simp only [follow, weight]
    omega

/-- Where the steps of a path end that starts at an address. -/
def land : List Component → Address → Address
  | [], a => a
  | [.compound _], a => follow none a
  | .compound _ :: .combinator k :: rest, a => land rest (follow (some k) a)
  | .compound _ :: .compound d :: rest, a => land (.compound d :: rest) (follow none a)
  | .combinator _ :: rest, a => land rest a

/-- The compounds of a path with the addresses at which they come to lie. -/
def spots : List Component → Address → List (Address × Compound)
  | [], _ => []
  | [.compound c], a => [(a, c)]
  | .compound c :: .combinator k :: rest, a => (a, c) :: spots rest (follow (some k) a)
  | .compound c :: .compound d :: rest, a => (a, c) :: spots (.compound d :: rest) (follow none a)
  | .combinator _ :: rest, a => spots rest a

theorem land_append (cs : List Component) (d : Compound) (ds : List Component) (a : Address) :
    land (cs ++ .compound d :: ds) a = land (.compound d :: ds) (land cs a) := by
  fun_induction land cs a with
  | case1 a => rfl
  | case2 c a => rfl
  | case3 c k rest a ih => exact ih
  | case4 c d' rest a ih => exact ih
  | case5 k rest a ih => exact ih

theorem spots_append (cs : List Component) (d : Compound) (ds : List Component) (a : Address) :
    spots (cs ++ .compound d :: ds) a = spots cs a ++ spots (.compound d :: ds) (land cs a) := by
  fun_induction spots cs a with
  | case1 a => rfl
  | case2 c a => rfl
  | case3 c k rest a ih => simpa [spots, land] using ih
  | case4 c d' rest a ih => simpa [spots, land] using ih
  | case5 k rest a ih => exact ih

theorem land_ne_nil (cs : List Component) {a : Address} (ha : a ≠ []) : land cs a ≠ [] := by
  fun_induction land cs a with
  | case1 a => exact ha
  | case2 c a => exact follow_ne_nil none ha
  | case3 c k rest a ih => exact ih (follow_ne_nil _ ha)
  | case4 c d' rest a ih => exact ih (follow_ne_nil _ ha)
  | case5 k rest a ih => exact ih ha

theorem weight_land (cs : List Component) {a : Address} (ha : a ≠ []) :
    weight (land cs a) = weight a + (compoundsOf cs).length := by
  fun_induction land cs a with
  | case1 a => rfl
  | case2 c a => exact weight_follow none ha
  | case3 c k rest a ih =>
    simp only [ih (follow_ne_nil _ ha), weight_follow _ ha, compoundsOf_compound_cons,
      compoundsOf_combinator_cons, List.length_cons]
    omega
  | case4 c d' rest a ih =>
    simp only [ih (follow_ne_nil _ ha), weight_follow _ ha, compoundsOf_compound_cons,
      List.length_cons]
    omega
  | case5 k rest a ih => exact ih ha

/-- Every spot is farther from the root than the spots before it. -/
theorem pairwise_spots (cs : List Component) {a : Address} (ha : a ≠ []) :
    (∀ s ∈ spots cs a, weight a ≤ weight s.1) ∧
      (spots cs a).Pairwise fun s s' => weight s.1 < weight s'.1 := by
  have hcons {c : Compound} {step : Option Combinator} {l : List (Address × Compound)} {a : Address}
      (ha : a ≠ []) (hl : (∀ s ∈ l, weight (follow step a) ≤ weight s.1) ∧
        l.Pairwise fun s s' => weight s.1 < weight s'.1) :
      (∀ s ∈ (a, c) :: l, weight a ≤ weight s.1) ∧
        ((a, c) :: l).Pairwise fun s s' => weight s.1 < weight s'.1 := by
    obtain ⟨hle, hp⟩ := hl
    simp only [weight_follow step ha] at hle
    refine ⟨List.forall_mem_cons.2 ⟨Nat.le_refl _, fun s hs => ?_⟩,
      List.pairwise_cons.2 ⟨fun s hs => ?_, hp⟩⟩
    · exact Nat.le_of_succ_le (hle s hs)
    · exact hle s hs
  fun_induction spots cs a with
  | case1 a => exact ⟨by simp, List.Pairwise.nil⟩
  | case2 c a => exact ⟨by simp, List.pairwise_singleton _ _⟩
  | case3 c k rest a ih => exact hcons ha (ih (follow_ne_nil _ ha))
  | case4 c d rest a ih => exact hcons ha (ih (follow_ne_nil _ ha))
  | case5 k rest a ih => exact ih ha

theorem spots_unique {cs : List Component} {a : Address} (ha : a ≠ []) {s s' : Address × Compound}
    (hs : s ∈ spots cs a) (hs' : s' ∈ spots cs a) (h : weight s.1 = weight s'.1) : s = s' := by
  have hnodup : ((spots cs a).map fun s => weight s.1).Nodup :=
    List.pairwise_map.2 ((pairwise_spots cs ha).2.imp Nat.ne_of_lt)
  exact List.inj_on_of_nodup_map hnodup hs hs' h

/-! ### The tree of a path -/

theorem map_snd_spots (cs : List Component) (a : Address) :
    (spots cs a).map Prod.snd = compoundsOf cs := by
  fun_induction spots cs a with
  | case1 a => rfl
  | case2 c a => rfl
  | case3 c k rest a ih => simpa using ih
  | case4 c d rest a ih => simpa using ih
  | case5 k rest a ih => exact ih

namespace ElementTree

/-- In a tree in which the compounds of a path fit along its chain, the path leads along it. -/
theorem reach_land {t : ElementTree} {ds : List Component} {c : Compound}
    (hw : isWellFormed (ds ++ [.compound c])) {S : Place} {a : Address} (ha : a ≠ []) (hS : S a)
    (hfit : ∀ s ∈ spots ds a, (t.subject s.1).Fits s.2) : t.reach ds S (land ds a) := by
  fun_induction reach t ds S generalizing a with
  | case1 S => exact hS
  | case2 d S => exact ⟨a, related_follow none ha, hfit _ (List.mem_singleton.2 rfl), hS⟩
  | case3 d k rest S ih =>
    obtain ⟨hd, hrest⟩ := List.forall_mem_cons.1 hfit
    exact ih hw (follow_ne_nil _ ha) ⟨a, related_follow (some k) ha, hd, hS⟩ hrest
  | case4 d d' rest S ih =>
    obtain ⟨hd, hrest⟩ := List.forall_mem_cons.1 hfit
    exact ih hw (follow_ne_nil _ ha) ⟨a, related_follow none ha, hd, hS⟩ hrest
  | case5 k rest S => cases hw

/-- A tree for a path. Each compound is given a subject of its own along a chain, and all other
elements are alike. -/
theorem exists_chain (Allowed : Compound → Subject → Prop) (other : Subject) {cs : List Component}
    (h : ∀ c ∈ compoundsOf cs, ∃ x, Allowed c x) :
    ∃ t : ElementTree, (∀ a, t.present a ↔ weight a ≤ weight (land cs [0])) ∧
      (∀ s ∈ spots cs [0], Allowed s.2 (t.subject s.1)) ∧
      ∀ a, (∀ s ∈ spots cs [0], s.1 ≠ a) → t.subject a = other := by
  classical
  have hpick (c : Compound) : ∃ x, c ∈ compoundsOf cs → Allowed c x := by
    by_cases hc : c ∈ compoundsOf cs
    · obtain ⟨x, hx⟩ := h c hc
      exact ⟨x, fun _ => hx⟩
    · exact ⟨other, fun h => absurd h hc⟩
  choose pick hpick using hpick
  let spot? (a : Address) := (spots cs [0]).find? (·.1 == a)
  refine ⟨{ present := fun a => weight a ≤ weight (land cs [0])
            subject := fun a => ((spot? a).map fun s => pick s.2).getD other
            present_parent := ?_
            present_previous := ?_ }, fun _ => Iff.rfl, ?_, ?_⟩
  · intro i p h
    have hlt : Related (some .child) p (i :: p) := ⟨i, rfl⟩
    exact Nat.le_trans (Nat.le_of_lt hlt.weight_lt) h
  · intro i p h
    have hlt : Related (some .adjacent) (i :: p) ((i + 1) :: p) := ⟨i, p, rfl, rfl⟩
    exact Nat.le_trans (Nat.le_of_lt hlt.weight_lt) h
  · intro s hs
    have hmem : s.2 ∈ compoundsOf cs := by
      rw [← map_snd_spots cs [0]]
      exact List.mem_map_of_mem hs
    cases hspot : spot? s.1 with
    | none =>
      have := List.find?_eq_none.1 hspot s hs
      simp at this
    | some s' =>
      have haddress : s'.1 = s.1 := by simpa using List.find?_some hspot
      have hs' : s' ∈ spots cs [0] := List.mem_of_find?_eq_some hspot
      have heq : s' = s := spots_unique (by simp) hs' hs (congrArg weight haddress)
      simpa [hspot, heq] using hpick s.2 hmem
  · intro a ha
    have hspot : spot? a = none := by
      simpa [spot?] using ha
    simp [hspot]

theorem matches_land {t : ElementTree} {ds : List Component} {c : Compound}
    (hw : isWellFormed (ds ++ [.compound c]))
    (hfit : ∀ s ∈ spots (ds ++ [.compound c]) [0], (t.subject s.1).Fits s.2) :
    t.Matches (ds ++ [.compound c]) (land ds [0]) := by
  rw [spots_append, List.forall_mem_append] at hfit
  have hlast := hfit.2 (land ds [0], c) (List.mem_singleton.2 rfl)
  exact matches_snoc_iff.2 ⟨hlast, reach_land hw (by simp) trivial hfit.1⟩

/-- A well-formed path matches somewhere if elements can fit each of its compounds. -/
theorem exists_matches {cs : List Component} (hw : isWellFormed cs)
    (hfit : ∀ c ∈ compoundsOf cs, ∃ x : Subject, x.Fits c) :
    ∃ (t : ElementTree) (e : Address), t.present e ∧ t.Matches cs e := by
  obtain ⟨t, hpresent, hspots, -⟩ := exists_chain (fun c x => x.Fits c) (.ofClasses []) hfit
  obtain ⟨ds, c, rfl⟩ := exists_snoc_of_isWellFormed hw
  refine ⟨t, land ds [0], (hpresent _).2 ?_, matches_land hw hspots⟩
  rw [land_append, land, weight_follow _ (land_ne_nil _ (by simp))]
  exact Nat.le_succ _

/-! ### Counting steps -/

variable {t : ElementTree}

/-- Every step goes away from the root: an element behind a path is at least as far from it as the
path has compounds. -/
theorem weight_of_reach {Marked : Address → Prop} {cs : List Component} {S : Place} {n : Nat}
    (hcs : ∀ c ∈ compoundsOf cs, ∀ x, (t.subject x).Fits c → Marked x)
    (hS : ∀ x, S x → Marked x → n ≤ weight x) {z : Address} (h : t.reach cs S z) (hz : Marked z) :
    n + (compoundsOf cs).length ≤ weight z := by
  have hnext {s : Option Combinator} {c : Compound} {S : Place} {n : Nat}
      (hc : ∀ x, (t.subject x).Fits c → Marked x) (hS : ∀ x, S x → Marked x → n ≤ weight x)
      {x : Address} (hx : t.next s c S x) : n + 1 ≤ weight x := by
    obtain ⟨y, hy, hfit, hSy⟩ := hx
    exact Nat.lt_of_le_of_lt (hS y hSy (hc y hfit)) hy.weight_lt
  fun_induction reach t cs S generalizing n with
  | case1 S => exact hS z h hz
  | case2 c S => exact hnext (hcs c (List.mem_singleton.2 rfl)) hS h
  | case3 c k rest S ih =>
    obtain ⟨hc, hrest⟩ := List.forall_mem_cons.1 hcs
    have := ih hrest (fun x hx _ => hnext hc hS hx) h
    simp only [compoundsOf_compound_cons, compoundsOf_combinator_cons, List.length_cons]
    omega
  | case4 c d rest S ih =>
    obtain ⟨hc, hrest⟩ := List.forall_mem_cons.1 hcs
    have := ih hrest (fun x hx _ => hnext hc hS hx) h
    simp only [compoundsOf_compound_cons, List.length_cons] at this ⊢
    omega
  | case5 k rest S => exact h.elim

theorem weight_of_arrive {c : Compound} {cs : List Component} {S : Place} {e : Address}
    (h : t.arrive (.compound c :: cs) S e) :
    ∃ x, S x ∧ (t.subject x).Fits c ∧ weight x + (compoundsOf cs).length ≤ weight e := by
  generalize hds : Component.compound c :: cs = ds at h
  fun_induction arrive t ds S generalizing c cs with
  | case1 d S =>
    cases hds
    exact ⟨e, h.2, h.1, Nat.le_refl _⟩
  | case2 d k rest S ih =>
    cases hds
    obtain ⟨d', rest, rfl⟩ : ∃ d' rest', rest = .compound d' :: rest' := by
      rcases rest with _ | ⟨d' | k', rest⟩
      · exact h.elim
      · exact ⟨d', rest, rfl⟩
      · exact h.elim
    obtain ⟨y, ⟨x, hx, hfit, hSx⟩, -, hy⟩ := ih rfl h
    have := hx.weight_lt
    refine ⟨x, hSx, hfit, ?_⟩
    simp only [compoundsOf_compound_cons, compoundsOf_combinator_cons, List.length_cons]
    omega
  | case3 d d' rest S ih =>
    cases hds
    obtain ⟨y, ⟨x, hx, hfit, hSx⟩, -, hy⟩ := ih rfl h
    have := hx.weight_lt
    refine ⟨x, hSx, hfit, ?_⟩
    simp only [compoundsOf_compound_cons, List.length_cons]
    omega
  | case4 S => cases hds
  | case5 S => cases hds

end ElementTree

/-! ### Something in between -/

/-- Elements can fit each compound of a path, and some element fits none of them. -/
structure IsContingent (cs : List Component) : Prop where
  fits : ∀ c ∈ compoundsOf cs, ∃ x : Subject, x.Fits c
  misses : ∃ x : Subject, ∀ c ∈ compoundsOf cs, ¬ x.Fits c

/-- A class that the compounds of a path say nothing about. -/
theorem IsContingent.exists_class {cs : List Component} (h : IsContingent cs) :
    ∃ name, (∃ x : Subject, x.Fits (.ofClass name) ∧ ∀ c ∈ compoundsOf cs, ¬ x.Fits c) ∧
      ∀ c ∈ compoundsOf cs, ∃ x : Subject, x.Fits c ∧ ¬ x.Fits (.ofClass name) := by
  obtain ⟨name, hname⟩ := Infinite.exists_notMem_finset
    (((compoundsOf cs).flatMap Compound.simples).map fun s => s.name).toFinset
  have hfresh (c : Compound) (hc : c ∈ compoundsOf cs) (s : Simple) (hs : s ∈ c.simples) :
      s.name ≠ name := by
    intro heq
    refine hname (List.mem_toFinset.2 (List.mem_map.2 ⟨s, ?_, heq⟩))
    exact List.mem_flatMap.2 ⟨c, hc, hs⟩
  refine ⟨name, ?_, fun c hc => ?_⟩
  · obtain ⟨x, hx⟩ := h.misses
    refine ⟨x.mark name True, by simp, fun c hc => ?_⟩
    rw [Subject.mark_fits (hfresh c hc)]
    exact hx c hc
  · obtain ⟨x, hx⟩ := h.fits c hc
    refine ⟨x.mark name False, ?_, by simp⟩
    rwa [Subject.mark_fits (hfresh c hc)]

theorem spots_cons_link (c d : Compound) (s : Option Combinator) (cs : List Component) (a : Address) :
    spots (.compound c :: (link s ++ .compound d :: cs)) a =
      (a, c) :: spots (.compound d :: cs) (follow s a) := by
  cases s <;> rfl

theorem mem_spots_cons (c : Compound) (cs : List Component) (a : Address) :
    (a, c) ∈ spots (.compound c :: cs) a := by
  rcases cs with _ | ⟨_ | _, rest⟩ <;> simp [spots]

/-- An element put between two others parts them, unless siblings stay siblings or a child stays a
child. -/
theorem not_related_follow_follow {k : Combinator} {s : Option Combinator}
    (h : k = .adjacent ∨ s = none ∨ s = some .child) {a : Address} (ha : a ≠ []) :
    ¬ Related (some k) a (follow s (follow (some k) a)) := by
  obtain ⟨i, p, rfl⟩ := List.exists_cons_of_ne_nil ha
  have hne (j : Nat) (q : Address) : q ≠ j :: q := fun h => by
    have := congrArg List.length h
    simp only [List.length_cons] at this
    omega
  rintro hrel
  cases k with
  | child =>
    obtain rfl | rfl : s = none ∨ s = some .child := by simpa using h
    all_goals
      obtain ⟨j, hj⟩ := hrel
      exact hne _ _ (List.cons.inj hj).2.symm
  | general =>
    obtain rfl | rfl : s = none ∨ s = some .child := by simpa using h
    all_goals
      obtain ⟨j, j', q, -, hq, hj⟩ := hrel
      exact hne _ _ ((List.cons.inj hq).2.trans (List.cons.inj hj).2.symm)
  | adjacent =>
    obtain ⟨j, q, hq, hj⟩ := hrel
    obtain ⟨rfl, rfl⟩ := List.cons.inj hq
    match s with
    | none | some .child => exact hne _ _ (List.cons.inj hj).2.symm
    | some .general | some .adjacent =>
      have := (List.cons.inj hj).1
      omega

open ElementTree

/-- Where two neighbouring steps are parted and no other element can take their places, the path
does not match: it would have to be shorter. -/
theorem not_matches_parted {t : ElementTree} {cs ds : List Component} {c d : Compound}
    {k : Combinator} {u w e : Address} {Marked : Address → Prop}
    (hmarked : ∀ c' ∈ compoundsOf (cs ++ .compound c :: .combinator k :: .compound d :: ds),
      ∀ x, (t.subject x).Fits c' → Marked x)
    (hfar : ∀ x, Marked x → 1 ≤ weight x) (hu : ∀ x, Marked x → weight x = weight u → x = u)
    (hbetween : ∀ x, Marked x → weight x ≠ weight u + 1)
    (hw : ∀ x, Marked x → weight x = weight u + 2 → x = w)
    (hcs : weight u = 1 + (compoundsOf cs).length)
    (he : weight e = weight u + 2 + (compoundsOf ds).length)
    (hparted : ¬ Related (some k) u w) :
    ¬ t.Matches (cs ++ .compound c :: .combinator k :: .compound d :: ds) e := by
  simp only [compoundsOf_append, compoundsOf_compound_cons, compoundsOf_combinator_cons,
    List.forall_mem_append, List.forall_mem_cons] at hmarked
  obtain ⟨hcs', hc, hd, -⟩ := hmarked
  intro hmatch
  rw [matches_iff_arrive, arrive_append] at hmatch
  have harrive : t.arrive (.compound d :: ds) (t.next (some k) c (t.reach cs anywhere)) e := hmatch
  obtain ⟨z, ⟨x, hxz, hfx, hx⟩, hfz, hz⟩ := weight_of_arrive harrive
  have hx := weight_of_reach hcs' (fun x _ => hfar x) hx (hc x hfx)
  have hlt := hxz.weight_lt
  have hx' := hbetween x (hc x hfx)
  have hz' := hbetween z (hd z hfz)
  obtain rfl : x = u := hu x (hc x hfx) (by omega)
  obtain rfl : z = w := hw z (hd z hfz) (by omega)
  exact hparted hxz

/-- A path with an element put between two of its steps can match where the path does not. The
compounds of the path must be such that elements can fit them, and some element fits what is put
between but none of them. -/
theorem not_subsumes_insert {cs ds : List Component} {c d g : Compound} {k : Combinator}
    {s : Option Combinator} {other : Subject} (hs : k = .adjacent ∨ s = none ∨ s = some .child)
    (hw : isWellFormed (cs ++ .compound c :: .combinator k :: .compound d :: ds))
    (hfit : ∀ c' ∈ compoundsOf (cs ++ .compound c :: .combinator k :: .compound d :: ds),
      ∃ x : Subject, x.Fits c')
    (hg : other.Fits g)
    (hother : ∀ c' ∈ compoundsOf (cs ++ .compound c :: .combinator k :: .compound d :: ds),
      ¬ other.Fits c') :
    ¬ Subsumes (cs ++ .compound c :: .combinator k :: .compound d :: ds)
      (cs ++ .compound c :: .combinator k :: .compound g :: (link s ++ .compound d :: ds)) := by
  set A := cs ++ .compound c :: .combinator k :: .compound d :: ds with hA
  set R := cs ++ .compound c :: .combinator k :: .compound g :: (link s ++ .compound d :: ds) with hR
  have hwR : isWellFormed R := isWellFormed_insert hw
  let Allowed (c' : Compound) (x : Subject) : Prop := x.Fits c' ∧ (c' ∈ compoundsOf A ∨ x = other)
  have hallowed : ∀ c' ∈ compoundsOf R, ∃ x, Allowed c' x := by
    intro c' hc'
    rcases mem_compoundsOf_insert hc' with rfl | hc'
    · exact ⟨other, hg, Or.inr rfl⟩
    · obtain ⟨x, hx⟩ := hfit c' hc'
      exact ⟨x, hx, Or.inl hc'⟩
  obtain ⟨t, hpresent, hspots, hrest⟩ := exists_chain Allowed other hallowed
  obtain ⟨front, last, hfront⟩ := exists_snoc_of_isWellFormed hwR
  have hland : land R [0] = follow none (land front [0]) := by
    rw [hfront, land_append]
    rfl
  have hweight : weight (land R [0]) = weight (land front [0]) + 1 := by
    rw [hland, weight_follow _ (land_ne_nil _ (by simp))]
  intro hsub
  have hmatch : t.Matches A (land front [0]) := by
    refine hsub t _ ((hpresent _).2 (by omega)) ?_
    rw [hfront]
    refine matches_land (hfront ▸ hwR) fun s hs => ?_
    exact (hspots s (hfront ▸ hs)).1
  set u := land cs [0] with hu
  have hu₀ : u ≠ [] := land_ne_nil cs (by simp)
  have hv₀ := follow_ne_nil (some k) hu₀
  have hwu : weight u = 1 + (compoundsOf cs).length := weight_land cs (by simp)
  have hwv := weight_follow (some k) hu₀
  have hww := weight_follow s hv₀
  have hmem : (u, c) ∈ spots R [0] ∧ (follow (some k) u, g) ∈ spots R [0] ∧
      (follow s (follow (some k) u), d) ∈ spots R [0] := by
    rw [hR, spots_append, spots, spots_cons_link]
    refine ⟨?_, ?_, ?_⟩
    all_goals refine List.mem_append_right _ ?_
    · exact List.mem_cons_self ..
    · exact List.mem_cons_of_mem _ (List.mem_cons_self ..)
    · exact List.mem_cons_of_mem _ (List.mem_cons_of_mem _ (mem_spots_cons ..))
  obtain ⟨hmu, hmv, hmw⟩ := hmem
  have hmarked (c' : Compound) (hc' : c' ∈ compoundsOf A) (x : Address)
      (hx : (t.subject x).Fits c') : (∃ c'', (x, c'') ∈ spots R [0]) ∧ x ≠ follow (some k) u := by
    constructor
    · by_contra hno
      have : t.subject x = other := hrest x fun s hs heq => hno ⟨s.2, by rw [← heq]; exact hs⟩
      exact hother c' hc' (this ▸ hx)
    · rintro rfl
      rcases (hspots _ hmv).2 with hin | heq
      · exact hother g hin hg
      · exact hother c' hc' (heq ▸ hx)
  refine not_matches_parted (w := follow s (follow (some k) u)) hmarked ?_ ?_ ?_ ?_ hwu ?_
    (not_related_follow_follow hs hu₀) hmatch
  · rintro x ⟨⟨c'', hx⟩, -⟩
    exact (pairwise_spots R (by simp)).1 _ hx
  · rintro x ⟨⟨c'', hx⟩, -⟩ heq
    exact congrArg Prod.fst (spots_unique (by simp) hx hmu heq)
  · rintro x ⟨⟨c'', hx⟩, hne⟩ heq
    exact hne (congrArg Prod.fst (spots_unique (by simp) hx hmv (heq.trans hwv.symm)))
  · rintro x ⟨⟨c'', hx⟩, -⟩ heq
    refine congrArg Prod.fst (spots_unique (by simp) hx hmw ?_)
    simp only
    omega
  · have hcount : (compoundsOf R).length = (compoundsOf cs).length + (compoundsOf ds).length + 3 := by
      simp only [hR, compoundsOf_append, compoundsOf_link, compoundsOf_compound_cons,
        compoundsOf_combinator_cons, List.length_append, List.length_cons, List.nil_append]
      omega
    have hend : weight (land R [0]) = 1 + (compoundsOf R).length := weight_land R (by simp)
    omega

end SelectorCalculus
