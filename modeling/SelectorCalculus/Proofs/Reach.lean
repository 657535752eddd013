import SelectorCalculus.Proofs.ElementTree
/-! Matching read from left to right: a path turns a set of elements into the set of those that come
next. -/

namespace SelectorCalculus

/-- A set of elements, by their addresses. -/
abbrev Place := Address → Prop

namespace ElementTree

variable (t : ElementTree)

/-- The elements that follow, by the given relation, one of `S` of which a compound holds. -/
def next (s : Option Combinator) (c : Compound) (S : Place) : Place :=
  fun z => ∃ x, Related s x z ∧ (t.subject x).Fits c ∧ S x

/-- The elements that can follow a path which starts in `S`. A combinator stands for the relation
only right after a compound. -/
def reach : List Component → Place → Place
  | [], S => S
  | [.compound c], S => t.next none c S
  | .compound c :: .combinator k :: rest, S => reach rest (t.next (some k) c S)
  | .compound c :: .compound d :: rest, S => reach (.compound d :: rest) (t.next none c S)
  | .combinator _ :: _, _ => fun _ => False

/-- The elements that match a path of which the first compound holds of an element of `S`. -/
def arrive : List Component → Place → Place
  | [.compound c], S => fun e => (t.subject e).Fits c ∧ S e
  | .compound c :: .combinator k :: rest, S => arrive rest (t.next (some k) c S)
  | .compound c :: .compound d :: rest, S => arrive (.compound d :: rest) (t.next none c S)
  | [], _ => fun _ => False
  | .combinator _ :: _, _ => fun _ => False

/-- Every element. -/
def anywhere : Place := fun _ => True

variable {t}

theorem next_mono {s : Option Combinator} {c : Compound} {S T : Place} (h : ∀ z, S z → T z)
    {z : Address} : t.next s c S z → t.next s c T z :=
  fun ⟨x, hx, hc, hS⟩ => ⟨x, hx, hc, h x hS⟩

theorem reach_mono (cs : List Component) {S T : Place} (h : ∀ z, S z → T z) {z : Address} :
    t.reach cs S z → t.reach cs T z := by
  fun_induction reach t cs S generalizing T with
  | case1 S => exact h z
  | case2 c S => exact next_mono h
  | case3 c k rest S ih => exact ih fun _ => next_mono h
  | case4 c d rest S ih => exact ih fun _ => next_mono h
  | case5 S => exact id

theorem reach_of_empty {cs : List Component} {S : Place} (h : ∀ z, ¬ S z) {z : Address} :
    ¬ t.reach cs S z := by
  have hn {s : Option Combinator} {c : Compound} {S : Place} (h : ∀ z, ¬ S z) (z : Address) :
      ¬ t.next s c S z := fun ⟨x, _, _, hx⟩ => h x hx
  fun_induction reach t cs S with
  | case1 S => exact h z
  | case2 c S => exact hn h z
  | case3 c k rest S ih => exact ih (hn h)
  | case4 c d rest S ih => exact ih (hn h)
  | case5 S => exact id

theorem reach_append (cs : List Component) (d : Compound) (ds : List Component) (S : Place) :
    t.reach (cs ++ .compound d :: ds) S = t.reach (.compound d :: ds) (t.reach cs S) := by
  fun_induction reach t cs S with
  | case1 S => rfl
  | case2 c S => rfl
  | case3 c k rest S ih => simpa only [List.cons_append, reach] using ih
  | case4 c d' rest S ih => simpa only [List.cons_append, reach] using ih
  | case5 S =>
    funext z
    exact (eq_false (reach_of_empty fun _ => id)).symm

theorem reach_snoc (cs : List Component) (c : Compound) (S : Place) :
    t.reach (cs ++ [.compound c]) S = t.next none c (t.reach cs S) := reach_append cs c [] S

theorem reach_snoc_pair (cs : List Component) (c : Compound) (k : Combinator) (S : Place) :
    t.reach (cs ++ [.compound c, .combinator k]) S = t.next (some k) c (t.reach cs S) :=
  reach_append cs c [.combinator k] S

theorem exists_snoc_of_reach_combinator {cs : List Component} {k : Combinator} {S : Place}
    {z : Address} (h : t.reach (cs ++ [.combinator k]) S z) :
    ∃ ds c, cs = ds ++ [.compound c] := by
  fun_induction reach t cs S with
  | case1 S => exact h.elim
  | case2 c S => exact ⟨[], c, rfl⟩
  | case3 c k' rest S ih =>
    obtain ⟨ds, d, rfl⟩ := ih h
    exact ⟨.compound c :: .combinator k' :: ds, d, rfl⟩
  | case4 c d' rest S ih =>
    obtain ⟨ds, d, hd⟩ := ih h
    exact ⟨.compound c :: ds, d, by rw [hd, List.cons_append]⟩
  | case5 S => exact h.elim

theorem Matches.exists_snoc {cs : List Component} {e : Address} (h : t.Matches cs e) :
    ∃ ds c, cs = ds ++ [.compound c] := by
  cases h with
  | single => exact ⟨[], _, rfl⟩
  | inside => exact ⟨_, _, rfl⟩
  | @beside cs x _ k c => exact ⟨cs ++ [.combinator k], c, by simp⟩

theorem Matches.reach {cs : List Component} {e : Address} (h : t.Matches cs e) :
    ∀ {ds : List Component} {c : Compound}, cs = ds ++ [.compound c] →
      (t.subject e).Fits c ∧ t.reach ds anywhere e := by
  induction h with
  | single hc =>
    intro ds c h
    rw [← List.nil_append [Component.compound _]] at h
    obtain ⟨rfl, hc'⟩ := List.append_inj' h rfl
    cases hc'
    exact ⟨hc, trivial⟩
  | @inside cs x e c hm hx hc ih =>
    intro ds c' h
    obtain ⟨rfl, hc'⟩ := List.append_inj' h rfl
    cases hc'
    obtain ⟨cs, d, rfl⟩ := hm.exists_snoc
    obtain ⟨hd, hr⟩ := ih rfl
    rw [reach_snoc]
    exact ⟨hc, x, hx, hd, hr⟩
  | @beside cs x e k c hm hx hc ih =>
    intro ds c' h
    rw [← List.singleton_append, ← List.append_assoc] at h
    obtain ⟨rfl, hc'⟩ := List.append_inj' h rfl
    cases hc'
    obtain ⟨cs, d, rfl⟩ := hm.exists_snoc
    obtain ⟨hd, hr⟩ := ih rfl
    rw [List.append_assoc, List.singleton_append, reach_snoc_pair]
    exact ⟨hc, x, hx, hd, hr⟩

/-- An element matches a path when its last compound holds of the element and the rest leads there. -/
theorem matches_snoc_iff {ds : List Component} {c : Compound} {e : Address} :
    t.Matches (ds ++ [.compound c]) e ↔ (t.subject e).Fits c ∧ t.reach ds anywhere e := by
  refine ⟨fun h => h.reach rfl, ?_⟩
  rintro ⟨hc, hr⟩
  -- Two components may go at once, so the induction is on the length.
  induction hn : ds.length using Nat.strongRecOn generalizing ds c e with
  | ind n ih =>
    rcases List.eq_nil_or_concat ds with rfl | ⟨cs, last, rfl⟩
    · exact .single hc
    · rw [List.concat_eq_append] at hr hn ⊢
      cases last with
      | compound d =>
        rw [reach_snoc] at hr
        obtain ⟨x, hx, hd, hr⟩ := hr
        exact .inside (ih cs.length (by simp at hn; omega) hd hr rfl) hx hc
      | combinator k =>
        obtain ⟨cs, d, rfl⟩ := exists_snoc_of_reach_combinator hr
        rw [List.append_assoc, List.singleton_append, reach_snoc_pair] at hr
        obtain ⟨x, hx, hd, hr⟩ := hr
        rw [List.append_assoc, List.singleton_append]
        exact .beside (ih cs.length (by simp at hn; omega) hd hr rfl) hx hc

theorem matches_single_iff {c : Compound} {e : Address} :
    t.Matches [.compound c] e ↔ (t.subject e).Fits c := by
  rw [← List.nil_append [Component.compound c], matches_snoc_iff]
  exact and_iff_left trivial

/-! ### Where a path arrives -/

theorem arrive_snoc_iff {ds : List Component} {c : Compound} {S : Place} {e : Address} :
    t.arrive (ds ++ [.compound c]) S e ↔ (t.subject e).Fits c ∧ t.reach ds S e := by
  fun_induction reach t ds S with
  | case1 S => exact Iff.rfl
  | case2 d S => exact Iff.rfl
  | case3 d k rest S ih => exact ih
  | case4 d d' rest S ih => exact ih
  | case5 S => exact (and_iff_right_of_imp False.elim).symm

theorem exists_snoc_of_arrive {cs : List Component} {S : Place} {e : Address}
    (h : t.arrive cs S e) : ∃ ds c, cs = ds ++ [.compound c] := by
  fun_induction arrive t cs S with
  | case1 c S => exact ⟨[], c, rfl⟩
  | case2 c k rest S ih =>
    obtain ⟨ds, d, hd⟩ := ih h
    exact ⟨.compound c :: .combinator k :: ds, d, by rw [hd]; rfl⟩
  | case3 c d rest S ih =>
    obtain ⟨ds, d', hd⟩ := ih h
    exact ⟨.compound c :: ds, d', by rw [hd]; rfl⟩
  | case4 S => exact h.elim
  | case5 S => exact h.elim

theorem matches_iff_arrive {cs : List Component} {e : Address} :
    t.Matches cs e ↔ t.arrive cs anywhere e := by
  constructor
  · intro h
    obtain ⟨ds, c, rfl⟩ := h.exists_snoc
    exact arrive_snoc_iff.2 (matches_snoc_iff.1 h)
  · intro h
    obtain ⟨ds, c, rfl⟩ := exists_snoc_of_arrive h
    exact matches_snoc_iff.2 (arrive_snoc_iff.1 h)

theorem arrive_mono {cs : List Component} {S T : Place} (h : ∀ z, S z → T z) {e : Address}
    (he : t.arrive cs S e) : t.arrive cs T e := by
  obtain ⟨ds, c, rfl⟩ := exists_snoc_of_arrive he
  rw [arrive_snoc_iff] at he ⊢
  exact ⟨he.1, reach_mono ds h he.2⟩

theorem arrive_append (cs : List Component) (d : Compound) (ds : List Component) (S : Place) :
    t.arrive (cs ++ .compound d :: ds) S = t.arrive (.compound d :: ds) (t.reach cs S) := by
  fun_induction reach t cs S with
  | case1 S => rfl
  | case2 c S => rfl
  | case3 c k rest S ih => exact ih
  | case4 c d' rest S ih => exact ih
  | case5 S =>
    funext e
    refine (eq_false fun he => ?_).symm
    obtain ⟨ds', c, hc⟩ := exists_snoc_of_arrive he
    rw [hc, arrive_snoc_iff] at he
    exact reach_of_empty (fun _ => id) he.2

/-! ### Places that last -/

/-- Whatever follows an element of the set is in it too. -/
def Lasting (S : Place) : Prop :=
  ∀ (s : Option Combinator) (x y : Address), Related s x y → S x → S y

theorem lasting_anywhere : Lasting anywhere := fun _ _ _ _ _ => trivial

theorem lasting_next_none (c : Compound) (S : Place) : Lasting (t.next none c S) := by
  rintro s x y hxy ⟨w, hw, hc, hS⟩
  exact ⟨w, hxy.isAncestor hw, hc, hS⟩

theorem Lasting.of_reach {S T : Place} (hS : Lasting S) (hT : ∀ z, T z → S z)
    {cs : List Component} {z : Address} (h : t.reach cs T z) : S z := by
  have hnext {s : Option Combinator} {c : Compound} {T : Place} (hT : ∀ z, T z → S z) (z : Address) :
      t.next s c T z → S z := fun ⟨x, hx, _, hTx⟩ => hS s x z hx (hT x hTx)
  fun_induction reach t cs T with
  | case1 T => exact hT z h
  | case2 c T => exact hnext hT z h
  | case3 c k rest T ih => exact ih (hnext hT) h
  | case4 c d rest T ih => exact ih (hnext hT) h
  | case5 T => exact h.elim

/-- The start of a path may be left out, from a set that lasts. -/
theorem Lasting.arrive_of_append {S : Place} (hS : Lasting S) {cs : List Component} {d : Compound}
    {ds : List Component} {e : Address} (h : t.arrive (cs ++ .compound d :: ds) S e) :
    t.arrive (.compound d :: ds) S e := by
  rw [arrive_append] at h
  exact arrive_mono (fun _ => hS.of_reach fun _ => id) h

end ElementTree

end SelectorCalculus
