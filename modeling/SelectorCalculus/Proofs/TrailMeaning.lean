import SelectorCalculus.Proofs.Trails
/-! What merging trails promises for trails that are loose. -/

namespace SelectorCalculus

open ElementTree

namespace Weave

variable {t : ElementTree}

theorem next_weaken {s s' : Option Combinator} {c d : Compound} {S T : Place}
    (hs : ∀ x y, Related s' x y → Related s x y) (hc : ∀ x : Subject, x.Fits d → x.Fits c)
    (hS : ∀ z, S z → T z) {z : Address} (h : t.next s' d S z) : t.next s c T z := by
  obtain ⟨x, hx, hd, hSx⟩ := h
  exact ⟨x, hs x z hx, hc _ hd, hS x hSx⟩

/-! ### Siblings -/

/-- Both siblings are found, whichever comes first, in a set that is closed under later siblings. -/
theorem twoSiblings_sound {c d : Compound} (hc : c.isPlain) (hd : d.isPlain) {o : List Component}
    (ho : o ∈ twoSiblings c d) {U V : Place} (hUV : ∀ z, U z → V z) (hV : SiblingClosed V)
    {z : Address} (hz : t.reach o U z) :
    t.next (some .general) c V z ∧ t.next (some .general) d V z := by
  have hswap {c d : Compound} (h : t.reach (pair c .general ++ pair d .general) U z) :
      t.next (some .general) c V z ∧ t.next (some .general) d V z := by
    obtain ⟨y, hyz, hfd, x, hxy, hfc, hU⟩ := h
    have hVx := hUV x hU
    exact ⟨⟨x, hxy.general_trans hyz, hfc, hVx⟩, y, hyz, hfd, hV x y hxy hVx⟩
  have hone {u : Compound} (hu : ∀ x : Subject, x.Fits u → x.Fits c ∧ x.Fits d)
      (h : t.reach (pair u .general) U z) :
      t.next (some .general) c V z ∧ t.next (some .general) d V z := by
    obtain ⟨x, hxz, hfu, hU⟩ := h
    obtain ⟨hfc, hfd⟩ := hu _ hfu
    exact ⟨⟨x, hxz, hfc, hUV x hU⟩, x, hxz, hfd, hUV x hU⟩
  unfold twoSiblings at ho
  split at ho
  · rename_i hcd
    rw [List.mem_singleton.1 ho] at hz
    exact hone (fun x hx => ⟨Compound.isSuperselectorOf_sound hc hd hcd hx, hx⟩) hz
  · split at ho
    · rename_i hdc
      rw [List.mem_singleton.1 ho] at hz
      exact hone (fun x hx => ⟨hx, Compound.isSuperselectorOf_sound hd hc hdc hx⟩) hz
    · rcases List.mem_append.1 ho with ho | ho
      · simp only [List.mem_cons, List.not_mem_nil, or_false] at ho
        rcases ho with rfl | rfl
        · exact hswap hz
        · exact (hswap hz).symm
      · cases hu : c.unify? d with
        | none => simp [hu] at ho
        | some u =>
          rw [hu, List.mem_singleton] at ho
          rw [ho] at hz
          exact hone (fun x hx => (Subject.fits_unify hu).1 hx) hz

/-- The neighbour has to be in a set that is closed under later siblings; for the other sibling any
set will do. -/
theorem siblingAndNeighbour_sound {g a : Compound} (hg : g.isPlain) (ha : a.isPlain)
    {unified : Option Compound}
    (hu : ∀ u, unified = some u → ∀ x : Subject, x.Fits u → x.Fits g ∧ x.Fits a)
    {o : List Component} (ho : o ∈ siblingAndNeighbour g a unified) {U V : Place}
    (hUV : ∀ z, U z → V z) {z : Address} (hz : t.reach o U z) :
    t.next (some .general) g V z ∧ (SiblingClosed V → t.next (some .adjacent) a V z) := by
  have hone {u : Compound} (hu : ∀ x : Subject, x.Fits u → x.Fits g ∧ x.Fits a)
      (h : t.reach (pair u .adjacent) U z) :
      t.next (some .general) g V z ∧ (SiblingClosed V → t.next (some .adjacent) a V z) := by
    obtain ⟨x, hxz, hfu, hU⟩ := h
    obtain ⟨hfg, hfa⟩ := hu _ hfu
    exact ⟨⟨x, Related.of_adjacent hxz, hfg, hUV x hU⟩, fun _ => ⟨x, hxz, hfa, hUV x hU⟩⟩
  unfold siblingAndNeighbour at ho
  split at ho
  · rename_i hga
    rw [List.mem_singleton.1 ho] at hz
    exact hone (fun x hx => ⟨Compound.isSuperselectorOf_sound hg ha hga hx, hx⟩) hz
  · rcases List.mem_cons.1 ho with rfl | ho
    · obtain ⟨y, hyz, hfa, x, hxy, hfg, hU⟩ := hz
      have hVx := hUV x hU
      refine ⟨⟨x, Related.general_trans hxy (Related.of_adjacent hyz), hfg, hVx⟩, fun hV => ?_⟩
      exact ⟨y, hyz, hfa, hV x y hxy hVx⟩
    · cases hunified : unified with
      | none => simp [hunified] at ho
      | some u =>
        rw [hunified, List.mem_singleton] at ho
        rw [ho] at hz
        exact hone (hu u hunified) hz

/-! ### One step -/

/-- Whether no sibling that has to be right in front of another one is followed by more siblings:
that is where something else could come between. -/
def isLoose : List Component → Bool
  | .combinator k :: .compound _ :: .combinator .adjacent :: rest =>
    k == .child && isLoose (.combinator .adjacent :: rest)
  | _ :: rest => isLoose rest
  | [] => true

theorem isLoose_tail {c : Component} {cs : List Component} (h : isLoose (c :: cs)) : isLoose cs := by
  unfold isLoose at h
  split at h
  · rename_i heq
    cases heq
    exact (Bool.and_eq_true_iff.1 h).2
  · rename_i heq
    cases heq
    exact h
  · rename_i heq
    cases heq

theorem isLoose_pair {k : Combinator} {c : Compound} {cs : List Component} :
    isLoose (.combinator k :: .compound c :: cs) ↔
      (cs.head? = some (.combinator .adjacent) → k = .child) ∧ isLoose cs := by
  rcases cs with _ | ⟨d | k', rest⟩
  · simp [isLoose]
  · simp [isLoose]
  · cases k' <;> simp [isLoose]

theorem siblingClosed_of_isLoose {k : Combinator} {c : Compound} {cs : List Component}
    (htrail : isTrail cs) (h : isLoose (.combinator k :: .compound c :: cs)) (hk : k ≠ .child) :
    SiblingClosed (t.above cs) := by
  exact siblingClosed_above htrail fun hhead => hk ((isLoose_pair.1 h).1 hhead)

theorem Related.general_of_sibling {k : Combinator} (hk : k ≠ .child) {x y : Address}
    (h : Related (some k) x y) : Related (some .general) x y := by
  cases k with
  | child => exact absurd rfl hk
  | general => exact h
  | adjacent => exact h.of_adjacent

theorem next_child_of_sibling {c d : Compound} {k : Combinator} (hk : k ≠ .child) {U V : Place}
    (hU : ∀ y, U y → t.next (some .child) c V y) {z : Address} (hz : t.next (some k) d U z) :
    t.next (some .child) c V z := by
  obtain ⟨y, hyz, -, hUy⟩ := hz
  exact siblingClosed_next_child c V y z (Related.general_of_sibling hk hyz) (hU y hUy)

theorem next_unified {c d u : Compound} (hu : c.unify? d = some u) {s : Option Combinator}
    {U : Place} {z : Address} (hz : t.next s u U z) {V : Place} (hUV : ∀ y, U y → V y) :
    t.next s c V z ∧ t.next s d V z := by
  obtain ⟨y, hyz, hfu, hUy⟩ := hz
  obtain ⟨hfc, hfd⟩ := (Subject.fits_unify hu).1 hfu
  exact ⟨⟨y, hyz, hfc, hUV y hUy⟩, y, hyz, hfd, hUV y hUy⟩

theorem stepBoth_sound {c d : Compound} {k k' : Combinator} {cs ds : List Component} {step : Step}
    (h : stepBoth? c k cs d k' ds = some step) (hc : c.isPlain) (hd : d.isPlain)
    {o : List Component} (ho : o ∈ step.1) {U : Place} {z : Address} (hz : t.reach o U z) :
    ((k ≠ .child → SiblingClosed (t.above cs)) → (∀ y, U y → t.above step.2.1 y) →
      t.above (.combinator k :: .compound c :: cs) z) ∧
    ((k' ≠ .child → SiblingClosed (t.above ds)) → (∀ y, U y → t.above step.2.2 y) →
      t.above (.combinator k' :: .compound d :: ds) z) := by
  rw [above_combinator, above_combinator]
  have hsame {k : Combinator}
      (h : (c.unify? d).map (fun u => ([pair u k], cs, ds)) = some step) :
      ((∀ y, U y → t.above step.2.1 y) → t.next (some k) c (t.above cs) z) ∧
        ((∀ y, U y → t.above step.2.2 y) → t.next (some k) d (t.above ds) z) := by
    obtain ⟨u, hu, rfl⟩ := Option.map_eq_some_iff.1 h
    rw [List.mem_singleton.1 ho] at hz
    exact ⟨fun hU => (next_unified hu hz hU).1, fun hU => (next_unified hu hz hU).2⟩
  have hunified (u : Compound) (hu : c.unify? d = some u) (x : Subject) (hx : x.Fits u) :
      x.Fits c ∧ x.Fits d := (Subject.fits_unify hu).1 hx
  match k, k', h with
  | .child, .child, h => exact ⟨fun _ => (hsame h).1, fun _ => (hsame h).2⟩
  | .adjacent, .adjacent, h => exact ⟨fun _ => (hsame h).1, fun _ => (hsame h).2⟩
  | .general, .general, h =>
    cases h
    constructor
    · intro hV hU
      exact (twoSiblings_sound hc hd ho hU (hV (by simp)) hz).1
    · intro hV hU
      exact (twoSiblings_sound hc hd ho hU (hV (by simp)) hz).2
  | .general, .adjacent, h =>
    cases h
    constructor
    · intro _ hU
      exact (siblingAndNeighbour_sound hc hd hunified ho hU hz).1
    · intro hV hU
      exact (siblingAndNeighbour_sound hc hd hunified ho hU hz).2 (hV (by simp))
  | .adjacent, .general, h =>
    cases h
    have hunified' (u : Compound) (hu : c.unify? d = some u) (x : Subject) (hx : x.Fits u) :
        x.Fits d ∧ x.Fits c := (hunified u hu x hx).symm
    constructor
    · intro hV hU
      exact (siblingAndNeighbour_sound hd hc hunified' ho hU hz).2 (hV (by simp))
    · intro _ hU
      exact (siblingAndNeighbour_sound hd hc hunified' ho hU hz).1
  | .child, .general, h | .child, .adjacent, h =>
    cases h
    rw [List.mem_singleton.1 ho] at hz
    constructor
    · intro _ hU
      rw [above_combinator] at hU
      exact next_child_of_sibling (by simp) hU hz
    · intro _ hU
      exact next_mono hU hz
  | .general, .child, h | .adjacent, .child, h =>
    cases h
    rw [List.mem_singleton.1 ho] at hz
    constructor
    · intro _ hU
      exact next_mono hU hz
    · intro _ hU
      rw [above_combinator] at hU
      exact next_child_of_sibling (by simp) hU hz

theorem stepOne_sound {c : Compound} {k : Combinator} {others : List Component} (hc : c.isPlain)
    (hothers : isPlainPath others) (hopen : isOpen others) {o : List Component}
    (ho : o ∈ (stepOne c k others).1) {U : Place} {z : Address} (hz : t.reach o U z) :
    (∀ cs, (∀ y, U y → t.above cs y) → t.above (.combinator k :: .compound c :: cs) z) ∧
      ((∀ y, U y → t.above (stepOne c k others).2 y) → t.above others z) := by
  have hz : t.next (some k) c U z := by
    rwa [List.mem_singleton.1 ho] at hz
  constructor
  · intro cs hU
    rw [above_combinator]
    exact next_mono hU hz
  · intro hU
    obtain ⟨y, hyz, hfit, hUy⟩ := hz
    rcases stepOne_snd c k others with h | ⟨d, rest, rfl, hdc, rfl, h⟩
    · rw [h] at hU
      exact lasting_above hopen (some k) y z hyz (hU y hUy)
    · rw [h] at hU
      have hd : d.isPlain := isPlainPath_singleton.1 (isPlainPath_cons.1 hothers).1
      rw [above_compound]
      exact ⟨y, Related.of_child hyz, Compound.isSuperselectorOf_sound hd hc hdc hfit, hU y hUy⟩

/-- One step of merging keeps to both trails as far as they are loose. -/
theorem MergeStep.sound {cs ds : List Component} {step : Step} (h : MergeStep cs ds step)
    (hcs : isTrail cs) (hds : isTrail ds) (hpcs : isPlainPath cs) (hpds : isPlainPath ds)
    {o : List Component} (ho : o ∈ step.1) {U : Place} {z : Address} (hz : t.reach o U z) :
    (isLoose cs → (∀ y, U y → t.above step.2.1 y) → t.above cs z) ∧
      (isLoose ds → (∀ y, U y → t.above step.2.2 y) → t.above ds z) := by
  cases h with
  | both h =>
    obtain ⟨hleft, hright⟩ := stepBoth_sound h (isPlain_of_pair hpcs) (isPlain_of_pair hpds) ho hz
    exact ⟨fun hl => hleft fun hk => siblingClosed_of_isLoose hcs hl hk,
      fun hl => hright fun hk => siblingClosed_of_isLoose hds hl hk⟩
  | left hopen =>
    obtain ⟨hleft, hright⟩ := stepOne_sound (isPlain_of_pair hpcs) hpds hopen ho hz
    exact ⟨fun _ => hleft _, fun _ => hright⟩
  | right hopen =>
    obtain ⟨hright, hleft⟩ := stepOne_sound (isPlain_of_pair hpds) hpcs hopen ho hz
    exact ⟨fun _ => hleft, fun _ => hright _⟩

/-! ### All steps -/

theorem isLoose_of_suffix {cs ds : List Component} (h : ds <:+ cs) (hcs : isLoose cs) :
    isLoose ds := by
  obtain ⟨front, rfl⟩ := h
  induction front with
  | nil => exact hcs
  | cons c front ih => exact ih (isLoose_tail hcs)

/-- What is merged off two trails leads from where the rests of the trails lead to where the trails
lead, as far as they are loose. -/
theorem mergeTrailing_sound {bound : Nat} {cs ds : List Component}
    {r : List Choice × List Component × List Component} (h : mergeTrailing? bound cs ds = some r)
    (hcs : isTrail cs) (hds : isTrail ds) (hpcs : isPlainPath cs) (hpds : isPlainPath ds)
    {path : List (List Component)} (hpath : List.Forall₂ (· ∈ ·) path r.1) {T : Place}
    {z : Address} (hz : t.reach path.flatten T z) :
    (isLoose cs → (∀ y, T y → t.above r.2.1 y) → t.above cs z) ∧
      (isLoose ds → (∀ y, T y → t.above r.2.2 y) → t.above ds z) := by
  induction bound generalizing cs ds r path z with
  | zero =>
    cases h
    cases hpath
    exact ⟨fun _ hT => hT z hz, fun _ hT => hT z hz⟩
  | succ bound ih =>
    rcases mergeTrailing?_eq_some hcs hds h with ⟨-, -, rfl⟩ | ⟨step, choices, hstep, hm, hr⟩
    · cases hpath
      exact ⟨fun _ hT => hT z hz, fun _ hT => hT z hz⟩
    · rw [hr] at hpath
      obtain ⟨o, rest, ho, hnil, hdrop⟩ :=
        List.forall₂_cons_right_iff.1 (List.forall₂_drop_append _ _ _ hpath)
      cases hnil
      have htake := List.forall₂_take_append _ _ _ hpath
      rw [← List.take_append_drop choices.length path, hdrop, List.flatten_append,
        List.flatten_singleton] at hz
      obtain ⟨c, rest, rfl⟩ : ∃ c rest, o = .compound c :: rest := by
        obtain ⟨c, k, -, rfl | ⟨d, k', -, rfl⟩⟩ := hstep.isOption hpcs hpds ho
        · exact ⟨c, _, rfl⟩
        · exact ⟨c, _, rfl⟩
      rw [reach_append] at hz
      obtain ⟨hsuf, hsuf'⟩ := hstep.suffix
      obtain ⟨hleft, hright⟩ := hstep.sound hcs hds hpcs hpds ho hz
      have ih (y : Address) (hy : t.reach (path.take choices.length).flatten T y) :=
        ih hm (isTrail_of_suffix hsuf hcs) (isTrail_of_suffix hsuf' hds)
          (isPlainPath_of_suffix hsuf hpcs) (isPlainPath_of_suffix hsuf' hpds) htake hy
      constructor
      · intro hl hT
        exact hleft hl fun y hy => (ih y hy).1 (isLoose_of_suffix hsuf hl) hT
      · intro hl hT
        exact hright hl fun y hy => (ih y hy).2 (isLoose_of_suffix hsuf' hl) hT

end Weave

end SelectorCalculus
