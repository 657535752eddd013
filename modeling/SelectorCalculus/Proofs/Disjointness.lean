import SelectorCalculus.Proofs.Interleaving
import SelectorCalculus.Proofs.TrailMeaning
/-! Paths that are not unified match no element together, if their exclusive compounds are bound
near the end. -/

namespace SelectorCalculus

open ElementTree

/-- Whether a compound keeps another one that elements can fit from holding of the same element. -/
def Compound.IsExclusive (c : Compound) : Prop :=
  ∃ d : Compound, d.isPlain ∧ (∃ x : Subject, x.Fits d) ∧ (c.unify? d = none ∨ d.unify? c = none)

namespace Weave

/-! ### Where exclusive compounds stand -/

/-- Whether a trail has sibling steps only. -/
def bySiblings : List Component → Bool
  | [] => true
  | .combinator k :: .compound _ :: rest => k != .child && bySiblings rest
  | _ => false

/-- No exclusive compound of a trail is bound to a parent or to the previous sibling. -/
def Unbound (cs : List Component) : Prop :=
  ∀ inner k c outer, cs = inner ++ .combinator k :: .compound c :: outer → k ≠ .general →
    ¬ c.IsExclusive

/-- Every exclusive compound that is bound is a parent, and siblings lead from its child to the end. -/
def BoundAsParent (cs : List Component) : Prop :=
  ∀ inner k c outer, cs = inner ++ .combinator k :: .compound c :: outer → k ≠ .general →
    c.IsExclusive → k = .child ∧ bySiblings inner

/-- Every exclusive compound that is bound is a parent as before, or it is right before the end. -/
def BoundNearEnd (cs : List Component) : Prop :=
  ∀ inner k c outer, cs = inner ++ .combinator k :: .compound c :: outer → k ≠ .general →
    c.IsExclusive → (k = .child ∧ bySiblings inner) ∨ (k = .adjacent ∧ inner = [])

/-- The only step of a trail is near its end. -/
theorem boundNearEnd_single (k : Combinator) (c : Compound) :
    BoundNearEnd [.combinator k, .compound c] := by
  intro inner k' c' outer heq hk _
  rcases inner with _ | ⟨_, _ | ⟨_, _ | _⟩⟩
  · cases heq
    cases k with
    | child => exact Or.inl ⟨rfl, rfl⟩
    | general => exact absurd rfl hk
    | adjacent => exact Or.inr ⟨rfl, rfl⟩
  · cases heq
  · cases heq
  · cases heq

theorem Unbound.of_suffix {cs ds : List Component} (hcs : Unbound cs) (h : ds <:+ cs) :
    Unbound ds := by
  intro inner k c outer heq
  obtain ⟨front, rfl⟩ := h
  refine hcs (front ++ inner) k c outer ?_
  rw [heq, List.append_assoc]

/-- What a step makes of a trail: behind a parent no exclusive compound is bound, and behind a sibling
it can be a parent. -/
structure Recedes (cs : List Component) : Prop where
  rest : isOpen cs → Unbound cs
  parent : ∀ c rest, cs = .combinator .child :: .compound c :: rest → Unbound rest
  sibling : ∀ k c rest, cs = .combinator k :: .compound c :: rest → k ≠ .child → BoundAsParent rest

theorem BoundNearEnd.recedes {cs : List Component} (h : BoundNearEnd cs) : Recedes cs where
  rest hopen := by
    intro inner k c outer heq hk hc
    rcases h inner k c outer heq hk hc with ⟨-, hinner⟩ | ⟨-, hinner⟩
    · rcases inner with _ | ⟨d | k', inner⟩
      · rw [heq] at hopen
        cases hopen
      · cases hinner
      · rw [heq] at hopen
        cases hopen
    · rw [heq, hinner] at hopen
      cases hopen
  parent := by
    intro d rest hcs inner k c outer heq hk hc
    subst hcs heq
    rcases h (.combinator .child :: .compound d :: inner) k c outer rfl hk hc with
      ⟨-, hinner⟩ | ⟨-, hinner⟩
    · cases hinner
    · cases hinner
  sibling := by
    intro k' d rest hcs hk' inner k c outer heq hk hc
    subst hcs heq
    rcases h (.combinator k' :: .compound d :: inner) k c outer rfl hk hc with
      ⟨hk, hinner⟩ | ⟨-, hinner⟩
    · exact ⟨hk, (Bool.and_eq_true_iff.1 hinner).2⟩
    · cases hinner

theorem BoundAsParent.recedes {cs : List Component} (h : BoundAsParent cs) : Recedes cs :=
  BoundNearEnd.recedes fun inner k c outer heq hk hc => Or.inl (h inner k c outer heq hk hc)

theorem Unbound.boundAsParent {c : Compound} {cs : List Component} (h : Unbound cs) :
    BoundAsParent (.combinator .child :: .compound c :: cs) := by
  intro inner k d outer heq hk hd
  rcases inner with _ | ⟨c', _ | ⟨c'', inner⟩⟩
  · cases heq
    exact ⟨rfl, rfl⟩
  · cases heq
  · obtain ⟨-, heq⟩ := List.cons.inj heq
    obtain ⟨-, heq⟩ := List.cons.inj heq
    exact absurd hd (h inner k d outer heq hk)

/-! ### Elements side by side -/

variable {t : ElementTree} {cs ds : List Component}

/-- One element or two siblings. -/
def Abreast (x y : Address) : Prop := x = y ∨ ∃ i j p, x = i :: p ∧ y = j :: p

theorem Abreast.symm {x y : Address} (h : Abreast x y) : Abreast y x := by
  rcases h with rfl | ⟨i, j, p, hx, hy⟩
  · exact Or.inl rfl
  · exact Or.inr ⟨j, i, p, hy, hx⟩

theorem Abreast.of_sibling {k : Combinator} (hk : k ≠ .child) {x x' y : Address}
    (h : Related (some k) x' x) (hxy : Abreast x y) : Abreast x' y := by
  obtain ⟨i, j, p, -, rfl, rfl⟩ := Related.general_of_sibling hk h
  rcases hxy with rfl | ⟨_, j', q, hx, rfl⟩
  · exact Or.inr ⟨i, j, p, rfl, rfl⟩
  · obtain ⟨-, rfl⟩ := List.cons.inj hx
    exact Or.inr ⟨i, j', p, rfl, rfl⟩

theorem Abreast.parent_eq {x x' y y' : Address} (hx : Related (some .child) x' x)
    (hy : Related (some .child) y' y) (h : Abreast x y) : x' = y' := by
  obtain ⟨i, rfl⟩ := hx
  obtain ⟨j, rfl⟩ := hy
  rcases h with h | ⟨_, _, p, hx, hy⟩
  · exact (List.cons.inj h).2
  · exact (List.cons.inj hx).2.trans (List.cons.inj hy).2.symm

/-! ### Trails that lead somewhere -/

theorem exists_fits_of_reach {S : Place} {z : Address} (h : t.reach cs S z) :
    ∀ c ∈ compoundsOf cs, ∃ a, (t.subject a).Fits c := by
  have hcons {s : Option Combinator} {c : Compound} {rest : List Component} {S : Place}
      (h : t.reach rest (t.next s c S) z) : ∃ a, (t.subject a).Fits c := by
    by_contra hno
    refine reach_of_empty (fun y hy => ?_) h
    obtain ⟨a, -, ha, -⟩ := hy
    exact hno ⟨a, ha⟩
  fun_induction reach t cs S with
  | case1 S => simp
  | case2 c S =>
    obtain ⟨a, -, ha, -⟩ := h
    exact List.forall_mem_singleton.2 ⟨a, ha⟩
  | case3 c k rest S ih => exact List.forall_mem_cons.2 ⟨hcons h, ih h⟩
  | case4 c d rest S ih => exact List.forall_mem_cons.2 ⟨hcons h, ih h⟩
  | case5 k rest S => exact h.elim

theorem isLive_reverse (hlead : isLead cs) (hp : isPlainPath cs) {z : Address}
    (hz : t.reach cs anywhere z) : IsLive cs.reverse where
  trail := hlead
  plain := by simpa using hp
  fits c hc := by
    obtain ⟨a, ha⟩ := exists_fits_of_reach hz c (by simpa using hc)
    exact ⟨t.subject a, ha⟩

theorem stepBoth_eq_none {c d : Compound} {k k' : Combinator}
    (h : stepBoth? c k cs d k' ds = none) : k = k' ∧ k ≠ .general ∧ c.unify? d = none := by
  match k, k', h with
  | .child, .child, h | .adjacent, .adjacent, h => exact ⟨rfl, by simp, Option.map_eq_none_iff.1 h⟩

/-- Merging does not fail if one of the trails has no exclusive compound that is bound. -/
theorem mergeTrailing_of_unbound {bound : Nat} (hcs : IsLive cs) (hds : IsLive ds)
    (h : Unbound cs ∨ Unbound ds) : mergeTrailing? bound cs ds ≠ none := by
  induction bound generalizing cs ds with
  | zero => simp [mergeTrailing?]
  | succ bound ih =>
    intro hm
    rcases mergeTrailing?_eq_none hcs.trail hds.trail hm with
      ⟨k, c, cs', k', d, ds', rfl, rfl, hstep⟩ | ⟨step, hstep, hm⟩
    · obtain ⟨rfl, hk, hu⟩ := stepBoth_eq_none hstep
      obtain ⟨hc, hfc⟩ := hcs.head
      obtain ⟨hd, hfd⟩ := hds.head
      rcases h with h | h
      · exact h [] k c cs' rfl hk ⟨d, hd, hfd, Or.inl hu⟩
      · exact h [] k d ds' rfl hk ⟨c, hc, hfc, Or.inr hu⟩
    · obtain ⟨hsuf, hsuf'⟩ := hstep.suffix
      exact ih (hcs.of_suffix hsuf) (hds.of_suffix hsuf')
        (h.imp (·.of_suffix hsuf) (·.of_suffix hsuf')) hm

/-! ### Merging from one element or two siblings -/

/-- Two trails lead to elements side by side, and one of them goes on as needed; or this does not
matter any more. -/
def OnCourse (t : ElementTree) (cs ds : List Component) : Prop :=
  (Unbound cs ∨ Unbound ds) ∨ ∃ x y, t.above cs x ∧ t.above ds y ∧ Abreast x y ∧
    (BoundAsParent cs ∨ BoundAsParent ds)

theorem exists_before {k : Combinator} {c : Compound} (hk : k ≠ .child) {x y : Address}
    (hx : t.above (.combinator k :: .compound c :: cs) x) (hxy : Abreast x y) :
    ∃ x', t.above cs x' ∧ Abreast x' y := by
  rw [above_combinator] at hx
  obtain ⟨x', hx', -, hcs⟩ := hx
  exact ⟨x', hcs, hxy.of_sibling hk hx'⟩

theorem MergeStep.onCourse {step : Step} (h : MergeStep cs ds step) {x y : Address}
    (hx : t.above cs x) (hy : t.above ds y) (hxy : Abreast x y) (hgo : Recedes cs ∨ Recedes ds) :
    OnCourse t step.2.1 step.2.2 := by
  cases h with
  | @both c d k k' cs ds step h =>
    rcases stepBoth_rest h with ⟨h₁, h₂, hkk'⟩ | ⟨rfl, hk', h₁, h₂⟩ | ⟨rfl, hk, h₁, h₂⟩ <;> rw [h₁, h₂]
    · by_cases hk : k = .child
      · obtain rfl := hkk'.1 hk
        subst hk
        exact Or.inl (hgo.imp (·.parent c cs rfl) (·.parent d ds rfl))
      · have hk' : k' ≠ .child := fun heq => hk (hkk'.2 heq)
        obtain ⟨x', hx', hxy⟩ := exists_before hk hx hxy
        obtain ⟨y', hy', hxy⟩ := exists_before hk' hy hxy.symm
        exact Or.inr ⟨x', y', hx', hy', hxy.symm,
          hgo.imp (·.sibling k c cs rfl hk) (·.sibling k' d ds rfl hk')⟩
    · obtain ⟨y', hy', hxy⟩ := exists_before hk' hy hxy.symm
      exact Or.inr ⟨x, y', hx, hy', hxy.symm,
        hgo.imp (fun h => (h.parent c cs rfl).boundAsParent) (·.sibling k' d ds rfl hk')⟩
    · obtain ⟨x', hx', hxy⟩ := exists_before hk hx hxy
      exact Or.inr ⟨x', y, hx', hy, hxy,
        hgo.imp (·.sibling k c cs rfl hk) fun h => (h.parent d ds rfl).boundAsParent⟩
  | @left c k cs ds hopen =>
    have hsuf : (stepOne c k ds).2 <:+ ds := (@MergeStep.left c k cs ds hopen).suffix.2
    rcases hgo with hgo | hgo
    · by_cases hk : k = .child
      · subst hk
        exact Or.inl (Or.inl (hgo.parent c cs rfl))
      · obtain ⟨x', hx', hxy⟩ := exists_before hk hx hxy
        have hds : (stepOne c k ds).2 = ds := by
          rcases stepOne_snd c k ds with h | ⟨_, _, hk', -⟩
          · exact h
          · exact absurd hk' hk
        refine Or.inr ⟨x', y, hx', ?_, hxy, Or.inl (hgo.sibling k c cs rfl hk)⟩
        rwa [hds]
    · exact Or.inl (Or.inr ((hgo.rest hopen).of_suffix hsuf))
  | @right d k cs ds hopen =>
    have hsuf : (stepOne d k cs).2 <:+ cs := (@MergeStep.right d k cs ds hopen).suffix.1
    rcases hgo with hgo | hgo
    · exact Or.inl (Or.inl ((hgo.rest hopen).of_suffix hsuf))
    · by_cases hk : k = .child
      · subst hk
        exact Or.inl (Or.inr (hgo.parent d ds rfl))
      · obtain ⟨y', hy', hxy⟩ := exists_before hk hy hxy.symm
        have hcs : (stepOne d k cs).2 = cs := by
          rcases stepOne_snd d k cs with h | ⟨_, _, hk', -⟩
          · exact h
          · exact absurd hk' hk
        refine Or.inr ⟨x, y', ?_, hy', hxy.symm, Or.inr (hgo.sibling k d ds rfl hk)⟩
        rwa [hcs]

theorem ne_of_unify_eq_none {c d : Compound} (hd : d.isPlain) (h : c.unify? d = none) {x y : Address}
    (hx : (t.subject x).Fits c) (hy : (t.subject y).Fits d) : x ≠ y := by
  rintro rfl
  exact Subject.not_fits_of_unify hd h ⟨hx, hy⟩

theorem mergeTrailing_of_onCourse {bound : Nat} (hcs : IsLive cs) (hds : IsLive ds)
    (h : OnCourse t cs ds) : mergeTrailing? bound cs ds ≠ none := by
  induction bound generalizing cs ds with
  | zero => simp [mergeTrailing?]
  | succ bound ih =>
    rcases h with h | ⟨x, y, hx, hy, hxy, h⟩
    · exact mergeTrailing_of_unbound hcs hds h
    · intro hm
      rcases mergeTrailing?_eq_none hcs.trail hds.trail hm with
        ⟨k, c, cs', k', d, ds', rfl, rfl, hstep⟩ | ⟨step, hstep, hm⟩
      · obtain ⟨rfl, hk, hu⟩ := stepBoth_eq_none hstep
        obtain ⟨hc, hfc⟩ := hcs.head
        obtain ⟨hd, hfd⟩ := hds.head
        rw [above_combinator] at hx hy
        obtain ⟨x', hx', hfx, -⟩ := hx
        obtain ⟨y', hy', hfy, -⟩ := hy
        have hchild : k = .child := by
          rcases h with h | h
          · exact (h [] k c cs' rfl hk ⟨d, hd, hfd, Or.inl hu⟩).1
          · exact (h [] k d ds' rfl hk ⟨c, hc, hfc, Or.inr hu⟩).1
        subst hchild
        exact ne_of_unify_eq_none hd hu hfx hfy (hxy.parent_eq hx' hy')
      · obtain ⟨hsuf, hsuf'⟩ := hstep.suffix
        exact ih (hcs.of_suffix hsuf) (hds.of_suffix hsuf')
          (hstep.onCourse hx hy hxy (h.imp (·.recedes) (·.recedes))) hm

/-- Merging does not fail for trails that lead to one element if the exclusive compounds of one of
them are bound near its end. -/
theorem mergeTrailing_of_boundNearEnd {bound : Nat} (hcs : IsLive cs) (hds : IsLive ds) {z : Address}
    (hz : t.above cs z) (hz' : t.above ds z) (h : BoundNearEnd cs ∨ BoundNearEnd ds) :
    mergeTrailing? bound cs ds ≠ none := by
  cases bound with
  | zero => simp [mergeTrailing?]
  | succ bound =>
    intro hm
    rcases mergeTrailing?_eq_none hcs.trail hds.trail hm with
      ⟨k, c, cs', k', d, ds', rfl, rfl, hstep⟩ | ⟨step, hstep, hm⟩
    · obtain ⟨rfl, hk, hu⟩ := stepBoth_eq_none hstep
      rw [above_combinator] at hz hz'
      obtain ⟨x, hx, hfx, -⟩ := hz
      obtain ⟨y, hy, hfy, -⟩ := hz'
      refine ne_of_unify_eq_none hds.head.1 hu hfx hfy ?_
      cases k with
      | child => exact Abreast.parent_eq hx hy (Or.inl rfl)
      | general => exact absurd rfl hk
      | adjacent =>
        obtain ⟨i, p, rfl, rfl⟩ := hx
        obtain ⟨j, q, rfl, heq⟩ := hy
        cases heq
        rfl
    · obtain ⟨hsuf, hsuf'⟩ := hstep.suffix
      exact mergeTrailing_of_onCourse (hcs.of_suffix hsuf) (hds.of_suffix hsuf')
        (hstep.onCourse hz hz' (Or.inl rfl) (h.imp (·.recedes) (·.recedes))) hm

/-! ### Interleaving without result -/

theorem shareRoot?_eq_none (h : shareRoot? cs ds = none) :
    ∃ c d, c ∈ compoundsOf cs ∧ d ∈ compoundsOf ds ∧ isRoot c ∧ isRoot d ∧ c.unify? d = none := by
  have hroot {cs rest : List Component} {c : Compound} (h : root? cs = some (c, rest)) :
      c ∈ compoundsOf cs ∧ isRoot c := by
    unfold root? at h
    split at h
    · split at h
      · rename_i hc
        cases h
        exact ⟨List.mem_cons_self .., hc⟩
      · cases h
    · cases h
  unfold shareRoot? at h
  split at h
  · rename_i hc hd
    obtain ⟨hmem, hc⟩ := hroot hc
    obtain ⟨hmem', hd⟩ := hroot hd
    exact ⟨_, _, hmem, hmem', hc, hd, Option.map_eq_none_iff.1 h⟩
  · cases h
  · cases h
  · cases h

/-- Interleaving has no result only if merging fails or the roots differ. -/
theorem interleaveWith_eq_nil {unify : Combine} (hcs : isLead cs) (hds : isLead ds)
    (h : interleaveWith unify cs ds = []) :
    mergeTrailing? (cs.length + ds.length) cs.reverse ds.reverse = none ∨
      ∃ r, mergeTrailing? (cs.length + ds.length) cs.reverse ds.reverse = some r ∧
        shareRoot? r.2.1.reverse r.2.2.reverse = none := by
  rw [interleaveWith_eq unify hcs hds] at h
  cases hm : mergeTrailing? (cs.length + ds.length) cs.reverse ds.reverse with
  | none => exact Or.inl rfl
  | some r =>
    refine Or.inr ⟨r, rfl, ?_⟩
    obtain ⟨trailing, cs', ds'⟩ := r
    rw [hm] at h
    cases hroot : shareRoot? cs'.reverse ds'.reverse with
    | none => rfl
    | some r =>
      simp only [hroot, List.map_eq_nil_iff] at h
      set choices := (choicesAfter unify trailing r.1 r.2).filter (!·.isEmpty) with hchoices
      have hne : ∀ choice ∈ choices, choice ≠ [] := by
        intro choice hchoice
        simpa using (List.mem_filter.1 hchoice).2
      obtain ⟨path, hpath⟩ := exists_pick hne
      have hmem := mem_picks.2 hpath
      rw [h] at hmem
      cases hmem

end Weave

open Weave

/-- Whether only the element at the top passes for the root. -/
def ElementTree.IsRooted (t : ElementTree) : Prop :=
  ∀ a c, isRoot c → (t.subject a).Fits c → a = []

/-- If the exclusive compounds of one of two paths are bound near its end and the paths are not
unified, no element matches both. Where both name the root, it has to be a single one. -/
theorem not_matches_of_unifyPaths_eq_nil {cs ds : List Component} (hcs : isWellFormed cs)
    (hds : isWellFormed ds) (hpcs : isPlainPath cs) (hpds : isPlainPath ds)
    (hbound : BoundNearEnd cs.dropLast.reverse ∨ BoundNearEnd ds.dropLast.reverse)
    (h : unifyPaths cs ds = []) {t : ElementTree}
    (hroot : isRootless cs ∨ isRootless ds ∨ t.IsRooted) {e : Address} :
    ¬ (t.Matches cs e ∧ t.Matches ds e) := by
  rintro ⟨hm, hm'⟩
  obtain ⟨cs, c, rfl⟩ := exists_snoc_of_isWellFormed hcs
  obtain ⟨ds, d, rfl⟩ := exists_snoc_of_isWellFormed hds
  rw [List.dropLast_concat, List.dropLast_concat] at hbound
  obtain ⟨hc, hz⟩ := matches_snoc_iff.1 hm
  obtain ⟨hd, hz'⟩ := matches_snoc_iff.1 hm'
  obtain ⟨hpcs', -⟩ := isPlainPath_append.1 hpcs
  obtain ⟨hpds', hpd⟩ := isPlainPath_append.1 hpds
  have hlead := isWellFormed_snoc_iff.1 hcs
  have hlead' := isWellFormed_snoc_iff.1 hds
  have hlive := isLive_reverse hlead hpcs' hz
  have hlive' := isLive_reverse hlead' hpds' hz'
  rw [unifyPaths, unifyWith_snoc] at h
  cases hu : c.unify? d with
  | none => exact Subject.not_fits_of_unify (isPlainPath_singleton.1 hpd) hu ⟨hc, hd⟩
  | some base =>
    simp only [hu, List.map_eq_nil_iff] at h
    obtain ⟨unify, -, heq⟩ := exists_interleave_eq cs ds
    have hnil : interleaveWith unify cs ds = [] := by
      split at h
      · cases h
      · rwa [heq] at h
    rcases interleaveWith_eq_nil hlead hlead' hnil with hmerge | ⟨r, hmerge, hshare⟩
    · have habove : t.above cs.reverse e := by rwa [above, List.reverse_reverse]
      have habove' : t.above ds.reverse e := by rwa [above, List.reverse_reverse]
      exact mergeTrailing_of_boundNearEnd hlive hlive' habove habove' hbound hmerge
    · obtain ⟨hsuf, hsuf', -⟩ := mergeTrailing?_spec hmerge (by simp) hlive.trail hlive'.trail
        hlive.plain hlive'.plain
      obtain ⟨c', d', hc', hd', hrc, hrd, hu'⟩ := shareRoot?_eq_none hshare
      have hmem {cs rest : List Component} {c : Compound} (h : rest <:+ cs.reverse)
          (hc : c ∈ compoundsOf rest.reverse) : c ∈ compoundsOf cs := by
        obtain ⟨front, hfront⟩ := h
        have hc : c ∈ compoundsOf (front ++ rest) := by
          rw [compoundsOf_append]
          exact List.mem_append_right _ (by simpa using hc)
        rw [hfront] at hc
        simpa using hc
      have hc' := hmem hsuf hc'
      have hd' := hmem hsuf' hd'
      rcases hroot with hroot | hroot | hroot
      · have := List.all_eq_true.1 hroot c' (by simp [hc'])
        simp [hrc] at this
      · have := List.all_eq_true.1 hroot d' (by simp [hd'])
        simp [hrd] at this
      · obtain ⟨a, ha⟩ := exists_fits_of_reach hz c' hc'
        obtain ⟨b, hb⟩ := exists_fits_of_reach hz' d' hd'
        have hplain : d'.isPlain := List.all_eq_true.1 hpds' d' hd'
        refine ne_of_unify_eq_none hplain hu' ha hb ?_
        rw [hroot a c' hrc ha, hroot b d' hrd hb]

end SelectorCalculus
