import SelectorCalculus.Proofs.Disjointness
import SelectorCalculus.Proofs.MirroredTrails
/-! Where unification gives up too early: an exclusive compound is bound farther away from the
end. -/

namespace SelectorCalculus

open ElementTree Superselector

namespace Weave

/-! ### Trails that collide -/

/-- Trails that are merged step by step up to compounds `c` and `d`, both parents or both previous
siblings. -/
inductive Collides (c d : Compound) : List Component → List Component → Prop where
  | here {k : Combinator} {cs ds : List Component} :
      k ≠ .general →
      Collides c d (.combinator k :: .compound c :: cs) (.combinator k :: .compound d :: ds)
  | same {k : Combinator} {n : Compound} {cs ds : List Component} :
      Collides c d cs ds →
      Collides c d (.combinator k :: .compound n :: cs) (.combinator k :: .compound n :: ds)
  | childLeft {n : Compound} {cs ds : List Component} :
      Collides c d cs ds →
      Collides c d (.combinator .child :: .compound n :: cs) (.compound n :: ds)
  | childRight {n : Compound} {cs ds : List Component} :
      Collides c d cs ds →
      Collides c d (.compound n :: cs) (.combinator .child :: .compound n :: ds)
  | nextLeft {n : Compound} {cs ds : List Component} :
      Collides c d cs ds →
      Collides c d (.combinator .adjacent :: .compound n :: cs)
        (.combinator .general :: .compound n :: ds)
  | nextRight {n : Compound} {cs ds : List Component} :
      Collides c d cs ds →
      Collides c d (.combinator .general :: .compound n :: cs)
        (.combinator .adjacent :: .compound n :: ds)

variable {c d : Compound} {cs ds : List Component}

theorem Collides.symm (h : Collides c d cs ds) : Collides d c ds cs := by
  induction h with
  | here hk => exact .here hk
  | same _ ih => exact .same ih
  | childLeft _ ih => exact .childRight ih
  | childRight _ ih => exact .childLeft ih
  | nextLeft _ ih => exact .nextRight ih
  | nextRight _ ih => exact .nextLeft ih

/-- Merging fails within any bound that lets it come to its end. -/
def MergeFails (cs ds : List Component) : Prop :=
  ∀ n, cs.length + ds.length ≤ n → mergeTrailing? n cs ds = none

theorem MergeStep.mergeFails {step : Step} (h : MergeStep cs ds step)
    (hfails : MergeFails step.2.1 step.2.2) : MergeFails cs ds := by
  intro n hn
  have hlt := h.length_lt
  obtain ⟨n, rfl⟩ : ∃ m, n = m + 1 := Nat.exists_eq_succ_of_ne_zero (by omega)
  have hrest : mergeRest? n step = none := Option.map_eq_none_iff.2 (hfails n (by omega))
  cases h with
  | both hstep => rw [mergeTrailing?_both, hstep, Option.bind_some, hrest]
  | left hopen => rw [mergeTrailing?_left _ _ hopen, hrest]
  | right hopen => rw [mergeTrailing?_right _ _ hopen, hrest]

theorem stepOne_child {n : Compound} (hn : n.isPlain) (cs : List Component) :
    (stepOne n .child (.compound n :: cs)).2 = cs := by
  simp [stepOne, Compound.isSuperselectorOf_refl hn]

theorem Collides.mergeFails (h : Collides c d cs ds) (hu : c.unify? d = none) (hcs : IsLive cs) :
    MergeFails cs ds := by
  induction h with
  | @here k cs ds hk =>
    intro n hn
    obtain ⟨n, rfl⟩ : ∃ m, n = m + 1 := Nat.exists_eq_succ_of_ne_zero (by rintro rfl; simp at hn)
    rw [mergeTrailing?_both]
    cases k with
    | general => exact absurd rfl hk
    | child => simp [stepBoth?, hu]
    | adjacent => simp [stepBoth?, hu]
  | @same k n cs ds _ ih =>
    obtain ⟨hn, hfit⟩ := hcs.head
    obtain ⟨choice, -, hstep, -⟩ := stepBoth_same hn hfit k cs ds
    exact (MergeStep.both hstep).mergeFails (ih (hcs.of_suffix ⟨[_, _], rfl⟩))
  | @childLeft n cs ds _ ih =>
    refine (MergeStep.left rfl).mergeFails ?_
    rw [stepOne_child hcs.head.1]
    exact ih (hcs.of_suffix ⟨[_, _], rfl⟩)
  | @childRight n cs ds _ ih =>
    have hn : n.isPlain := isPlainPath_singleton.1 (isPlainPath_cons.1 hcs.plain).1
    refine (MergeStep.right rfl).mergeFails ?_
    rw [stepOne_child hn]
    exact ih (hcs.of_suffix ⟨[_], rfl⟩)
  | @nextLeft n cs ds _ ih =>
    exact (MergeStep.both rfl).mergeFails (ih (hcs.of_suffix ⟨[_, _], rfl⟩))
  | @nextRight n cs ds _ ih =>
    exact (MergeStep.both rfl).mergeFails (ih (hcs.of_suffix ⟨[_, _], rfl⟩))

/-! ### Taking trails apart -/

theorem isTrail_of_append_combinator {k : Combinator}
    (h : isTrail (cs ++ .combinator k :: ds)) : isTrail cs := by
  fun_induction isTrail cs with
  | case1 => rfl
  | case2 c rest ih => exact ih h
  | case3 k' c rest ih => exact ih h
  | case4 k' rest hrest =>
    rcases rest with _ | ⟨c | k'', rest⟩
    · cases h
    · exact absurd rfl (hrest c rest)
    · cases h

theorem isTrail_of_bySiblings (h : bySiblings cs) : isTrail cs := by
  fun_induction bySiblings cs with
  | case1 => rfl
  | case2 k c rest ih => exact ih (Bool.and_eq_true_iff.1 h).2
  | case3 => cases h

/-- A trail has sibling steps only, or sibling steps behind a last ancestor or parent. -/
theorem bySiblings_or_exists_last (h : isTrail cs) :
    bySiblings cs ∨ ∃ tail s n siblings, isTrail tail ∧ (s = none ∨ s = some .child) ∧
      bySiblings siblings ∧ cs = tail ++ (link s ++ .compound n :: siblings) := by
  fun_induction isTrail cs with
  | case1 => exact Or.inl rfl
  | case2 c rest ih =>
    rcases ih h with hrest | ⟨tail, s, n, siblings, htail, hs, hsiblings, rfl⟩
    · exact Or.inr ⟨[], none, c, rest, rfl, Or.inl rfl, hrest, rfl⟩
    · exact Or.inr ⟨.compound c :: tail, s, n, siblings, htail, hs, hsiblings, rfl⟩
  | case3 k c rest ih =>
    rcases ih h with hrest | ⟨tail, s, n, siblings, htail, hs, hsiblings, rfl⟩
    · by_cases hk : k = .child
      · subst hk
        exact Or.inr ⟨[], some .child, c, rest, rfl, Or.inr rfl, hrest, rfl⟩
      · exact Or.inl (Bool.and_eq_true_iff.2 ⟨by simpa using hk, hrest⟩)
    · exact Or.inr ⟨.combinator k :: .compound c :: tail, s, n, siblings, htail, hs, hsiblings, rfl⟩
  | case4 => cases h

theorem exists_last_sibling (h : bySiblings cs) (hne : cs ≠ []) :
    ∃ inner k n, cs = inner ++ [.combinator k, .compound n] ∧ bySiblings inner ∧ k ≠ .child := by
  fun_induction bySiblings cs with
  | case1 => exact absurd rfl hne
  | case2 k c rest ih =>
    obtain ⟨hk, hrest⟩ := Bool.and_eq_true_iff.1 h
    by_cases hnil : rest = []
    · subst hnil
      exact ⟨[], k, c, rfl, rfl, by simpa using hk⟩
    · obtain ⟨inner, k', n, rfl, hinner, hk'⟩ := ih hrest hnil
      exact ⟨.combinator k :: .compound c :: inner, k', n, rfl,
        Bool.and_eq_true_iff.2 ⟨hk, hinner⟩, hk'⟩
  | case3 => cases h

theorem exists_siblings_append (h : isTrail cs) :
    ∃ siblings rest, cs = siblings ++ rest ∧ bySiblings siblings ∧ isTrail rest ∧
      rest.head? ≠ some (.combinator .adjacent) := by
  fun_induction isTrail cs with
  | case1 => exact ⟨[], [], rfl, rfl, rfl, by simp⟩
  | case2 c rest _ => exact ⟨[], .compound c :: rest, rfl, rfl, h, by simp⟩
  | case3 k c rest ih =>
    by_cases hk : k = .adjacent
    · subst hk
      obtain ⟨siblings, rest, rfl, hs, hrest, hhead⟩ := ih h
      exact ⟨.combinator .adjacent :: .compound c :: siblings, rest, rfl, hs, hrest, hhead⟩
    · exact ⟨[], .combinator k :: .compound c :: rest, rfl, rfl, h, by simpa using hk⟩
  | case4 => cases h

theorem Collides.append_siblings {siblings : List Component} (hs : bySiblings siblings)
    (h : Collides c d cs ds) : Collides c d (siblings ++ cs) (siblings ++ ds) := by
  fun_induction bySiblings siblings with
  | case1 => exact h
  | case2 k n rest ih => exact .same (ih (Bool.and_eq_true_iff.1 hs).2)
  | case3 => cases hs

/-! ### Parents for ancestors -/

/-- The trail with a parent in the place of each ancestor. -/
def tighten : List Component → List Component
  | .compound c :: rest => .combinator .child :: .compound c :: tighten rest
  | .combinator k :: .compound c :: rest => .combinator k :: .compound c :: tighten rest
  | rest => rest

theorem isTrail_tighten {tail : List Component} (h : isTrail tail) : isTrail (tighten tail) := by
  fun_induction isTrail tail with
  | case1 => rfl
  | case2 c rest ih => exact ih h
  | case3 k c rest ih => exact ih h
  | case4 => cases h

theorem compoundsOf_tighten (tail : List Component) :
    compoundsOf (tighten tail) = compoundsOf tail := by
  fun_induction tighten tail with
  | case1 c rest ih => simp [ih]
  | case2 k c rest ih => simp [ih]
  | case3 => rfl

theorem Collides.append_tail {tail : List Component} (htail : isTrail tail)
    (h : Collides c d cs ds) : Collides c d (tail ++ cs) (tighten tail ++ ds) := by
  fun_induction isTrail tail with
  | case1 => exact h
  | case2 n rest ih => exact .childRight (ih htail)
  | case3 k n rest ih => exact .same (ih htail)
  | case4 => cases htail

theorem reach_of_tighten {t : ElementTree} {tail : List Component} (htail : isTrail tail) {S : Place}
    {z : Address} (h : t.reach (tighten tail).reverse S z) : t.reach tail.reverse S z := by
  fun_induction isTrail tail generalizing z with
  | case1 => exact h
  | case2 c rest ih =>
    rw [tighten, List.reverse_cons, List.reverse_cons, List.append_assoc, List.singleton_append,
      reach_snoc_pair] at h
    rw [List.reverse_cons, reach_snoc]
    exact next_weaken (fun _ _ => Related.of_child) (fun _ => id) (fun _ => ih htail) h
  | case3 k c rest ih =>
    rw [tighten, List.reverse_cons, List.reverse_cons, List.append_assoc, List.singleton_append,
      reach_snoc_pair] at h
    rw [List.reverse_cons, List.reverse_cons, List.append_assoc, List.singleton_append,
      reach_snoc_pair]
    exact next_weaken (fun _ _ => id) (fun _ => id) (fun _ => ih htail) h
  | case4 => cases htail

/-! ### Where a trail leads another one leads too -/

/-- Wherever the first trail leads, the second leads in the same tree. -/
def Entails (cs ds : List Component) : Prop := ∀ (t : ElementTree) z, t.above cs z → t.above ds z

theorem Entails.trans {es : List Component} (h : Entails cs ds) (h' : Entails ds es) : Entails cs es :=
  fun t z hz => h' t z (h t z hz)

theorem above_append {t : ElementTree} (hcs : isTrail cs) (ds : List Component) :
    t.above (cs ++ ds) = t.reach cs.reverse (t.above ds) := by
  rw [above, List.reverse_append, reach_append_lead]
  · rfl
  · rwa [isLead, List.reverse_reverse]

theorem Entails.append {es : List Component} (h : Entails ds es) (hcs : isTrail cs) :
    Entails (cs ++ ds) (cs ++ es) := by
  intro t z hz
  rw [above_append hcs] at hz ⊢
  exact reach_mono _ (h t) hz

theorem entails_left (hcs : isTrail cs) (ds : List Component) : Entails (cs ++ ds) cs := by
  intro t z hz
  rw [above_append hcs] at hz
  exact reach_mono _ (fun _ _ => trivial) hz

theorem entails_right (hcs : isTrail cs) (hds : isOpen ds) : Entails (cs ++ ds) ds := by
  intro t z hz
  rw [above_append hcs] at hz
  exact (lasting_above hds).of_reach (fun _ => id) hz

theorem entails_tighten {tail : List Component} (htail : isTrail tail) (ds : List Component) :
    Entails (tighten tail ++ ds) (tail ++ ds) := by
  intro t z hz
  rw [above_append (isTrail_tighten htail)] at hz
  rw [above_append htail]
  exact reach_of_tighten htail hz

theorem entails_siblings (hcs : bySiblings cs) (hds : isTrail ds)
    (hhead : ds.head? ≠ some (.combinator .adjacent)) : Entails (cs ++ ds) ds := by
  intro t z hz
  fun_induction bySiblings cs generalizing z with
  | case1 => exact hz
  | case2 k c rest ih =>
    obtain ⟨hk, hrest⟩ := Bool.and_eq_true_iff.1 hcs
    rw [List.cons_append, List.cons_append, above_combinator] at hz
    obtain ⟨y, hy, -, hrest'⟩ := hz
    have hy := Related.general_of_sibling (by simpa using hk) hy
    exact siblingClosed_above hds hhead y z hy (ih hrest y hrest')
  | case3 => cases hcs

/-! ### Two paths that are not unified and match together -/

theorem isLive_pair (k : Combinator) (hc : c.isPlain) (hfit : ∃ x : Subject, x.Fits c) :
    IsLive [.combinator k, .compound c] where
  trail := rfl
  plain := isPlainPath_cons.2 ⟨rfl, isPlainPath_singleton.2 hc⟩
  fits := List.forall_mem_singleton.2 hfit

theorem IsLive.tighten {tail : List Component} (h : IsLive tail) : IsLive (tighten tail) where
  trail := isTrail_tighten h.trail
  plain := by
    rw [isPlainPath, compoundsOf_tighten]
    exact h.plain
  fits := by
    rw [compoundsOf_tighten]
    exact h.fits

theorem unifyPaths_eq_nil (hcs : isTrail cs) (hds : isTrail ds) (hne : ds ≠ [])
    (h : MergeFails cs ds) (c d : Compound) :
    unifyPaths (cs.reverse ++ [.compound c]) (ds.reverse ++ [.compound d]) = [] := by
  rw [unifyPaths, unifyWith_snoc]
  split
  · obtain ⟨unify, -, heq⟩ := exists_interleave_eq cs.reverse ds.reverse
    rw [if_neg (by simpa using hne), heq, List.map_eq_nil_iff, interleaveWith_eq unify ?_ ?_,
      List.reverse_reverse, List.reverse_reverse, h _ (by simp)]
    · rwa [isLead, List.reverse_reverse]
    · rwa [isLead, List.reverse_reverse]
  · rfl

/-- Two paths match together where a third trail leads that entails both trails. -/
theorem not_neverTogether {es : List Component} {x : Compound} (htrail : isTrail es)
    (hfits : ∀ c ∈ x :: compoundsOf es, ∃ y : Subject, y.Fits c) (hle : Entails es cs)
    (hle' : Entails es ds) :
    ¬ NeverTogether (cs.reverse ++ [.compound x]) (ds.reverse ++ [.compound x]) := by
  intro hnever
  have hfits' : ∀ c ∈ compoundsOf (es.reverse ++ [.compound x]), ∃ y : Subject, y.Fits c := by
    intro c hc
    refine hfits c ?_
    simpa [or_comm] using hc
  obtain ⟨t, e, he, hm⟩ := exists_matches (isWellFormed_of_isTrail htrail x) hfits'
  obtain ⟨hx, hreach⟩ := matches_snoc_iff.1 hm
  refine hnever t e he ⟨matches_snoc_iff.2 ⟨hx, ?_⟩, matches_snoc_iff.2 ⟨hx, ?_⟩⟩
  · exact hle t e hreach
  · exact hle' t e hreach

/-- Unification with some other path gives up, in one order or the other, though elements can match
both. -/
def GivesUp (cs : List Component) : Prop :=
  ∃ ds, isWellFormed ds ∧ isPlainPath ds ∧ (unifyPaths cs ds = [] ∨ unifyPaths ds cs = []) ∧
    ¬ NeverTogether cs ds

/-- Paths whose trails collide are not unified, but match together where a third trail leads that
entails both. -/
theorem Collides.givesUp {es : List Component} {x : Compound} (hcs : IsLive cs)
    (hds : IsLive ds) (hes : IsLive es) (hx : x.isPlain) (hfit : ∃ y : Subject, y.Fits x)
    (h : Collides c d cs ds) (hu : c.unify? d = none ∨ d.unify? c = none) (hle : Entails es cs)
    (hle' : Entails es ds) : GivesUp (cs.reverse ++ [.compound x]) := by
  have hne : cs ≠ [] ∧ ds ≠ [] := by cases h <;> simp
  refine ⟨ds.reverse ++ [.compound x], isWellFormed_of_isTrail hds.trail x, ?_, ?_, ?_⟩
  · exact isPlainPath_append.2 ⟨by simpa using hds.plain, isPlainPath_singleton.2 hx⟩
  · rcases hu with hu | hu
    · exact Or.inl (unifyPaths_eq_nil hcs.trail hds.trail hne.2 (h.mergeFails hu hcs) x x)
    · exact Or.inr (unifyPaths_eq_nil hds.trail hcs.trail hne.1 (h.symm.mergeFails hu hds) x x)
  · exact not_neverTogether hes.trail (List.forall_mem_cons.2 ⟨hfit, hes.fits⟩) hle hle'

/-- The compound is bound beyond a parent or an ancestor of the end. The other path takes that one for
an ancestor if it is a parent, and the other way round. -/
theorem exists_apart_far {tail siblings outer : List Component} {s : Option Combinator}
    {n x : Compound} {k : Combinator}
    (h : IsLive (tail ++ (link s ++ .compound n :: (siblings ++ .combinator k :: .compound c :: outer))))
    (htail : isTrail tail) (hs : s = none ∨ s = some .child) (hsiblings : bySiblings siblings)
    (hk : k ≠ .general) (hd : d.isPlain) (hfd : ∃ y : Subject, y.Fits d)
    (hu : c.unify? d = none ∨ d.unify? c = none) (hx : x.isPlain) (hfit : ∃ y : Subject, y.Fits x) :
    GivesUp ((tail ++ (link s ++ .compound n :: (siblings ++ .combinator k :: .compound c ::
      outer))).reverse ++ [.compound x]) := by
  let near : List Component := .compound n :: (siblings ++ .combinator k :: .compound c :: outer)
  let near' : List Component := .compound n :: (siblings ++ [.combinator k, .compound d])
  have hlivetail : IsLive tail := h.left htail
  have hnear : IsLive near := by
    refine h.of_suffix ⟨tail ++ link s, ?_⟩
    rw [List.append_assoc]
  have hnear' : IsLive near' := by
    have hgroup : IsLive (.compound n :: siblings) :=
      @IsLive.left _ (.combinator k :: .compound c :: outer) hnear
        (@isTrail_of_bySiblings siblings hsiblings)
    exact hgroup.append (isLive_pair k hd hfd)
  have hbind {cs : List Component} (h : IsLive (.compound n :: cs)) :
      IsLive (.combinator .child :: .compound n :: cs) := ⟨h.trail, h.plain, h.fits⟩
  have hcollides : Collides c d (siblings ++ .combinator k :: .compound c :: outer)
      (siblings ++ [.combinator k, .compound d]) := .append_siblings hsiblings (.here hk)
  rcases hs with rfl | rfl
  · have hother := hlivetail.tighten.append (hbind hnear')
    refine (Collides.append_tail htail (.childRight hcollides)).givesUp h hother
      (hother.append hnear) hx hfit hu ?_ (entails_left hother.trail near)
    rw [List.append_assoc]
    exact ((entails_right (hbind hnear').trail rfl).append hlivetail.tighten.trail).trans
      (entails_tighten htail near)
  · have hother := hlivetail.tighten.append hnear'
    have hbound : IsLive (.combinator .child :: near) := hbind hnear
    refine (Collides.append_tail htail (.childLeft hcollides)).givesUp h hother
      ((hlivetail.tighten.append hbound).append hnear') hx hfit hu ?_ ?_
    · exact (entails_left (hlivetail.tighten.append hbound).trail near').trans (entails_tighten htail _)
    · rw [List.append_assoc]
      exact (entails_right hbound.trail rfl).append hlivetail.tighten.trail

/-- The compound is bound to a sibling that leads to the end through others. The other path takes that
one for any earlier sibling. -/
theorem exists_apart_near {inner outer : List Component} {n x : Compound} {k : Combinator}
    (h : IsLive (inner ++ .combinator k :: .compound n :: .combinator .adjacent :: .compound c :: outer))
    (hinner : bySiblings inner) (hk : k ≠ .child) (hd : d.isPlain) (hfd : ∃ y : Subject, y.Fits d)
    (hu : c.unify? d = none ∨ d.unify? c = none) (hx : x.isPlain) (hfit : ∃ y : Subject, y.Fits x) :
    GivesUp ((inner ++ .combinator k :: .compound n :: .combinator .adjacent :: .compound c ::
      outer).reverse ++ [.compound x]) := by
  have hliveinner : IsLive inner := h.left (isTrail_of_bySiblings hinner)
  have hpairs : IsLive (.combinator k :: .compound n :: .combinator .adjacent :: .compound c ::
    outer) := h.of_suffix ⟨inner, rfl⟩
  have houter : IsLive outer := hpairs.of_suffix ⟨[_, _, _, _], rfl⟩
  obtain ⟨hn, hfn⟩ := hpairs.head
  obtain ⟨siblings, rest, rfl, hsiblings, hrest, hhead⟩ := exists_siblings_append houter.trail
  let near : List Component := [.combinator .general, .compound n, .combinator .adjacent, .compound d]
  have hnear : IsLive near := (isLive_pair .general hn hfn).append (isLive_pair .adjacent hd hfd)
  let group : List Component :=
    .combinator k :: .compound n :: .combinator .adjacent :: .compound c :: siblings
  have hgroup : bySiblings group := by
    simp only [group, bySiblings, Bool.and_eq_true, bne_iff_ne]
    exact ⟨hk, by decide, hsiblings⟩
  have hlivegroup : IsLive group := @IsLive.left _ rest hpairs (isTrail_of_bySiblings hgroup)
  have hcollides : Collides c d
      (.combinator k :: .compound n :: .combinator .adjacent :: .compound c :: (siblings ++ rest))
      near := by
    cases k with
    | child => exact absurd rfl hk
    | general => exact .same (.here (by simp))
    | adjacent => exact .nextLeft (.here (by simp))
  have hliverest : IsLive rest := houter.of_suffix ⟨siblings, rfl⟩
  refine (hcollides.append_siblings hinner).givesUp h (hliveinner.append hnear)
    (hliveinner.append (hlivegroup.append (hnear.append hliverest))) hx hfit hu ?_ ?_
  · exact ((@entails_siblings near rest rfl hrest hhead).append hlivegroup.trail).append
      hliveinner.trail
  · refine Entails.append ?_ hliveinner.trail
    exact ((entails_left hnear.trail rest).append hlivegroup.trail).trans
      (entails_siblings hgroup hnear.trail (by simp [near]))

/-- Unless its exclusive compounds are bound near the end, unification with a path gives up too early. -/
theorem givesUp_of_not_boundNearEnd {x : Compound} (hcs : IsLive cs) (hx : x.isPlain)
    (hfit : ∃ y : Subject, y.Fits x) (h : ¬ BoundNearEnd cs) :
    GivesUp (cs.reverse ++ [.compound x]) := by
  unfold BoundNearEnd at h
  push Not at h
  obtain ⟨inner, k, c, outer, rfl, hk, ⟨d, hd, hfd, hu⟩, hparent, hnext⟩ := h
  have hinner : isTrail inner := isTrail_of_append_combinator hcs.trail
  rcases bySiblings_or_exists_last hinner with
    hsiblings | ⟨tail, s, n, siblings, htail, hs, hsiblings, rfl⟩
  · obtain rfl : k = .adjacent := by
      cases k with
      | child => exact absurd hsiblings (by simpa using hparent rfl)
      | general => exact absurd rfl hk
      | adjacent => rfl
    obtain ⟨inner, k, n, rfl, hinner, hk⟩ := exists_last_sibling hsiblings (hnext rfl)
    rw [List.append_assoc] at hcs ⊢
    exact exists_apart_near hcs hinner hk hd hfd hu hx hfit
  · simp only [List.append_assoc, List.cons_append] at hcs ⊢
    exact exists_apart_far hcs htail hs hsiblings hk hd hfd hu hx hfit

end Weave

open Weave

namespace Complex

/-- What it is worth that a plain complex selector is not unified with another one depends on its
exclusive compounds. If they are bound near the end, no element matches both, be it the first or the
second; where both name the root, it has to be a single one. If not, elements can match both though the
two are not unified, for some other selector, provided that elements can fit the compounds. -/
theorem unify_eq_nil {c : Complex} (hw : isWellFormed c.components)
    (hp : isPlainPath c.components) :
    (BoundNearEnd c.components.dropLast.reverse → ∀ d : Complex, isWellFormed d.components →
      isPlainPath d.components → c.unify d = [] ∨ d.unify c = [] → ∀ t : ElementTree,
      isRootless c.components ∨ isRootless d.components ∨ t.IsRooted →
      ∀ e, ¬ (t.Matches c.components e ∧ t.Matches d.components e)) ∧
    (¬ BoundNearEnd c.components.dropLast.reverse →
      (∀ c' ∈ c.compounds, ∃ x : Subject, x.Fits c') →
      ∃ d : Complex, isWellFormed d.components ∧ isPlainPath d.components ∧
        (c.unify d = [] ∨ d.unify c = []) ∧ ¬ NeverTogether c.components d.components) := by
  constructor
  · intro hbound d hwd hpd hunify t hroot e hmatch
    rcases hunify with hunify | hunify
    · exact not_matches_of_unifyPaths_eq_nil hw hwd hp hpd (Or.inl hbound)
        (List.map_eq_nil_iff.1 hunify) hroot hmatch
    · have hroot' : isRootless d.components ∨ isRootless c.components ∨ t.IsRooted := by
        rcases hroot with h | h | h
        · exact Or.inr (Or.inl h)
        · exact Or.inl h
        · exact Or.inr (Or.inr h)
      exact not_matches_of_unifyPaths_eq_nil hwd hw hpd hp (Or.inr hbound)
        (List.map_eq_nil_iff.1 hunify) hroot' hmatch.symm
  · intro hbound hfits
    obtain ⟨stem, x, hx⟩ := exists_snoc_of_isWellFormed hw
    have hfits' : ∀ c' ∈ compoundsOf c.components, ∃ x : Subject, x.Fits c' := hfits
    rw [hx] at hw hp hbound hfits' ⊢
    rw [List.dropLast_concat] at hbound
    rw [compoundsOf_append, List.forall_mem_append] at hfits'
    obtain ⟨hpstem, hpx⟩ := isPlainPath_append.1 hp
    have hlive : IsLive stem.reverse :=
      ⟨isWellFormed_snoc_iff.1 hw, by simpa using hpstem, by simpa using hfits'.1⟩
    obtain ⟨ds, hwds, hpds, hempty, hnot⟩ := givesUp_of_not_boundNearEnd hlive
      (isPlainPath_singleton.1 hpx) (hfits'.2 x (List.mem_singleton.2 rfl)) hbound
    rw [List.reverse_reverse, ← hx] at hempty
    rw [List.reverse_reverse] at hnot
    exact ⟨.ofComponents ds, hwds, hpds,
      hempty.imp (congrArg (List.map ofComponents)) (congrArg (List.map ofComponents)), hnot⟩

/-- No element matches both `#p > .x` and `#q > .x`, which are not unified. -/
theorem unify_eq_nil_parents :
    let p := Component.compound (.ofId "p")
    let q := Component.compound (.ofId "q")
    let x := Component.compound (.ofClass "x")
    NeverTogether [p, .combinator .child, x] [q, .combinator .child, x] := by
  intro p q x t e _
  exact (unify_eq_nil (c := .ofComponents [p, .combinator .child, x]) rfl rfl).1
    (boundNearEnd_single _ _) (.ofComponents [q, .combinator .child, x]) rfl rfl (Or.inl rfl) t
    (Or.inl rfl) e

/-- `#p > .a > .x` and `#q > .a .x` are not unified, but elements can match both. -/
theorem unify_eq_nil_not_neverTogether :
    let p := Component.compound (.ofId "p")
    let q := Component.compound (.ofId "q")
    let a := Component.compound (.ofClass "a")
    let x := Component.compound (.ofClass "x")
    let c := [p, .combinator .child, a, .combinator .child, x]
    let d := [q, .combinator .child, a, x]
    (ofComponents c).unify (ofComponents d) = [] ∧ ¬ NeverTogether c d := by
  intro p q a x c d
  have hclass (name : String) : ∃ y : Subject, y.Fits (.ofClass name) :=
    ⟨.ofClasses [name], by simp⟩
  have hid (name : String) : ∃ y : Subject, y.Fits (.ofId name) := ⟨.ofId name, Subject.ofId_fits name⟩
  let inner := [.combinator .child, a, .combinator .child, p]
  let outer := [a, .combinator .child, q]
  refine ⟨rfl, @not_neverTogether inner outer (inner ++ outer) (.ofClass "x") rfl ?_
    (entails_left rfl outer) (@entails_right inner outer rfl rfl)⟩
  refine List.forall_mem_cons.2 ⟨hclass "x", ?_⟩
  have hcompounds : compoundsOf (inner ++ outer) =
    [.ofClass "a", .ofId "p", .ofClass "a", .ofId "q"] := rfl
  simp only [hcompounds, List.forall_mem_cons]
  exact ⟨hclass "a", hid "p", hclass "a", hid "q", by simp⟩

end Complex

end SelectorCalculus
