import SelectorCalculus.Proofs.MirroredTrails
import SelectorCalculus.Proofs.SuperselectorGaps
import SelectorCalculus.Proofs.UnifyMeaning
/-! Where unification promises too much: every path that is not weavable is unified to one that it
does not contain. -/

namespace SelectorCalculus

open ElementTree Superselector

namespace Weave

/-! ### Interleaving along the diagonal -/

theorem mem_interleaveWith {unify : Combine} {cs ds : List Component} (hcs : IsStem cs)
    (hds : IsStem ds) {r : List Choice × List Component × List Component}
    (hm : mergeTrailing? (cs.length + ds.length) cs.reverse ds.reverse = some r)
    {front back : List (List Component)}
    (hfront : List.Forall₂ (· ∈ ·) front ((layOut (commonRuns unify r.2.1.reverse r.2.2.reverse)
      (runs r.2.1.reverse) (runs r.2.2.reverse)).filter (!·.isEmpty)))
    (hback : List.Forall₂ (· ∈ ·) back r.1) :
    front.flatten ++ back.flatten ∈ interleaveWith unify cs ds := by
  obtain ⟨-, -, -, -, hchoices⟩ := mergeTrailing?_spec hm (by simp) hcs.trail.1 hds.trail.1
    hcs.trail.2 hds.trail.2
  have hfilter : r.1.filter (!·.isEmpty) = r.1 := by
    refine List.filter_eq_self.2 fun choice hchoice => ?_
    simpa using (hchoices choice hchoice).1
  rw [hcs.interleaveWith_eq unify hds, hm, ← List.flatten_append]
  refine List.mem_map.2 ⟨[] :: (front ++ back), mem_picks.2 ?_, rfl⟩
  rw [choicesAfter, List.cons_append, List.filter_cons_of_pos (by rfl), List.filter_append, hfilter]
  exact .cons (List.mem_singleton.2 rfl) (List.rel_append hfront hback)

theorem exists_mem_unifyPaths {cs ds es laid : List Component} {c : Compound} (hcs : IsStem cs)
    (hds : IsStem ds) (hne : ds ≠ []) (hc : c.isPlain) (hfit : ∃ x : Subject, x.Fits c)
    {r : List Choice × List Component × List Component}
    (hm : mergeTrailing? (cs.length + ds.length) cs.reverse ds.reverse = some r)
    (hlaid : ∀ unify, ∃ front, List.Forall₂ (· ∈ ·) front
      ((layOut (commonRuns unify r.2.1.reverse r.2.2.reverse) (runs r.2.1.reverse)
        (runs r.2.2.reverse)).filter (!·.isEmpty)) ∧ front.flatten = laid)
    {back : List (List Component)} (hback : List.Forall₂ (· ∈ ·) back r.1)
    (hmild : Milder (laid ++ back.flatten) es) :
    ∃ path ∈ unifyPaths (cs ++ [.compound c]) (ds ++ [.compound c]),
      Milder path (es ++ [.compound c]) := by
  obtain ⟨u, hu, hfits⟩ := exists_unify_self hc hfit
  obtain ⟨unify, -, hinterleave⟩ := exists_interleave_eq cs ds
  obtain ⟨front, hfront, rfl⟩ := hlaid unify
  have hmem := mem_interleaveWith hcs hds hm hfront hback
  refine ⟨front.flatten ++ back.flatten ++ [.compound u], ?_, ?_⟩
  · rw [unifyPaths, unifyWith_snoc, hu]
    refine List.mem_map_of_mem ?_
    rw [if_neg (by simpa [List.isEmpty_iff] using hne), hinterleave]
    exact hmem
  · exact hmild.append fun t => .cons (fun _ _ => hfits _) .nil

/-- A run that is above another one and not longer is common to both, unless the other one is
above it as well. -/
theorem commonRun?_eq_some (unify : Combine) {cs ds : List Component}
    (h : isParentSuperpath ds cs) (hlen : cs = ds ∨ ds.length < cs.length) :
    commonRun? unify cs ds = some cs := by
  obtain ⟨⟨⟨hds, hcs⟩, -⟩, -⟩ := by
    simpa only [isParentSuperpath, Bool.and_eq_true] using h
  unfold commonRun?
  split
  · rfl
  · rcases hlen with rfl | hlen
    · simp [hcs, h]
    · have hnot : isParentSuperpath cs ds = false := by
        simp only [isParentSuperpath, Bool.and_eq_false_iff, decide_eq_false_iff_not]
        omega
      simp [hcs, hds, hnot]

/-- Runs laid out against runs that are below them one by one are the lower ones. -/
theorem layOut_diagonal {left right : List (List Component)}
    (h : List.Forall₂ (fun run run' => isParentSuperpath run' run ∧ isParentSuperpath run run)
      right left) :
    (layOut right left right).filter (!·.isEmpty) = right.map fun run => [run] := by
  induction h with
  | nil => rfl
  | cons hrun _ ih =>
    simp [layOut, List.span_eq_takeWhile_dropWhile, hrun.1, hrun.2, interleavings, ih]

theorem isParentSuperpath_of_walk {cs ds : List Component} (hcs : isWellFormed cs)
    (hds : isWellFormed ds) (hlen : cs.length ≤ ds.length)
    (h : ∀ test base, Compound.isPlain base →
      walk test (cs ++ [.compound base]) (ds ++ [.compound base])) :
    isParentSuperpath cs ds := by
  have hbase {cs : List Component} (hcs : isWellFormed cs) (base : Compound) :
      isWellFormed (cs ++ [.compound base]) :=
    isWellFormed_snoc_iff.2 (isLead_of_isWellFormed hcs)
  simp only [isParentSuperpath, Bool.and_eq_true, decide_eq_true_eq]
  refine ⟨⟨⟨(isWellFormed_iff.1 hcs).1, (isWellFormed_iff.1 hds).1⟩, hlen⟩, ?_⟩
  exact pathTest_of_walk (hbase hcs _) (hbase hds _) fun test => h test _ rfl

theorem isParentSuperpath_refl {cs : List Component} (hw : isWellFormed cs) (hp : isPlainPath cs) :
    isParentSuperpath cs cs := by
  refine isParentSuperpath_of_walk hw hw (Nat.le_refl _) fun test base hbase => walk_refl ?_ ?_
  · exact isWellFormed_snoc_iff.2 (isLead_of_isWellFormed hw)
  · exact isPlainPath_append.2 ⟨hp, isPlainPath_singleton.2 hbase⟩

theorem isParentSuperpath_insert {c d g : Compound} {k : Combinator} (s : Option Combinator)
    {rest : List Component} (hrun : isRun (.compound d :: rest)) (hc : c.isPlain)
    (hp : isPlainPath (.compound d :: rest))
    (hg : ∀ test, compoundTest test d g [] = false) :
    isParentSuperpath (.compound c :: .combinator k :: .compound d :: rest)
      (.compound c :: .combinator k :: .compound g :: (link s ++ .compound d :: rest)) := by
  have hwd : isWellFormed (.compound d :: rest) := isWellFormed_of_isRun hrun
  have hw : isWellFormed (.compound c :: .combinator k :: .compound d :: rest) := hwd
  have hw' : isWellFormed (.compound c :: .combinator k :: .compound g ::
      (link s ++ .compound d :: rest)) := @isWellFormed_insert [] _ _ _ _ _ _ hw
  refine isParentSuperpath_of_walk hw hw' ?_ fun test base hbase => ?_
  · simp only [List.length_cons, List.length_append]
    omega
  · have hskip := @walk_skip test c d g k s (rest ++ [.compound base]) ?_ hc ?_ (by simp) ?_ (hg test)
    · simpa using hskip
    · exact isWellFormed_snoc_iff.2 (isLead_of_isWellFormed hwd)
    · exact isPlainPath_append.2 ⟨hp, isPlainPath_singleton.2 hbase⟩
    · intro k' rest' heq hlen
      rcases rest with _ | ⟨d' | k'', _ | ⟨d', rest⟩⟩
      · cases heq
      · cases heq
      · cases heq
      · cases hrun
      · cases heq
        simp at hlen

/-! ### A run in the place of another one -/

theorem isOpen_reverse_flatten {pieces : List (List Component)} (h : ∀ p ∈ pieces, isRun p) :
    isOpen pieces.flatten.reverse := by
  rcases List.eq_nil_or_concat pieces with rfl | ⟨front, last, rfl⟩
  · rfl
  · have hlast : isRun last := h last (by simp)
    obtain ⟨cs, c, rfl⟩ := exists_snoc_of_isWellFormed (isWellFormed_of_isRun hlast)
    simp [isOpen, Component.isCombinator, Component.isCompound]

/-- A run of the second path that one of the first is taken to be above and that may take its
place. -/
def TakesPlace (run run' : List Component) : Prop :=
  isParentSuperpath run' run ∧ isParentSuperpath run run ∧ (run = run' ∨ run'.length < run.length)

theorem TakesPlace.refl {run : List Component} (hw : isWellFormed run) (hp : isPlainPath run) :
    TakesPlace run run :=
  ⟨isParentSuperpath_refl hw hp, isParentSuperpath_refl hw hp, Or.inl rfl⟩

theorem forall₂_takesPlace {front back : List (List Component)} {run run' : List Component}
    (hfront : ∀ r ∈ front, IsOrdinary r) (hback : ∀ r ∈ back, IsOrdinary r)
    (h : TakesPlace run run') :
    List.Forall₂ TakesPlace (front ++ run :: back) (front ++ run' :: back) := by
  have hsame {l : List (List Component)} (hl : ∀ r ∈ l, IsOrdinary r) : List.Forall₂ TakesPlace l l :=
    List.forall₂_same.2 fun r hr => .refl (hl r hr).wellFormed (hl r hr).plain
  exact List.rel_append (hsame hfront) (.cons h (hsame hback))

/-- Two paths that end alike can be unified to the second one, if its runs may take the places of
those of the first. -/
theorem exists_unifyPaths_mirror {left right : List (List Component)}
    {steps : List (Combinator × Compound)} {c : Compound} (hleft : ∀ run ∈ left, isRun run)
    (hright : ∀ run ∈ right, isRun run) (h : List.Forall₂ TakesPlace right left)
    (hcs : IsStem (left.flatten ++ (trailOf steps).reverse))
    (hds : IsStem (right.flatten ++ (trailOf steps).reverse))
    (hne : right.flatten ++ (trailOf steps).reverse ≠ []) (hsteps : IsLive (trailOf steps))
    (hc : c.isPlain) (hfit : ∃ x : Subject, x.Fits c) :
    ∃ path ∈ unifyPaths (left.flatten ++ (trailOf steps).reverse ++ [.compound c])
      (right.flatten ++ (trailOf steps).reverse ++ [.compound c]),
      Milder path (right.flatten ++ (trailOf steps).reverse ++ [.compound c]) := by
  set cs := left.flatten ++ (trailOf steps).reverse with hcsdef
  set ds := right.flatten ++ (trailOf steps).reverse with hdsdef
  obtain ⟨choices, back, hback, hmild, hmerge⟩ := mergeTrailing_mirror hsteps left.flatten.reverse
    right.flatten.reverse
  have hm : mergeTrailing? (cs.length + ds.length) cs.reverse ds.reverse =
      some (choices, left.flatten.reverse, right.flatten.reverse) := by
    have hlen : steps.length ≤ cs.length + ds.length := by
      rw [hcsdef, List.length_append, List.length_reverse, length_trailOf]
      omega
    rw [← Nat.sub_add_cancel hlen, hcsdef, hdsdef, List.reverse_append, List.reverse_append,
      List.reverse_reverse, hmerge,
      mergeTrailing?_open (isOpen_reverse_flatten hleft) (isOpen_reverse_flatten hright)]
    rfl
  have hlaid (unify : Combine) : ∃ front, List.Forall₂ (· ∈ ·) front
      ((layOut (commonRuns unify left.flatten.reverse.reverse right.flatten.reverse.reverse)
        (runs left.flatten.reverse.reverse) (runs right.flatten.reverse.reverse)).filter
          (!·.isEmpty)) ∧ front.flatten = right.flatten := by
    have hcommon : longestCommon (commonRun? unify) right left = right :=
      longestCommon_diagonal (h.imp fun _ _ hrun => commonRun?_eq_some unify hrun.1 hrun.2.2)
    have hlaid := layOut_diagonal (h.imp fun _ _ hrun => ⟨hrun.1, hrun.2.1⟩)
    refine ⟨right, ?_, rfl⟩
    rw [List.reverse_reverse, List.reverse_reverse, commonRuns, runs_flatten hleft,
      runs_flatten hright, hcommon, hlaid, List.forall₂_map_right_iff]
    exact List.forall₂_same.2 fun run _ => List.mem_singleton.2 rfl
  exact exists_mem_unifyPaths hcs hds hne hc hfit hm hlaid hback ((Milder.refl _).append hmild)

theorem IsOrdinary.insert {cs ds : List Component} {c d g : Compound} {k : Combinator}
    {s : Option Combinator}
    (h : IsOrdinary (cs ++ .compound c :: .combinator k :: .compound d :: ds)) (hg : g.isPlain)
    (hroot : isRoot g = false) :
    IsOrdinary (cs ++ .compound c :: .combinator k :: .compound g ::
      (link s ++ .compound d :: ds)) where
  wellFormed := isWellFormed_insert h.wellFormed
  plain := by
    refine List.all_eq_true.2 fun c' hc' => ?_
    rcases mem_compoundsOf_insert hc' with rfl | hc'
    · exact hg
    · exact List.all_eq_true.1 h.plain c' hc'
  rootless := by
    refine List.all_eq_true.2 fun c' hc' => ?_
    rcases mem_compoundsOf_insert hc' with rfl | hc'
    · simpa using hroot
    · exact List.all_eq_true.1 h.rootless c' hc'

theorem IsOrdinary.isLive {cs : List Component} {c : Compound}
    (h : IsOrdinary (cs ++ [.compound c]))
    (hfits : ∀ c' ∈ compoundsOf (cs ++ [.compound c]), ∃ x : Subject, x.Fits c') :
    IsLive cs.reverse where
  trail := h.isStem.1.lead
  plain := h.isStem.1.trail.2
  fits c' hc' := hfits c' (by
    rw [compoundsOf_append]
    exact List.mem_append_left _ (by simpa using hc'))

theorem exists_run_of_not_all {cs : List Component} (hw : isWellFormed cs)
    (h : ¬ cs.all Component.isCompound) :
    ∃ front c k d rest back, isRun (.compound d :: rest) ∧
      runs cs = front ++ (.compound c :: .combinator k :: .compound d :: rest) :: back := by
  obtain ⟨run, hrun, hnot⟩ : ∃ run ∈ runs cs, ¬ run.all Component.isCompound := by
    by_contra hno
    refine h ?_
    rw [← flatten_runs cs, List.all_eq_true]
    intro c hc
    obtain ⟨run, hrun, hc⟩ := List.mem_flatten.1 hc
    by_contra hcompound
    exact hno ⟨run, hrun, fun hall => hcompound (List.all_eq_true.1 hall c hc)⟩
  have hisRun := isRun_of_mem_runs hw run hrun
  obtain ⟨front, back, hruns⟩ := List.append_of_mem hrun
  rw [hruns]
  rcases isRun_cases hisRun with ⟨c, rfl⟩ | ⟨c, k, d, rest, rfl, hrest⟩
  · exact absurd rfl hnot
  · exact ⟨front, c, k, d, rest, back, hrest, rfl⟩

theorem bindsFirst_trailOf (steps : List (Combinator × Compound)) (rest : List Component) :
    bindsFirst (trailOf steps ++ rest) = bindsFirst rest := by
  induction steps with
  | nil => rfl
  | cons s steps ih => exact ih

theorem exists_unify_of_run {cs rest : List Component} {left front back : List (List Component)}
    {c d c₀ : Compound} {k : Combinator} {steps : List (Combinator × Compound)}
    (hleft : left = front ++ (.compound c :: .combinator k :: .compound d :: rest) :: back)
    (hruns : ∀ run ∈ left, isRun run)
    (heq : cs = left.flatten ++ (trailOf steps).reverse ++ [.compound c₀]) (hcs : IsOrdinary cs)
    (hcontingent : IsContingent cs) :
    ∃ ds, IsOrdinary ds ∧ ∃ path ∈ unifyPaths cs ds, ¬ Subsumes cs path := by
  let ds := rest ++ (back.flatten ++ ((trailOf steps).reverse ++ [.compound c₀]))
  let right := front ++ (.compound c :: .combinator k :: .compound .universal ::
    (link (some .child) ++ .compound d :: rest)) :: back
  have hA : cs = front.flatten ++ .compound c :: .combinator k :: .compound d :: ds := by
    simp [heq, hleft, ds]
  have hB : right.flatten ++ (trailOf steps).reverse ++ [.compound c₀] =
      front.flatten ++ .compound c :: .combinator k :: .compound .universal ::
        (link (some .child) ++ .compound d :: ds) := by
    simp [right, ds]
  have hordinaryB : IsOrdinary (right.flatten ++ (trailOf steps).reverse ++ [.compound c₀]) := by
    rw [hB]
    exact (hA ▸ hcs).insert rfl rfl
  have hordinary : ∀ run ∈ left, IsOrdinary run := by
    have hstem : IsStem (left.flatten ++ (trailOf steps).reverse) := (heq ▸ hcs).isStem.1
    have hsuffix : left.flatten.reverse <:+ (left.flatten ++ (trailOf steps).reverse).reverse := by
      rw [List.reverse_append]
      exact List.suffix_append ..
    have := hstem.runs hsuffix (isOpen_reverse_flatten hruns)
    rwa [List.reverse_reverse, runs_flatten hruns] at this
  obtain ⟨hfit, other, hother⟩ := hcontingent
  have hplain := List.all_eq_true.1 hcs.plain
  have hmem {c' : Compound}
      (hc' : c' ∈ compoundsOf (.compound c :: .combinator k :: .compound d :: ds)) :
      c' ∈ compoundsOf cs := by
    rw [hA, compoundsOf_append]
    exact List.mem_append_right _ hc'
  have hg (test : PathTest) : compoundTest test d .universal [] = false := by
    rw [Bool.eq_false_iff]
    refine fun h => hother d (hmem (by simp)) ?_
    exact compoundTest_sound (hplain d (hmem (by simp))) rfl h other.fits_universal
  rw [hleft, List.forall_mem_append, List.forall_mem_cons] at hordinary
  have hruns' := hruns
  rw [hleft, List.forall_mem_append, List.forall_mem_cons] at hruns'
  have hplace : List.Forall₂ TakesPlace right left := by
    have hrun := hordinary.2.1
    have hpd := (isPlainPath_cons.1 (isPlainPath_cons.1 hrun.plain).2).2
    have hinsert := @IsOrdinary.insert [] _ _ _ .universal _ (some .child) hrun rfl rfl
    rw [hleft]
    refine forall₂_takesPlace hordinary.1 hordinary.2.2 ⟨?_, ?_, Or.inr ?_⟩
    · exact isParentSuperpath_insert _ hruns'.2.1 (hplain c (hmem (by simp))) hpd hg
    · exact isParentSuperpath_refl hinsert.wellFormed hinsert.plain
    · simp [link]
  have hsteps : IsLive (trailOf steps) := by
    have hlive := (heq ▸ hcs).isLive (heq ▸ hfit)
    rw [List.reverse_append, List.reverse_reverse] at hlive
    exact hlive.left (isTrail_trailOf steps)
  have hc₀ : c₀ ∈ compoundsOf cs := hmem (by simp [ds])
  have hright : ∀ run ∈ right, isRun run :=
    List.forall_mem_append.2 ⟨hruns'.1, List.forall_mem_cons.2 hruns'.2⟩
  obtain ⟨path, hpath, hmild⟩ := exists_unifyPaths_mirror hruns hright hplace
    (heq ▸ hcs).isStem.1 hordinaryB.isStem.1 (by simp [right]) hsteps (hplain _ hc₀) (hfit _ hc₀)
  refine ⟨_, hordinaryB, path, heq ▸ hpath, fun hsub => ?_⟩
  rw [hB] at hmild
  rw [hA] at hcs hfit hother hsub
  exact not_subsumes_insert (s := some .child) (Or.inr (Or.inr rfl)) hcs.wellFormed hfit
    other.fits_universal hother (hmild.subsumes hsub)

/-- A path with an explicit combinator before its last run is unified to something outside it. -/
theorem exists_unify_early {cs : List Component} (hcs : IsOrdinary cs)
    (hcontingent : IsContingent cs) (h : ¬ bindsFirst cs.dropLast.reverse) :
    ∃ ds, IsOrdinary ds ∧ ∃ path ∈ unifyPaths cs ds, ¬ Subsumes cs path := by
  obtain ⟨stem, c₀, hcs'⟩ := exists_snoc_of_isWellFormed hcs.wellFormed
  have hstem := (hcs' ▸ hcs).isStem.1
  obtain ⟨steps, rest, hsplit, hopen, htrail⟩ := exists_trailOf hstem.lead
  have hstem' : stem = rest.reverse ++ (trailOf steps).reverse := by
    rw [← List.reverse_append, ← hsplit, List.reverse_reverse]
  rw [hcs', List.dropLast_concat, hsplit, bindsFirst_trailOf] at h
  have hwrest : isWellFormed rest.reverse := by
    refine isWellFormed_of_isOpen htrail hopen ?_
    intro hnil
    rw [hnil] at h
    exact h rfl
  have hall : ¬ rest.reverse.all Component.isCompound := by
    rw [List.all_reverse]
    exact fun hall => h (bindsFirst_of_all hall)
  obtain ⟨front, c, k, d, rest', back, -, hruns⟩ := exists_run_of_not_all hwrest hall
  have heq : cs = (runs rest.reverse).flatten ++ (trailOf steps).reverse ++ [.compound c₀] := by
    rw [flatten_runs, ← hstem']
    exact hcs'
  exact exists_unify_of_run hruns (isRun_of_mem_runs hwrest) heq hcs hcontingent

/-! ### A sibling between neighbours -/

theorem exists_neighbours {steps : List (Combinator × Compound)} {rest : List Component}
    (hrest : rest.all Component.isCompound) (h : ¬ isLoose (trailOf steps ++ rest)) :
    ∃ inner k c p outer, steps = inner ++ (k, c) :: (.adjacent, p) :: outer ∧ k ≠ .child := by
  induction steps with
  | nil =>
    refine absurd ?_ h
    have hloose (cs : List Component) (hcs : cs.all Component.isCompound) : isLoose cs := by
      induction cs with
      | nil => rfl
      | cons c cs ih =>
        rw [List.all_cons, Bool.and_eq_true] at hcs
        cases c with
        | compound c => exact ih hcs.2
        | combinator k => exact absurd hcs.1 (by simp [Component.isCompound])
    exact hloose rest hrest
  | cons s steps ih =>
    obtain ⟨k, c⟩ := s
    by_cases hloose : isLoose (trailOf steps ++ rest)
    · have hnot : ¬ ((trailOf steps ++ rest).head? = some (.combinator .adjacent) → k = .child) :=
        fun himp => h (isLoose_pair.2 ⟨himp, hloose⟩)
      obtain ⟨hhead, hk⟩ := Classical.not_imp.1 hnot
      rcases steps with _ | ⟨⟨k', p⟩, outer⟩
      · have := List.all_eq_true.1 hrest _ (List.mem_of_mem_head? hhead)
        cases this
      · obtain rfl : k' = .adjacent := by simpa [trailOf_cons] using hhead
        exact ⟨[], k, c, p, outer, rfl, hk⟩
    · obtain ⟨inner, k', c', p, outer, rfl, hk⟩ := ih hloose
      exact ⟨(k, c) :: inner, k', c', p, outer, rfl, hk⟩

theorem exists_stepBoth_before {c z : Compound} {k : Combinator} (hk : k ≠ .child)
    (hcz : ¬ c.isSuperselectorOf z) (hzc : ¬ z.isSuperselectorOf c) (cs ds : List Component) :
    ∃ choice, stepBoth? c k cs z .general ds = some (choice, cs, ds) ∧
      pair z .general ++ pair c k ∈ choice := by
  cases k with
  | child => exact absurd rfl hk
  | general =>
    refine ⟨_, rfl, ?_⟩
    simp [twoSiblings, hcz, hzc]
  | adjacent =>
    refine ⟨_, rfl, ?_⟩
    simp [siblingAndNeighbour, hzc]

/-- A trail merged with one that ends in such a sibling after the same steps. -/
theorem exists_mergeTrailing_between {inner outer : List (Combinator × Compound)} {c z : Compound}
    {k : Combinator} {rest : List Component}
    (hinner : IsLive (trailOf inner)) (hopen : isOpen rest) (hk : k ≠ .child)
    (hcz : ¬ c.isSuperselectorOf z) (hzc : ¬ z.isSuperselectorOf c) :
    ∃ choices back, List.Forall₂ (· ∈ ·) back choices ∧
      Milder back.flatten ((trailOf outer).reverse ++ (pair z .general ++ pair c k) ++
        (trailOf inner).reverse) ∧
      ∀ n, mergeTrailing? (n + outer.length + 1 + inner.length)
        (trailOf (inner ++ (k, c) :: outer) ++ rest) (trailOf (inner ++ [(.general, z)])) =
          some (choices, rest, []) := by
  obtain ⟨choice, hstep, ho⟩ := exists_stepBoth_before hk hcz hzc (trailOf outer ++ rest) []
  obtain ⟨choices, back, hback, hflat, halone⟩ := mergeTrailing_alone outer hopen
  obtain ⟨choices', back', hback', hmild, hmirror⟩ := mergeTrailing_mirror hinner
    (trailOf ((k, c) :: outer) ++ rest) (trailOf [(.general, z)])
  refine ⟨choices ++ [choice] ++ choices', back ++ [_] ++ back',
    List.rel_append (List.rel_append hback (.cons ho .nil)) hback', ?_, fun n => ?_⟩
  · rw [List.flatten_append, List.flatten_append, hflat, List.flatten_singleton]
    exact (Milder.refl _).append hmild
  · rw [trailOf_append, trailOf_append, List.append_assoc, hmirror, trailOf_cons, List.cons_append,
      List.cons_append]
    have hone : mergeTrailing? (n + outer.length + 1)
        (.combinator k :: .compound c :: (trailOf outer ++ rest)) (trailOf [(.general, z)]) =
          some (choices ++ [choice], rest, []) := by
      rw [trailOf_cons, trailOf_nil, mergeTrailing?_both, hstep, Option.bind_some, mergeRest?,
        halone n]
      rfl
    rw [hone]
    rfl

theorem isOrdinary_trailOf {steps : List (Combinator × Compound)} {c : Compound}
    (h : ∀ c' ∈ c :: steps.map Prod.snd, c'.isPlain ∧ isRoot c' = false) :
    IsOrdinary ((trailOf steps).reverse ++ [.compound c]) := by
  have hmem (c' : Compound) (hc' : c' ∈ compoundsOf ((trailOf steps).reverse ++ [.compound c])) :
      c' ∈ c :: steps.map Prod.snd := by
    simpa [compoundsOf_trailOf, or_comm] using hc'
  refine ⟨isWellFormed_snoc_iff.2 ?_, List.all_eq_true.2 fun c' hc' => ?_,
    List.all_eq_true.2 fun c' hc' => ?_⟩
  · rw [isLead, List.reverse_reverse]
    exact isTrail_trailOf steps
  · exact (h c' (hmem c' hc')).1
  · simpa using (h c' (hmem c' hc')).2

theorem exists_layOut_alone (left : List (List Component)) :
    ∃ front, List.Forall₂ (· ∈ ·) front ((layOut [] left []).filter (!·.isEmpty)) ∧
      front.flatten = left.flatten := by
  cases left with
  | nil => exact ⟨[], .nil, rfl⟩
  | cons run left =>
    refine ⟨[(run :: left).flatten], .cons (List.mem_singleton.2 rfl) .nil, ?_⟩
    rw [List.flatten_singleton]

theorem exists_unifyPaths_between {inner outer : List (Combinator × Compound)}
    {rest stem : List Component} {c z c₀ : Compound} {k : Combinator}
    (hcs : IsStem stem) (hstem : stem.reverse = trailOf (inner ++ (k, c) :: outer) ++ rest)
    (hds : IsStem (trailOf (inner ++ [(.general, z)])).reverse) (hinner : IsLive (trailOf inner))
    (hopen : isOpen rest) (hk : k ≠ .child) (hcz : ¬ c.isSuperselectorOf z)
    (hzc : ¬ z.isSuperselectorOf c) (hc₀ : c₀.isPlain) (hfit : ∃ x : Subject, x.Fits c₀) :
    ∃ path ∈ unifyPaths (stem ++ [.compound c₀])
      ((trailOf (inner ++ [(.general, z)])).reverse ++ [.compound c₀]),
      Milder path (rest.reverse ++ ((trailOf outer).reverse ++ (pair z .general ++ pair c k) ++
        (trailOf inner).reverse) ++ [.compound c₀]) := by
  obtain ⟨choices, back, hback, hmild, hmerge⟩ := @exists_mergeTrailing_between inner outer c z k
    rest hinner hopen hk hcz hzc
  set stem' := (trailOf (inner ++ [(.general, z)])).reverse with hstem'
  have hm : mergeTrailing? (stem.length + stem'.length) stem.reverse stem'.reverse =
      some (choices, rest, []) := by
    have hlen : outer.length + 1 + inner.length ≤ stem.length + stem'.length := by
      have hstemlen := congrArg List.length hstem
      simp only [List.length_reverse, List.length_append, length_trailOf,
        List.length_cons] at hstemlen
      omega
    obtain ⟨n, hn⟩ := Nat.exists_eq_add_of_le' hlen
    rw [hn, hstem, hstem', List.reverse_reverse, ← hmerge n, Nat.add_assoc n, Nat.add_assoc n]
  have hlaid (unify : Combine) : ∃ front, List.Forall₂ (· ∈ ·) front
      ((layOut (commonRuns unify rest.reverse [].reverse) (runs rest.reverse)
        (runs [].reverse)).filter (!·.isEmpty)) ∧ front.flatten = rest.reverse := by
    have hcommon : commonRuns unify rest.reverse [].reverse = [] := by
      simp [commonRuns, runs, longestCommon_eq, longest]
    obtain ⟨front, hfront, hflat⟩ := exists_layOut_alone (runs rest.reverse)
    exact ⟨front, by rw [hcommon]; exact hfront, by rw [hflat, flatten_runs]⟩
  exact exists_mem_unifyPaths hcs hds (by simp [hstem', trailOf]) hc₀ hfit hm hlaid hback
    ((Milder.refl _).append hmild)

theorem exists_unify_between {cs : List Component} (hcs : IsOrdinary cs)
    (hcontingent : IsContingent cs) (hbinds : bindsFirst cs.dropLast.reverse)
    (h : ¬ isLoose cs.dropLast.reverse) :
    ∃ ds, IsOrdinary ds ∧ ∃ path ∈ unifyPaths cs ds, ¬ Subsumes cs path := by
  obtain ⟨stem, c₀, hcs'⟩ := exists_snoc_of_isWellFormed hcs.wellFormed
  have hstem := (hcs' ▸ hcs).isStem.1
  obtain ⟨steps, rest, hsplit, hopen, htrail⟩ := exists_trailOf hstem.lead
  rw [hcs', List.dropLast_concat, hsplit] at h hbinds
  rw [bindsFirst_trailOf] at hbinds
  obtain ⟨inner, k, c, p, outer, hsteps, hk⟩ := exists_neighbours (all_of_bindsFirst hbinds hopen) h
  have hstem' : stem = rest.reverse ++ (trailOf steps).reverse := by
    rw [← List.reverse_append, ← hsplit, List.reverse_reverse]
  let front := rest.reverse ++ (trailOf outer).reverse
  let ds := .combinator k :: ((trailOf inner).reverse ++ [.compound c₀])
  have hA : cs = front ++ .compound p :: .combinator .adjacent :: .compound c :: ds := by
    rw [hcs', hstem', hsteps, trailOf_append, trailOf_cons, trailOf_cons]
    simp [front, ds]
  obtain ⟨name, ⟨other, hz, hother⟩, hapart⟩ := hcontingent.exists_class
  have hplain := List.all_eq_true.1 hcs.plain
  have hmem {c' : Compound} (hc' : c' ∈ compoundsOf (.compound c :: ds)) : c' ∈ compoundsOf cs := by
    rw [hA, compoundsOf_append]
    exact List.mem_append_right _ (List.mem_cons_of_mem _ hc')
  have hinner : ∀ c' ∈ inner.map Prod.snd, c' ∈ compoundsOf cs := by
    intro c' hc'
    refine hmem ?_
    simp only [ds, compoundsOf_compound_cons, compoundsOf_combinator_cons, compoundsOf_append,
      compoundsOf_reverse, compoundsOf_trailOf, List.mem_cons, List.mem_append, List.mem_reverse]
    exact Or.inr (Or.inl hc')
  have hlive : IsLive (trailOf inner) := by
    have hlive := (hcs' ▸ hcs).isLive (hcs' ▸ hcontingent.fits)
    rw [hsplit, hsteps, trailOf_append, List.append_assoc] at hlive
    exact hlive.left (isTrail_trailOf inner)
  have hc : c ∈ compoundsOf cs := hmem (by simp)
  have hc₀ : c₀ ∈ compoundsOf cs := hmem (by simp [ds])
  have hcz : ¬ c.isSuperselectorOf (.ofClass name) := fun hsup =>
    hother c hc (Compound.isSuperselectorOf_sound (hplain c hc) rfl hsup hz)
  have hzc : ¬ (Compound.ofClass name).isSuperselectorOf c := by
    obtain ⟨x, hx, hxz⟩ := hapart c hc
    exact fun hsup => hxz (Compound.isSuperselectorOf_sound rfl (hplain c hc) hsup hx)
  have hB : IsOrdinary ((trailOf (inner ++ [(.general, .ofClass name)])).reverse ++
      [.compound c₀]) := by
    have hin {c' : Compound} (hc' : c' ∈ compoundsOf cs) : c'.isPlain ∧ isRoot c' = false :=
      ⟨hplain c' hc', by simpa using List.all_eq_true.1 hcs.rootless c' hc'⟩
    refine isOrdinary_trailOf (List.forall_mem_cons.2 ⟨hin hc₀, ?_⟩)
    rw [List.map_append, List.forall_mem_append]
    exact ⟨fun c' hc' => hin (hinner c' hc'), List.forall_mem_singleton.2 ⟨rfl, rfl⟩⟩
  rw [hsteps] at hsplit
  obtain ⟨path, hpath, hpathmild⟩ := exists_unifyPaths_between hstem hsplit hB.isStem.1 hlive hopen
    hk hcz hzc (hplain _ hc₀) (hcontingent.fits _ hc₀)
  refine ⟨_, hB, path, hcs' ▸ hpath, fun hsub => ?_⟩
  have hR : rest.reverse ++ ((trailOf ((.adjacent, p) :: outer)).reverse ++
      (pair (.ofClass name) .general ++ pair c k) ++ (trailOf inner).reverse) ++ [.compound c₀] =
      front ++ .compound p :: .combinator .adjacent :: .compound (.ofClass name) ::
        (link (some .general) ++ .compound c :: ds) := by
    simp [trailOf_cons, pair, link, front, ds]
  rw [hR] at hpathmild
  rw [hA] at hcs hcontingent hother hsub
  exact not_subsumes_insert (s := some .general) (Or.inl rfl) hcs.wellFormed hcontingent.fits hz
    hother (hpathmild.subsumes hsub)

/-- A path that is not weavable is unified to something outside it. -/
theorem exists_unify_not_subsumes {cs : List Component} (hcs : IsOrdinary cs)
    (hcontingent : IsContingent cs) (h : ¬ isWeavable cs.dropLast) :
    ∃ ds, IsOrdinary ds ∧ ∃ path ∈ unifyPaths cs ds, ¬ Subsumes cs path := by
  by_cases hbinds : bindsFirst cs.dropLast.reverse
  · refine exists_unify_between hcs hcontingent hbinds fun hloose => h ?_
    exact Bool.and_eq_true_iff.2 ⟨hbinds, hloose⟩
  · exact exists_unify_early hcs hcontingent hbinds

end Weave

open Weave

namespace Complex

/-- What unification of a plain complex selector is worth, leaving the root aside, depends on its
explicit combinators. If it is weavable, it contains whatever it is unified to, be it the first or the
second. If not, this fails for some other selector, provided that elements can fit its compounds and
need not fit any. -/
theorem unify_subsumes {c : Complex} (hc : IsOrdinary c.components) :
    (isWeavable c.components.dropLast → ∀ d : Complex, IsOrdinary d.components →
      (∀ r ∈ c.unify d, Subsumes c.components r.components) ∧
        ∀ r ∈ d.unify c, Subsumes c.components r.components) ∧
    (¬ isWeavable c.components.dropLast → IsContingent c.components →
      ∃ d : Complex, IsOrdinary d.components ∧
        ∃ r ∈ c.unify d, ¬ Subsumes c.components r.components) := by
  constructor
  · intro hw d hd
    constructor
    · intro r hr
      obtain ⟨path, hpath, rfl⟩ := List.mem_map.1 hr
      exact (unifyPaths_sound hc hd hpath).1 hw
    · intro r hr
      obtain ⟨path, hpath, rfl⟩ := List.mem_map.1 hr
      exact (unifyPaths_sound hd hc hpath).2 hw
  · intro hw hcontingent
    obtain ⟨ds, hds, path, hpath, hnot⟩ := exists_unify_not_subsumes hc hcontingent hw
    exact ⟨.ofComponents ds, hds, .ofComponents path, List.mem_map_of_mem hpath, hnot⟩

/-- `.p > .a ~ .x` contains `.p > .b ~ .a ~ .x`, one of the selectors that it and `.b ~ .x` are
unified to. -/
theorem unify_subsumes_siblings :
    let a := Component.compound (.ofClass "a")
    let b := Component.compound (.ofClass "b")
    let p := Component.compound (.ofClass "p")
    let x := Component.compound (.ofClass "x")
    Subsumes [p, .combinator .child, a, .combinator .general, x]
      [p, .combinator .child, b, .combinator .general, a, .combinator .general, x] :=
  ((unify_subsumes (c := .ofComponents _) ⟨rfl, rfl, rfl⟩).1 rfl
    (.ofComponents [.compound (.ofClass "b"), .combinator .general, .compound (.ofClass "x")])
    ⟨rfl, rfl, rfl⟩).1 (.ofComponents _) (.tail _ (.head _))

/-- `.p + .a ~ .x` and `.b ~ .x` are unified to `.p + .b ~ .a ~ .x` among others, which the first one
does not contain. -/
theorem unify_not_subsumes :
    let a := Component.compound (.ofClass "a")
    let b := Component.compound (.ofClass "b")
    let p := Component.compound (.ofClass "p")
    let x := Component.compound (.ofClass "x")
    let c := [p, .combinator .adjacent, a, .combinator .general, x]
    let r := [p, .combinator .adjacent, b, .combinator .general, a, .combinator .general, x]
    ofComponents r ∈ (ofComponents c).unify (ofComponents [b, .combinator .general, x]) ∧
      ¬ Subsumes c r := by
  refine ⟨.tail _ (.head _), ?_⟩
  obtain ⟨hfit, hother⟩ := @Subject.ofClasses_apart ["p", "a", "x"] "b" (by decide)
  exact @not_subsumes_insert [] _ _ _ (.ofClass "b") .adjacent (some .general) (.ofClasses ["b"])
    (Or.inl rfl) rfl hfit (by simp) hother

/-- The root cannot be left in. `:root * .x` is weavable, but it and `.b + .x` are unified to
`:root .b + .x`, which it does not contain even if no other element passes for the root. -/
theorem unify_root_not_subsumes :
    let root := Compound.ofSimples [{ kind := .pseudo, name := "root" }]
    let b := Component.compound (.ofClass "b")
    let x := Component.compound (.ofClass "x")
    let c := [.compound root, .compound .universal, x]
    let r := [.compound root, b, .combinator .adjacent, x]
    isWeavable c.dropLast ∧
      ofComponents r ∈ (ofComponents c).unify (ofComponents [b, .combinator .adjacent, x]) ∧
      ∃ t : ElementTree, (∀ a, (t.subject a).Fits root → a = []) ∧
        ∃ e, t.Matches r e ∧ ¬ t.Matches c e := by
  intro root b x c r
  let t : ElementTree :=
    { present := fun _ => True
      subject := fun a =>
        { typeName := ""
          ns := ""
          id := none
          passes := fun s => s.kind = .pseudo → a = []
          passes_congr := fun h => by rw [Simple.kind_congr h] }
      present_parent := fun _ => trivial
      present_previous := fun _ => trivial }
  have hclass (name : String) (a : Address) : (t.subject a).Fits (.ofClass name) := by
    intro s hs
    rw [List.mem_singleton.1 hs]
    exact fun h => by cases h
  have hpaths : unifyPaths c [b, .combinator .adjacent, x] = [r] := by
    obtain ⟨unify, -, hinterleave⟩ := exists_interleave_eq [.compound root, .compound .universal]
      [b, .combinator .adjacent]
    have hm : mergeTrailing? 4 [.compound .universal, .compound root] [.combinator .adjacent, b] =
        some ([[[b, .combinator .adjacent]]], [.compound .universal, .compound root], []) := rfl
    have hroot : shareRoot? [.compound root, .compound .universal] [] =
        some ([.compound .universal], [.compound root]) := rfl
    have hcommon : commonRuns unify [.compound .universal] [.compound root] =
        [[.compound root]] := rfl
    have heq := @interleaveWith_eq unify [.compound root, .compound .universal]
      [b, .combinator .adjacent] rfl rfl
    simp only [List.length_cons, List.length_nil, List.reverse_cons, List.reverse_nil,
      List.nil_append, List.cons_append, Nat.zero_add, Nat.reduceAdd, hm, hroot, choicesAfter,
      hcommon] at heq
    have hbase : (Compound.ofClass "x").unify? (.ofClass "x") = some (.ofClass "x") := rfl
    have hsnoc := unifyWith_snoc interleave [.compound root, .compound .universal]
      [b, .combinator .adjacent] (.ofClass "x") (.ofClass "x")
    rw [hbase, hinterleave, heq] at hsnoc
    exact hsnoc
  have hunify : ofComponents r ∈
      (ofComponents c).unify (ofComponents [b, .combinator .adjacent, x]) :=
    List.mem_map_of_mem (hpaths ▸ List.mem_singleton.2 rfl)
  refine ⟨rfl, hunify, t, ?_, [1], ?_, ?_⟩
  · exact fun a ha => ha _ (List.mem_singleton.2 rfl) rfl
  · have hroot : (t.subject []).Fits root := fun s hs => by
      rw [List.mem_singleton.1 hs]
      exact fun _ => rfl
    have hb : t.Matches ([.compound root] ++ [b]) [0] :=
      .inside (.single hroot) (Or.inl rfl) (hclass _ _)
    exact Matches.beside hb ⟨0, [], rfl, rfl⟩ (hclass _ _)
  · intro h
    have hreach : t.reach ([.compound root] ++ [.compound .universal]) anywhere [1] :=
      (matches_snoc_iff.1 h).2
    rw [reach_snoc] at hreach
    obtain ⟨y, rfl | hy, -, z, hz, -⟩ := hreach
    · exact hz
    · exact hy

end Complex

end SelectorCalculus
