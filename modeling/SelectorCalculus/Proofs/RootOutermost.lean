import SelectorCalculus.Proofs.DescendantPaths
import SelectorCalculus.Proofs.UnifiedBelow
/-! Where the root stands in paths woven from two paths without explicit combinators. -/

namespace SelectorCalculus

namespace Weave

open Superselector

theorem isRootless_iff {cs : List Component} :
    isRootless cs ↔ ∀ c ∈ compoundsOf cs, ¬ isRoot c := by
  simp [isRootless]

theorem isRootless_append {cs ds : List Component} :
    isRootless (cs ++ ds) ↔ isRootless cs ∧ isRootless ds := by
  simp [isRootless]

theorem isRootless_flatten {pieces : List (List Component)} :
    isRootless pieces.flatten ↔ ∀ p ∈ pieces, isRootless p := by
  induction pieces with
  | nil => simp [isRootless]
  | cons p pieces ih => rw [List.flatten_cons, isRootless_append, ih, List.forall_mem_cons]

theorem isRootless_of_subset {cs ds : List Component} (h : cs ⊆ ds) (hds : isRootless ds) :
    isRootless cs :=
  List.all_eq_true.2 fun c hc => List.all_eq_true.1 hds c (List.filterMap_subset _ h hc)

theorem isRootless_tail_append {cs ds : List Component} : isRootless (cs ++ ds).tail ↔
    (cs = [] → isRootless ds.tail) ∧ (cs ≠ [] → isRootless cs.tail ∧ isRootless ds) := by
  cases cs with
  | nil => simp
  | cons c cs => simp [isRootless_append]

/-! ### Paths picked from choices -/

/-- A path with one option from each choice that has one. -/
def Pickable (choices : List Choice) (path : List Component) : Prop :=
  ∃ picked, List.Forall₂ (· ∈ ·) picked (choices.filter (!·.isEmpty)) ∧ path = picked.flatten

namespace Pickable

variable {choices : List Choice} {path : List Component}

theorem nil_iff : Pickable [] path ↔ path = [] := by
  constructor
  · rintro ⟨picked, hpicked, rfl⟩
    cases hpicked
    rfl
  · rintro rfl
    exact ⟨[], .nil, rfl⟩

theorem single_iff {run : List Component} :
    Pickable ([run] :: choices) path ↔ ∃ rest, Pickable choices rest ∧ path = run ++ rest := by
  have hfilter :
      ([run] :: choices).filter (!·.isEmpty) = [run] :: choices.filter (!·.isEmpty) := rfl
  constructor
  · rintro ⟨picked, hpicked, rfl⟩
    rw [hfilter] at hpicked
    obtain ⟨o, rest, ho, hrest, rfl⟩ := List.forall₂_cons_right_iff.1 hpicked
    rw [List.mem_singleton.1 ho]
    exact ⟨rest.flatten, ⟨rest, hrest, rfl⟩, rfl⟩
  · rintro ⟨_, ⟨picked, hpicked, rfl⟩, rfl⟩
    refine ⟨run :: picked, ?_, rfl⟩
    rw [hfilter]
    exact .cons (List.mem_singleton.2 rfl) hpicked

theorem interleavings_iff {left right : List (List Component)} :
    Pickable ((interleavings left right).map List.flatten :: choices) path ↔
      ∃ o rest, Interleaves left.flatten right.flatten o ∧ Pickable choices rest ∧
        path = o ++ rest := by
  constructor
  · rintro ⟨picked, hpicked, rfl⟩
    obtain ⟨o, rest, hpath, ho, hrest⟩ := interleaves_of_pick hpicked
    exact ⟨o, rest.flatten, ho, ⟨rest, hrest, rfl⟩, hpath⟩
  · rintro ⟨o, _, ho, ⟨picked, hpicked, rfl⟩, rfl⟩
    by_cases hnil : left = [] ∧ right = []
    · obtain ⟨rfl, rfl⟩ := hnil
      refine ⟨picked, hpicked, ?_⟩
      rcases ho with rfl | rfl <;> rfl
    · have hmem : o ∈ (interleavings left right).map List.flatten := by
        cases left <;> cases right <;> simp_all [interleavings, Interleaves]
      refine ⟨o :: picked, ?_, rfl⟩
      rw [List.filter_cons_of_pos (by simpa using List.ne_nil_of_mem hmem)]
      exact .cons hmem hpicked

theorem exists_path (choices : List Choice) : ∃ path, Pickable choices path := by
  have hne : ∀ choice ∈ choices.filter (!·.isEmpty), choice ≠ [] := by
    intro choice hchoice
    simpa using (List.mem_filter.1 hchoice).2
  obtain ⟨picked, hpicked⟩ := exists_pick hne
  exact ⟨picked.flatten, picked, hpicked, rfl⟩

end Pickable

/-! ### The first component of a laid out path -/

/-- What two lists of runs hold before the first run that is common to them, and that run. -/
structure Opening where
  left : List Component
  right : List Component
  run : List Component

def opening (common left right : List (List Component)) : Opening :=
  match common with
  | [] => ⟨left.flatten, right.flatten, []⟩
  | run :: _ =>
    ⟨(left.takeWhile (!isParentSuperpath · run)).flatten,
      (right.takeWhile (!isParentSuperpath · run)).flatten, run⟩

/-- Whether a part of an opening that names the root can only come first. -/
def Opening.isRootFirst (o : Opening) : Bool :=
  (o.left.isEmpty || isRootless o.right) && (o.right.isEmpty || isRootless o.left) &&
    ((o.left.isEmpty && o.right.isEmpty) || isRootless o.run)

/-- Runs of one component each, of which only the first may name the root. -/
structure RootLeads (pieces : List (List Component)) : Prop where
  single : ∀ p ∈ pieces, p.length = 1
  tail : ∀ p ∈ pieces.tail, isRootless p

namespace RootLeads

variable {pieces pieces' : List (List Component)}

theorem of_sublist (h : RootLeads pieces) (hsub : pieces'.Sublist pieces) : RootLeads pieces' where
  single p hp := h.single p (hsub.subset hp)
  tail p hp := h.tail p (hsub.tail.subset hp)

theorem isRootless_tail (h : RootLeads pieces) : isRootless pieces.flatten.tail := by
  cases pieces with
  | nil => rfl
  | cons p pieces =>
    obtain ⟨c, rfl⟩ := List.length_eq_one_iff.1 (h.single p (List.mem_cons_self ..))
    exact isRootless_flatten.2 h.tail

end RootLeads

theorem forall_interleaves_iff {cs ds : List Component} (hcs : isRootless cs.tail)
    (hds : isRootless ds.tail) : (∀ o, Interleaves cs ds o → isRootless o.tail) ↔
      (cs = [] ∨ isRootless ds) ∧ (ds = [] ∨ isRootless cs) := by
  have hsides {cs ds : List Component} (hcs : isRootless cs.tail) (hds : isRootless ds.tail) :
      isRootless (cs ++ ds).tail ↔ cs = [] ∨ isRootless ds := by
    rw [isRootless_tail_append, or_iff_not_imp_left]
    exact ⟨fun h hne => (h.2 hne).2, fun h => ⟨fun _ => hds, fun hne => ⟨hcs, h hne⟩⟩⟩
  rw [← hsides hcs hds, ← hsides hds hcs]
  constructor
  · intro h
    exact ⟨h _ (Or.inl rfl), h _ (Or.inr rfl)⟩
  · rintro ⟨h, h'⟩ o (rfl | rfl)
    · exact h
    · exact h'

theorem Interleaves.eq_nil_iff {cs ds o : List Component} (h : Interleaves cs ds o) :
    o = [] ↔ cs = [] ∧ ds = [] := by
  rcases h with rfl | rfl
  · rw [List.append_eq_nil_iff]
  · rw [List.append_eq_nil_iff, and_comm]

theorem isRootless_of_pickable {common left right : List (List Component)}
    (hcommon : ∀ p ∈ common, isRootless p) (hleft : ∀ p ∈ left, isRootless p)
    (hright : ∀ p ∈ right, isRootless p) {path : List Component}
    (h : Pickable (layOut common left right) path) : isRootless path := by
  obtain ⟨picked, hpicked, rfl⟩ := h
  exact (laidOut_of_pick hpicked).closed (P := fun cs => isRootless cs) rfl
    (fun _ _ hcs hds => isRootless_append.2 ⟨hcs, hds⟩) hcommon hleft hright

/-- What comes first before a common run, if no root stands behind that run. -/
theorem forall_pickable_run_iff {choices : List Choice} {cs ds run : List Component}
    (hrun : run.length = 1) (hcs : isRootless cs.tail) (hds : isRootless ds.tail)
    (hrest : ∀ rest, Pickable choices rest → isRootless rest) :
    (∀ o rest, Interleaves cs ds o → Pickable choices rest → isRootless (o ++ (run ++ rest)).tail) ↔
      (Opening.mk cs ds run).isRootFirst := by
  obtain ⟨c, rfl⟩ := List.length_eq_one_iff.1 hrun
  have htail {o rest : List Component} (h : isRootless rest) :
      isRootless (o ++ ([c] ++ rest)).tail ↔ (o ≠ [] → isRootless o.tail ∧ isRootless [c]) := by
    rw [isRootless_tail_append, isRootless_append]
    simp [h]
  have hfirst : (Opening.mk cs ds [c]).isRootFirst ↔
      (¬ (cs = [] ∧ ds = []) → ((cs = [] ∨ isRootless ds) ∧ (ds = [] ∨ isRootless cs)) ∧
        isRootless [c]) := by
    simp only [Opening.isRootFirst, Bool.and_eq_true, Bool.or_eq_true, List.isEmpty_iff]
    rw [← or_iff_not_imp_left]
    constructor
    · rintro ⟨hsides, hnil | hc⟩
      · exact Or.inl hnil
      · exact Or.inr ⟨hsides, hc⟩
    · rintro (⟨rfl, rfl⟩ | ⟨hsides, hc⟩)
      · exact ⟨⟨Or.inl rfl, Or.inl rfl⟩, Or.inl ⟨rfl, rfl⟩⟩
      · exact ⟨hsides, Or.inr hc⟩
  rw [hfirst, ← forall_interleaves_iff hcs hds]
  constructor
  · intro h hne
    obtain ⟨rest, hrest'⟩ := Pickable.exists_path choices
    have ho (o : List Component) (ho : Interleaves cs ds o) : isRootless o.tail ∧ isRootless [c] :=
      (htail (hrest rest hrest')).1 (h o rest ho hrest') fun hnil => hne (ho.eq_nil_iff.1 hnil)
    exact ⟨fun o hmem => (ho o hmem).1, (ho _ (Or.inl rfl)).2⟩
  · intro h o rest ho hrest'
    refine (htail (hrest rest hrest')).2 fun hne => ?_
    obtain ⟨hsides, hc⟩ := h fun hnil => hne (ho.eq_nil_iff.2 hnil)
    exact ⟨hsides o ho, hc⟩

/-- The paths laid out from two lists of runs name the root at most at their start exactly if this
can be seen from their opening. -/
theorem layOut_isRootFirst_iff {common left right : List (List Component)}
    (hcommon : RootLeads common) (hleft : RootLeads left) (hright : RootLeads right) :
    (∀ path, Pickable (layOut common left right) path → isRootless path.tail) ↔
      (opening common left right).isRootFirst := by
  cases common with
  | nil =>
    have hpaths : (∀ path, Pickable (layOut [] left right) path → isRootless path.tail) ↔
        ∀ o, Interleaves left.flatten right.flatten o → isRootless o.tail := by
      refine forall_congr' fun path => imp_congr_left ?_
      rw [layOut, Pickable.interleavings_iff]
      simp [Pickable.nil_iff]
    rw [hpaths, forall_interleaves_iff hleft.isRootless_tail hright.isRootless_tail]
    simp [opening, Opening.isRootFirst, isRootless]
  | cons run common =>
    have hafter {pieces : List (List Component)} (h : RootLeads pieces) :
        ∀ p ∈ (pieces.dropWhile (!isParentSuperpath · run)).drop 1, isRootless p := by
      rw [List.drop_one]
      exact (h.of_sublist (List.dropWhile_sublist _)).tail
    have hbefore {pieces : List (List Component)} (h : RootLeads pieces) :
        isRootless (pieces.takeWhile (!isParentSuperpath · run)).flatten.tail :=
      (h.of_sublist (List.takeWhile_sublist _)).isRootless_tail
    rw [opening, ← forall_pickable_run_iff (hcommon.single run (List.mem_cons_self ..))
      (hbefore hleft) (hbefore hright) fun rest =>
        isRootless_of_pickable hcommon.tail (hafter hleft) (hafter hright)]
    simp only [layOut, List.span_eq_takeWhile_dropWhile, Pickable.interleavings_iff,
      Pickable.single_iff]
    constructor
    · intro h o rest ho hrest
      exact h _ ⟨o, _, ho, ⟨rest, hrest, rfl⟩, rfl⟩
    · rintro h _ ⟨o, _, ho, ⟨rest, hrest, rfl⟩, rfl⟩
      exact h o rest ho hrest

/-! ### Paths of compounds -/

theorem isTrail_of_compounds {cs : List Component} (h : cs.all Component.isCompound) :
    isTrail cs := by
  fun_induction isTrail cs with
  | case1 => rfl
  | case2 c rest ih => exact ih (Bool.and_eq_true_iff.1 h).2
  | case3 k c rest ih => cases h
  | case4 => cases h

theorem isOpen_of_compounds {cs : List Component} (h : cs.all Component.isCompound) :
    isOpen cs := by
  cases cs with
  | nil => rfl
  | cons c cs =>
    have hc := (Bool.and_eq_true_iff.1 h).1
    simp [isOpen, Component.isCombinator, hc]

theorem unifyWith_single (interleave : Combine) (x y : Compound) :
    unifyWith interleave [.compound x] [.compound y] =
      match x.unify? y with
      | some u => [[.compound u]]
      | none => [] := by
  have hsnoc := unifyWith_snoc interleave [] [] x y
  cases hu : x.unify? y with
  | none => simpa [hu] using hsnoc
  | some u => simpa [hu] using hsnoc

theorem exists_of_mem_runs {cs run : List Component} (h : cs.all Component.isCompound)
    (hrun : run ∈ runs cs) : ∃ c, run = [.compound c] ∧ .compound c ∈ cs := by
  rw [runs_of_compounds h] at hrun
  obtain ⟨c, hc, rfl⟩ := List.mem_map.1 hrun
  cases c with
  | compound c => exact ⟨c, rfl, hc⟩
  | combinator k => exact absurd (List.all_eq_true.1 h _ hc) (by simp [Component.isCompound])

theorem commonRuns_congr {unify unify' : Combine} {cs ds : List Component}
    (hcs : cs.all Component.isCompound) (hds : ds.all Component.isCompound)
    (h : ∀ x y, unify [.compound x] [.compound y] = unify' [.compound x] [.compound y]) :
    commonRuns unify cs ds = commonRuns unify' cs ds := by
  refine longestCommon_congr fun x hx y hy => ?_
  obtain ⟨c, rfl, -⟩ := exists_of_mem_runs hds hx
  obtain ⟨d, rfl, -⟩ := exists_of_mem_runs hcs hy
  rw [commonRun?, commonRun?, h]

/-- A path without explicit combinators that names the root at most at its start. -/
structure IsRootedDescent (cs : List Component) : Prop where
  compounds : cs.all Component.isCompound
  tail : isRootless cs.tail

namespace IsRootedDescent

variable {cs ds left right : List Component}

theorem root?_cases (h : IsRootedDescent cs) :
    (∃ c rest, root? cs = some (c, rest) ∧ cs = .compound c :: rest) ∨
      (root? cs = none ∧ isRootless cs) := by
  rcases cs with _ | ⟨c | k, rest⟩
  · exact Or.inr ⟨rfl, rfl⟩
  · by_cases hc : isRoot c
    · exact Or.inl ⟨c, rest, by simp [root?, hc], rfl⟩
    · right
      have htail := h.tail
      simp only [isRootless, List.tail_cons] at htail
      exact ⟨by simp [root?, hc], by simp [isRootless, hc, htail]⟩
  · exact absurd h.compounds (by simp [Component.isCompound])

theorem cons (h : isRootless cs) (hcs : cs.all Component.isCompound) (c : Compound) :
    IsRootedDescent (.compound c :: cs) :=
  ⟨by simpa [Component.isCompound] using hcs, h⟩

theorem of_tail {c : Component} (h : IsRootedDescent (c :: cs)) :
    isRootless cs ∧ cs.all Component.isCompound :=
  ⟨h.tail, (Bool.and_eq_true_iff.1 h.compounds).2⟩

theorem of_isRootless (h : isRootless cs) (hcs : cs.all Component.isCompound) :
    IsRootedDescent cs :=
  ⟨hcs, isRootless_of_subset (List.tail_subset cs) h⟩

theorem shareRoot (hcs : IsRootedDescent cs) (hds : IsRootedDescent ds)
    (h : shareRoot? cs ds = some (left, right)) : IsRootedDescent left ∧ IsRootedDescent right := by
  rcases hcs.root?_cases with ⟨c, cs', hc, rfl⟩ | ⟨hc, hroot⟩ <;>
    rcases hds.root?_cases with ⟨d, ds', hd, rfl⟩ | ⟨hd, hroot'⟩ <;>
    simp only [shareRoot?, hc, hd] at h
  · obtain ⟨root, -, heq⟩ := Option.map_eq_some_iff.1 h
    cases heq
    exact ⟨cons hcs.of_tail.1 hcs.of_tail.2 root, cons hds.of_tail.1 hds.of_tail.2 root⟩
  · cases h
    exact ⟨of_isRootless hcs.of_tail.1 hcs.of_tail.2, cons hroot' hds.compounds c⟩
  · cases h
    exact ⟨cons hroot hcs.compounds d, of_isRootless hds.of_tail.1 hds.of_tail.2⟩
  · cases h
    exact ⟨hcs, hds⟩

/-- Paths of compounds are interleaved once they agree on a root. Their runs are single compounds,
so it does not matter to which depth runs may be unified. -/
theorem mem_interleave_iff {path : List Component} (hcs : IsRootedDescent cs)
    (hds : IsRootedDescent ds) (hne : ds ≠ []) :
    path ∈ interleave cs ds ↔ ∃ left right, shareRoot? cs ds = some (left, right) ∧
      Pickable (layOut (commonRuns unifyPaths left right) (runs left) (runs right)) path := by
  have hcompounds : cs.reverse.all Component.isCompound := by simpa using hcs.compounds
  have hcompounds' : ds.reverse.all Component.isCompound := by simpa using hds.compounds
  have hlead : isLead cs := isTrail_of_compounds hcompounds
  have hlead' : isLead ds := isTrail_of_compounds hcompounds'
  have hopen := isOpen_of_compounds hcompounds
  have hopen' := isOpen_of_compounds hcompounds'
  obtain ⟨n, hn⟩ : ∃ n, cs.length + ds.length = n + 1 := by
    have hpos := List.length_pos_iff.2 hne
    exact ⟨cs.length + ds.length - 1, by omega⟩
  rw [interleave, hn, interleaveTo, interleaveWith_eq _ hlead
    hlead', mergeTrailing?_open hopen hopen']
  simp only [List.reverse_reverse]
  cases hroot : shareRoot? cs ds with
  | none => simp
  | some sides =>
    obtain ⟨left, right⟩ := sides
    obtain ⟨hleft, hright⟩ := hcs.shareRoot hds hroot
    have hcommon : commonRuns (unifyWith (interleaveTo n)) left right =
        commonRuns unifyPaths left right := by
      refine commonRuns_congr hleft.compounds hright.compounds fun x y => ?_
      rw [unifyPaths, unifyWith_single, unifyWith_single]
    have hchoices : path ∈ (picks ((choicesAfter (unifyWith (interleaveTo n)) [] left right).filter
        (!·.isEmpty))).map List.flatten ↔ Pickable
          ([[]] :: layOut (commonRuns unifyPaths left right) (runs left) (runs right)) path := by
      simp only [choicesAfter, hcommon, List.append_nil, List.mem_map, mem_picks, Pickable, eq_comm]
    simp [hchoices, Pickable.single_iff]

theorem rootLeads_runs (h : IsRootedDescent cs) : RootLeads (runs cs) := by
  rw [runs_of_compounds h.compounds]
  constructor
  · intro p hp
    obtain ⟨c, -, rfl⟩ := List.mem_map.1 hp
    rfl
  · intro p hp
    rw [← List.map_tail] at hp
    obtain ⟨c, hc, rfl⟩ := List.mem_map.1 hp
    exact isRootless_of_subset (by simpa using hc) h.tail

theorem pathBy_of_mem_runs (h : IsRootedDescent cs) {run : List Component} (hrun : run ∈ runs cs)
    (hroot : isRootless run) : PathBy (fun c => ¬ isRoot c) run := by
  obtain ⟨c, rfl, -⟩ := exists_of_mem_runs h.compounds hrun
  exact ⟨rfl, isRootless_iff.1 hroot⟩

theorem rootLeads_commonRuns (hcs : IsRootedDescent cs) (hds : IsRootedDescent ds) :
    RootLeads (commonRuns unifyPaths cs ds) := by
  have hright := hcs.rootLeads_runs
  have hleft := hds.rootLeads_runs
  constructor
  · intro run hrun
    obtain ⟨x, hx, y, hy, rfl | rfl | hmem⟩ := exists_of_mem_commonRuns hrun
    · exact hleft.single run hx
    · exact hright.single run hy
    · obtain ⟨c, rfl, -⟩ := exists_of_mem_runs hds.compounds hx
      obtain ⟨d, rfl, -⟩ := exists_of_mem_runs hcs.compounds hy
      rw [unifyPaths, unifyWith_single] at hmem
      cases hu : c.unify? d with
      | none => simp [hu] at hmem
      | some u =>
        rw [hu] at hmem
        rw [List.mem_singleton.1 hmem]
        rfl
  · intro run hrun
    obtain ⟨x, hx, y, hy, hv⟩ := (common_longestCommon _ _).exists_of_mem_tail hrun
    rcases commonRun?_cases hv with ⟨rfl, -⟩ | ⟨rfl, -⟩ | hmem
    · exact hleft.tail _ hx
    · exact hright.tail _ hy
    · have hx := hds.pathBy_of_mem_runs (List.mem_of_mem_tail hx) (hleft.tail x hx)
      have hy := hcs.pathBy_of_mem_runs (List.mem_of_mem_tail hy) (hright.tail y hy)
      have hkeeps := keeps_unifyPaths keptByUnify_not_isRoot fun _ h => h
      exact isRootless_iff.2 (hkeeps x y hx hy run hmem).all

end IsRootedDescent

/-- Whether the root stays at the start when two paths of compounds are interleaved. -/
def keepsRootFirst (cs ds : List Component) : Bool :=
  match shareRoot? cs ds with
  | none => true
  | some (left, right) =>
    (opening (commonRuns unifyPaths left right) (runs left) (runs right)).isRootFirst

theorem interleave_isRootFirst_iff {cs ds : List Component} (hcs : IsRootedDescent cs)
    (hds : IsRootedDescent ds) (hne : ds ≠ []) :
    (∀ path ∈ interleave cs ds, isRootless path.tail) ↔ keepsRootFirst cs ds := by
  simp only [hcs.mem_interleave_iff hds hne]
  unfold keepsRootFirst
  cases hroot : shareRoot? cs ds with
  | none => simp
  | some sides =>
    obtain ⟨left, right⟩ := sides
    obtain ⟨hleft, hright⟩ := hcs.shareRoot hds hroot
    have hlaid := layOut_isRootFirst_iff (hleft.rootLeads_commonRuns hright) hleft.rootLeads_runs
      hright.rootLeads_runs
    simpa using hlaid

/-! ### No root, or roots on both sides, or one alone on a side -/

theorem keepsRootFirst_of_isRootless {cs ds : List Component} (hcs : IsRootedDescent cs)
    (hds : IsRootedDescent ds) (hroot : isRootless cs) (hroot' : isRootless ds) :
    keepsRootFirst cs ds := by
  have hruns {cs : List Component} (hroot : isRootless cs) : ∀ run ∈ runs cs, isRootless run := by
    rw [← isRootless_flatten, flatten_runs]
    exact hroot
  have hcommon := pathBy_of_mem_commonRuns (keeps_unifyPaths keptByUnify_not_isRoot fun _ h => h)
    (fun run hrun => hcs.pathBy_of_mem_runs hrun (hruns hroot run hrun))
    (fun run hrun => hds.pathBy_of_mem_runs hrun (hruns hroot' run hrun))
  unfold keepsRootFirst
  rw [shareRoot?_of_isRootless hroot hroot']
  refine (layOut_isRootFirst_iff (hcs.rootLeads_commonRuns hds) hcs.rootLeads_runs
    hds.rootLeads_runs).1 fun path hpath => ?_
  refine isRootless_of_subset (List.tail_subset path) (isRootless_of_pickable ?_ (hruns hroot)
    (hruns hroot') hpath)
  exact fun run hrun => isRootless_iff.2 (hcommon run hrun).all

theorem isParentSuperpath_single (c d : Compound) :
    isParentSuperpath [.compound c] [.compound d] =
      compoundTest (deeper (nesting.ofCompound c + nesting.ofCompound d)) c d [] := by
  set base : Compound := .ofSimples [{ kind := .placeholder, name := "<temp>" }] with hbase
  have hnesting (x : Compound) :
      nestingOfPath [.compound x, .compound base] = nesting.ofCompound x :=
    Nat.max_eq_left (Nat.zero_le _)
  have hrefl (test : PathTest) (parents : List Component) : compoundTest test base base parents :=
    compoundTest_refl rfl
  cases htest : compoundTest (deeper (nesting.ofCompound c + nesting.ofCompound d)) c d [] <;>
    simp [isParentSuperpath, isSuperpath, ← hbase, hnesting, pathTest_eq, layer, walk, mayHold,
      restAfter?, startsWithCompound, endsWithCombinator, Component.isCompound,
      Component.isCombinator, Component.compound?, htest, hrefl]

/-- A regular compound without pseudo element. -/
def IsRegularHost (c : Compound) : Prop := regular.ofCompound c ∧ ¬ c.hasElement

theorem isParentSuperpath_of_equal {c d : Compound} (hc : regular.ofCompound c)
    (hd : regular.ofCompound d) (h : c.equal d) :
    isParentSuperpath [.compound c] [.compound d] := by
  rw [isParentSuperpath_single]
  exact compoundTest_of_equal (acceptsEqualBelow _) hc hd h (by omega) (by omega)

theorem isParentSuperpath_of_commonRun? {x y : Compound} (hx : IsRegularHost x)
    (hy : IsRegularHost y) {run : List Component}
    (h : commonRun? unifyPaths [.compound x] [.compound y] = some run) :
    isParentSuperpath [.compound x] run ∧ isParentSuperpath [.compound y] run := by
  have hself {c : Compound} (hc : IsRegularHost c) :
      isParentSuperpath [.compound c] [.compound c] :=
    isParentSuperpath_of_equal hc.1 hc.1 (Component.equal_refl (.compound c))
  rcases commonRun?_cases h with ⟨rfl, hequal | habove⟩ | ⟨rfl, habove⟩ | hmem
  · have hxy : (Component.compound x).equal (.compound y) := by
      cases equalPaths_iff.1 hequal with
      | cons h _ => exact h
    have hyx : y.equal x :=
      (Component.equal_congr _ _ hxy (.compound x)).1 (Component.equal_refl (.compound x))
    exact ⟨hself hx, isParentSuperpath_of_equal hy.1 hx.1 hyx⟩
  · exact ⟨hself hx, habove⟩
  · exact ⟨habove, hself hy⟩
  · rw [unifyPaths, unifyWith_single] at hmem
    cases hu : x.unify? y with
    | none => simp [hu] at hmem
    | some u =>
      rw [hu] at hmem
      obtain rfl := List.mem_singleton.1 hmem
      have hsame : x.hasElement = y.hasElement := by
        rw [Bool.eq_false_iff.2 hx.2, Bool.eq_false_iff.2 hy.2]
      have hlone : ¬ (x.isLoneElement ∧ y.isOpenElement) := by
        simp [Compound.isLoneElement, Bool.eq_false_iff.2 hx.2]
      rw [isParentSuperpath_single, isParentSuperpath_single]
      constructor
      · exact (compoundTest_unify hx.1 hy.1 hsame hu (by omega) []).1 (by omega)
      · exact ((compoundTest_unify hx.1 hy.1 hsame hu (by omega) []).2 (by omega)).2 hlone

theorem isRegularHost_unify {c d u : Compound} (hc : IsRegularHost c) (hd : IsRegularHost d)
    (h : c.unify? d = some u) : IsRegularHost u := by
  have hsame : c.hasElement = d.hasElement := by
    rw [Bool.eq_false_iff.2 hc.2, Bool.eq_false_iff.2 hd.2]
  refine ⟨regular_unify hc.1 hd.1 hsame h, ?_⟩
  rw [← hasElement_unify hc.1 hsame h]
  exact hc.2

/-- What starts two paths of regular compounds is above their first common compound, so nothing
comes before that. -/
theorem isRootFirst_of_shared {root : Compound} {cs ds : List Component}
    (hroot : IsRegularHost root) (hcs : cs.all Component.isCompound)
    (hds : ds.all Component.isCompound) (hregular : ∀ x ∈ compoundsOf cs, IsRegularHost x)
    (hregular' : ∀ x ∈ compoundsOf ds, IsRegularHost x) :
    (opening (commonRuns unifyPaths (.compound root :: cs) (.compound root :: ds))
      (runs (.compound root :: cs)) (runs (.compound root :: ds))).isRootFirst := by
  have hruns {cs : List Component} (hcs : cs.all Component.isCompound) :
      runs (.compound root :: cs) = [.compound root] :: runs cs := by
    have hcons : (Component.compound root :: cs).all Component.isCompound := by
      simpa [Component.isCompound] using hcs
    rw [runs_of_compounds hcons, runs_of_compounds hcs, List.map_cons]
  have hhost {cs run : List Component} (hcs : cs.all Component.isCompound)
      (hreg : ∀ x ∈ compoundsOf cs, IsRegularHost x) (hrun : run ∈ [.compound root] :: runs cs) :
      ∃ x, run = [.compound x] ∧ IsRegularHost x := by
    rcases List.mem_cons.1 hrun with rfl | hrun
    · exact ⟨root, rfl, hroot⟩
    · obtain ⟨x, rfl, hx⟩ := exists_of_mem_runs hcs hrun
      exact ⟨x, rfl, hreg x (List.mem_filterMap.2 ⟨_, hx, rfl⟩)⟩
  have hselect : (commonRun? unifyPaths [.compound root] [.compound root]).isSome := by
    simp [commonRun?, components_equal_refl]
  obtain ⟨run, rest, hcommon, hfirst⟩ :=
    @exists_longestCommon_head _ _ _ _ _ _ (runs ds) (runs cs) hselect
  have habove : isParentSuperpath [.compound root] run := by
    rcases hfirst with ⟨y, hy, hv⟩ | ⟨x, hx, hv⟩
    · obtain ⟨y, rfl, hregy⟩ := hhost hcs hregular hy
      exact (isParentSuperpath_of_commonRun? hroot hregy hv).1
    · obtain ⟨x, rfl, hregx⟩ := hhost hds hregular' hx
      exact (isParentSuperpath_of_commonRun? hregx hroot hv).2
  rw [commonRuns, hruns hcs, hruns hds, hcommon, opening]
  simp [Opening.isRootFirst, habove]

theorem keepsRootFirst_of_roots {cs ds : List Component} (hcs : IsRootedDescent cs)
    (hds : IsRootedDescent ds) (hroot : ¬ isRootless cs) (hroot' : ¬ isRootless ds)
    (hregular : ∀ x ∈ compoundsOf cs, IsRegularHost x)
    (hregular' : ∀ x ∈ compoundsOf ds, IsRegularHost x) : keepsRootFirst cs ds := by
  obtain ⟨c, cs, hc, rfl⟩ := hcs.root?_cases.resolve_right fun h => hroot h.2
  obtain ⟨d, ds, hd, rfl⟩ := hds.root?_cases.resolve_right fun h => hroot' h.2
  obtain ⟨hregc, hregcs⟩ := List.forall_mem_cons.1 hregular
  obtain ⟨hregd, hregds⟩ := List.forall_mem_cons.1 hregular'
  have hshare : shareRoot? (.compound c :: cs) (.compound d :: ds) =
      (c.unify? d).map fun root => (.compound root :: cs, .compound root :: ds) := by
    simp only [shareRoot?, hc, hd]
  unfold keepsRootFirst
  rw [hshare]
  cases hu : c.unify? d with
  | none => rfl
  | some root =>
    exact isRootFirst_of_shared (isRegularHost_unify hregc hregd hu) hcs.of_tail.2 hds.of_tail.2
      hregcs hregds

theorem commonRuns_nil_left (unify : Combine) (ds : List Component) :
    commonRuns unify [] ds = [] := by
  simp [commonRuns, runs, longestCommon_eq, longest_nil_right]

theorem commonRuns_nil_right (unify : Combine) (cs : List Component) :
    commonRuns unify cs [] = [] := by
  simp [commonRuns, runs, longestCommon_eq, longest]

theorem keepsRootFirst_of_single {cs ds : List Component} (hcs : IsRootedDescent cs)
    (hds : IsRootedDescent ds) (hlen : cs.length = 1) (hroot : isRootless ds) :
    keepsRootFirst cs ds ∧ keepsRootFirst ds cs := by
  rcases hcs.root?_cases with ⟨c, rest, hc, rfl⟩ | ⟨-, hroot'⟩
  · obtain rfl : rest = [] := by simpa using hlen
    have hnone : root? ds = none := root?_of_isRootless hroot
    have hempty : isRootless [] := rfl
    constructor
    · simp [keepsRootFirst, shareRoot?, hc, hnone, commonRuns_nil_left, opening,
        Opening.isRootFirst, runs, hempty]
    · simp [keepsRootFirst, shareRoot?, hc, hnone, commonRuns_nil_right, opening,
        Opening.isRootFirst, runs, hempty]
  · exact ⟨keepsRootFirst_of_isRootless hcs hds hroot' hroot,
      keepsRootFirst_of_isRootless hds hcs hroot hroot'⟩

end Weave

open Weave

/-! ### Unification -/

theorem unifyPaths_isRootFirst_iff {cs ds : List Component} {c d : Compound}
    (hcs : IsRootedDescent cs) (hds : IsRootedDescent ds) (hne : ds ≠ []) (hc : ¬ isRoot c)
    (hd : ¬ isRoot d) :
    (∀ path ∈ unifyPaths (cs ++ [.compound c]) (ds ++ [.compound d]), isRootless path.tail) ↔
      ((c.unify? d).isSome → keepsRootFirst cs ds) := by
  rw [unifyPaths, unifyWith_snoc]
  cases hu : c.unify? d with
  | none => simp
  | some u =>
    have hroot : ¬ isRoot u := keptByUnify_not_isRoot c d u hu hc hd
    have htail (path : List Component) :
        isRootless (path ++ [Component.compound u]).tail ↔ isRootless path.tail := by
      rw [isRootless_tail_append]
      cases path <;> simp [isRootless, hroot]
    rw [← interleave_isRootFirst_iff hcs hds hne]
    simp [hne, htail]

theorem exists_snoc_of_isRootedDescent {cs : List Component} (h : IsRootedDescent cs)
    (hlen : 2 ≤ cs.length) :
    ∃ front c, cs = front ++ [.compound c] ∧ front ≠ [] ∧ IsRootedDescent front ∧ ¬ isRoot c := by
  rcases List.eq_nil_or_concat cs with rfl | ⟨front, last, rfl⟩
  · simp at hlen
  · rw [List.concat_eq_append] at h hlen ⊢
    have hne : front ≠ [] := by
      rintro rfl
      simp at hlen
    obtain ⟨hfront, hlast⟩ := (isRootless_tail_append.1 h.tail).2 hne
    have hcompounds := h.compounds
    rw [List.all_append, Bool.and_eq_true] at hcompounds
    cases last with
    | combinator k => exact absurd hcompounds.2 (by simp [Component.isCompound])
    | compound c =>
      exact ⟨front, c, rfl, hne, ⟨hcompounds.1, hfront⟩, by simpa [isRootless] using hlast⟩

namespace Complex

/-- Two paths without explicit combinators that name the root at most at their start are unified to
such paths exactly if nothing can come before the root. This holds if neither names the root, if one
does with only its last compound behind the root, and if both do and their compounds are regular
without pseudo elements. -/
theorem unify_root_outermost {c d : Complex} (hc : IsRootedDescent c.components)
    (hd : IsRootedDescent d.components) (hlen : 2 ≤ c.components.length)
    (hlen' : 2 ≤ d.components.length) :
    ((∀ r ∈ c.unify d, isRootless r.components.tail) ↔
      ∀ b ∈ c.base?, ∀ b' ∈ d.base?, (b.unify? b').isSome →
        keepsRootFirst c.components.dropLast d.components.dropLast) ∧
    ((isRootless c.components ∧ isRootless d.components) ∨
      (c.components.length = 2 ∧ isRootless d.components) ∨
      (isRootless c.components ∧ d.components.length = 2) ∨
      (¬ isRootless c.components ∧ ¬ isRootless d.components ∧
        ∀ x ∈ c.compounds ++ d.compounds, IsRegularHost x) →
      ∀ r ∈ c.unify d, isRootless r.components.tail) := by
  obtain ⟨cs, b, hcs, hne, hdescent, hb⟩ := exists_snoc_of_isRootedDescent hc hlen
  obtain ⟨ds, b', hds, hne', hdescent', hb'⟩ := exists_snoc_of_isRootedDescent hd hlen'
  have hpaths := unifyPaths_isRootFirst_iff hdescent hdescent' hne' hb hb'
  have hunify : (∀ r ∈ c.unify d, isRootless r.components.tail) ↔
      ((b.unify? b').isSome → keepsRootFirst cs ds) := by
    rw [← hpaths, unify, hcs, hds]
    simp [ofComponents, components]
  have hbase : c.base? = some b := by simp [base?, hcs, Component.compound?]
  have hbase' : d.base? = some b' := by simp [base?, hds, Component.compound?]
  have hroot : isRootless c.components ↔ isRootless cs := by
    rw [hcs, isRootless_append]
    simp [isRootless, hb]
  have hroot' : isRootless d.components ↔ isRootless ds := by
    rw [hds, isRootless_append]
    simp [isRootless, hb']
  constructor
  · rw [hunify, hbase, hbase', hcs, hds]
    simp
  · rw [hunify, hroot, hroot']
    rintro (⟨hr, hr'⟩ | ⟨hlen, hr'⟩ | ⟨hr, hlen⟩ | ⟨hr, hr', hregular⟩) -
    · exact keepsRootFirst_of_isRootless hdescent hdescent' hr hr'
    · rw [hcs, List.length_append] at hlen
      exact (keepsRootFirst_of_single hdescent hdescent' (Nat.succ.inj hlen) hr').1
    · rw [hds, List.length_append] at hlen
      exact (keepsRootFirst_of_single hdescent' hdescent (Nat.succ.inj hlen) hr).2
    · have hregcs : ∀ x ∈ compoundsOf cs, IsRegularHost x := by
        intro x hx
        apply hregular x
        simp [compounds, hcs, hx]
      have hregds : ∀ x ∈ compoundsOf ds, IsRegularHost x := by
        intro x hx
        apply hregular x
        simp [compounds, hds, hx]
      exact keepsRootFirst_of_roots hdescent hdescent' hr hr' hregcs hregds

/-- `:root.u .a .x` and `:root .b .y` share their root, and it stays outermost. -/
theorem unify_root_outermost_shared :
    let root : Simple := { kind := .pseudo, name := "root" }
    let c := ofComponents (descent [.ofSimples [root, { kind := .className, name := "u" }],
      .ofClass "a", .ofClass "x"])
    let d := ofComponents (descent [.ofSimples [root], .ofClass "b", .ofClass "y"])
    (c.unify d).length = 2 ∧ ∀ r ∈ c.unify d, isRootless r.components.tail := by
  intro root c d
  have hlength : (c.unify d).length = 2 := by decide
  have hc : IsRootedDescent c.components := ⟨rfl, rfl⟩
  have hd : IsRootedDescent d.components := ⟨rfl, rfl⟩
  have hregular : ∀ x ∈ c.compounds ++ d.compounds, IsRegularHost x := by
    have hall : (c.compounds ++ d.compounds).all fun x =>
        regular.ofCompound x && !x.hasElement := by decide
    intro x hx
    simpa [IsRegularHost] using List.all_eq_true.1 hall x hx
  have hroots : ¬ isRootless c.components ∧ ¬ isRootless d.components := by decide
  refine ⟨hlength, (unify_root_outermost hc hd (by decide) (by decide)).2 ?_⟩
  exact Or.inr (Or.inr (Or.inr ⟨hroots.1, hroots.2, hregular⟩))

/-- `:root .a .x` and `.b .y` are unified to `.a :root .b .x.y`, among others. -/
theorem unify_root_outermost_not :
    let c := ofComponents (descent
      [.ofSimples [{ kind := .pseudo, name := "root" }], .ofClass "a", .ofClass "x"])
    let d := ofComponents (descent [.ofClass "b", .ofClass "y"])
    IsRootedDescent c.components ∧ IsRootedDescent d.components ∧ 2 ≤ c.components.length ∧
      2 ≤ d.components.length ∧ ∃ r ∈ c.unify d, ¬ isRootless r.components.tail := by
  intro c d
  exact ⟨⟨rfl, rfl⟩, ⟨rfl, rfl⟩, by decide, by decide, by decide⟩

end Complex

end SelectorCalculus
