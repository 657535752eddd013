import SelectorCalculus.Proofs.LongestCommon
import SelectorCalculus.Proofs.Runs
/-! Interleaved paths consist of runs of both paths, laid out around common ones, and of what was
merged off the ends. -/

namespace SelectorCalculus

namespace Weave

open Superselector

/-! ### Common runs -/

/-- Whether no compound of a path holds of the root only. -/
def isRootless (cs : List Component) : Bool := (compoundsOf cs).all (!isRoot ·)

theorem isRootless_of_suffix_reverse {cs ds : List Component} (h : ds <:+ cs.reverse)
    (hcs : isRootless cs) : isRootless ds.reverse := by
  obtain ⟨front, hfront⟩ := h
  have hall : isRootless cs.reverse := by simpa [isRootless] using hcs
  rw [← hfront] at hall
  simp only [isRootless, compoundsOf_append, List.all_append, Bool.and_eq_true] at hall
  simpa [isRootless] using hall.2

theorem root?_of_isRootless {cs : List Component} (h : isRootless cs) : root? cs = none := by
  rcases cs with _ | ⟨c | k, rest⟩
  · rfl
  · simp only [isRootless, compoundsOf_compound_cons, List.all_cons, Bool.and_eq_true,
      Bool.not_eq_true'] at h
    simp [root?, h.1]
  · rfl

theorem shareRoot?_of_isRootless {cs ds : List Component} (hcs : isRootless cs)
    (hds : isRootless ds) : shareRoot? cs ds = some (cs, ds) := by
  rw [shareRoot?, root?_of_isRootless hcs, root?_of_isRootless hds]

theorem mergeLeading?_of_isLead {cs ds : List Component} (hcs : isLead cs) (hds : isLead ds) :
    mergeLeading? cs ds = some ([], cs, ds) := by
  have htake {cs : List Component} (h : isLead cs) : takeCombinators cs = ([], cs) := by
    rcases isLead_starts h with rfl | ⟨c, rest, rfl⟩ <;> rfl
  rw [mergeLeading?, htake hcs, htake hds]
  rfl

/-! ### Interleaving -/

theorem compoundsOf_subset_of_suffix {cs ds : List Component} (h : ds <:+ cs) :
    compoundsOf ds ⊆ compoundsOf cs :=
  List.filterMap_subset _ h.subset

/-- What the end of merging looks like: nothing is left to merge, and the choices are options. -/
theorem mergeTrailing?_options {P : Compound → Prop} (hP : KeptByUnify P) {bound : Nat}
    {cs ds : List Component} {r : List Choice × List Component × List Component}
    (h : mergeTrailing? bound cs ds = some r) (hbound : cs.length + ds.length ≤ bound)
    (hcs : isTrail cs) (hds : isTrail ds) (hpcs : ∀ c ∈ compoundsOf cs, P c)
    (hpds : ∀ d ∈ compoundsOf ds, P d) :
    r.2.1 <:+ cs ∧ r.2.2 <:+ ds ∧ isOpen r.2.1 ∧ isOpen r.2.2 ∧
      ∀ choice ∈ r.1, choice ≠ [] ∧ ∀ o ∈ choice, IsOptionOf P o := by
  induction bound generalizing cs ds r with
  | zero =>
    obtain rfl := List.eq_nil_of_length_eq_zero
      (Nat.le_zero.1 (Nat.le_trans (Nat.le_add_right _ _) hbound))
    obtain rfl := List.eq_nil_of_length_eq_zero
      (Nat.le_zero.1 (Nat.le_trans (Nat.le_add_left _ _) hbound))
    cases h
    exact ⟨List.suffix_rfl, List.suffix_rfl, rfl, rfl, by simp⟩
  | succ bound ih =>
    rcases mergeTrailing?_eq_some hcs hds h with ⟨ho, ho', rfl⟩ | ⟨step, choices, hstep, hm, hr⟩
    · exact ⟨List.suffix_rfl, List.suffix_rfl, ho, ho', by simp⟩
    · obtain ⟨hsuf, hsuf'⟩ := hstep.suffix
      have hlt := hstep.length_lt
      obtain ⟨h₁, h₂, ho, ho', hchoices⟩ := ih hm (by omega) (isTrail_of_suffix hsuf hcs)
        (isTrail_of_suffix hsuf' hds) (fun c hc => hpcs c (compoundsOf_subset_of_suffix hsuf hc))
        (fun d hd => hpds d (compoundsOf_subset_of_suffix hsuf' hd))
      refine ⟨h₁.trans hsuf, h₂.trans hsuf', ho, ho', ?_⟩
      rw [hr]
      refine List.forall_mem_append.2 ⟨hchoices, List.forall_mem_singleton.2 ?_⟩
      exact ⟨hstep.choice_ne_nil, fun o => hstep.isOptionOf hP hpcs hpds⟩

theorem mergeTrailing?_spec {bound : Nat} {cs ds : List Component}
    {r : List Choice × List Component × List Component} (h : mergeTrailing? bound cs ds = some r)
    (hbound : cs.length + ds.length ≤ bound) (hcs : isTrail cs) (hds : isTrail ds)
    (hpcs : isPlainPath cs) (hpds : isPlainPath ds) :
    r.2.1 <:+ cs ∧ r.2.2 <:+ ds ∧ isOpen r.2.1 ∧ isOpen r.2.2 ∧
      ∀ choice ∈ r.1, choice ≠ [] ∧ ∀ o ∈ choice, IsOption o :=
  mergeTrailing?_options keptByUnify_isPlain h hbound hcs hds (List.all_eq_true.1 hpcs)
    (List.all_eq_true.1 hpds)

/-- What the end of merging looks like whatever the compounds are. -/
theorem mergeTrailing?_shape {bound : Nat} {cs ds : List Component}
    {r : List Choice × List Component × List Component} (h : mergeTrailing? bound cs ds = some r)
    (hbound : cs.length + ds.length ≤ bound) (hcs : isTrail cs) (hds : isTrail ds) :
    r.2.1 <:+ cs ∧ r.2.2 <:+ ds ∧ ∀ choice ∈ r.1, choice ≠ [] := by
  have htrue : KeptByUnify fun _ => True := fun _ _ _ _ _ _ => trivial
  obtain ⟨hsuf, hsuf', -, -, hchoices⟩ := mergeTrailing?_options htrue h hbound hcs hds
    (fun _ _ => trivial) (fun _ _ => trivial)
  exact ⟨hsuf, hsuf', fun choice hchoice => (hchoices choice hchoice).1⟩

/-- The runs of two paths above the same element, with what stands for runs of both. -/
def commonRuns (unify : Combine) (cs ds : List Component) : List (List Component) :=
  longestCommon (commonRun? unify) (runs ds) (runs cs)

/-- What may stand before the last compound of a path: it leads on, is plain and does not name the
root. -/
structure IsStem (cs : List Component) : Prop where
  lead : isLead cs
  plain : isPlainPath cs
  rootless : isRootless cs

/-- A plain selector that does not name the root. -/
structure IsOrdinary (cs : List Component) : Prop where
  wellFormed : isWellFormed cs
  plain : isPlainPath cs
  rootless : isRootless cs

theorem IsStem.trail {cs : List Component} (h : IsStem cs) :
    isTrail cs.reverse ∧ isPlainPath cs.reverse :=
  ⟨h.lead, by simpa using h.plain⟩

/-- The choices from which two paths are interleaved once their ends are merged. -/
def choicesAfter (unify : Combine) (trailing : List Choice) (cs ds : List Component) :
    List Choice :=
  [[]] :: layOut (commonRuns unify cs ds) (runs cs) (runs ds) ++ trailing

theorem interleaveWith_eq (unify : Combine) {cs ds : List Component} (hcs : isLead cs)
    (hds : isLead ds) :
    interleaveWith unify cs ds =
      match mergeTrailing? (cs.length + ds.length) cs.reverse ds.reverse with
      | none => []
      | some (trailing, cs', ds') =>
        match shareRoot? cs'.reverse ds'.reverse with
        | none => []
        | some (cs', ds') =>
          (picks ((choicesAfter unify trailing cs' ds').filter (!·.isEmpty))).map List.flatten := by
  unfold interleaveWith
  simp only [mergeLeading?_of_isLead hcs hds, Option.bind_eq_bind, Option.bind_some]
  cases mergeTrailing? (cs.length + ds.length) cs.reverse ds.reverse with
  | none => rfl
  | some r =>
    obtain ⟨trailing, cs', ds'⟩ := r
    simp only [Option.bind_some]
    cases shareRoot? cs'.reverse ds'.reverse with
    | none => rfl
    | some r => rfl

/-- Without roots it depends on merging alone whether there is a result. -/
theorem interleaveWith_eq_of_isRootless (unify : Combine) {cs ds : List Component} (hcs : isLead cs)
    (hds : isLead ds) (hroot : isRootless cs) (hroot' : isRootless ds) :
    interleaveWith unify cs ds =
      match mergeTrailing? (cs.length + ds.length) cs.reverse ds.reverse with
      | none => []
      | some (trailing, cs', ds') => (picks ((choicesAfter unify trailing cs'.reverse
          ds'.reverse).filter (!·.isEmpty))).map List.flatten := by
  rw [interleaveWith_eq unify hcs hds]
  cases hm : mergeTrailing? (cs.length + ds.length) cs.reverse ds.reverse with
  | none => rfl
  | some r =>
    obtain ⟨trailing, cs', ds'⟩ := r
    obtain ⟨hsuf, hsuf', -⟩ := mergeTrailing?_shape hm (by simp) hcs hds
    have hshare : shareRoot? cs'.reverse ds'.reverse = some (cs'.reverse, ds'.reverse) :=
      shareRoot?_of_isRootless (isRootless_of_suffix_reverse hsuf hroot)
        (isRootless_of_suffix_reverse hsuf' hroot')
    simp only [hshare]

theorem IsStem.interleaveWith_eq (unify : Combine) {cs ds : List Component} (hcs : IsStem cs)
    (hds : IsStem ds) :
    interleaveWith unify cs ds =
      match mergeTrailing? (cs.length + ds.length) cs.reverse ds.reverse with
      | none => []
      | some (trailing, cs', ds') => (picks ((choicesAfter unify trailing cs'.reverse
          ds'.reverse).filter (!·.isEmpty))).map List.flatten :=
  interleaveWith_eq_of_isRootless unify hcs.lead hds.lead hcs.rootless hds.rootless

/-- An interleaved path is laid out from what is left after merging, followed by one option for each
choice found on the way. -/
theorem exists_of_mem_interleaveWith {unify : Combine} {cs ds path : List Component}
    (hcs : isLead cs) (hds : isLead ds) (hroot : isRootless cs) (hroot' : isRootless ds)
    (h : path ∈ interleaveWith unify cs ds) :
    ∃ r front back, mergeTrailing? (cs.length + ds.length) cs.reverse ds.reverse = some r ∧
      LaidOut (commonRuns unify r.2.1.reverse r.2.2.reverse) (runs r.2.1.reverse)
        (runs r.2.2.reverse) front ∧
      List.Forall₂ (· ∈ ·) back r.1 ∧ path = front ++ back.flatten := by
  rw [interleaveWith_eq_of_isRootless unify hcs hds hroot hroot'] at h
  cases hm : mergeTrailing? (cs.length + ds.length) cs.reverse ds.reverse with
  | none => simp [hm] at h
  | some r =>
    obtain ⟨-, -, hchoices⟩ := mergeTrailing?_shape hm (by simp) hcs hds
    have hfilter : r.1.filter (!·.isEmpty) = r.1 := by
      refine List.filter_eq_self.2 fun choice hchoice => ?_
      simpa using hchoices choice hchoice
    rw [hm] at h
    obtain ⟨picked, hpicked, rfl⟩ := List.mem_map.1 h
    rw [mem_picks, choicesAfter, List.cons_append, List.filter_cons_of_pos (by rfl),
      List.filter_append, hfilter] at hpicked
    obtain ⟨o, rest, ho, hrest, rfl⟩ := List.forall₂_cons_right_iff.1 hpicked
    obtain rfl := List.mem_singleton.1 ho
    set laid := (layOut (commonRuns unify r.2.1.reverse r.2.2.reverse) (runs r.2.1.reverse)
      (runs r.2.2.reverse)).filter (!·.isEmpty)
    have htake := List.forall₂_take_append _ _ _ hrest
    have hdrop := List.forall₂_drop_append _ _ _ hrest
    refine ⟨r, _, rest.drop laid.length, rfl, laidOut_of_pick htake, hdrop, ?_⟩
    rw [← List.flatten_append, List.take_append_drop]
    rfl

/-! ### Interleaved paths lead on -/

/-- A path that leads on through compounds with a property. -/
structure LeadsBy (P : Compound → Prop) (cs : List Component) : Prop where
  lead : isLead cs
  all : ∀ c ∈ compoundsOf cs, P c

/-- A well-formed path of compounds with a property. -/
structure PathBy (P : Compound → Prop) (cs : List Component) : Prop where
  wellFormed : isWellFormed cs
  all : ∀ c ∈ compoundsOf cs, P c

/-- What unification of paths must keep to for interleaving to keep to it. -/
def Keeps (P : Compound → Prop) (unify : Combine) : Prop :=
  ∀ cs ds, PathBy P cs → PathBy P ds → ∀ path ∈ unify cs ds, PathBy P path

theorem compoundsOf_subset_flatten {pieces : List (List Component)} {p : List Component}
    (hp : p ∈ pieces) : compoundsOf p ⊆ compoundsOf pieces.flatten := by
  induction pieces with
  | nil => cases hp
  | cons q pieces ih =>
    rw [List.flatten_cons, compoundsOf_append]
    rcases List.mem_cons.1 hp with rfl | hp
    · exact List.subset_append_left ..
    · exact List.Subset.trans (ih hp) (List.subset_append_right ..)

theorem commonRun?_cases {unify : Combine} {cs ds run : List Component}
    (h : commonRun? unify cs ds = some run) :
    (run = cs ∧ (equalPaths cs ds ∨ isParentSuperpath ds cs)) ∨
      (run = ds ∧ isParentSuperpath cs ds) ∨ run ∈ unify cs ds := by
  unfold commonRun? at h
  split_ifs at h with hequal hstart habove hbelow
  · exact Or.inl ⟨(Option.some.inj h).symm, Or.inl hequal⟩
  · exact Or.inr (Or.inl ⟨(Option.some.inj h).symm, habove⟩)
  · exact Or.inl ⟨(Option.some.inj h).symm, Or.inr hbelow⟩
  · split at h
    · rename_i heq
      rw [heq, Option.some.inj h]
      exact Or.inr (Or.inr (List.mem_singleton.2 rfl))
    · cases h

theorem exists_of_mem_commonRuns {unify : Combine} {cs ds run : List Component}
    (h : run ∈ commonRuns unify cs ds) :
    ∃ x ∈ runs ds, ∃ y ∈ runs cs, run = x ∨ run = y ∨ run ∈ unify x y := by
  obtain ⟨x, hx, y, hy, hv⟩ := exists_of_mem_longestCommon h
  refine ⟨x, hx, y, hy, ?_⟩
  rcases commonRun?_cases hv with ⟨hrun, -⟩ | ⟨hrun, -⟩ | hrun
  · exact Or.inl hrun
  · exact Or.inr (Or.inl hrun)
  · exact Or.inr (Or.inr hrun)

theorem unifyWith_snoc (interleave : Combine) (cs ds : List Component) (c d : Compound) :
    unifyWith interleave (cs ++ [.compound c]) (ds ++ [.compound d]) =
      match c.unify? d with
      | some base =>
        (if ds.isEmpty then [cs] else interleave cs ds).map (· ++ [.compound base])
      | none => [] := by
  simp only [unifyWith, List.getLast?_concat, List.dropLast_concat]
  cases c.unify? d with
  | none => rfl
  | some base =>
    simp only [weaveWith, List.foldl_cons, List.foldl_nil, appendPath, List.getLast?_concat,
      List.dropLast_concat]
    split <;> simp

section Kept

variable {P : Compound → Prop} {cs ds path : List Component}

theorem LeadsBy.append (hcs : LeadsBy P cs) (hds : LeadsBy P ds) : LeadsBy P (cs ++ ds) where
  lead := isLead_append hcs.lead hds.lead
  all := by
    rw [compoundsOf_append]
    exact List.forall_mem_append.2 ⟨hcs.all, hds.all⟩

theorem PathBy.leadsBy (h : PathBy P cs) : LeadsBy P cs where
  lead := isLead_of_isWellFormed h.wellFormed
  all := h.all

theorem PathBy.snoc_iff {c : Compound} : PathBy P (cs ++ [.compound c]) ↔ LeadsBy P cs ∧ P c := by
  constructor
  · intro h
    have hall := h.all
    rw [compoundsOf_append, List.forall_mem_append] at hall
    exact ⟨⟨isWellFormed_snoc_iff.1 h.wellFormed, hall.1⟩, hall.2 c (List.mem_singleton_self c)⟩
  · rintro ⟨hlead, hc⟩
    refine ⟨isWellFormed_snoc_iff.2 hlead.lead, ?_⟩
    rw [compoundsOf_append]
    exact List.forall_mem_append.2 ⟨hlead.all, List.forall_mem_singleton.2 hc⟩

theorem IsOptionOf.leadsBy {o : List Component} (h : IsOptionOf P o) : LeadsBy P o := by
  have hpair {c : Compound} {k : Combinator} (hc : P c) : LeadsBy P (pair c k) :=
    ⟨rfl, List.forall_mem_singleton.2 hc⟩
  obtain ⟨c, k, hc, rfl | ⟨d, k', hd, rfl⟩⟩ := h
  · exact hpair hc
  · exact (hpair hc).append (hpair hd)

theorem leadsBy_flatten_options {back : List (List Component)} {choices : List Choice}
    (hback : List.Forall₂ (· ∈ ·) back choices)
    (h : ∀ choice ∈ choices, choice ≠ [] ∧ ∀ o ∈ choice, IsOptionOf P o) :
    LeadsBy P back.flatten := by
  induction hback with
  | nil => exact ⟨rfl, by simp⟩
  | cons ho _ ih =>
    obtain ⟨hchoice, h⟩ := List.forall_mem_cons.1 h
    exact (hchoice.2 _ ho).leadsBy.append (ih h)

/-- What is left when the end of a path is merged is nothing or a path of its own, and so is each of
its runs. -/
theorem LeadsBy.runs {rest : List Component} (h : LeadsBy P cs) (hsuf : rest <:+ cs.reverse)
    (hopen : isOpen rest) : ∀ run ∈ Weave.runs rest.reverse, PathBy P run := by
  intro run hrun
  have hwf : isWellFormed rest.reverse := by
    refine isWellFormed_of_isOpen (isTrail_of_suffix hsuf h.lead) hopen ?_
    intro hnil
    rw [hnil] at hrun
    cases hrun
  refine ⟨isWellFormed_of_isRun (isRun_of_mem_runs hwf run hrun), fun c hc => h.all c ?_⟩
  have hmem := compoundsOf_subset_flatten hrun hc
  rw [flatten_runs] at hmem
  simpa using compoundsOf_subset_of_suffix hsuf (by simpa using hmem)

theorem pathBy_of_mem_commonRuns {unify : Combine} (hunify : Keeps P unify)
    (hcs : ∀ run ∈ runs cs, PathBy P run) (hds : ∀ run ∈ runs ds, PathBy P run) :
    ∀ run ∈ commonRuns unify cs ds, PathBy P run := by
  intro run hrun
  obtain ⟨x, hx, y, hy, rfl | rfl | hmem⟩ := exists_of_mem_commonRuns hrun
  · exact hds run hx
  · exact hcs run hy
  · exact hunify x y (hds x hx) (hcs y hy) run hmem

variable (hP : KeptByUnify P) (hroot : ∀ c, P c → ¬ isRoot c)

include hP hroot

theorem leadsBy_of_mem_interleaveWith {unify : Combine} (hunify : Keeps P unify)
    (hcs : LeadsBy P cs) (hds : LeadsBy P ds) (h : path ∈ interleaveWith unify cs ds) :
    LeadsBy P path := by
  have hrootless {cs : List Component} (h : LeadsBy P cs) : isRootless cs :=
    List.all_eq_true.2 fun c hc => by simpa using hroot c (h.all c hc)
  obtain ⟨r, front, back, hm, hfront, hback, rfl⟩ := exists_of_mem_interleaveWith hcs.lead hds.lead
    (hrootless hcs) (hrootless hds) h
  obtain ⟨hsuf, hsuf', hopen, hopen', hchoices⟩ := mergeTrailing?_options hP hm (by simp) hcs.lead
    hds.lead (by simpa using hcs.all) (by simpa using hds.all)
  have hleft := hcs.runs hsuf hopen
  have hright := hds.runs hsuf' hopen'
  refine LeadsBy.append ?_ (leadsBy_flatten_options hback hchoices)
  refine hfront.closed ⟨rfl, by simp⟩ (fun _ _ => LeadsBy.append) ?_ ?_ ?_
  · exact fun run hrun => (pathBy_of_mem_commonRuns hunify hleft hright run hrun).leadsBy
  · exact fun run hrun => (hleft run hrun).leadsBy
  · exact fun run hrun => (hright run hrun).leadsBy

omit hroot in
theorem keeps_unifyWith {interleave : Combine}
    (h : ∀ cs ds, LeadsBy P cs → LeadsBy P ds → ∀ path ∈ interleave cs ds, LeadsBy P path) :
    Keeps P (unifyWith interleave) := by
  intro cs ds hcs hds path hpath
  obtain ⟨cs, c, rfl⟩ := exists_snoc_of_isWellFormed hcs.wellFormed
  obtain ⟨ds, d, rfl⟩ := exists_snoc_of_isWellFormed hds.wellFormed
  obtain ⟨hcs, hc⟩ := PathBy.snoc_iff.1 hcs
  obtain ⟨hds, hd⟩ := PathBy.snoc_iff.1 hds
  rw [unifyWith_snoc] at hpath
  cases hu : c.unify? d with
  | none => simp [hu] at hpath
  | some base =>
    rw [hu] at hpath
    obtain ⟨p, hp, rfl⟩ := List.mem_map.1 hpath
    refine PathBy.snoc_iff.2 ⟨?_, hP c d base hu hc hd⟩
    split at hp
    · rwa [List.mem_singleton.1 hp]
    · exact h cs ds hcs hds p hp

theorem exists_interleaveTo_eq (n : Nat) :
    ∃ unify, Keeps P unify ∧ interleaveTo n = interleaveWith unify := by
  induction n with
  | zero =>
    refine ⟨fun _ _ => [], ?_, rfl⟩
    intro cs ds _ _ path hpath
    cases hpath
  | succ n ih =>
    obtain ⟨unify, hunify, heq⟩ := ih
    refine ⟨unifyWith (interleaveTo n), keeps_unifyWith hP fun cs ds hcs hds path hpath => ?_, rfl⟩
    rw [heq] at hpath
    exact leadsBy_of_mem_interleaveWith hP hroot hunify hcs hds hpath

theorem keeps_unifyPaths : Keeps P unifyPaths := by
  refine keeps_unifyWith hP fun cs ds hcs hds path hpath => ?_
  obtain ⟨unify, hunify, heq⟩ := exists_interleaveTo_eq hP hroot (cs.length + ds.length)
  rw [interleave, heq] at hpath
  exact leadsBy_of_mem_interleaveWith hP hroot hunify hcs hds hpath

end Kept

/-! ### Plain paths -/

/-- Whether a path leads on and is plain. -/
def isPlainLead (cs : List Component) : Bool := isLead cs && isPlainPath cs

/-- Unification that keeps plain paths which do not name the root plain and leading on. -/
def KeepsPlain (unify : Combine) : Prop :=
  ∀ cs ds, IsOrdinary cs → IsOrdinary ds → ∀ path ∈ unify cs ds, isPlainLead path

/-- The compounds of plain paths that do not name the root. -/
def IsInner (c : Compound) : Prop := c.isPlain ∧ ¬ isRoot c

theorem keptByUnify_not_isRoot : KeptByUnify fun c => ¬ isRoot c := by
  intro c d u h hc hd hu
  obtain ⟨s, hs, hroot⟩ := List.any_eq_true.1 hu
  rcases mem_unify h hs with hs | hs | ⟨ns, name, rfl⟩
  · exact hc (List.any_eq_true.2 ⟨s, hs, hroot⟩)
  · exact hd (List.any_eq_true.2 ⟨s, hs, hroot⟩)
  · simp [Simple.ofType, Label.isPseudoClass] at hroot

theorem keptByUnify_isInner : KeptByUnify IsInner :=
  fun c d u h hc hd =>
    ⟨isPlain_unify h hc.1 hd.1, keptByUnify_not_isRoot c d u h hc.2 hd.2⟩

theorem forall_isInner_iff {cs : List Component} :
    (∀ c ∈ compoundsOf cs, IsInner c) ↔ isPlainPath cs ∧ isRootless cs := by
  rw [isPlainPath, isRootless, List.all_eq_true, List.all_eq_true, ← forall₂_and]
  simp [IsInner]

theorem isOrdinary_iff {cs : List Component} : IsOrdinary cs ↔ PathBy IsInner cs := by
  constructor
  · intro h
    exact ⟨h.wellFormed, forall_isInner_iff.2 ⟨h.plain, h.rootless⟩⟩
  · intro h
    obtain ⟨hplain, hrootless⟩ := forall_isInner_iff.1 h.all
    exact ⟨h.wellFormed, hplain, hrootless⟩

theorem LeadsBy.isPlainLead {cs : List Component} (h : LeadsBy IsInner cs) : isPlainLead cs :=
  Bool.and_eq_true_iff.2 ⟨h.lead, (forall_isInner_iff.1 h.all).1⟩

theorem IsOrdinary.isStem {cs : List Component} {c : Compound}
    (h : IsOrdinary (cs ++ [.compound c])) : IsStem cs ∧ c.isPlain := by
  obtain ⟨hlead, hc⟩ := PathBy.snoc_iff.1 (isOrdinary_iff.1 h)
  obtain ⟨hplain, hrootless⟩ := forall_isInner_iff.1 hlead.all
  exact ⟨⟨hlead.lead, hplain, hrootless⟩, hc.1⟩

theorem IsStem.runs {cs rest : List Component} (h : IsStem cs) (hsuf : rest <:+ cs.reverse)
    (hopen : isOpen rest) : ∀ run ∈ Weave.runs rest.reverse, IsOrdinary run := by
  intro run hrun
  have hlead : LeadsBy IsInner cs := ⟨h.lead, forall_isInner_iff.2 ⟨h.plain, h.rootless⟩⟩
  exact isOrdinary_iff.2 (hlead.runs hsuf hopen run hrun)

theorem isPlainLead_flatten_options {back : List (List Component)} {choices : List Choice}
    (hback : List.Forall₂ (· ∈ ·) back choices)
    (h : ∀ choice ∈ choices, choice ≠ [] ∧ ∀ o ∈ choice, IsOption o) : isPlainLead back.flatten := by
  have hlead := leadsBy_flatten_options (P := fun c => c.isPlain) hback h
  exact Bool.and_eq_true_iff.2 ⟨hlead.lead, List.all_eq_true.2 hlead.all⟩

theorem isPlainLead_of_mem_commonRuns {unify : Combine} (hunify : KeepsPlain unify)
    {cs ds : List Component} (hcs : ∀ run ∈ runs cs, IsOrdinary run)
    (hds : ∀ run ∈ runs ds, IsOrdinary run) : ∀ run ∈ commonRuns unify cs ds, isPlainLead run := by
  intro run hrun
  obtain ⟨x, hx, y, hy, rfl | rfl | hmem⟩ := exists_of_mem_commonRuns hrun
  · exact (isOrdinary_iff.1 (hds run hx)).leadsBy.isPlainLead
  · exact (isOrdinary_iff.1 (hcs run hy)).leadsBy.isPlainLead
  · exact hunify x y (hds x hx) (hcs y hy) run hmem

theorem exists_interleave_eq (cs ds : List Component) :
    ∃ unify, KeepsPlain unify ∧ interleave cs ds = interleaveWith unify cs ds := by
  obtain ⟨unify, hunify, heq⟩ :=
    exists_interleaveTo_eq keptByUnify_isInner (fun _ h => h.2) (cs.length + ds.length)
  refine ⟨unify, fun cs ds hcs hds path hpath => ?_, congrFun (congrFun heq cs) ds⟩
  exact (hunify cs ds (isOrdinary_iff.1 hcs) (isOrdinary_iff.1 hds) path hpath).leadsBy.isPlainLead

end Weave

open Weave

/-- Unification of well-formed selectors that do not name the root gives well-formed selectors. -/
theorem Complex.isWellFormed_unify {c d : Complex} (hc : isWellFormed c.components)
    (hd : isWellFormed d.components) (hroot : isRootless c.components)
    (hroot' : isRootless d.components) : ∀ r ∈ c.unify d, isWellFormed r.components := by
  have hpath {c : Complex} (hc : isWellFormed c.components) (hroot : isRootless c.components) :
      PathBy (fun c => ¬ isRoot c) c.components := by
    refine ⟨hc, fun x hx => ?_⟩
    simpa using List.all_eq_true.1 hroot x hx
  intro r hr
  obtain ⟨path, hmem, rfl⟩ := List.mem_map.1 hr
  have hkeeps := keeps_unifyPaths keptByUnify_not_isRoot fun _ h => h
  exact (hkeeps _ _ (hpath hc hroot) (hpath hd hroot') path hmem).wellFormed

/-- `.a > .b .c ~ .x` and `.d .e + .f ~ .y` have six unifications, all well formed. -/
theorem Complex.isWellFormed_unify_siblings :
    let cls (name : String) : Component := .compound (.ofClass name)
    let c : Complex := .ofComponents
      [cls "a", .combinator .child, cls "b", cls "c", .combinator .general, cls "x"]
    let d : Complex := .ofComponents
      [cls "d", cls "e", .combinator .adjacent, cls "f", .combinator .general, cls "y"]
    (c.unify d).length = 6 ∧ ∀ r ∈ c.unify d, isWellFormed r.components := by
  intro cls c d
  have hlength : (c.unify d).length = 6 := by decide
  exact ⟨hlength, isWellFormed_unify rfl rfl rfl rfl⟩

end SelectorCalculus
