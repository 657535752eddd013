import SelectorCalculus.Proofs.Interleaving
import SelectorCalculus.Proofs.SuperselectorMeaning
import SelectorCalculus.Proofs.TrailMeaning
/-! A weavable path contains every path that it is unified to. -/

namespace SelectorCalculus

open ElementTree Superselector

namespace Weave

variable {t : ElementTree}

/-! ### Runs of one compound -/

theorem next_of_reach_cons {d : Compound} {rest : List Component}
    (h : ∀ k more, rest = .combinator k :: more → k = .child) {T : Place} {z : Address}
    (hz : t.reach (.compound d :: rest) T z) : t.next none d T z := by
  have hlasting := lasting_next_none (t := t) d T
  rcases rest with _ | ⟨d' | k, more⟩
  · exact hz
  · have hz' : t.reach (.compound d' :: more) (t.next none d T) z := hz
    exact hlasting.of_reach (fun _ => id) hz'
  · obtain rfl := h k more rfl
    have hz' : t.reach more (t.next (some .child) d T) z := hz
    refine hlasting.of_reach (fun y hy => ?_) hz'
    obtain ⟨x, hx, hd, hT⟩ := hy
    exact ⟨x, Related.of_child hx, hd, hT⟩

theorem reach_of_isParentSuperpath {c : Compound} {run : List Component} (hc : c.isPlain)
    (hrun : isPlainPath run) (h : isParentSuperpath [.compound c] run) {S : Place} (hS : Lasting S)
    {z : Address} (hz : t.reach run S z) : t.next none c S z := by
  simp only [isParentSuperpath, Bool.and_eq_true] at h
  obtain ⟨test, hwalk⟩ := walk_of_pathTest h.2
  obtain ⟨-, rest, hrest, -⟩ := walk_compound_iff.1 hwalk
  obtain ⟨rest, hrest, hchild⟩ : ∃ rest, restAfter? (compoundTest test c) [] (run ++ [_]) = some rest ∧
      ∀ k more, rest = .combinator k :: more → k = .child := by
    rcases hrest with ⟨hrest, hstart⟩ | hrest
    · refine ⟨rest, hrest, fun k more heq => ?_⟩
      rw [heq] at hstart
      cases hstart
    · exact ⟨_, hrest, fun k more heq => by cases heq; rfl⟩
  obtain ⟨skipped, d, heq, htest, hne⟩ := restAfter?_eq_some hrest
  obtain ⟨rest, last, rfl⟩ := (List.eq_nil_or_concat rest).resolve_left hne
  rw [List.concat_eq_append, ← List.cons_append, ← List.append_assoc] at heq
  obtain ⟨rfl, -⟩ := List.append_inj' heq rfl
  have hplain := isPlainPath_cons.1 (isPlainPath_append.1 hrun).2
  have hd : d.isPlain := isPlainPath_singleton.1 hplain.1
  rw [reach_append] at hz
  obtain ⟨x, hx, hfit, hT⟩ := next_of_reach_cons (fun k more heq => hchild k _ (by rw [heq]; rfl)) hz
  exact ⟨x, hx, compoundTest_sound hc hd htest hfit, hS.of_reach (fun _ => id) hT⟩

/-- Runs of one compound each, all plain. -/
def Singles (runs : List (List Component)) : Prop :=
  ∀ run ∈ runs, ∃ c : Compound, run = [.compound c] ∧ c.isPlain

theorem Singles.isLead_flatten {left : List (List Component)} (h : Singles left) :
    isLead left.flatten := by
  refine Weave.isLead_flatten fun run hrun => ?_
  obtain ⟨c, rfl, -⟩ := h run hrun
  rfl

theorem lasting_reach_singles {left : List (List Component)} (h : Singles left) {S : Place}
    (hS : Lasting S) : Lasting (t.reach left.flatten S) := by
  induction left generalizing S with
  | nil => exact hS
  | cons run left ih =>
    obtain ⟨hrun, hleft⟩ := List.forall_mem_cons.1 h
    obtain ⟨c, rfl, -⟩ := hrun
    rw [List.flatten_cons, reach_append_lead _ (Singles.isLead_flatten hleft)]
    exact ih hleft (lasting_next_none c S)

theorem reach_of_interleaves {left right : List (List Component)} {o : List Component}
    (h : Interleaves left.flatten right.flatten o) (hleft : Singles left)
    (hright : ∀ run ∈ right, isLead run) {S : Place} (hS : Lasting S) {z : Address}
    (hz : t.reach o S z) : t.reach left.flatten S z := by
  rcases h with rfl | rfl
  · rw [reach_append_lead _ (isLead_flatten hright)] at hz
    exact (lasting_reach_singles hleft hS).of_reach (fun _ => id) hz
  · rw [reach_append_lead _ hleft.isLead_flatten] at hz
    exact reach_mono _ (fun _ => hS.of_reach fun _ => id) hz

/-- A laid out path leads where the left one of its paths leads, if that one is made of compounds. -/
theorem LaidOut.reach_left {common left right : List (List Component)} {o : List Component}
    (h : LaidOut common left right o) (hleft : Singles left) (hright : ∀ run ∈ right, isLead run)
    (hcommon : ∀ run ∈ common, isPlainLead run) {S : Place} (hS : Lasting S) {z : Address}
    (hz : t.reach o S z) : t.reach left.flatten S z := by
  induction h generalizing S z with
  | last ho => exact reach_of_interleaves ho hleft hright hS hz
  | @run run o rest common left before after right before' after' hl hr ho hrest ih =>
    obtain ⟨hrun, hcommon⟩ := List.forall_mem_cons.1 hcommon
    obtain ⟨hrunlead, hrunplain⟩ := Bool.and_eq_true_iff.1 hrun
    obtain ⟨hbefore, hafter⟩ := hl.forall hleft
    obtain ⟨hbefore', hafter'⟩ := hr.forall hright
    have hrestlead : isLead rest := by
      refine hrest.closed (P := fun cs => isLead cs) rfl (fun _ _ => isLead_append) ?_ ?_ hafter'
      · exact fun run hrun => (Bool.and_eq_true_iff.1 (hcommon run hrun)).1
      · intro run hrun
        obtain ⟨c, rfl, -⟩ := hafter run hrun
        rfl
    rw [reach_append_lead _ hrestlead, reach_append_lead _ hrunlead] at hz
    have hbase := lasting_reach_singles (t := t) hbefore hS
    have ho (y : Address) (hy : t.reach run (t.reach o S) y) :
        t.reach run (t.reach before.flatten S) y :=
      reach_mono _ (fun _ => reach_of_interleaves ho hbefore hbefore' hS) hy
    rcases hl with ⟨rfl, rfl⟩ | ⟨x, rfl, hx⟩
    · have hz := reach_mono _ (fun y hy => hbase.of_reach (fun _ => id) (ho y hy)) hz
      exact ih hafter hafter' hcommon hbase hz
    · obtain ⟨c, rfl, hc⟩ := hleft x (by simp)
      have hz := reach_mono _
        (fun y hy => reach_of_isParentSuperpath hc hrunplain hx hbase (ho y hy)) hz
      have hz := ih hafter hafter' hcommon (lasting_next_none c _) hz
      rw [List.flatten_append, List.flatten_cons, reach_append_lead _ ?_, reach_append_lead _ ?_]
      · exact hz
      · exact Singles.isLead_flatten hafter
      · exact isLead_append rfl (Singles.isLead_flatten hafter)

/-! ### Trails of which all explicit combinators are merged -/

/-- Whether the explicit combinators of a trail come first, one for each compound, and only compounds
are left behind them. -/
def bindsFirst : List Component → Bool
  | .combinator _ :: .compound _ :: rest => bindsFirst rest
  | rest => rest.all Component.isCompound

theorem bindsFirst_of_all {cs : List Component} (h : cs.all Component.isCompound) :
    bindsFirst cs := by
  rcases cs with _ | ⟨c | k, rest⟩
  · rfl
  · exact h
  · simp [Component.isCompound] at h

theorem all_of_bindsFirst {cs : List Component} (h : bindsFirst cs) (hopen : isOpen cs) :
    cs.all Component.isCompound := by
  rcases cs with _ | ⟨c | k, rest⟩
  · rfl
  · exact h
  · cases hopen

theorem bindsFirst_stepOne (c : Compound) (k : Combinator) {others : List Component}
    (hopen : isOpen others) (h : bindsFirst others) : bindsFirst (stepOne c k others).2 := by
  rcases stepOne_snd c k others with heq | ⟨d, rest, -, -, rfl, heq⟩
  · rw [heq]
    exact h
  · rw [heq]
    have hall := all_of_bindsFirst h hopen
    rw [List.all_cons, Bool.and_eq_true] at hall
    exact bindsFirst_of_all hall.2

theorem MergeStep.bindsFirst {cs ds : List Component} {step : Step} (h : MergeStep cs ds step) :
    (bindsFirst cs → bindsFirst step.2.1) ∧ (bindsFirst ds → bindsFirst step.2.2) := by
  cases h with
  | both h =>
    rcases stepBoth_rest h with ⟨h₁, h₂, -⟩ | ⟨-, -, h₁, h₂⟩ | ⟨-, -, h₁, h₂⟩ <;> rw [h₁, h₂]
    · exact ⟨id, id⟩
    · exact ⟨id, id⟩
    · exact ⟨id, id⟩
  | left hopen => exact ⟨id, bindsFirst_stepOne _ _ hopen⟩
  | right hopen => exact ⟨bindsFirst_stepOne _ _ hopen, id⟩

theorem mergeTrailing?_bindsFirst {bound : Nat} {cs ds : List Component}
    {r : List Choice × List Component × List Component} (h : mergeTrailing? bound cs ds = some r)
    (hcs : isTrail cs) (hds : isTrail ds) :
    (bindsFirst cs → bindsFirst r.2.1) ∧ (bindsFirst ds → bindsFirst r.2.2) := by
  induction bound generalizing cs ds r with
  | zero =>
    cases h
    exact ⟨id, id⟩
  | succ bound ih =>
    rcases mergeTrailing?_eq_some hcs hds h with ⟨-, -, rfl⟩ | ⟨step, choices, hstep, hm, -⟩
    · exact ⟨id, id⟩
    · obtain ⟨hsuf, hsuf'⟩ := hstep.suffix
      obtain ⟨hl, hr⟩ := ih hm (isTrail_of_suffix hsuf hcs) (isTrail_of_suffix hsuf' hds)
      exact ⟨fun h => hl (hstep.bindsFirst.1 h), fun h => hr (hstep.bindsFirst.2 h)⟩

/-! ### Interleaving and unification -/

theorem singles_runs {cs : List Component} (hall : cs.all Component.isCompound)
    (hp : isPlainPath cs) : Singles (runs cs) := by
  rw [runs_of_compounds hall]
  intro run hrun
  obtain ⟨c, hc, rfl⟩ := List.mem_map.1 hrun
  cases c with
  | compound c => exact ⟨c, rfl, isPlainPath_singleton.1 (isPlainPath_of_mem hp hc)⟩
  | combinator k => exact absurd (List.all_eq_true.1 hall _ hc) (by simp [Component.isCompound])

theorem above_of_laidOut {rest front : List Component} {common right : List (List Component)}
    (hbinds : bindsFirst rest) (hopen : isOpen rest) (hplain : isPlainPath rest)
    (h : LaidOut common (runs rest.reverse) right front) (hright : ∀ run ∈ right, isLead run)
    (hcommon : ∀ run ∈ common, isPlainLead run) {y : Address} (hy : t.reach front anywhere y) :
    t.above rest y := by
  have hall : rest.reverse.all Component.isCompound := by
    rw [List.all_reverse]
    exact all_of_bindsFirst hbinds hopen
  have hsingles : Singles (runs rest.reverse) := singles_runs hall (by simpa using hplain)
  have := h.reach_left hsingles hright hcommon lasting_anywhere hy
  rwa [flatten_runs] at this

/-- Whether the explicit combinators before the last compound of a path allow weaving: all belong to
the last run, and nothing can come between siblings that must be neighbours. -/
def isWeavable (cs : List Component) : Bool := bindsFirst cs.reverse && isLoose cs.reverse

/-- An interleaved path leads where each of the two paths leads that is weavable. -/
theorem interleaveWith_sound {unify : Combine} (hunify : KeepsPlain unify)
    {cs ds path : List Component} (hcs : IsStem cs) (hds : IsStem ds)
    (h : path ∈ interleaveWith unify cs ds) {z : Address} (hz : t.reach path anywhere z) :
    (isWeavable cs → t.reach cs anywhere z) ∧ (isWeavable ds → t.reach ds anywhere z) := by
  obtain ⟨r, front, back, hm, hfront, hback, rfl⟩ := exists_of_mem_interleaveWith hcs.lead hds.lead
    hcs.rootless hds.rootless h
  obtain ⟨hsuf, hsuf', hopen, hopen', hchoices⟩ := mergeTrailing?_spec hm (by simp) hcs.trail.1
    hds.trail.1 hcs.trail.2 hds.trail.2
  have hleft := hcs.runs hsuf hopen
  have hright := hds.runs hsuf' hopen'
  have hcommon := isPlainLead_of_mem_commonRuns hunify hleft hright
  have hbacklead := (Bool.and_eq_true_iff.1 (isPlainLead_flatten_options hback hchoices)).1
  rw [reach_append_lead _ hbacklead] at hz
  obtain ⟨hsound, hsound'⟩ := mergeTrailing_sound hm hcs.trail.1 hds.trail.1 hcs.trail.2
    hds.trail.2 hback hz
  obtain ⟨hbinds, hbinds'⟩ := mergeTrailing?_bindsFirst hm hcs.trail.1 hds.trail.1
  constructor
  · intro hw
    obtain ⟨hb, hl⟩ := Bool.and_eq_true_iff.1 hw
    have habove := hsound hl fun y => above_of_laidOut (hbinds hb) hopen
      (isPlainPath_of_suffix hsuf hcs.trail.2) hfront
      (fun run hrun => isLead_of_isWellFormed (hright run hrun).wellFormed) hcommon
    rwa [above, List.reverse_reverse] at habove
  · intro hw
    obtain ⟨hb, hl⟩ := Bool.and_eq_true_iff.1 hw
    have habove := hsound' hl fun y => above_of_laidOut (hbinds' hb) hopen'
      (isPlainPath_of_suffix hsuf' hds.trail.2) hfront.symm
      (fun run hrun => isLead_of_isWellFormed (hleft run hrun).wellFormed) hcommon
    rwa [above, List.reverse_reverse] at habove

end Weave

open Weave

/-- Whatever two plain paths that do not name the root are unified to is contained in each of them
that is weavable. -/
theorem unifyPaths_sound {cs ds path : List Component} (hcs : IsOrdinary cs) (hds : IsOrdinary ds)
    (h : path ∈ unifyPaths cs ds) :
    (isWeavable cs.dropLast → Subsumes cs path) ∧ (isWeavable ds.dropLast → Subsumes ds path) := by
  obtain ⟨cs, c, rfl⟩ := exists_snoc_of_isWellFormed hcs.wellFormed
  obtain ⟨ds, d, rfl⟩ := exists_snoc_of_isWellFormed hds.wellFormed
  have hstem := hcs.isStem.1
  have hstem' := hds.isStem.1
  rw [List.dropLast_concat, List.dropLast_concat]
  rw [unifyPaths, unifyWith_snoc] at h
  cases hu : c.unify? d with
  | none => simp [hu] at h
  | some base =>
    rw [hu] at h
    obtain ⟨p, hp, rfl⟩ := List.mem_map.1 h
    have hsound {t : ElementTree} {z : Address} (hz : t.reach p anywhere z) :
        (isWeavable cs → t.reach cs anywhere z) ∧ (isWeavable ds → t.reach ds anywhere z) := by
      split at hp
      · rename_i hempty
        rw [List.mem_singleton.1 hp] at hz
        rw [List.isEmpty_iff.1 hempty]
        exact ⟨fun _ => hz, fun _ => trivial⟩
      · obtain ⟨unify, hunify, heq⟩ := exists_interleave_eq cs ds
        rw [heq] at hp
        exact interleaveWith_sound hunify hstem hstem' hp hz
    constructor
    · intro hw t e _ he
      rw [matches_snoc_iff] at he ⊢
      exact ⟨((Subject.fits_unify hu).1 he.1).1, (hsound he.2).1 hw⟩
    · intro hw t e _ he
      rw [matches_snoc_iff] at he ⊢
      exact ⟨((Subject.fits_unify hu).1 he.1).2, (hsound he.2).2 hw⟩

end SelectorCalculus
