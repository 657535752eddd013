import SelectorCalculus.Proofs.Trails
import SelectorCalculus.Proofs.ExtensionSteps
/-! Runs of paths, which explicit combinators hold together, and the paths that are laid out from
them. -/

namespace SelectorCalculus

namespace Weave

open Superselector

/-! ### Paths that lead on -/

/-- Whether a path becomes well formed with a compound behind it. -/
def isLead (cs : List Component) : Bool := isTrail cs.reverse

theorem isLead_append {cs ds : List Component} (hcs : isLead cs) (hds : isLead ds) :
    isLead (cs ++ ds) := by
  rw [isLead, List.reverse_append]
  exact isTrail_append hds hcs

theorem isWellFormed_of_isTrail {cs : List Component} (h : isTrail cs) (c : Compound) :
    isWellFormed (cs.reverse ++ [.compound c]) := by
  fun_induction isTrail cs generalizing c with
  | case1 => rfl
  | case2 d rest ih =>
    have hd : isWellFormed [.compound d, .compound c] := rfl
    rw [List.reverse_cons, List.append_assoc, List.singleton_append]
    exact isWellFormed_append (ih h d) hd
  | case3 k d rest ih =>
    have hd : isWellFormed [.compound d, .combinator k, .compound c] := rfl
    rw [List.reverse_cons, List.reverse_cons, List.append_assoc, List.append_assoc,
      List.singleton_append, List.singleton_append]
    exact isWellFormed_append (ih h d) hd
  | case4 => cases h

theorem isWellFormed_snoc_iff {cs : List Component} {c : Compound} :
    isWellFormed (cs ++ [.compound c]) ↔ isLead cs := by
  constructor
  · exact isTrail_reverse
  · intro h
    have := isWellFormed_of_isTrail h c
    rwa [List.reverse_reverse] at this

theorem isWellFormed_of_isOpen {cs : List Component} (h : isTrail cs) (hopen : isOpen cs)
    (hne : cs ≠ []) : isWellFormed cs.reverse := by
  rcases cs with _ | ⟨c | k, rest⟩
  · exact absurd rfl hne
  · rw [isTrail] at h
    rw [List.reverse_cons]
    exact isWellFormed_of_isTrail h c
  · cases hopen

theorem isLead_of_isWellFormed {cs : List Component} (h : isWellFormed cs) : isLead cs := by
  obtain ⟨ds, c, rfl⟩ := exists_snoc_of_isWellFormed h
  exact isLead_append (isWellFormed_snoc_iff.1 h) rfl

theorem isLead_starts {cs : List Component} (h : isLead cs) :
    cs = [] ∨ ∃ c rest, cs = .compound c :: rest := by
  rcases cs with _ | ⟨c | k, rest⟩
  · exact Or.inl rfl
  · exact Or.inr ⟨c, rest, rfl⟩
  · have hw : isWellFormed (.combinator k :: rest ++ [.compound (.ofSimples [])]) :=
      isWellFormed_snoc_iff.2 h
    cases hw

theorem reach_append_lead {t : ElementTree} (cs : List Component) {ds : List Component}
    (hds : isLead ds) (S : Place) : t.reach (cs ++ ds) S = t.reach ds (t.reach cs S) := by
  rcases isLead_starts hds with rfl | ⟨d, rest, rfl⟩
  · rw [List.append_nil]
    rfl
  · exact ElementTree.reach_append cs d rest S

theorem isLead_flatten {pieces : List (List Component)} (h : ∀ p ∈ pieces, isLead p) :
    isLead pieces.flatten := by
  induction pieces with
  | nil => rfl
  | cons p pieces ih =>
    obtain ⟨hp, h⟩ := List.forall_mem_cons.1 h
    exact isLead_append hp (ih h)

/-! ### Runs -/

theorem flatten_runs (cs : List Component) : (runs cs).flatten = cs := by
  induction cs with
  | nil => rfl
  | cons c rest ih =>
    unfold runs
    split
    · rename_i h
      rw [h] at ih
      simp [← ih]
    · rename_i run more h
      rw [h] at ih
      split <;> simp [← ih]

/-- Whether every compound of a path but the last has an explicit combinator behind it. -/
def isRun : List Component → Bool
  | [.compound _] => true
  | .compound _ :: .combinator _ :: rest => isRun rest
  | _ => false

theorem isWellFormed_of_isRun {run : List Component} (h : isRun run) : isWellFormed run := by
  fun_induction isRun run with
  | case1 c => rfl
  | case2 c k rest ih => exact ih h
  | case3 => cases h

theorem isRun_cases {run : List Component} (h : isRun run) :
    (∃ c, run = [.compound c]) ∨ ∃ c k d rest,
      run = .compound c :: .combinator k :: .compound d :: rest ∧ isRun (.compound d :: rest) := by
  fun_induction isRun run with
  | case1 c => exact Or.inl ⟨c, rfl⟩
  | case2 c k rest _ =>
    obtain ⟨d, rest, rfl⟩ := startsWithCompound_iff.1
      (isWellFormed_iff.1 (isWellFormed_of_isRun h)).1
    exact Or.inr ⟨c, k, d, rest, rfl, h⟩
  | case3 => cases h

theorem isOpen_of_isRun {run : List Component} (h : isRun run) (cs : List Component) :
    isOpen (run ++ cs) := by
  obtain ⟨c, rest, rfl⟩ := startsWithCompound_iff.1 (isWellFormed_iff.1 (isWellFormed_of_isRun h)).1
  rfl

theorem exists_runs_compound (c : Compound) (cs : List Component) :
    ∃ run more, runs (.compound c :: cs) = (.compound c :: run) :: more := by
  unfold runs
  split
  · exact ⟨[], [], rfl⟩
  · split
    · exact ⟨_, _, rfl⟩
    · exact ⟨[], _, rfl⟩

theorem runs_append {run cs : List Component} (h : isRun run) (hcs : isOpen cs) :
    runs (run ++ cs) = run :: runs cs := by
  fun_induction isRun run with
  | case1 c =>
    rcases cs with _ | ⟨d | k, rest⟩
    · rfl
    · obtain ⟨run, more, hruns⟩ := exists_runs_compound d rest
      rw [List.singleton_append, runs, hruns]
      simp [Component.isCombinator, Component.isCompound]
    · cases hcs
  | case2 c k rest ih =>
    simp [runs, ih h, Component.isCombinator, Component.isCompound]
  | case3 => cases h

theorem runs_flatten {pieces : List (List Component)} (h : ∀ p ∈ pieces, isRun p) :
    runs pieces.flatten = pieces := by
  induction pieces with
  | nil => rfl
  | cons p pieces ih =>
    obtain ⟨hp, h⟩ := List.forall_mem_cons.1 h
    have hopen : isOpen pieces.flatten := by
      cases pieces with
      | nil => rfl
      | cons q pieces => exact isOpen_of_isRun (h q (List.mem_cons_self ..)) _
    rw [List.flatten_cons, runs_append hp hopen, ih h]

theorem isRun_of_mem_runs {cs : List Component} (h : isWellFormed cs) :
    ∀ run ∈ runs cs, isRun run := by
  fun_induction isWellFormed cs with
  | case1 c => exact fun run hrun => by rw [List.mem_singleton.1 hrun]; rfl
  | case2 c k rest ih =>
    obtain ⟨d, rest, rfl⟩ := startsWithCompound_iff.1 (isWellFormed_iff.1 h).1
    obtain ⟨run, more, hr⟩ := exists_runs_compound d rest
    have ih := ih h
    rw [hr, List.forall_mem_cons] at ih
    have hruns : runs (.compound c :: .combinator k :: .compound d :: rest) =
        (.compound c :: .combinator k :: .compound d :: run) :: more := by
      rw [runs, runs, hr]
      rfl
    rw [hruns]
    exact List.forall_mem_cons.2 ih
  | case3 c d rest ih =>
    have hruns : runs ([.compound c] ++ .compound d :: rest) = _ := runs_append rfl rfl
    rw [List.singleton_append] at hruns
    rw [hruns]
    exact List.forall_mem_cons.2 ⟨rfl, ih h⟩
  | case4 => cases h
  | case5 k rest => cases h

/-- A path of compounds falls into runs of one compound each. -/
theorem runs_of_compounds {cs : List Component} (h : cs.all Component.isCompound) :
    runs cs = cs.map fun c => [c] := by
  induction cs with
  | nil => rfl
  | cons c rest ih =>
    simp only [List.all_cons, Bool.and_eq_true] at h
    obtain ⟨hc, hrest⟩ := h
    unfold runs
    rw [ih hrest]
    cases rest with
    | nil => rfl
    | cons d rest =>
      simp only [List.all_cons, Bool.and_eq_true] at hrest
      simp [Component.isCombinator, hc, hrest.1]

/-! ### Laying out -/

/-- Two paths, one behind the other. -/
def Interleaves (cs ds o : List Component) : Prop := o = cs ++ ds ∨ o = ds ++ cs

/-- The runs before the first one that a common run stands for, and those behind it. -/
def Skips (run : List Component) (left before after : List (List Component)) : Prop :=
  (left = before ∧ after = []) ∨ ∃ x, left = before ++ x :: after ∧ isParentSuperpath x run

/-- The paths that can be laid out from the runs of two paths and the runs common to them. -/
inductive LaidOut : List (List Component) → List (List Component) → List (List Component) →
    List Component → Prop where
  | last {left right : List (List Component)} {o : List Component} :
      Interleaves left.flatten right.flatten o → LaidOut [] left right o
  | run {run o rest : List Component} {common left before after right before' after' :
      List (List Component)} :
      Skips run left before after → Skips run right before' after' →
      Interleaves before.flatten before'.flatten o → LaidOut common after after' rest →
      LaidOut (run :: common) left right (o ++ run ++ rest)

theorem Interleaves.symm {cs ds o : List Component} (h : Interleaves cs ds o) :
    Interleaves ds cs o := Or.symm h

theorem LaidOut.symm {common left right : List (List Component)} {o : List Component}
    (h : LaidOut common left right o) : LaidOut common right left o := by
  induction h with
  | last ho => exact .last ho.symm
  | run hl hr ho _ ih => exact .run hr hl ho.symm ih

theorem skips_span (run : List Component) (left : List (List Component)) :
    Skips run left (left.span (!isParentSuperpath · run)).1
      ((left.span (!isParentSuperpath · run)).2.drop 1) := by
  rw [List.span_eq_takeWhile_dropWhile]
  induction left with
  | nil => exact Or.inl ⟨rfl, rfl⟩
  | cons x left ih =>
    by_cases hx : isParentSuperpath x run
    · exact Or.inr ⟨x, by simp [hx], hx⟩
    · have hx' : (!isParentSuperpath x run) = true := by simpa using hx
      simp only [List.takeWhile_cons, List.dropWhile_cons, hx', ↓reduceIte]
      rcases ih with ⟨h, h'⟩ | ⟨y, h, hy⟩
      · exact Or.inl ⟨congrArg (x :: ·) h, h'⟩
      · exact Or.inr ⟨y, congrArg (x :: ·) h, hy⟩

/-- A pick from choices of which empty ones are left out, where the first is an interleaving. -/
theorem interleaves_of_pick {left right : List (List Component)} {choices : List Choice}
    {path : List (List Component)} (h : List.Forall₂ (· ∈ ·) path
      (((interleavings left right).map List.flatten :: choices).filter (!·.isEmpty))) :
    ∃ o rest, path.flatten = o ++ rest.flatten ∧ Interleaves left.flatten right.flatten o ∧
      List.Forall₂ (· ∈ ·) rest (choices.filter (!·.isEmpty)) := by
  cases left with
  | nil =>
    cases right with
    | nil => exact ⟨[], path, rfl, Or.inl rfl, h⟩
    | cons run right =>
      obtain ⟨o, rest, ho, hrest, rfl⟩ := List.forall₂_cons_right_iff.1 h
      exact ⟨o, rest, rfl, Or.inl (List.mem_singleton.1 ho), hrest⟩
  | cons run left =>
    cases right with
    | nil =>
      obtain ⟨o, rest, ho, hrest, rfl⟩ := List.forall₂_cons_right_iff.1 h
      exact ⟨o, rest, rfl, Or.inr (List.mem_singleton.1 ho), hrest⟩
    | cons run' right =>
      obtain ⟨o, rest, ho, hrest, rfl⟩ := List.forall₂_cons_right_iff.1 h
      refine ⟨o, rest, rfl, ?_, hrest⟩
      simpa [interleavings, Interleaves] using ho

theorem laidOut_of_pick {common left right : List (List Component)} {path : List (List Component)}
    (h : List.Forall₂ (· ∈ ·) path ((layOut common left right).filter (!·.isEmpty))) :
    LaidOut common left right path.flatten := by
  induction common generalizing left right path with
  | nil =>
    obtain ⟨o, rest, hpath, ho, hrest⟩ := interleaves_of_pick h
    cases hrest
    rw [hpath, List.flatten_nil, List.append_nil]
    exact .last ho
  | cons run common ih =>
    obtain ⟨o, rest, hpath, ho, hrest⟩ := interleaves_of_pick h
    obtain ⟨run', rest', hrun, hrest', rfl⟩ := List.forall₂_cons_right_iff.1 hrest
    obtain rfl := List.mem_singleton.1 hrun
    rw [hpath, List.flatten_cons, ← List.append_assoc]
    exact .run (skips_span run' left) (skips_span run' right) ho (ih hrest')

theorem Skips.forall {P : List Component → Prop} {run : List Component}
    {left before after : List (List Component)} (h : Skips run left before after)
    (hleft : ∀ run ∈ left, P run) : (∀ run ∈ before, P run) ∧ ∀ run ∈ after, P run := by
  rcases h with ⟨rfl, rfl⟩ | ⟨x, rfl, -⟩
  · exact ⟨hleft, by simp⟩
  · rw [List.forall_mem_append, List.forall_mem_cons] at hleft
    exact ⟨hleft.1, hleft.2.2⟩

/-- A property that paths keep when they are put together holds of a laid out path if it holds of
its runs. -/
theorem LaidOut.closed {P : List Component → Prop} (hnil : P [])
    (happend : ∀ cs ds, P cs → P ds → P (cs ++ ds)) {common left right : List (List Component)}
    {o : List Component} (h : LaidOut common left right o) (hcommon : ∀ run ∈ common, P run)
    (hleft : ∀ run ∈ left, P run) (hright : ∀ run ∈ right, P run) : P o := by
  have hflatten (pieces : List (List Component)) (hp : ∀ p ∈ pieces, P p) : P pieces.flatten := by
    induction pieces with
    | nil => exact hnil
    | cons p pieces ih =>
      obtain ⟨hhead, htail⟩ := List.forall_mem_cons.1 hp
      exact happend _ _ hhead (ih htail)
  have hinterleaves {left right : List (List Component)} {o : List Component}
      (h : Interleaves left.flatten right.flatten o) (hleft : ∀ run ∈ left, P run)
      (hright : ∀ run ∈ right, P run) : P o := by
    rcases h with rfl | rfl
    · exact happend _ _ (hflatten _ hleft) (hflatten _ hright)
    · exact happend _ _ (hflatten _ hright) (hflatten _ hleft)
  induction h with
  | last ho => exact hinterleaves ho hleft hright
  | run hl hr ho _ ih =>
    obtain ⟨hrun, hcommon⟩ := List.forall_mem_cons.1 hcommon
    obtain ⟨hbefore, hafter⟩ := hl.forall hleft
    obtain ⟨hbefore', hafter'⟩ := hr.forall hright
    exact happend _ _ (happend _ _ (hinterleaves ho hbefore hbefore') hrun) (ih hcommon hafter hafter')

end Weave

end SelectorCalculus
