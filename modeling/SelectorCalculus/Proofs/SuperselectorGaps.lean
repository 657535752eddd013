import SelectorCalculus.Proofs.Chains
import SelectorCalculus.Proofs.SuperselectorMeaning
/-! Where the superselector check says too much: behind an explicit combinator that is not at the
end. -/

namespace SelectorCalculus

namespace Superselector

variable {test : PathTest}

theorem restAfter?_cons {check : Compound → List Component → Bool} {before rest : List Component}
    {c : Compound} (hc : check c before) (hrest : rest ≠ []) :
    restAfter? check before (.compound c :: rest) = some rest := by
  simp [restAfter?, Component.compound?, hc, hrest]

theorem restAfter?_skip {check : Compound → List Component → Bool} {before rest : List Component}
    {c : Component} (hc : c.compound?.any (check · before) = false) (hrest : rest ≠ []) :
    restAfter? check before (c :: rest) = restAfter? check (before ++ [c]) rest := by
  simp [restAfter?, hc, hrest]

theorem combinatorTest_refl (k : Combinator) : combinatorTest k k := by
  cases k <;> rfl

theorem mayHold_cons {n : Nat} {c : Compound} {ds : List Component} (h : n ≤ ds.length) :
    mayHold n (.compound c :: ds) := by
  simpa [mayHold, startsWithCompound, Component.isCompound] using Nat.lt_succ_of_le h

/-- A component stands for no less than another one in its place. -/
def StepAbove (test : PathTest) : Component → Component → Prop
  | .compound c, .compound d => compoundTest test c d []
  | .combinator k, .combinator k' => k = k'
  | _, _ => False

theorem StepAbove.compound_left {c : Compound} {d : Component}
    (h : StepAbove test (.compound c) d) : ∃ d', d = .compound d' ∧ compoundTest test c d' [] := by
  cases d with
  | compound d => exact ⟨d, rfl, h⟩
  | combinator k => exact h.elim

theorem StepAbove.combinator_left {k : Combinator} {d : Component}
    (h : StepAbove test (.combinator k) d) : d = .combinator k := by
  cases d with
  | compound d => exact h.elim
  | combinator k' => exact congrArg _ h.symm

/-- A path is above another one if its components are, each in its place. -/
theorem walk_of_steps {cs ds : List Component} (hw : isWellFormed cs)
    (h : List.Forall₂ (StepAbove test) cs ds) : walk test cs ds := by
  fun_induction isWellFormed cs generalizing ds with
  | case1 c =>
    obtain ⟨_, _, hstep, hnil, rfl⟩ := List.forall₂_cons_left_iff.1 h
    obtain ⟨d, rfl, hc⟩ := hstep.compound_left
    cases hnil
    simp [walk, mayHold, startsWithCompound, Component.isCompound, Component.compound?, hc]
  | case2 c k rest ih =>
    obtain ⟨_, _, hstep, htail, rfl⟩ := List.forall₂_cons_left_iff.1 h
    obtain ⟨_, ds, hstep', hrest, rfl⟩ := List.forall₂_cons_left_iff.1 htail
    obtain ⟨d, rfl, hc⟩ := hstep.compound_left
    obtain rfl := hstep'.combinator_left
    have hlen := hrest.length_eq
    refine walk_combinator_iff.2 ⟨mayHold_cons (by simp [hlen]), k, ds, ?_, combinatorTest_refl k,
      ?_, ?_⟩
    · exact restAfter?_cons hc (by simp)
    · simp only [List.length_cons]
      omega
    · exact ih hw hrest
  | case3 c c' rest ih =>
    obtain ⟨_, _, hstep, htail, rfl⟩ := List.forall₂_cons_left_iff.1 h
    obtain ⟨_, ds, hstep', hrest, rfl⟩ := List.forall₂_cons_left_iff.1 htail
    obtain ⟨d, rfl, hc⟩ := hstep.compound_left
    obtain ⟨d', rfl, -⟩ := hstep'.compound_left
    have hlen := hrest.length_eq
    refine walk_compound_iff.2 ⟨mayHold_cons ?_, .compound d' :: ds, Or.inl ⟨?_, rfl⟩, ?_⟩
    · simp [hlen]
    · exact restAfter?_cons hc (by simp)
    · exact ih hw htail
  | case4 => cases hw
  | case5 k rest => cases hw

theorem walk_refl {cs : List Component} (hw : isWellFormed cs) (hp : isPlainPath cs) :
    walk test cs cs := by
  refine walk_of_steps hw (List.forall₂_same.2 fun c hc => ?_)
  cases c with
  | compound c =>
    have hmem : c ∈ compoundsOf cs := List.mem_filterMap.2 ⟨_, hc, rfl⟩
    exact compoundTest_refl (List.all_eq_true.1 hp c hmem)
  | combinator k => rfl

/-- A common start may be put before two paths, of which the first has more than one component. -/
theorem walk_append {cs xs ys : List Component} {x y : Compound}
    (hw : isWellFormed (cs ++ .compound x :: xs)) (hp : isPlainPath cs) (hxs : xs ≠ [])
    (hlen : xs.length ≤ ys.length) (h : walk test (.compound x :: xs) (.compound y :: ys)) :
    walk test (cs ++ .compound x :: xs) (cs ++ .compound y :: ys) := by
  fun_induction isWellFormed cs with
  | case1 c =>
    have htest : compoundTest test c c [] := compoundTest_refl (isPlainPath_singleton.1 hp)
    refine walk_compound_iff.2
      ⟨mayHold_cons (by simpa using hlen), .compound y :: ys, Or.inl ⟨?_, rfl⟩, h⟩
    exact restAfter?_cons htest (by simp)
  | case2 c k rest ih =>
    obtain ⟨hc, hrest⟩ := isPlainPath_cons.1 hp
    have htest : compoundTest test c c [] := compoundTest_refl (isPlainPath_singleton.1 hc)
    have hpos := List.length_pos_iff.2 hxs
    refine walk_combinator_iff.2 ⟨mayHold_cons ?_, k, rest ++ .compound y :: ys,
      restAfter?_cons htest (by simp), combinatorTest_refl k, ?_, ih hw (isPlainPath_cons.1 hrest).2⟩
    · simp only [List.append_eq, List.length_append, List.length_cons]
      omega
    · simp only [List.append_eq, List.length_append, List.length_cons]
      omega
  | case3 c d rest ih =>
    obtain ⟨hc, hrest⟩ := isPlainPath_cons.1 hp
    have htest : compoundTest test c c [] := compoundTest_refl (isPlainPath_singleton.1 hc)
    refine walk_compound_iff.2 ⟨mayHold_cons ?_, .compound d :: (rest ++ .compound y :: ys),
      Or.inl ⟨restAfter?_cons htest (by simp), rfl⟩, ih hw hrest⟩
    simp only [List.append_eq, List.length_append, List.length_cons]
    omega
  | case4 => exact h
  | case5 k rest => cases hw

/-- Unless a path binds at the end there is an explicit combinator with more behind it than one step
or two explicit ones. -/
theorem exists_early_combinator {cs : List Component} (hw : isWellFormed cs) (h : ¬ bindsAtEnd cs) :
    ∃ ds c k d rest, cs = ds ++ .compound c :: .combinator k :: .compound d :: rest ∧ rest ≠ [] ∧
      ∀ k' rest', rest = .combinator k' :: rest' → rest'.length ≠ 1 := by
  fun_induction isWellFormed cs with
  | case1 c => exact absurd rfl h
  | case2 c k rest ih =>
    rcases rest with _ | ⟨d | k', rest⟩
    · cases hw
    · refine ⟨[], c, k, d, rest, rfl, ?_, ?_⟩
      · rintro rfl
        exact h rfl
      · rintro k' rest' rfl hlen
        obtain ⟨x, rfl⟩ := List.length_eq_one_iff.1 hlen
        cases x with
        | compound d' => exact h rfl
        | combinator k'' => cases hw
    · cases hw
  | case3 c d rest ih =>
    obtain ⟨ds, c', k, d', rest', heq, hrest⟩ := ih hw h
    exact ⟨.compound c :: ds, c', k, d', rest', by rw [heq, List.cons_append], hrest⟩
  | case4 => cases hw
  | case5 k rest => cases hw

/-- Behind an explicit combinator the walk skips a compound that does not fit, whatever binds it. -/
theorem walk_skip {c d g : Compound} {k : Combinator} (s : Option Combinator) {rest : List Component}
    (hw : isWellFormed (.compound d :: rest)) (hc : c.isPlain)
    (hp : isPlainPath (.compound d :: rest)) (hrest : rest ≠ [])
    (hlast : ∀ k' rest', rest = .combinator k' :: rest' → rest'.length ≠ 1)
    (hg : compoundTest test d g [] = false) :
    walk test (.compound c :: .combinator k :: .compound d :: rest)
      (.compound c :: .combinator k :: .compound g :: (link s ++ .compound d :: rest)) := by
  obtain ⟨hd, hprest⟩ := isPlainPath_cons.1 hp
  have hpos := List.length_pos_iff.2 hrest
  have htest : compoundTest test c c [] := compoundTest_refl hc
  have htest' (before : List Component) : compoundTest test d d before :=
    compoundTest_refl (isPlainPath_singleton.1 hd)
  have hafter : restAfter? (compoundTest test d) [] (.compound g :: (link s ++ .compound d :: rest)) =
      some rest := by
    rw [restAfter?_skip (by simpa [Component.compound?] using hg) (by simp)]
    cases s with
    | none => exact restAfter?_cons (htest' _) hrest
    | some k' =>
      rw [link, List.singleton_append, restAfter?_skip rfl (by simp)]
      exact restAfter?_cons (htest' _) hrest
  have hlen : rest.length ≤ (link s ++ .compound d :: rest).length := by
    rw [List.length_append, List.length_cons]
    omega
  refine walk_combinator_iff.2 ⟨mayHold_cons (by simpa using hlen), k, _,
    restAfter?_cons htest (by simp), combinatorTest_refl k, ?_, ?_⟩
  · simp only [List.length_cons]
    omega
  · rcases rest with _ | ⟨d' | k', rest⟩
    · exact absurd rfl hrest
    · refine walk_compound_iff.2 ⟨mayHold_cons hlen, _, Or.inl ⟨hafter, rfl⟩, ?_⟩
      exact walk_refl hw hprest
    · refine walk_combinator_iff.2 ⟨mayHold_cons hlen, k', rest, hafter,
        combinatorTest_refl k', ?_, walk_refl hw (isPlainPath_cons.1 hprest).2⟩
      exact fun h => hlast k' rest rfl h.1

theorem pathTest_of_walk {n : Nat} {cs ds : List Component} (hcs : isWellFormed cs)
    (hds : isWellFormed ds) (h : ∀ test, walk test cs ds) : pathTest n cs ds := by
  have hcs' := (isWellFormed_iff.1 hcs).2.1
  have hds' := (isWellFormed_iff.1 hds).2.1
  cases n <;> simp [pathTest, layer, hcs', hds', h]

end Superselector

open Superselector

def Compound.universal : Compound := .ofSimples [.universal]

theorem Subject.fits_universal (x : Subject) : x.Fits .universal := by
  intro s hs
  rw [List.mem_singleton.1 hs]
  exact satisfies_open rfl rfl

/-- A path that does not bind at the end is taken to be above one that it does not subsume. -/
theorem exists_isSuperpath_not_subsumes {cs : List Component} (hw : isWellFormed cs)
    (hp : isPlainPath cs) (hend : ¬ bindsAtEnd cs) (hcontingent : IsContingent cs) :
    ∃ ds, isWellFormed ds ∧ isPlainPath ds ∧ isSuperpath cs ds ∧ ¬ Subsumes cs ds := by
  obtain ⟨front, c, k, d, rest, rfl, hrest, hlast⟩ := exists_early_combinator hw hend
  obtain ⟨hfit, other, hother⟩ := hcontingent
  have hwc : isWellFormed (.compound c :: .combinator k :: .compound d :: rest) :=
    isWellFormed_of_append hw
  obtain ⟨hpfront, hpc⟩ := isPlainPath_append.1 hp
  obtain ⟨hpc, hpd⟩ := isPlainPath_cons.1 hpc
  have hpd := (isPlainPath_cons.1 hpd).2
  have hd : d.isPlain := isPlainPath_singleton.1 (isPlainPath_cons.1 hpd).1
  have hdother : ¬ other.Fits d := hother d (by simp)
  have hg (test : PathTest) : compoundTest test d .universal [] = false := by
    rw [Bool.eq_false_iff]
    exact fun h => hdother (compoundTest_sound hd rfl h other.fits_universal)
  have hwR : isWellFormed (front ++ .compound c :: .combinator k :: .compound .universal ::
      .compound d :: rest) := isWellFormed_insert (s := none) hw
  refine ⟨_, hwR, ?_, pathTest_of_walk hw hwR fun test => ?_, ?_⟩
  · refine isPlainPath_append.2 ⟨hpfront, isPlainPath_cons.2 ⟨hpc, ?_⟩⟩
    exact isPlainPath_cons.2 ⟨rfl, isPlainPath_cons.2 ⟨rfl, hpd⟩⟩
  · refine walk_append hw hpfront (by simp) (by simp) ?_
    exact walk_skip none hwc (isPlainPath_singleton.1 hpc) hpd hrest hlast (hg test)
  · exact not_subsumes_insert (s := none) (Or.inr (Or.inl rfl)) hw hfit other.fits_universal hother

namespace Complex

/-- What the check of a plain complex selector is worth depends on where its explicit combinators
stand. At the end only, everything that it is taken to be above is contained in it. Elsewhere this
fails for some other selector, provided that elements can fit its compounds and need not fit any. -/
theorem isSuperselectorOf_subsumes {c : Complex} (hw : isWellFormed c.components)
    (hp : isPlainPath c.components) :
    (bindsAtEnd c.components → ∀ d : Complex, isWellFormed d.components →
      isPlainPath d.components → c.isSuperselectorOf d → Subsumes c.components d.components) ∧
    (¬ bindsAtEnd c.components → IsContingent c.components →
      ∃ d : Complex, isWellFormed d.components ∧ isPlainPath d.components ∧
        c.isSuperselectorOf d ∧ ¬ Subsumes c.components d.components) := by
  constructor
  · intro hend d _ hd h
    exact isSuperpath_sound hp hd hend h
  · intro hend hcontingent
    obtain ⟨ds, hds⟩ := exists_isSuperpath_not_subsumes hw hp hend hcontingent
    exact ⟨.ofComponents ds, hds⟩

/-- `.a .b > .c` contains `.x .a .b > .c`. -/
theorem isSuperselectorOf_subsumes_child :
    let a := Component.compound (.ofClass "a")
    let b := Component.compound (.ofClass "b")
    let c := Component.compound (.ofClass "c")
    let x := Component.compound (.ofClass "x")
    Subsumes [a, b, .combinator .child, c] [x, a, b, .combinator .child, c] :=
  (isSuperselectorOf_subsumes (c := .ofComponents _) rfl rfl).1 rfl (.ofComponents _) rfl rfl rfl

/-- `.a > .b .c` is taken to be above `.a > .x .b .c` and does not contain it. -/
theorem isSuperselectorOf_not_subsumes :
    let a := Component.compound (.ofClass "a")
    let b := Component.compound (.ofClass "b")
    let c := Component.compound (.ofClass "c")
    let x := Component.compound (.ofClass "x")
    (ofComponents [a, .combinator .child, b, c]).isSuperselectorOf
        (ofComponents [a, .combinator .child, x, b, c]) ∧
      ¬ Subsumes [a, .combinator .child, b, c] [a, .combinator .child, x, b, c] := by
  refine ⟨rfl, ?_⟩
  obtain ⟨hfit, hother⟩ := @Subject.ofClasses_apart ["a", "b", "c"] "x" (by decide)
  exact @not_subsumes_insert [] _ _ _ (.ofClass "x") .child none (.ofClasses ["x"])
    (Or.inr (Or.inl rfl)) rfl hfit (by simp) hother

end Complex

end SelectorCalculus
