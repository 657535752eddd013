import SelectorCalculus.Proofs.Interleaving
import Mathlib.Order.WellFounded
/-! Weaving terminates, whatever the paths look like: each round of merging and each nested call has
fewer components. -/

namespace SelectorCalculus

namespace Weave

open Superselector

variable {cs ds : List Component}

/-! ### Rounds of merging -/

/-- What merging finds at the end: choices, and the two paths without what was merged. -/
abbrev Merged := List Choice × List Component × List Component

/-- One round of merging the combinators at the ends of two paths, given a way to merge what is left
of them. -/
def mergeBy (again : List Component → List Component → Option Merged) (cs ds : List Component) :
    Option Merged :=
  let continueWith : Step → Option Merged := fun (choice, cs, ds) => do
    let (choices, cs, ds) ← again cs ds
    return (choices ++ [choice], cs, ds)
  match takeCombinators cs, takeCombinators ds with
  | ([], _), ([], _) => some ([], cs, ds)
  | ([k], .compound c :: cs), ([k'], .compound d :: ds) => do
    continueWith (← stepBoth? c k cs d k' ds)
  | ([_], _), ([_], _) => none
  | ([k], .compound c :: cs), ([], ds) =>
    let (choice, ds) := stepOne c k ds
    continueWith (choice, cs, ds)
  | ([_], _), ([], _) => none
  | ([], cs), ([k], .compound d :: ds) =>
    let (choice, cs) := stepOne d k cs
    continueWith (choice, cs, ds)
  | ([], _), ([_], _) => none
  | (ks, cs), (ks', ds) =>
    (longerOf? ks ks').map fun longer => ([[longer.reverse.map .combinator]], cs, ds)

theorem mergeTrailing?_succ (bound : Nat) (cs ds : List Component) :
    mergeTrailing? (bound + 1) cs ds = mergeBy (mergeTrailing? bound) cs ds := rfl

/-- Whether nothing is longer than the two paths together. -/
def Shortens (cs ds : List Component) (result : Option Merged) : Prop :=
  ∀ r, result = some r → r.2.1.length + r.2.2.length ≤ cs.length + ds.length

/-- A path is open, ends with a compound and its combinator, or ends with combinators that bind
nothing. -/
theorem trailing_cases (cs : List Component) :
    isOpen cs ∨ (∃ k c rest, cs = .combinator k :: .compound c :: rest) ∨
      (∃ k, cs = [.combinator k]) ∨ ∃ k k' rest, cs = .combinator k :: .combinator k' :: rest := by
  rcases cs with _ | ⟨c | k, _ | ⟨c | k', rest⟩⟩
  · exact Or.inl rfl
  · exact Or.inl rfl
  · exact Or.inl rfl
  · exact Or.inl rfl
  · exact Or.inr (Or.inr (Or.inl ⟨k, rfl⟩))
  · exact Or.inr (Or.inl ⟨k, c, rest, rfl⟩)
  · exact Or.inr (Or.inr (Or.inr ⟨k, k', rest, rfl⟩))

theorem length_takeCombinators (cs : List Component) :
    (takeCombinators cs).2.length ≤ cs.length := by
  fun_induction takeCombinators cs with
  | case1 k rest ks rest' h ih =>
    rw [h] at ih
    exact Nat.le_succ_of_le ih
  | case2 cs => exact Nat.le_refl _

theorem mergeBy_cases (cs ds : List Component) :
    (∃ result, Shortens cs ds result ∧ ∀ again, mergeBy again cs ds = result) ∨
      ∃ step, MergeStep cs ds step ∧ ∀ again, mergeBy again cs ds =
        (again step.2.1 step.2.2).map fun r => (r.1 ++ [step.1], r.2.1, r.2.2) := by
  have hfailed : Shortens cs ds none := by simp [Shortens]
  have hdoubled : Shortens cs ds
      ((longerOf? (takeCombinators cs).1 (takeCombinators ds).1).map fun longer =>
        ([[longer.reverse.map .combinator]], (takeCombinators cs).2, (takeCombinators ds).2)) := by
    intro r hr
    obtain ⟨longer, -, rfl⟩ := Option.map_eq_some_iff.1 hr
    exact Nat.add_le_add (length_takeCombinators cs) (length_takeCombinators ds)
  have hrest (again : List Component → List Component → Option Merged) (step : Step) :
      (do let (choices, cs, ds) ← again step.2.1 step.2.2
          return (choices ++ [step.1], cs, ds)) =
        (again step.2.1 step.2.2).map fun r => (r.1 ++ [step.1], r.2.1, r.2.2) := by
    cases again step.2.1 step.2.2 <;> rfl
  rcases trailing_cases cs with hcs | ⟨k, c, cs, rfl⟩ | ⟨k, rfl⟩ | ⟨k, k₂, cs, rfl⟩ <;>
    rcases trailing_cases ds with hds | ⟨k', d, ds, rfl⟩ | ⟨k', rfl⟩ | ⟨k', k₂', ds, rfl⟩
  · refine Or.inl ⟨some ([], cs, ds), by simp [Shortens], fun again => ?_⟩
    rw [mergeBy, takeCombinators_of_isOpen hcs, takeCombinators_of_isOpen hds]
  · refine Or.inr ⟨_, .right hcs, fun again => ?_⟩
    rw [mergeBy, takeCombinators_of_isOpen hcs, ← hrest]
    rfl
  · refine Or.inl ⟨none, hfailed, fun again => ?_⟩
    rw [mergeBy, takeCombinators_of_isOpen hcs]
    rfl
  · refine Or.inl ⟨_, hdoubled, fun again => ?_⟩
    rw [mergeBy, takeCombinators_of_isOpen hcs]
    rfl
  · refine Or.inr ⟨_, .left hds, fun again => ?_⟩
    rw [mergeBy, takeCombinators_of_isOpen hds, ← hrest]
    rfl
  · cases hstep : stepBoth? c k cs d k' ds with
    | none =>
      refine Or.inl ⟨none, hfailed, fun again => ?_⟩
      simp only [mergeBy, takeCombinators_pair, hstep]
      rfl
    | some step =>
      refine Or.inr ⟨step, .both hstep, fun again => ?_⟩
      simp only [mergeBy, takeCombinators_pair, hstep]
      exact hrest again step
  · exact Or.inl ⟨none, hfailed, fun again => rfl⟩
  · exact Or.inl ⟨_, hdoubled, fun again => rfl⟩
  · refine Or.inl ⟨none, hfailed, fun again => ?_⟩
    rw [mergeBy, takeCombinators_of_isOpen hds]
    rfl
  · exact Or.inl ⟨none, hfailed, fun again => rfl⟩
  · exact Or.inl ⟨none, hfailed, fun again => rfl⟩
  · exact Or.inl ⟨_, hdoubled, fun again => rfl⟩
  · refine Or.inl ⟨_, hdoubled, fun again => ?_⟩
    rw [mergeBy, takeCombinators_of_isOpen hds]
    rfl
  · exact Or.inl ⟨_, hdoubled, fun again => rfl⟩
  · exact Or.inl ⟨_, hdoubled, fun again => rfl⟩
  · exact Or.inl ⟨_, hdoubled, fun again => rfl⟩

theorem shortens_mergeTrailing? (bound : Nat) (cs ds : List Component) :
    Shortens cs ds (mergeTrailing? bound cs ds) := by
  induction bound generalizing cs ds with
  | zero => simp [Shortens, mergeTrailing?]
  | succ bound ih =>
    rw [mergeTrailing?_succ]
    rcases mergeBy_cases cs ds with ⟨result, hresult, heq⟩ | ⟨step, hstep, heq⟩
    · rwa [heq]
    · rw [heq]
      intro r hr
      obtain ⟨rest, hrest, rfl⟩ := Option.map_eq_some_iff.1 hr
      have hle := ih step.2.1 step.2.2 rest hrest
      exact hle.trans hstep.length_lt.le

/-- Within any two bounds above the number of components merging comes to the same end. -/
theorem mergeTrailing?_bound {bound bound' : Nat} (h : cs.length + ds.length ≤ bound)
    (h' : cs.length + ds.length ≤ bound') :
    mergeTrailing? bound cs ds = mergeTrailing? bound' cs ds := by
  have hnil {cs ds : List Component} (hzero : cs.length + ds.length ≤ 0) (bound bound' : Nat) :
      mergeTrailing? bound cs ds = mergeTrailing? bound' cs ds := by
    obtain rfl : cs = [] := List.eq_nil_of_length_eq_zero (by omega)
    obtain rfl : ds = [] := List.eq_nil_of_length_eq_zero (by omega)
    rw [mergeTrailing?_open rfl rfl, mergeTrailing?_open rfl rfl]
  induction bound generalizing bound' cs ds with
  | zero => exact hnil h _ _
  | succ bound ih =>
    cases bound' with
    | zero => exact hnil h' _ _
    | succ bound' =>
      rw [mergeTrailing?_succ, mergeTrailing?_succ]
      rcases mergeBy_cases cs ds with ⟨result, -, heq⟩ | ⟨step, hstep, heq⟩
      · rw [heq, heq]
      · have hlt := hstep.length_lt
        have hrest : mergeTrailing? bound step.2.1 step.2.2 =
            mergeTrailing? bound' step.2.1 step.2.2 := ih (by omega) (by omega)
        rw [heq, heq, hrest]

/-- Merging the ends of two paths. -/
def merging (cs ds : List Component) : Option Merged := mergeTrailing? (cs.length + ds.length) cs ds

/-- A function that merges round by round, without any bound. -/
def IsMerging (f : List Component → List Component → Option Merged) : Prop :=
  ∀ cs ds, f cs ds = mergeBy f cs ds

theorem isMerging_merging : IsMerging merging := by
  intro cs ds
  have hsucc : merging cs ds = mergeBy (mergeTrailing? (cs.length + ds.length)) cs ds := by
    rw [← mergeTrailing?_succ]
    exact mergeTrailing?_bound le_rfl (Nat.le_succ _)
  rw [hsucc]
  rcases mergeBy_cases cs ds with ⟨result, -, heq⟩ | ⟨step, hstep, heq⟩
  · rw [heq, heq]
  · have hrest : mergeTrailing? (cs.length + ds.length) step.2.1 step.2.2 =
        merging step.2.1 step.2.2 := mergeTrailing?_bound hstep.length_lt.le le_rfl
    rw [heq, heq, hrest]

/-- The loop has one result. -/
theorem isMerging_iff {f : List Component → List Component → Option Merged} :
    IsMerging f ↔ f = merging := by
  refine ⟨fun hf => ?_, fun h => h ▸ isMerging_merging⟩
  funext cs ds
  generalize hn : cs.length + ds.length = n
  induction n using Nat.strong_induction_on generalizing cs ds with
  | _ n ih =>
    rw [hf cs ds, isMerging_merging cs ds]
    rcases mergeBy_cases cs ds with ⟨result, -, heq⟩ | ⟨step, hstep, heq⟩
    · rw [heq, heq]
    · have hrest : f step.2.1 step.2.2 = merging step.2.1 step.2.2 :=
        ih _ (hn ▸ hstep.length_lt) _ _ rfl
      rw [heq, heq, hrest]

theorem wellFounded_mergeStep :
    WellFounded fun b a : List Component × List Component =>
      ∃ choice, MergeStep a.1 a.2 (choice, b.1, b.2) := by
  have hlength : WellFounded (InvImage (· < ·)
      fun a : List Component × List Component => a.1.length + a.2.length) :=
    InvImage.wf _ Nat.lt_wfRel.wf
  refine Subrelation.wf (fun {b a} h => ?_) hlength
  obtain ⟨choice, hstep⟩ := h
  exact hstep.length_lt

/-! ### What interleaving depends on -/

/-- What is left of two paths when their ends are merged and a root is shared, with the combinators
in front and the choices at the end. -/
def prepared? (cs ds : List Component) :
    Option (List Combinator × List Choice × List Component × List Component) := do
  let (leading, cs, ds) ← mergeLeading? cs ds
  let (trailing, cs, ds) ← merging cs.reverse ds.reverse
  let (cs, ds) ← shareRoot? cs.reverse ds.reverse
  return (leading, trailing, cs, ds)

theorem interleaveWith_eq_prepared (unify : Combine) (cs ds : List Component) :
    interleaveWith unify cs ds =
      match prepared? cs ds with
      | none => []
      | some (leading, trailing, cs', ds') =>
        (picks (([leading.map .combinator] ::
          layOut (commonRuns unify cs' ds') (runs cs') (runs ds') ++ trailing).filter
            (!·.isEmpty))).map List.flatten := by
  unfold interleaveWith prepared? merging
  cases mergeLeading? cs ds with
  | none => rfl
  | some r =>
    obtain ⟨leading, cs, ds⟩ := r
    simp only [Option.bind_eq_bind, Option.bind_some, List.length_reverse]
    cases mergeTrailing? (cs.length + ds.length) cs.reverse ds.reverse with
    | none => rfl
    | some r =>
      obtain ⟨trailing, cs, ds⟩ := r
      simp only [Option.bind_some]
      cases shareRoot? cs.reverse ds.reverse with
      | none => rfl
      | some r => rfl

theorem length_root? {c : Compound} {rest : List Component} (h : root? cs = some (c, rest)) :
    cs.length = rest.length + 1 := by
  unfold root? at h
  split at h
  · split at h
    · cases h
      rfl
    · cases h
  · cases h

theorem length_shareRoot? {r : List Component × List Component} (h : shareRoot? cs ds = some r) :
    r.1.length + r.2.length = cs.length + ds.length := by
  unfold shareRoot? at h
  split at h
  · rename_i c cs' d ds' hc hd
    obtain ⟨root, -, rfl⟩ := Option.map_eq_some_iff.1 h
    rw [length_root? hc, length_root? hd]
    rfl
  · rename_i c cs' hc hd
    cases h
    simp only [length_root? hc, List.length_cons]
    omega
  · rename_i d ds' hc hd
    cases h
    simp only [length_root? hd, List.length_cons]
    omega
  · cases h
    rfl

theorem length_mergeLeading? {leading : List Combinator} {cs' ds' : List Component}
    (h : mergeLeading? cs ds = some (leading, cs', ds')) :
    cs'.length + ds'.length ≤ cs.length + ds.length := by
  obtain ⟨longer, -, h⟩ := Option.map_eq_some_iff.1 h
  cases h
  exact Nat.add_le_add (length_takeCombinators cs) (length_takeCombinators ds)

theorem length_prepared? {leading : List Combinator} {trailing : List Choice}
    {cs' ds' : List Component} (h : prepared? cs ds = some (leading, trailing, cs', ds')) :
    cs'.length + ds'.length ≤ cs.length + ds.length := by
  simp only [prepared?, Option.bind_eq_bind, Option.bind_eq_some_iff, Option.pure_def] at h
  obtain ⟨⟨_, cs₁, ds₁⟩, hleading, ⟨_, cs₂, ds₂⟩, htrailing, ⟨cs₃, ds₃⟩, hroot, h⟩ := h
  cases h
  have h₁ := length_mergeLeading? hleading
  have h₂ := shortens_mergeTrailing? _ _ _ _ htrailing
  have h₃ := length_shareRoot? hroot
  simp only [List.length_reverse] at h₂ h₃ ⊢
  omega

/-- Whether two runs have to be unified to find out what stands for both. -/
def needsUnify (cs ds : List Component) : Bool :=
  !equalPaths cs ds && startsWithCompound cs && startsWithCompound ds &&
    !isParentSuperpath cs ds && !isParentSuperpath ds cs && mustUnify cs ds

theorem commonRun?_congr {unify unify' : Combine}
    (h : needsUnify cs ds → unify cs ds = unify' cs ds) :
    commonRun? unify cs ds = commonRun? unify' cs ds := by
  cases hneeds : needsUnify cs ds with
  | true =>
    unfold commonRun?
    rw [h hneeds]
  | false =>
    unfold commonRun?
    split_ifs with hequal hstart habove hbelow hmust
    all_goals first
      | rfl
      | simp_all [needsUnify]

theorem length_le_of_mem_runs {run : List Component} (h : run ∈ runs cs) :
    run.length ≤ cs.length := by
  rw [← flatten_runs cs]
  exact (List.sublist_flatten_of_mem h).length_le

/-! ### Calls -/

/-- What is called for while paths are woven. -/
inductive Call where
  | weave (paths : List (List Component))
  | interleave (cs ds : List Component)
  | unify (cs ds : List Component)

/-- The calls that one call makes. -/
inductive Calls : Call → Call → Prop where
  /-- The parents of a path are interleaved with each path woven before. -/
  | parents {first cs woven : List Component} {before after : List (List Component)}
      (hwoven : woven ∈ SelectorCalculus.weave (first :: before)) (hparents : cs.dropLast ≠ []) :
      Calls (.weave (first :: (before ++ cs :: after))) (.interleave woven cs.dropLast)
  | runs {cs ds cs' ds' x y : List Component} {leading : List Combinator} {trailing : List Choice}
      (hprepared : prepared? cs ds = some (leading, trailing, cs', ds'))
      (hx : x ∈ Weave.runs ds') (hy : y ∈ Weave.runs cs') (hneeds : needsUnify x y) :
      Calls (.interleave cs ds) (.unify x y)
  | bases {cs ds : List Component} {c d base : Compound} (hbase : c.unify? d = some base) :
      Calls (.unify (cs ++ [.compound c]) (ds ++ [.compound d]))
        (.weave [cs, ds ++ [.compound base]])

namespace Call

/-- The components in a call. -/
def components : Call → Nat
  | weave paths => paths.flatten.length
  | interleave cs ds => cs.length + ds.length
  | unify cs ds => cs.length + ds.length

/-- The paths that are woven beyond the first two. -/
def further : Call → Nat
  | weave paths => paths.length - 2
  | interleave _ _ => 0
  | unify _ _ => 0

/-- Runs may have as many components as the paths that are interleaved. -/
def rank : Call → Nat
  | weave _ => 0
  | interleave _ _ => 1
  | unify _ _ => 0

/-- What gets smaller from call to call. -/
def measure (a : Call) : Nat × Nat × Nat := (a.further, a.components, a.rank)

end Call

/-- Numbers by the first, then by the second, then by the third. -/
abbrev Lower : Nat × Nat × Nat → Nat × Nat × Nat → Prop :=
  Prod.Lex (· < ·) (Prod.Lex (· < ·) (· < ·))

theorem lower_iff {m n : Nat × Nat × Nat} : Lower m n ↔
    m.1 < n.1 ∨ m.1 = n.1 ∧ (m.2.1 < n.2.1 ∨ m.2.1 = n.2.1 ∧ m.2.2 < n.2.2) := by
  rw [Lower, Prod.lex_def, Prod.lex_def]

theorem Calls.decreases {a b : Call} (h : Calls a b) : Lower b.measure a.measure := by
  rw [lower_iff]
  cases h with
  | @parents first cs woven before after hwoven hparents =>
    by_cases hfurther : 0 < before.length + after.length
    · refine Or.inl ?_
      simp only [Call.measure, Call.further, List.length_cons, List.length_append]
      omega
    · obtain rfl : before = [] := List.eq_nil_of_length_eq_zero (by omega)
      obtain rfl : after = [] := List.eq_nil_of_length_eq_zero (by omega)
      obtain rfl : woven = first := List.mem_singleton.1 hwoven
      have hpos : 0 < cs.length := by
        refine List.length_pos_iff.2 fun hnil => hparents ?_
        rw [hnil]
        rfl
      refine Or.inr ⟨rfl, Or.inl ?_⟩
      simp only [Call.measure, Call.components, List.length_dropLast, List.nil_append,
        List.flatten_cons, List.flatten_nil, List.append_nil, List.length_append]
      omega
  | runs hprepared hx hy _ =>
    have hle := length_prepared? hprepared
    have hxs := length_le_of_mem_runs hx
    have hys := length_le_of_mem_runs hy
    refine Or.inr ⟨rfl, ?_⟩
    simp only [Call.measure, Call.components, Call.rank]
    omega
  | bases _ =>
    refine Or.inr ⟨rfl, Or.inl ?_⟩
    simp only [Call.measure, Call.components, List.length_append, List.length_singleton,
      List.flatten_cons, List.flatten_nil, List.append_nil]
    omega

theorem wellFounded_calls : WellFounded fun b a => Calls a b := by
  have hlower : WellFounded (InvImage Lower Call.measure) :=
    InvImage.wf _ (WellFounded.prod_lex Nat.lt_wfRel.wf
      (WellFounded.prod_lex Nat.lt_wfRel.wf Nat.lt_wfRel.wf))
  exact Subrelation.wf (fun h => h.decreases) hlower

/-! ### No other calls -/

theorem interleaveWith_congr {unify unify' : Combine}
    (h : ∀ x y, Calls (.interleave cs ds) (.unify x y) → unify x y = unify' x y) :
    interleaveWith unify cs ds = interleaveWith unify' cs ds := by
  rw [interleaveWith_eq_prepared, interleaveWith_eq_prepared]
  cases hprepared : prepared? cs ds with
  | none => rfl
  | some r =>
    obtain ⟨leading, trailing, cs', ds'⟩ := r
    have hcommon : commonRuns unify cs' ds' = commonRuns unify' cs' ds' :=
      longestCommon_congr fun x hx y hy =>
        commonRun?_congr fun hneeds => h x y (.runs hprepared hx hy hneeds)
    simp only [hcommon]

theorem unifyWith_congr {f g : Combine}
    (h : ∀ paths, Calls (.unify cs ds) (.weave paths) → weaveWith f paths = weaveWith g paths) :
    unifyWith f cs ds = unifyWith g cs ds := by
  unfold unifyWith
  split
  · rename_i c d hc hd
    cases hbase : c.unify? d with
    | none => rfl
    | some base =>
      obtain ⟨cs, rfl⟩ := List.getLast?_eq_some_iff.1 hc
      obtain ⟨ds, rfl⟩ := List.getLast?_eq_some_iff.1 hd
      simp only [List.dropLast_concat]
      exact h _ (.bases hbase)
  · rfl

theorem appendPath_congr {f g : Combine} {woven : List (List Component)}
    (h : cs.dropLast ≠ [] → ∀ w ∈ woven, f w cs.dropLast = g w cs.dropLast) :
    appendPath f woven cs = appendPath g woven cs := by
  unfold appendPath
  split
  · rfl
  · by_cases hparents : cs.dropLast = []
    · simp [hparents]
    · have hwoven : woven.flatMap (f · cs.dropLast) = woven.flatMap (g · cs.dropLast) :=
        List.flatMap_congr (h hparents)
      simp only [hwoven]

theorem weaveWith_congr {f : Combine} {paths : List (List Component)}
    (h : ∀ x y, Calls (.weave paths) (.interleave x y) → f x y = interleave x y) :
    weaveWith f paths = weave paths := by
  cases paths with
  | nil => rfl
  | cons first rest =>
    induction rest using List.reverseRecOn with
    | nil => rfl
    | append_singleton before cs ih =>
      have hbefore : weaveWith f (first :: before) = weave (first :: before) := by
        refine ih fun x y hcall => h x y ?_
        cases hcall with
        | @parents _ cs' _ before' after hwoven hparents =>
          have hcalls : Calls (.weave (first :: before' ++ cs' :: (after ++ [cs]))) _ :=
            .parents hwoven hparents
          simpa using hcalls
      have hsnoc (g : Combine) : weaveWith g (first :: (before ++ [cs])) =
          appendPath g (weaveWith g (first :: before)) cs := by
        simp [weaveWith]
      have hlast : appendPath f (weave (first :: before)) cs =
          appendPath interleave (weave (first :: before)) cs :=
        appendPath_congr fun hparents w hw => h w _ (.parents hw hparents)
      rw [hsnoc, hbefore, hlast]
      exact (hsnoc interleave).symm

/-! ### No bound is reached -/

theorem interleaveWith_unifyWith_congr {f g : Combine}
    (h : ∀ x y, x.length + y.length < cs.length + ds.length → f x y = g x y) :
    interleaveWith (unifyWith f) cs ds = interleaveWith (unifyWith g) cs ds := by
  refine interleaveWith_congr fun x y hruns => unifyWith_congr fun paths hbases => ?_
  have hle : x.length + y.length ≤ cs.length + ds.length := by
    have hdecreases := lower_iff.1 hruns.decreases
    simp only [Call.measure, Call.further, Call.components, Call.rank] at hdecreases
    omega
  cases hbases with
  | @bases x y c d base hbase =>
    simp only [List.length_append, List.length_singleton] at hle
    have hsame : appendPath f [x] (y ++ [.compound base]) =
        appendPath g [x] (y ++ [.compound base]) := by
      refine appendPath_congr fun _ w hw => ?_
      rw [List.mem_singleton.1 hw, List.dropLast_concat]
      exact h x y (by omega)
    exact hsame

/-- Within any two bounds above the number of components the results agree. -/
theorem interleaveTo_bound {m n : Nat} (hm : cs.length + ds.length ≤ m)
    (hn : cs.length + ds.length ≤ n) : interleaveTo m cs ds = interleaveTo n cs ds := by
  have hnil {cs ds : List Component} (hzero : cs.length + ds.length ≤ 0) (m : Nat) :
      interleaveTo m cs ds = [[]] := by
    obtain rfl : cs = [] := List.eq_nil_of_length_eq_zero (by omega)
    obtain rfl : ds = [] := List.eq_nil_of_length_eq_zero (by omega)
    cases m <;> rfl
  induction m generalizing n cs ds with
  | zero => rw [hnil hm, hnil hm]
  | succ m ih =>
    cases n with
    | zero => rw [hnil hn, hnil hn]
    | succ n => exact interleaveWith_unifyWith_congr fun x y hlt => ih (by omega) (by omega)

/-- A function that interleaves by the recursion, without any bound. -/
def IsInterleaving (f : Combine) : Prop := ∀ cs ds, f cs ds = interleaveWith (unifyWith f) cs ds

theorem isInterleaving_interleave : IsInterleaving interleave := by
  intro cs ds
  have hsucc : interleave cs ds = interleaveTo (cs.length + ds.length + 1) cs ds :=
    interleaveTo_bound le_rfl (Nat.le_succ _)
  rw [hsucc]
  exact interleaveWith_unifyWith_congr fun x y hlt => interleaveTo_bound hlt.le le_rfl

/-- The recursion has one solution. -/
theorem isInterleaving_iff {f : Combine} : IsInterleaving f ↔ f = interleave := by
  refine ⟨fun hf => ?_, fun h => h ▸ isInterleaving_interleave⟩
  funext cs ds
  generalize hn : cs.length + ds.length = n
  induction n using Nat.strong_induction_on generalizing cs ds with
  | _ n ih =>
    rw [hf cs ds, isInterleaving_interleave cs ds]
    exact interleaveWith_unifyWith_congr fun x y hlt => ih _ (hn ▸ hlt) x y rfl

/-- The result of a call depends on the calls to which it leads and on nothing else. -/
theorem interleaveWith_eq_interleave {f : Combine}
    (h : ∀ x y, Relation.TransGen Calls (.interleave cs ds) (.interleave x y) →
      f x y = interleave x y) :
    interleaveWith (unifyWith f) cs ds = interleave cs ds := by
  rw [isInterleaving_interleave cs ds]
  refine interleaveWith_congr fun x y hruns => unifyWith_congr fun paths hbases => ?_
  exact weaveWith_congr fun a b hparents => h a b (.head hruns (.head hbases (.single hparents)))

/-- Weaving terminates. -/
structure Terminates : Prop where
  /-- Each round of merging leaves fewer components. -/
  rounds_shorten : ∀ cs ds step, MergeStep cs ds step →
    step.2.1.length + step.2.2.length < cs.length + ds.length
  rounds_wellFounded : WellFounded fun b a : List Component × List Component =>
    ∃ choice, MergeStep a.1 a.2 (choice, b.1, b.2)
  /-- A round takes one step and goes on with what is left, or it ends merging. -/
  rounds : ∀ cs ds, (∃ result, ∀ again, mergeBy again cs ds = result) ∨
    ∃ step, MergeStep cs ds step ∧ ∀ again, mergeBy again cs ds =
      (again step.2.1 step.2.2).map fun r => (r.1 ++ [step.1], r.2.1, r.2.2)
  /-- The loop without a bound defines what merging finds. -/
  rounds_unique : ∀ f, IsMerging f ↔ f = fun cs ds => mergeTrailing? (cs.length + ds.length) cs ds
  /-- From call to call paths beyond two, components or calls between two interleavings get
  fewer. -/
  calls_decrease : ∀ a b, Calls a b → Lower b.measure a.measure
  calls_wellFounded : WellFounded fun b a => Calls a b
  /-- The result for two paths depends on how those paths are interleaved to which its calls lead,
  and on no others. -/
  calls : ∀ f cs ds, (∀ x y, Relation.TransGen Calls (.interleave cs ds) (.interleave x y) →
      f x y = interleave x y) → interleaveWith (unifyWith f) cs ds = interleave cs ds
  /-- The recursion without a bound defines how paths are interleaved. -/
  calls_unique : ∀ f, IsInterleaving f ↔ f = interleave
  /-- So it is for all paths that are woven, however many there are. -/
  weave : ∀ f paths, (∀ x y, Relation.TransGen Calls (.weave paths) (.interleave x y) →
      f x y = interleave x y) → weaveWith f paths = SelectorCalculus.weave paths

end Weave

/-- Weaving terminates for all sequences of components, with combinators in any place. -/
theorem weave_terminates : Weave.Terminates where
  rounds_shorten _ _ _ h := h.length_lt
  rounds_wellFounded := Weave.wellFounded_mergeStep
  rounds cs ds := (Weave.mergeBy_cases cs ds).imp_left fun ⟨result, h⟩ => ⟨result, h.2⟩
  rounds_unique _ := Weave.isMerging_iff
  calls_decrease _ _ h := h.decreases
  calls_wellFounded := Weave.wellFounded_calls
  calls _ _ _ := Weave.interleaveWith_eq_interleave
  calls_unique _ := Weave.isInterleaving_iff
  weave _ _ h := Weave.weaveWith_congr fun x y hcall => h x y (.single hcall)

end SelectorCalculus
