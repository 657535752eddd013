import SelectorCalculus.Proofs.CompoundOrder
import SelectorCalculus.Proofs.Disjointness
import SelectorCalculus.Proofs.SuperselectorGaps
import SelectorCalculus.Proofs.UnifyMeaning
/-! Paths without explicit combinators, on which unification and the superselector check agree. -/

namespace SelectorCalculus

open Superselector

/-! ### Embeddings -/

/-- The first compounds are above some of the second ones, in the same order. -/
def Embeds (cs ds : List Compound) : Prop :=
  List.SublistForall₂ (fun c d => c.isSuperselectorOf d) cs ds

namespace Embeds

variable {c : Compound} {cs ds cs' ds' : List Compound}

theorem of_sublist (hcs : ∀ c ∈ cs, c.isPlain) (h : cs.Sublist ds) : Embeds cs ds := by
  refine List.sublistForall₂_iff.2 ⟨cs, ?_, h⟩
  exact List.forall₂_same.2 fun c hc => Compound.isSuperselectorOf_refl (hcs c hc)

theorem mono_right (h : Embeds cs ds) (hds : ds.Sublist ds') : Embeds cs ds' := by
  obtain ⟨es, hes, hsub⟩ := List.sublistForall₂_iff.1 h
  exact List.sublistForall₂_iff.2 ⟨es, hes, hsub.trans hds⟩

theorem append (h : Embeds cs ds) (h' : Embeds cs' ds') : Embeds (cs ++ cs') (ds ++ ds') := by
  obtain ⟨es, hes, hsub⟩ := List.sublistForall₂_iff.1 h
  obtain ⟨es', hes', hsub'⟩ := List.sublistForall₂_iff.1 h'
  exact List.sublistForall₂_iff.2 ⟨es ++ es', List.rel_append hes hes', hsub.append hsub'⟩

theorem length_le (h : Embeds cs ds) : cs.length ≤ ds.length := by
  obtain ⟨es, hes, hsub⟩ := List.sublistForall₂_iff.1 h
  rw [hes.length_eq]
  exact hsub.length_le

theorem tail (h : Embeds (c :: cs) ds) : Embeds cs ds := by
  obtain ⟨es, hes, hsub⟩ := List.sublistForall₂_iff.1 h
  obtain ⟨e, es', -, hes', rfl⟩ := List.forall₂_cons_left_iff.1 hes
  exact List.sublistForall₂_iff.2 ⟨es', hes', (List.sublist_cons_self e es').trans hsub⟩

/-- The first compound may as well take the first one that it is above. -/
theorem cons_iff : Embeds (c :: cs) ds ↔
    ∃ d rest, ds.dropWhile (!c.isSuperselectorOf ·) = d :: rest ∧ Embeds cs rest := by
  induction ds with
  | nil =>
    constructor
    · intro h
      cases h
    · rintro ⟨d, rest, h, -⟩
      cases h
  | cons d ds ih =>
    cases hd : c.isSuperselectorOf d with
    | true =>
      have hdrop : (d :: ds).dropWhile (!c.isSuperselectorOf ·) = d :: ds := by simp [hd]
      rw [hdrop]
      constructor
      · intro h
        refine ⟨d, ds, rfl, ?_⟩
        cases h with
        | cons _ h => exact h
        | cons_right h => exact tail h
      · rintro ⟨_, _, heq, h⟩
        cases heq
        exact .cons hd h
    | false =>
      have hdrop : (d :: ds).dropWhile (!c.isSuperselectorOf ·) =
          ds.dropWhile (!c.isSuperselectorOf ·) := by simp [hd]
      rw [hdrop, ← ih]
      constructor
      · intro h
        cases h with
        | cons habove _ => exact absurd habove (by simp [hd])
        | cons_right h => exact h
      · exact .cons_right

end Embeds

/-! ### The greedy walk -/

/-- The path on which every compound stands for an ancestor of the next. -/
def descent (cs : List Compound) : List Component := cs.map .compound

theorem descent_append (cs ds : List Compound) : descent (cs ++ ds) = descent cs ++ descent ds :=
  List.map_append

@[simp] theorem compoundsOf_descent (cs : List Compound) : compoundsOf (descent cs) = cs := by
  induction cs with
  | nil => rfl
  | cons c cs ih => exact congrArg (c :: ·) ih

theorem descent_compoundsOf {cs : List Component} (h : cs.all Component.isCompound) :
    descent (compoundsOf cs) = cs := by
  induction cs with
  | nil => rfl
  | cons c cs ih =>
    simp only [List.all_cons, Bool.and_eq_true] at h
    cases c with
    | compound c => exact congrArg (Component.compound c :: ·) (ih h.2)
    | combinator k => exact absurd h.1 (by simp [Component.isCompound])

theorem isWellFormed_descent (cs : List Compound) (c : Compound) :
    isWellFormed (descent (cs ++ [c])) := by
  induction cs with
  | nil => rfl
  | cons d cs ih =>
    cases cs with
    | nil => rfl
    | cons e cs => exact ih

theorem isPlainPath_descent_iff {cs : List Compound} :
    isPlainPath (descent cs) ↔ ∀ c ∈ cs, c.isPlain := by
  simp [isPlainPath]

variable {test : PathTest} {c d : Compound} {cs ds : List Compound}

theorem restAfter?_descent (test : PathTest) (hc : c.isPlain) (hds : ∀ d ∈ ds, d.isPlain)
    (last : Compound) (before : List Component) :
    restAfter? (compoundTest test c) before (descent (ds ++ [last])) =
      match ds.dropWhile (!c.isSuperselectorOf ·) with
      | [] => none
      | _ :: rest => some (descent (rest ++ [last])) := by
  induction ds generalizing before with
  | nil => simp [descent, restAfter?]
  | cons d ds ih =>
    obtain ⟨hd, hds⟩ := List.forall_mem_cons.1 hds
    have hstep : restAfter? (compoundTest test c) before (descent (d :: ds ++ [last])) =
        if c.isSuperselectorOf d then some (descent (ds ++ [last]))
        else
          restAfter? (compoundTest test c) (before ++ [.compound d]) (descent (ds ++ [last])) := by
      simp [descent, restAfter?, Component.compound?, compoundTest_eq hc hd]
    rw [hstep]
    cases habove : c.isSuperselectorOf d with
    | true => simp [habove]
    | false => simpa [habove] using ih hds _

/-- The greedy walk succeeds exactly if there is an embedding that ends at the end. -/
theorem walk_descent_iff (hcs : ∀ x ∈ cs ++ [c], x.isPlain) (hds : ∀ x ∈ ds ++ [d], x.isPlain) :
    walk test (descent (cs ++ [c])) (descent (ds ++ [d])) ↔
      Embeds cs ds ∧ c.isSuperselectorOf d := by
  have hd : d.isPlain := hds d (by simp)
  induction cs generalizing ds with
  | nil =>
    have hc : c.isPlain := hcs c (by simp)
    have hmay : mayHold 0 (descent (ds ++ [d])) := by cases ds <;> rfl
    have hwalk : walk test [.compound c] (descent (ds ++ [d])) = c.isSuperselectorOf d := by
      rw [walk, hmay, Bool.true_and, descent_append]
      simp [descent, Component.compound?, compoundTest_eq hc hd]
    rw [List.nil_append, descent, List.map_singleton, hwalk]
    exact ⟨fun h => ⟨.nil, h⟩, And.right⟩
  | cons a cs ih =>
    obtain ⟨ha, hcs⟩ := List.forall_mem_cons.1 hcs
    obtain ⟨b, more, hmore⟩ : ∃ b more, cs ++ [c] = b :: more := by
      cases cs <;> exact ⟨_, _, rfl⟩
    have hpath : descent (a :: cs ++ [c]) = .compound a :: .compound b :: descent more := by
      rw [List.cons_append, hmore]
      rfl
    have hwalk : .compound b :: descent more = descent (cs ++ [c]) := by
      rw [hmore]
      rfl
    have hds' : ∀ x ∈ ds, x.isPlain := fun x hx => hds x (List.mem_append_left _ hx)
    have hfirst := restAfter?_descent test ha hds' d []
    rw [hpath, walk_compound_iff, Embeds.cons_iff, hwalk]
    cases hdrop : ds.dropWhile (!a.isSuperselectorOf ·) with
    | nil =>
      rw [hdrop] at hfirst
      simp [hfirst]
    | cons x rest =>
      rw [hdrop] at hfirst
      have hrest : ∀ y ∈ rest ++ [d], y.isPlain := by
        intro y hy
        rcases List.mem_append.1 hy with hy | hy
        · have hsub : x :: rest ⊆ ds := hdrop ▸ (List.dropWhile_sublist _).subset
          exact hds' y (hsub (List.mem_cons_of_mem _ hy))
        · exact List.mem_singleton.1 hy ▸ hd
      have ih := ih hcs hrest
      constructor
      · rintro ⟨-, ds', ⟨heq, -⟩ | heq, hw⟩
        · rw [hfirst] at heq
          cases heq
          obtain ⟨he, hl⟩ := ih.1 hw
          exact ⟨⟨x, rest, rfl, he⟩, hl⟩
        · rw [hfirst] at heq
          cases rest <;> cases heq
      · rintro ⟨⟨_, _, heq, he⟩, hl⟩
        cases heq
        have hle := (Embeds.cons_iff.2 ⟨x, rest, hdrop, he⟩).length_le
        have hlen := congrArg List.length hmore
        refine ⟨?_, _, Or.inl ⟨hfirst, ?_⟩, ih.2 ⟨he, hl⟩⟩
        · rw [mayHold, Bool.and_eq_true, decide_eq_true_eq]
          simp only [descent, List.length_append, List.length_map, List.length_cons] at hle hlen ⊢
          exact ⟨by omega, by cases ds <;> rfl⟩
        · cases rest <;> rfl

theorem isSuperpath_descent_iff (hcs : ∀ x ∈ cs ++ [c], x.isPlain)
    (hds : ∀ x ∈ ds ++ [d], x.isPlain) :
    isSuperpath (descent (cs ++ [c])) (descent (ds ++ [d])) ↔
      Embeds cs ds ∧ c.isSuperselectorOf d := by
  constructor
  · intro h
    obtain ⟨test, hwalk⟩ := walk_of_pathTest h
    exact (walk_descent_iff hcs hds).1 hwalk
  · intro h
    exact pathTest_of_walk (isWellFormed_descent cs c) (isWellFormed_descent ds d) fun test =>
      (walk_descent_iff hcs hds).2 h

theorem isSuperselectorOf_of_isParentSuperpath (hc : c.isPlain) (hd : d.isPlain)
    (h : isParentSuperpath [.compound c] [.compound d]) : c.isSuperselectorOf d := by
  simp only [isParentSuperpath, Bool.and_eq_true] at h
  set base := Compound.ofSimples [{ kind := .placeholder, name := "<temp>" }]
  have hplain {x : Compound} (hx : x.isPlain) : ∀ y ∈ [x] ++ [base], y.isPlain := by
    simpa using ⟨hx, rfl⟩
  obtain ⟨hembeds, -⟩ := (isSuperpath_descent_iff (hplain hc) (hplain hd)).1 h.2
  cases hembeds with
  | cons habove _ => exact habove
  | cons_right hnil => cases hnil

/-! ### Woven paths -/

namespace Weave

theorem singles_commonRuns {unify : Combine} (hunify : ∀ x y : Compound, x.isPlain → y.isPlain →
      ∀ p ∈ unify [.compound x] [.compound y], ∃ u : Compound, p = [.compound u] ∧ u.isPlain)
    {cs ds : List Component} (hcs : Singles (runs cs)) (hds : Singles (runs ds)) :
    Singles (commonRuns unify cs ds) := by
  intro run hrun
  obtain ⟨x, hx, y, hy, rfl | rfl | hmem⟩ := exists_of_mem_commonRuns hrun
  · exact hds run hx
  · exact hcs run hy
  · obtain ⟨c, rfl, hc⟩ := hds x hx
    obtain ⟨d, rfl, hd⟩ := hcs y hy
    exact hunify c d hc hd run hmem

theorem Singles.isPlain {left : List (List Component)} (h : Singles left) :
    ∀ c ∈ compoundsOf left.flatten, c.isPlain := by
  induction left with
  | nil => simp
  | cons run left ih =>
    obtain ⟨⟨c, rfl, hc⟩, hleft⟩ := List.forall_mem_cons.1 h
    exact List.forall_mem_cons.2 ⟨hc, ih hleft⟩

theorem embeds_of_interleaves {left right : List (List Component)} {o : List Component}
    (h : Interleaves left.flatten right.flatten o) (hleft : Singles left) :
    Embeds (compoundsOf left.flatten) (compoundsOf o) := by
  refine Embeds.of_sublist hleft.isPlain ?_
  rcases h with rfl | rfl
  · rw [compoundsOf_append]
    exact List.sublist_append_left ..
  · rw [compoundsOf_append]
    exact List.sublist_append_right ..

/-- A laid out path holds an embedding of the left one of its paths. -/
theorem LaidOut.embeds {common left right : List (List Component)} {o : List Component}
    (h : LaidOut common left right o) (hleft : Singles left) (hcommon : Singles common) :
    Embeds (compoundsOf left.flatten) (compoundsOf o) := by
  induction h with
  | last ho => exact embeds_of_interleaves ho hleft
  | run hl _ ho _ ih =>
    obtain ⟨⟨r, rfl, hr⟩, hcommon'⟩ := List.forall_mem_cons.1 hcommon
    obtain ⟨hbefore, hafter⟩ := hl.forall hleft
    have hfirst := embeds_of_interleaves ho hbefore
    have hrest := ih hafter hcommon'
    rw [compoundsOf_append, compoundsOf_append]
    rcases hl with ⟨rfl, rfl⟩ | ⟨x, rfl, hx⟩
    · rw [List.append_assoc]
      exact hfirst.mono_right (List.sublist_append_left ..)
    · obtain ⟨c, rfl, hc⟩ := hleft x (by simp)
      have hcr : Embeds [c] [r] := .cons (isSuperselectorOf_of_isParentSuperpath hc hr hx) .nil
      have := (hfirst.append hcr).append hrest
      simpa using this

/-- Runs of one compound each are unified to one compound, whatever the depth. -/
theorem exists_interleave_singles (cs ds : List Component) :
    ∃ unify, (∀ x y : Compound, x.isPlain → y.isPlain →
        ∀ p ∈ unify [.compound x] [.compound y], ∃ u : Compound, p = [.compound u] ∧ u.isPlain) ∧
      interleave cs ds = interleaveWith unify cs ds := by
  unfold interleave
  cases cs.length + ds.length with
  | zero => exact ⟨fun _ _ => [], by simp, rfl⟩
  | succ n =>
    refine ⟨unifyWith (interleaveTo n), ?_, rfl⟩
    intro x y hx hy p hp
    have hsnoc := unifyWith_snoc (interleaveTo n) [] [] x y
    simp only [List.nil_append, List.isEmpty_nil, if_true, List.map_singleton] at hsnoc
    rw [hsnoc] at hp
    cases hu : x.unify? y with
    | none => simp [hu] at hp
    | some u =>
      rw [hu] at hp
      exact ⟨u, List.mem_singleton.1 hp, isPlain_unify hu hx hy⟩

theorem isOpen_reverse_descent (cs : List Compound) : isOpen (descent cs).reverse := by
  cases hcs : cs.reverse with
  | nil => simp [descent, ← List.map_reverse, hcs, isOpen]
  | cons c rest => simp [descent, ← List.map_reverse, hcs, isOpen, Component.isCombinator,
      Component.isCompound]

theorem singles_runs_descent {cs : List Compound} (h : isPlainPath (descent cs)) :
    Singles (runs (descent cs)) :=
  singles_runs (by simp [descent, Component.isCompound]) h

/-- Two paths of compounds are interleaved to paths of compounds that hold embeddings of both. -/
theorem exists_of_mem_interleave {path : List Component} (hcs : IsStem (descent cs))
    (hds : IsStem (descent ds)) (h : path ∈ interleave (descent cs) (descent ds)) :
    ∃ es, path = descent es ∧ (∀ e ∈ es, e.isPlain) ∧ Embeds cs es ∧ Embeds ds es := by
  obtain ⟨unify, hunify, heq⟩ := exists_interleave_singles (descent cs) (descent ds)
  rw [heq] at h
  obtain ⟨r, front, back, hm, hfront, hback, rfl⟩ := exists_of_mem_interleaveWith hcs.lead hds.lead
    hcs.rootless hds.rootless h
  rw [mergeTrailing?_open (isOpen_reverse_descent cs) (isOpen_reverse_descent ds)] at hm
  cases hm
  cases hback
  simp only [List.reverse_reverse] at hfront
  have hleft := singles_runs_descent hcs.plain
  have hright := singles_runs_descent hds.plain
  have hcommon := singles_commonRuns hunify hleft hright
  have hsingle {left : List (List Component)} (hleft : Singles left) (run : List Component)
      (hrun : run ∈ left) : ∃ es, run = descent es ∧ ∀ e ∈ es, e.isPlain := by
    obtain ⟨c, rfl, hc⟩ := hleft run hrun
    exact ⟨[c], rfl, by simpa using hc⟩
  obtain ⟨es, rfl, hes⟩ := hfront.closed
    (P := fun run => ∃ es, run = descent es ∧ ∀ e ∈ es, e.isPlain) ⟨[], rfl, by simp⟩
    (by
      rintro _ _ ⟨es, rfl, hes⟩ ⟨es', rfl, hes'⟩
      exact ⟨es ++ es', (descent_append es es').symm, List.forall_mem_append.2 ⟨hes, hes'⟩⟩)
    (hsingle hcommon) (hsingle hleft) (hsingle hright)
  have hembeds := hfront.embeds hleft hcommon
  have hembeds' := hfront.symm.embeds hright hcommon
  rw [flatten_runs, compoundsOf_descent, compoundsOf_descent] at hembeds hembeds'
  exact ⟨es, by simp, hes, hembeds, hembeds'⟩

theorem interleave_descent_ne_nil (hcs : IsStem (descent cs)) (hds : IsStem (descent ds)) :
    interleave (descent cs) (descent ds) ≠ [] := by
  intro hnil
  obtain ⟨unify, -, heq⟩ := exists_interleave_singles (descent cs) (descent ds)
  rw [heq] at hnil
  rcases interleaveWith_eq_nil hcs.lead hds.lead hnil with hnone | ⟨r, hr, hroot⟩
  · rw [mergeTrailing?_open (isOpen_reverse_descent cs) (isOpen_reverse_descent ds)] at hnone
    cases hnone
  · rw [mergeTrailing?_open (isOpen_reverse_descent cs) (isOpen_reverse_descent ds)] at hr
    cases hr
    rw [List.reverse_reverse, List.reverse_reverse,
      shareRoot?_of_isRootless hcs.rootless hds.rootless] at hroot
    cases hroot

end Weave

open Weave

/-! ### Unification -/

/-- A path of plain compounds with no explicit combinator, none of which names the root. -/
structure IsDescent (cs : List Component) : Prop where
  nonempty : cs ≠ []
  compounds : cs.all Component.isCompound
  plain : isPlainPath cs
  rootless : isRootless cs

theorem IsDescent.exists_snoc {cs : List Component} (h : IsDescent cs) :
    ∃ ds d, cs = descent (ds ++ [d]) ∧ (∀ x ∈ ds ++ [d], x.isPlain) ∧ IsStem (descent ds) := by
  have hdescent := descent_compoundsOf h.compounds
  rcases List.eq_nil_or_concat (compoundsOf cs) with hnil | ⟨ds, d, hconcat⟩
  · rw [hnil] at hdescent
    exact absurd hdescent.symm h.nonempty
  · rw [hconcat, List.concat_eq_append] at hdescent
    subst hdescent
    have hordinary : IsOrdinary (descent ds ++ [.compound d]) := by
      have hsnoc := descent_append ds [d]
      exact hsnoc ▸ ⟨isWellFormed_descent ds d, h.plain, h.rootless⟩
    exact ⟨ds, d, rfl, isPlainPath_descent_iff.1 h.plain, hordinary.isStem.1⟩

/-- The results of unifying two paths of compounds: none if the last compounds exclude each other,
and else paths of compounds that hold embeddings of both before the unified compound. -/
theorem unifyPaths_descent (hcs : IsStem (descent cs)) (hds : IsStem (descent ds)) :
    match c.unify? d with
    | none => unifyPaths (descent (cs ++ [c])) (descent (ds ++ [d])) = []
    | some u => unifyPaths (descent (cs ++ [c])) (descent (ds ++ [d])) ≠ [] ∧
        ∀ path ∈ unifyPaths (descent (cs ++ [c])) (descent (ds ++ [d])), ∃ es,
          path = descent (es ++ [u]) ∧ (∀ e ∈ es, e.isPlain) ∧ Embeds cs es ∧ Embeds ds es := by
  have hsnoc (cs : List Compound) (c : Compound) :
      descent (cs ++ [c]) = descent cs ++ [.compound c] := descent_append cs [c]
  rw [hsnoc, hsnoc, unifyPaths, unifyWith_snoc]
  cases c.unify? d with
  | none => rfl
  | some u =>
    dsimp only
    split
    · rename_i hempty
      have hnil : ds = [] := by simpa [descent] using hempty
      refine ⟨by simp, fun path hpath => ⟨cs, ?_, ?_, ?_, hnil ▸ .nil⟩⟩
      · rw [hsnoc]
        simpa using hpath
      · exact isPlainPath_descent_iff.1 hcs.plain
      · exact Embeds.of_sublist (isPlainPath_descent_iff.1 hcs.plain) (List.Sublist.refl cs)
    · refine ⟨by simpa using interleave_descent_ne_nil hcs hds, fun path hpath => ?_⟩
      obtain ⟨p, hp, rfl⟩ := List.mem_map.1 hpath
      obtain ⟨es, rfl, hes, hembeds⟩ := exists_of_mem_interleave hcs hds hp
      exact ⟨es, (hsnoc es u).symm, hes, hembeds⟩

namespace Complex

/-- Unification, weaving and the superselector check agree on selectors without explicit
combinators: both selectors are found to be above whatever they are unified to, and there is
something unless their last compounds exclude each other. -/
theorem unify_isSuperselectorOf {c d : Complex} (hc : IsDescent c.components)
    (hd : IsDescent d.components) :
    (∀ r ∈ c.unify d, c.isSuperselectorOf r ∧ d.isSuperselectorOf r) ∧
      (c.unify d = [] ↔ ∃ b ∈ c.base?, ∃ b' ∈ d.base?, b.unify? b' = none) := by
  obtain ⟨cs, b, hcs, hplain, hstem⟩ := hc.exists_snoc
  obtain ⟨ds, b', hds, hplain', hstem'⟩ := hd.exists_snoc
  have hbase : c.base? = some b := by simp [base?, hcs, descent, Component.compound?]
  have hbase' : d.base? = some b' := by simp [base?, hds, descent, Component.compound?]
  have hunify := unifyPaths_descent (c := b) (d := b') hstem hstem'
  rw [unify, hcs, hds, hbase, hbase']
  cases hu : b.unify? b' with
  | none =>
    rw [hu] at hunify
    simp [hunify, hu]
  | some u =>
    rw [hu] at hunify
    obtain ⟨hne, hpaths⟩ := hunify
    refine ⟨fun r hr => ?_, by simpa [hu] using hne⟩
    obtain ⟨path, hpath, rfl⟩ := List.mem_map.1 hr
    obtain ⟨es, rfl, hes, hembeds, hembeds'⟩ := hpaths path hpath
    have hb := hplain b (by simp)
    have hb' := hplain' b' (by simp)
    have hplainR : ∀ x ∈ es ++ [u], x.isPlain :=
      List.forall_mem_append.2 ⟨hes, by simpa using isPlain_unify hu hb hb'⟩
    obtain ⟨hbu, hbu'⟩ := Compound.isSuperselectorOf_unify hb hb' hu
    rw [isSuperselectorOf, isSuperselectorOf, hcs, hds]
    exact ⟨(isSuperpath_descent_iff hplain hplainR).2 ⟨hembeds, hbu⟩,
      (isSuperpath_descent_iff hplain' hplainR).2 ⟨hembeds', hbu'⟩⟩

/-- In `.a #p .x` and `.b #p.c .y` the compounds that name `p` are taken for one. -/
theorem unify_isSuperselectorOf_shared :
    let p : Simple := { kind := .id, name := "p" }
    let c := ofComponents (descent [.ofClass "a", .ofSimples [p], .ofClass "x"])
    let d := ofComponents (descent
      [.ofClass "b", .ofSimples [p, { kind := .className, name := "c" }], .ofClass "y"])
    c.unify d ≠ [] ∧ ∀ r ∈ c.unify d, c.isSuperselectorOf r ∧ d.isSuperselectorOf r := by
  intro p c d
  have hc : IsDescent c.components := ⟨List.cons_ne_nil _ _, rfl, rfl, rfl⟩
  have hd : IsDescent d.components := ⟨List.cons_ne_nil _ _, rfl, rfl, rfl⟩
  obtain ⟨habove, hnil⟩ := unify_isSuperselectorOf hc hd
  refine ⟨fun h => ?_, habove⟩
  obtain ⟨b, hb, b', hb', hu⟩ := hnil.1 h
  cases hb
  cases hb'
  exact absurd hu (by decide)

end Complex

end SelectorCalculus
