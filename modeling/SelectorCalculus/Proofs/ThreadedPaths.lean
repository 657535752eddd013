import SelectorCalculus.Proofs.DescendantPaths
/-! A walk of the superselector check leaves a thread behind, which leads from each compound of the
first path to one of the second. -/

namespace SelectorCalculus

open Superselector

/-- Each of the first compounds is related to one of the second, in the same order, and the last to
the last. -/
inductive Threads (R : Compound → Compound → Prop) : List Compound → List Compound → Prop
  | last {c d : Compound} (h : R c d) : Threads R [c] [d]
  | take {c d : Compound} {cs ds : List Compound} (h : R c d) (rest : Threads R cs ds) :
    Threads R (c :: cs) (d :: ds)
  | skip {d : Compound} {cs ds : List Compound} (rest : Threads R cs ds) : Threads R cs (d :: ds)

namespace Threads

variable {R S T : Compound → Compound → Prop} {c d : Compound} {bs cs ds : List Compound}

theorem ne_nil (h : Threads R cs ds) : cs ≠ [] := by
  induction h with
  | last _ => simp
  | take _ _ _ => simp
  | skip _ ih => exact ih

theorem not_nil_right (h : Threads R cs []) : False := by
  cases h

theorem skips (h : Threads R cs ds) (es : List Compound) : Threads R cs (es ++ ds) := by
  induction es with
  | nil => exact h
  | cons e es ih => exact .skip ih

theorem length_le (h : Threads R cs ds) : cs.length ≤ ds.length := by
  induction h with
  | last _ => simp
  | take _ _ ih => simpa using ih
  | skip _ ih => exact Nat.le_succ_of_le ih

theorem exists_last (h : Threads R cs (ds ++ [d])) : ∃ cs' c, cs = cs' ++ [c] ∧ R c d := by
  generalize hes : ds ++ [d] = es at h
  induction h generalizing ds with
  | @last c d' h =>
    cases ds with
    | nil =>
      obtain rfl : d = d' := by simpa using hes
      exact ⟨[], c, rfl, h⟩
    | cons e ds => simp at hes
  | @take c d' cs es _ rest ih =>
    cases ds with
    | nil =>
      obtain ⟨-, rfl⟩ := List.cons.inj hes
      exact rest.not_nil_right.elim
    | cons e ds =>
      obtain ⟨cs', c', rfl, h⟩ := ih (List.cons.inj hes).2
      exact ⟨c :: cs', c', rfl, h⟩
  | skip rest ih =>
    cases ds with
    | nil =>
      obtain ⟨-, rfl⟩ := List.cons.inj hes
      exact rest.not_nil_right.elim
    | cons e ds => exact ih (List.cons.inj hes).2

theorem of_singleton (h : Threads R [c] (ds ++ [d])) : R c d := by
  obtain ⟨cs', c', hcs, hcd⟩ := h.exists_last
  obtain ⟨-, rfl⟩ : cs' = [] ∧ c = c' := by cases cs' <;> simp_all
  exact hcd

theorem uncons (h : Threads R (c :: cs) ds) (hcs : cs ≠ []) :
    ∃ before d after, ds = before ++ d :: after ∧ R c d ∧ Threads R cs after := by
  induction ds with
  | nil => exact h.not_nil_right.elim
  | cons e ds ih =>
    cases h with
    | last _ => exact absurd rfl hcs
    | take hce rest => exact ⟨[], e, ds, rfl, hce, rest⟩
    | skip rest =>
      obtain ⟨before, d, after, rfl, hcd, hrest⟩ := ih rest
      exact ⟨e :: before, d, after, rfl, hcd, hrest⟩

theorem trans (hT : ∀ b ∈ bs, ∀ c ∈ cs, ∀ d ∈ ds, R b c → S c d → T b d) (hbc : Threads R bs cs)
    (hcd : Threads S cs ds) : Threads T bs ds := by
  induction hcd generalizing bs with
  | @last c d hS =>
    cases hbc with
    | last hR => exact .last (hT _ (by simp) c (by simp) d (by simp) hR hS)
    | take _ rest => exact rest.not_nil_right.elim
    | skip rest => exact rest.not_nil_right.elim
  | @take c d cs ds hS hcd ih =>
    have hT' : ∀ b ∈ bs, ∀ c ∈ cs, ∀ d ∈ ds, R b c → S c d → T b d := fun b hb c hc d hd =>
      hT b hb c (List.mem_cons_of_mem _ hc) d (List.mem_cons_of_mem _ hd)
    cases hbc with
    | last _ => exact absurd rfl hcd.ne_nil
    | take hR rest =>
      refine .take (hT _ (by simp) c (by simp) d (by simp) hR hS) (ih (fun b hb => ?_) rest)
      exact hT' b (List.mem_cons_of_mem _ hb)
    | skip rest => exact .skip (ih hT' rest)
  | skip _ ih =>
    exact .skip (ih (fun b hb c hc d hd => hT b hb c hc d (List.mem_cons_of_mem _ hd)) hbc)

end Threads

namespace Superselector

variable {test : PathTest}

/-! ### From walks to threads -/

/-- A compound is above another behind some path. -/
def Above (test : PathTest) (c d : Compound) : Prop := ∃ parents, compoundTest test c d parents

theorem threads_of_restAfter {c : Compound} {cs : List Compound} {ds rest : List Component}
    (hrest : restAfter? (compoundTest test c) [] ds = some rest)
    (h : Threads (Above test) cs (compoundsOf rest)) :
    Threads (Above test) (c :: cs) (compoundsOf ds) := by
  obtain ⟨skipped, d, rfl, htest, -⟩ := restAfter?_eq_some hrest
  rw [compoundsOf_append, compoundsOf_compound_cons]
  exact (Threads.take ⟨_, htest⟩ h).skips _

/-- A walk leaves a thread behind. -/
theorem threads_of_walk : ∀ {cs ds : List Component}, walk test cs ds →
    Threads (Above test) (compoundsOf cs) (compoundsOf ds)
  | [], _, h => by simp [walk] at h
  | .combinator _ :: _, _, h => by simp [walk] at h
  | [.compound c], ds, h => by
    rcases List.eq_nil_or_concat ds with rfl | ⟨ds, d, rfl⟩
    · simp [walk, mayHold] at h
    · cases d with
      | combinator k => simp [walk, Component.compound?] at h
      | compound d =>
        simp only [walk, List.concat_eq_append, List.getLast?_concat, Option.bind_some,
          Component.compound?, Option.any_some, Bool.and_eq_true] at h
        rw [List.concat_eq_append, compoundsOf_append]
        exact (Threads.last ⟨_, h.2⟩).skips _
  | .compound c :: .combinator k :: rest, ds, h => by
    obtain ⟨-, k', ds', hrest, -, -, hwalk⟩ := walk_combinator_iff.1 h
    have hthreads := threads_of_walk hwalk
    exact threads_of_restAfter hrest hthreads
  | .compound c :: .compound c' :: rest, ds, h => by
    obtain ⟨-, ds', ⟨hrest, -⟩ | hrest, hwalk⟩ := walk_compound_iff.1 h
    all_goals
      have hthreads := threads_of_walk hwalk
      exact threads_of_restAfter hrest hthreads

/-! ### From threads to walks -/

/-- Whether a path names no siblings. -/
def isSiblingFree (ds : List Component) : Bool :=
  ds.all fun d => d.combinator?.all (· == .child)

theorem exists_of_isWellFormed_cons {d : Compound} {rest : List Component} (hrest : rest ≠ [])
    (hw : isWellFormed (.compound d :: rest)) (hs : isSiblingFree rest) :
    ∃ rest', isWellFormed rest' ∧ isSiblingFree rest' ∧ compoundsOf rest' = compoundsOf rest ∧
      ((rest = rest' ∧ startsWithCompound rest') ∨ rest = .combinator .child :: rest') := by
  rcases rest with _ | ⟨d' | k, rest⟩
  · exact absurd rfl hrest
  · exact ⟨.compound d' :: rest, hw, hs, rfl, Or.inl ⟨rfl, rfl⟩⟩
  · simp only [isSiblingFree, List.all_cons, Component.combinator?, Option.all_some,
      Bool.and_eq_true, beq_iff_eq] at hs
    obtain ⟨rfl, hs⟩ := hs
    exact ⟨rest, hw, hs, rfl, Or.inr rfl⟩

/-- The first compound that passes a test stands at one that passes it anyway, or before it. -/
theorem exists_restAfter {check : Compound → List Component → Bool} {d : Compound}
    (hd : ∀ before, check d before) {rest : List Component} (hrest : rest ≠ [])
    (skipped before : List Component) : ∃ skipped' d' rest', rest' ≠ [] ∧
      restAfter? check before (skipped ++ .compound d :: rest) = some rest' ∧
        skipped ++ .compound d :: rest = skipped' ++ .compound d' :: rest' ∧
          ∃ between, compoundsOf rest' = between ++ compoundsOf rest := by
  induction skipped generalizing before with
  | nil => exact ⟨[], d, rest, hrest, restAfter?_cons (hd before) hrest, rfl, [], rfl⟩
  | cons c skipped ih =>
    by_cases hc : c.compound?.any (check · before)
    · cases c with
      | combinator k => simp [Component.compound?] at hc
      | compound c =>
        refine ⟨[], c, skipped ++ .compound d :: rest, by simp, ?_, rfl,
          compoundsOf skipped ++ [d], by simp⟩
        exact restAfter?_cons (by simpa [Component.compound?] using hc) (by simp)
    · obtain ⟨skipped', d', rest', hne, hsome, hsplit, hbetween⟩ := ih (before ++ [c])
      refine ⟨c :: skipped', d', rest', hne, ?_, by rw [List.cons_append, hsplit]; rfl, hbetween⟩
      rw [List.cons_append, restAfter?_skip (by simpa using hc) (by simp)]
      exact hsome

theorem exists_of_compoundsOf_eq {ds : List Component} {d : Compound} {before after : List Compound}
    (h : compoundsOf ds = before ++ d :: after) :
    ∃ skipped rest, ds = skipped ++ .compound d :: rest ∧ compoundsOf rest = after := by
  obtain ⟨front, back, rfl, -, hback⟩ := List.filterMap_eq_append_iff.1 h
  obtain ⟨links, e, rest, rfl, -, he, hrest⟩ := List.filterMap_eq_cons_iff.1 hback
  cases e with
  | combinator k => cases he
  | compound e =>
    cases he
    exact ⟨front ++ links, rest, by simp, hrest⟩

theorem walk_of_singleton {R : Compound → Compound → Prop} {c : Compound} {ds : List Component}
    (hw : isWellFormed ds)
    (hR : ∀ d ∈ compoundsOf ds, R c d → ∀ parents, compoundTest test c d parents)
    (h : Threads R [c] (compoundsOf ds)) : walk test [.compound c] ds := by
  have hstart := (isWellFormed_iff.1 hw).1
  obtain ⟨ds', d, rfl⟩ := exists_snoc_of_isWellFormed hw
  rw [compoundsOf_append] at h
  have htest := hR d (by simp) h.of_singleton ds'
  have hmay : mayHold 0 (ds' ++ [.compound d]) := by
    simp [mayHold, hstart]
  simp [walk, hmay, Component.compound?, htest]

/-- Through a path without siblings the greedy walk finds every thread. -/
theorem walk_of_threads {R : Compound → Compound → Prop} {cs : List Compound} {ds : List Component}
    (hw : isWellFormed ds) (hs : isSiblingFree ds)
    (hR : ∀ c ∈ cs, ∀ d ∈ compoundsOf ds, R c d → ∀ parents, compoundTest test c d parents)
    (h : Threads R cs (compoundsOf ds)) : walk test (descent cs) ds := by
  have hstart := (isWellFormed_iff.1 hw).1
  induction cs generalizing ds with
  | nil => exact absurd rfl h.ne_nil
  | cons c cs ih =>
    cases cs with
    | nil => exact walk_of_singleton hw (hR c (by simp)) h
    | cons c' cs =>
      have hlen := h.length_le
      obtain ⟨before, d, after, hds, hcd, hrest⟩ := h.uncons (by simp)
      obtain ⟨skipped, rest, rfl, rfl⟩ := exists_of_compoundsOf_eq hds
      have hne : rest ≠ [] := by
        rintro rfl
        exact hrest.not_nil_right
      have htest := hR c (by simp) d (by simp) hcd
      obtain ⟨skipped', d', rest', hne', hafter, hsplit, between, hbetween⟩ :=
        exists_restAfter htest hne skipped []
      rw [hsplit] at hw hs hafter hR hlen hstart ⊢
      have hs' : isSiblingFree rest' := by
        simp only [isSiblingFree, List.all_append, List.all_cons, Bool.and_eq_true] at hs
        exact hs.2.2
      obtain ⟨ds', hw', hs', hds', hnext⟩ :=
        exists_of_isWellFormed_cons hne' (isWellFormed_of_append hw) hs'
      have hthreads : Threads R (c' :: cs) (compoundsOf ds') := by
        rw [hds', hbetween]
        exact hrest.skips between
      have hR' : ∀ c ∈ c' :: cs, ∀ d ∈ compoundsOf ds', R c d → ∀ parents,
          compoundTest test c d parents := by
        intro c hc d hd
        refine hR c (List.mem_cons_of_mem _ hc) d ?_
        rw [compoundsOf_append, compoundsOf_compound_cons, ← hds']
        exact List.mem_append_right _ (List.mem_cons_of_mem _ hd)
      have hwalk := ih hw' hs' hR' hthreads (isWellFormed_iff.1 hw').1
      have hmay : mayHold (cs.length + 1) (skipped' ++ .compound d' :: rest') := by
        have hle := List.length_filterMap_le Component.compound? (skipped' ++ .compound d' :: rest')
        simp only [mayHold, hstart, Bool.and_true, decide_eq_true_eq]
        simp only [List.length_cons] at hlen
        exact Nat.lt_of_lt_of_le hlen hle
      refine walk_compound_iff.2 ⟨by simpa using hmay, ds', ?_, hwalk⟩
      rcases hnext with ⟨rfl, hstart'⟩ | rfl
      · exact Or.inl ⟨hafter, hstart'⟩
      · exact Or.inr hafter

end Superselector

end SelectorCalculus
