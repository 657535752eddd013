import SelectorCalculus.Proofs.ExtensionSteps
/-! What trimming leaves of a list, and what makes up for the selectors that are gone. -/

namespace SelectorCalculus

namespace Trim

variable {sources : Sources} {isGiven : Complex → Bool}

/-! ### Order -/

theorem trimFrom_sublist (l kept : List Complex) :
    (trimFrom sources isGiven l kept).value.Sublist (l.reverse ++ kept.reverse) := by
  have hskip (c : Complex) (earlier kept : List Complex) :
      (earlier.reverse ++ kept.reverse).Sublist ((c :: earlier).reverse ++ kept.reverse) := by
    rw [List.reverse_cons, List.append_assoc]
    exact (List.sublist_append_right [c] kept.reverse).append_left earlier.reverse
  have hkeep (c : Complex) (earlier kept : List Complex) :
      earlier.reverse ++ (kept ++ [c]).reverse = (c :: earlier).reverse ++ kept.reverse := by
    simp
  fun_induction trimFrom sources isGiven l kept with
  | case1 kept => exact List.Sublist.refl _
  | case2 c earlier kept _ _ ih => exact ih.trans (hskip c earlier kept)
  | case3 c earlier kept _ _ ih => exact hkeep c earlier kept ▸ ih
  | case4 c earlier kept _ _ cover _ ih => exact ih.trans (hskip c earlier kept)
  | case5 c earlier kept _ _ _ ih => exact hkeep c earlier kept ▸ ih

/-! ### Nothing superfluous -/

/-- Neither of two selectors can be left out for the other. -/
def Apart (sources : Sources) (isGiven : Complex → Bool) (c d : Complex) : Prop :=
  ¬ GivesWay sources isGiven c d ∧ ¬ GivesWay sources isGiven d c

theorem Apart.symm {c d : Complex} (h : Apart sources isGiven c d) : Apart sources isGiven d c :=
  And.symm h

/-- What trimming has established when it comes to a selector: those kept are apart, and what is
still to come covers none of them. -/
structure Settled (sources : Sources) (isGiven : Complex → Bool) (l kept : List Complex) : Prop where
  apart : kept.Pairwise (Apart sources isGiven)
  uncovered : ∀ c ∈ kept, ¬ isGiven c → ∀ d ∈ l, ¬ covers (sources.weightOf c) d c

namespace Settled

variable {c : Complex} {earlier kept : List Complex}

theorem skip (h : Settled sources isGiven (c :: earlier) kept) :
    Settled sources isGiven earlier kept where
  apart := h.apart
  uncovered d hd hgiven e he := h.uncovered d hd hgiven e (List.mem_cons_of_mem _ he)

theorem keep (h : Settled sources isGiven (c :: earlier) kept)
    (hkept : ∀ d ∈ kept, ¬ GivesWay sources isGiven c d)
    (hearlier : ¬ isGiven c → ∀ d ∈ earlier, ¬ covers (sources.weightOf c) d c) :
    Settled sources isGiven earlier (kept ++ [c]) where
  apart := by
    apply List.pairwise_append.2
    refine ⟨h.apart, List.pairwise_singleton _ _, ?_⟩
    intro d hd e he
    rw [List.mem_singleton.1 he]
    refine ⟨?_, hkept d hd⟩
    intro hgives
    rcases hgives with ⟨hgiven, hgiven', hequal⟩ | ⟨hgiven, hcovers⟩
    · exact hkept d hd (Or.inl ⟨hgiven', hgiven, Complex.equal_symm hequal⟩)
    · exact h.uncovered d hd hgiven c (List.mem_cons_self ..) hcovers
  uncovered := by
    intro d hd hgiven e he
    rcases List.mem_append.1 hd with hd | hd
    · exact h.uncovered d hd hgiven e (List.mem_cons_of_mem _ he)
    · rw [List.mem_singleton.1 hd] at hgiven ⊢
      exact hearlier hgiven e he

end Settled

theorem pairwise_trimFrom {l kept : List Complex} (h : Settled sources isGiven l kept) :
    (trimFrom sources isGiven l kept).value.Pairwise (Apart sources isGiven) := by
  fun_induction trimFrom sources isGiven l kept with
  | case1 kept => exact List.pairwise_reverse.2 (h.apart.imp Apart.symm)
  | case2 c earlier kept _ _ ih => exact ih h.skip
  | case3 c earlier kept hc hnone ih =>
    apply ih
    apply h.keep
    · intro d hd hgives
      rcases hgives with ⟨-, hgiven, hequal⟩ | ⟨hgiven, -⟩
      · exact hnone (List.any_eq_true.2 ⟨d, hd, Bool.and_eq_true_iff.2 ⟨hgiven, hequal⟩⟩)
      · exact hgiven hc
    · intro hgiven
      exact absurd hc hgiven
  | case4 c earlier kept _ _ cover _ ih => exact ih h.skip
  | case5 c earlier kept hc _ hnone ih =>
    have hfind := List.find?_eq_none.1 hnone
    apply ih
    apply h.keep
    · intro d hd hgives
      rcases hgives with ⟨hgiven, -, -⟩ | ⟨-, hcovers⟩
      · exact hc hgiven
      · exact hfind d (List.mem_append_left _ hd) hcovers
    · intro _ d hd
      exact hfind d (List.mem_append_right _ (List.mem_reverse.2 hd))

end Trim

open Trim

section

variable (sources : Sources) (limit : Int) (isGiven : Complex → Bool) (l : List Complex)

theorem trim_of_lt (h : limit < l.length) : (trim sources limit isGiven l).value = l := by
  unfold trim
  rw [if_pos h]
  rfl

theorem trim_of_le (h : l.length ≤ limit) :
    (trim sources limit isGiven l).value = (trimFrom sources isGiven l.reverse []).value := by
  unfold trim
  rw [if_neg (by omega)]

theorem trim_sublist : (trim sources limit isGiven l).value.Sublist l := by
  by_cases h : limit < l.length
  · rw [trim_of_lt sources limit isGiven l h]
  · rw [trim_of_le sources limit isGiven l (by omega)]
    have h := @trimFrom_sublist sources isGiven l.reverse []
    rwa [List.reverse_reverse, List.reverse_nil, List.append_nil] at h

theorem pairwise_trim (h : l.length ≤ limit) :
    (trim sources limit isGiven l).value.Pairwise (Apart sources isGiven) := by
  rw [trim_of_le sources limit isGiven l h]
  exact pairwise_trimFrom ⟨List.Pairwise.nil, by simp⟩

end

/-- Trimming leaves a part of the list, in order, and all of it if it is too long. Otherwise nothing
that is left can be left out for something else. Each selector that equals the given one has a
selector that equals it in what is left, and from each selector of the list a chain leads there: a
step goes from one that equals the given one to one that equals it as well, or from another one to
one above it that is at least as specific as its sources. -/
theorem trim_loses_nothing (sources : Sources) (limit : Int) (given : Complex)
    (l : List Complex) :
    let trimmed := (trim sources limit given.equal l).value
    trimmed.Sublist l ∧
    (limit < l.length → trimmed = l) ∧
    (l.length ≤ limit → trimmed.Pairwise (Apart sources given.equal)) ∧
    (∀ c ∈ l, given.equal c → ∃ d ∈ trimmed, d.equal c) ∧
    ∀ c ∈ l, ∃ d ∈ trimmed, Relation.ReflTransGen (fun c d => c ∈ l ∧ d ∈ l ∧
      ((given.equal c ∧ given.equal d ∧ d.equal c) ∨ (¬ given.equal c ∧
        sources.weightOf c ≤ d.specificity.min ∧ d.isSuperselectorOf c))) c d := by
  intro trimmed
  refine ⟨trim_sublist .., trim_of_lt sources limit given.equal l,
    pairwise_trim sources limit given.equal l, ?_, ?_⟩
  · intro c hc hgiven
    obtain ⟨d, hd, hgiven'⟩ : ∃ d ∈ trimmed, given.equal d :=
      exists_given_mem_trim ⟨c, hc, hgiven⟩
    exact ⟨d, hd, Complex.equal_trans (Complex.equal_symm hgiven') hgiven⟩
  · intro c hc
    obtain ⟨d, hd, hchain⟩ := @exists_chain_mem_trim_of_mem sources limit given.equal l c hc
    refine ⟨d, hd, hchain.lift id ?_⟩
    intro c d hstep
    obtain ⟨hc, hd, hgives⟩ := hstep
    refine ⟨hc, hd, hgives.imp_right ?_⟩
    simp [covers]

/-- Of `.a .d`, `.a.x .d` and `.a + .a.x .d` only the first is left, though it is not above the
last: the second one is on the way. -/
theorem trim_loses_nothing_chain :
    let name (s : String) : Simple := { kind := .className, name := s }
    let subject : Component := .compound (.ofSimples [name "d"])
    let b : Component := .compound (.ofSimples [name "a", name "x"])
    let first := Complex.ofComponents [.compound (.ofSimples [name "a"]), subject]
    let second := Complex.ofComponents [b, subject]
    let third := Complex.ofComponents
      [.compound (.ofSimples [name "a"]), .combinator .adjacent, b, subject]
    let l := [first, second, third]
    (trim {} 3 (Complex.ofComponents [subject]).equal l).value = [first] ∧
      ¬ first.isSuperselectorOf third ∧
      Relation.ReflTransGen (fun c d => d.isSuperselectorOf c) third first := by
  intro name subject b first second third l
  have hvalue : (trim {} 3 (Complex.ofComponents [subject]).equal l).value = [first] := rfl
  refine ⟨hvalue, by decide, ?_⟩
  obtain ⟨-, -, -, -, hchain⟩ := trim_loses_nothing {} 3 (Complex.ofComponents [subject]) l
  obtain ⟨d, hd, hchain⟩ := hchain third (by simp [l])
  rw [hvalue, List.mem_singleton] at hd
  subst hd
  apply hchain.lift' id
  intro c d hstep
  obtain ⟨hc, -, ⟨hgiven, -⟩ | ⟨-, -, habove⟩⟩ := hstep
  · have hnone : ∀ c ∈ l, (Complex.ofComponents [subject]).equal c = false := by
      simp only [l, List.forall_mem_cons]
      exact ⟨rfl, rfl, rfl, by simp⟩
    rw [hnone c hc] at hgiven
    cases hgiven
  · exact .single habove

end SelectorCalculus
