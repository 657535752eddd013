import SelectorCalculus.Extension.Apply
import SelectorCalculus.Proofs.EqualityLaws
import SelectorCalculus.Proofs.Picks
/-! What is woven, trimmed and collected. No step loses the last selector that equals the given
one. -/

namespace SelectorCalculus

namespace Traced

@[simp] theorem value_pure (x : α) : (pure x : Traced α).value = x := rfl

@[simp] theorem value_bind (x : Traced α) (f : α → Traced β) :
    (x >>= f).value = (f x.value).value := rfl

theorem events_bind (x : Traced α) (f : α → Traced β) :
    (x >>= f).events = x.events ++ (f x.value).events := rfl

theorem value_foldlM (f : β → α → Traced β) (xs : List α) (b : β) :
    (xs.foldlM f b).value = xs.foldl (fun b x => (f b x).value) b := by
  induction xs generalizing b with
  | nil => rfl
  | cons x xs ih => exact ih (f b x).value

end Traced

theorem zip_map_self (xs : List α) (f : α → β) : xs.zip (xs.map f) = xs.map fun x => (x, f x) := by
  simpa using List.zip_map' (l := xs) (f := id) (g := f)

/-! ### Weaving -/

/-- Paths of one component are woven by putting them in a row. -/
theorem weave_singletons (c : Component) (cs : List Component) :
    weave ((c :: cs).map fun c => [c]) = [c :: cs] := by
  have h (woven : List (List Component)) :
      (cs.map fun c => [c]).foldl (Weave.appendPath Weave.interleave) woven =
        woven.map (· ++ cs) := by
    induction cs generalizing woven with
    | nil => simp
    | cons c cs ih =>
      rw [List.map_cons, List.foldl_cons, ih]
      simp [Weave.appendPath]
  simpa [weave, Weave.weaveWith] using h [[c]]

/-! ### Collecting without repetition -/

/-- Adds an element unless one that it is alike is there. -/
def addUnless (alike : α → α → Bool) (found : List α) (x : α) : List α :=
  if found.any (alike x) then found else found ++ [x]

section Collecting

variable {alike : α → α → Bool} {xs found : List α} {x : α}

theorem mem_addUnless (h : x ∈ addUnless alike found y) : x ∈ found ∨ x = y := by
  unfold addUnless at h
  split at h
  · exact Or.inl h
  · exact (List.mem_append.1 h).imp_right List.mem_singleton.1

theorem mem_of_mem_foldl_addUnless (h : x ∈ xs.foldl (addUnless alike) found) :
    x ∈ found ∨ x ∈ xs := by
  induction xs generalizing found with
  | nil => exact Or.inl h
  | cons y xs ih =>
    rcases ih h with h | h
    · rcases mem_addUnless h with h | rfl
      · exact Or.inl h
      · exact Or.inr (List.mem_cons_self ..)
    · exact Or.inr (List.mem_cons_of_mem _ h)

theorem subset_foldl_addUnless (alike : α → α → Bool) (xs found : List α) :
    found ⊆ xs.foldl (addUnless alike) found := by
  induction xs generalizing found with
  | nil => exact fun _ h => h
  | cons x xs ih =>
    refine fun y h => ih _ ?_
    unfold addUnless
    split
    · exact h
    · exact List.mem_append_left _ h

/-- For everything that is collected something alike is there. -/
theorem exists_alike_mem_foldl_addUnless (hrefl : ∀ x, alike x x) (hx : x ∈ xs) (found : List α) :
    ∃ y ∈ xs.foldl (addUnless alike) found, alike x y := by
  induction xs generalizing found with
  | nil => cases hx
  | cons y xs ih =>
    rcases List.mem_cons.1 hx with rfl | hx
    · have hadded : ∃ y ∈ addUnless alike found x, alike x y := by
        unfold addUnless
        split
        · rename_i h
          exact List.any_eq_true.1 h
        · exact ⟨x, by simp, hrefl x⟩
      obtain ⟨y, hy, hxy⟩ := hadded
      exact ⟨y, subset_foldl_addUnless alike xs _ hy, hxy⟩
    · exact ih hx _

theorem pairwise_foldl_addUnless (xs : List α) (h : found.Pairwise fun x y => ¬ alike y x) :
    (xs.foldl (addUnless alike) found).Pairwise fun x y => ¬ alike y x := by
  induction xs generalizing found with
  | nil => exact h
  | cons x xs ih =>
    refine ih ?_
    unfold addUnless
    split
    · exact h
    · rename_i hnone
      refine List.pairwise_append.2 ⟨h, List.pairwise_singleton _ _, fun y hy z hz halike => ?_⟩
      rw [List.mem_singleton.1 hz] at halike
      exact hnone (List.any_eq_true.2 ⟨y, hy, halike⟩)

end Collecting

namespace Apply

theorem addComplex_eq : addComplex = addUnless Complex.equal := rfl

theorem addOption_eq : addOption = addUnless equalPaths := rfl

theorem addDistinct_eq : addDistinct = addUnless Simple.equal := rfl

theorem value_collectAlternatives (parts : List (Traced (List Complex × Bool)))
    (found : SelectorList) (modified : Bool) :
    (collectAlternatives parts found modified).value =
      ((parts.flatMap fun p => p.value.1).foldl addComplex found,
        modified || parts.any fun p => p.value.2) := by
  induction parts generalizing found modified with
  | nil => simp [collectAlternatives]
  | cons p parts ih => simp [collectAlternatives, ih, List.foldl_append, Bool.or_assoc]

theorem value_collectSimples {parts : List (Simple × Traced (Option (List Simple)))}
    (h : ∀ p ∈ parts, p.2.value = none) (found : List Simple) (modified : Bool) :
    (collectSimples parts found modified).value = (found ++ parts.map Prod.fst, modified) := by
  induction parts generalizing found with
  | nil => simp [collectSimples]
  | cons p parts ih =>
    obtain ⟨hp, h⟩ := List.forall_mem_cons.1 h
    simp only [collectSimples, Traced.value_bind, hp, ih h]
    simp

theorem value_collectChoices (parts : List (Component × Traced (Option (List (List Component))))) :
    (collectChoices parts).value =
      (parts.map fun p => p.2.value.getD [[p.1]], parts.any fun p => p.2.value.isSome) := by
  induction parts with
  | nil => rfl
  | cons p parts ih => simp [collectChoices, ih]

end Apply

/-! ### Trimming -/

namespace Trim

variable {sources : Sources} {isGiven : Complex → Bool}

theorem mem_keep_iff {c d : Complex} {earlier kept : List Complex} :
    c ∈ earlier ∨ c ∈ kept ++ [d] ↔ c ∈ d :: earlier ∨ c ∈ kept := by
  rw [List.mem_append, List.mem_singleton, List.mem_cons]
  tauto

theorem mem_of_mem_trimFrom {l kept : List Complex} {c : Complex}
    (h : c ∈ (trimFrom sources isGiven l kept).value) : c ∈ l ∨ c ∈ kept := by
  fun_induction trimFrom sources isGiven l kept with
  | case1 kept => exact Or.inr (List.mem_reverse.1 h)
  | case2 d earlier kept _ _ ih => exact (ih h).imp_left (List.mem_cons_of_mem _)
  | case3 d earlier kept _ _ ih => exact mem_keep_iff.1 (ih h)
  | case4 d earlier kept _ _ cover _ ih => exact (ih h).imp_left (List.mem_cons_of_mem _)
  | case5 d earlier kept _ _ _ ih => exact mem_keep_iff.1 (ih h)

/-- A given selector stays for as long as there is one. -/
theorem exists_given_mem_trimFrom {l kept : List Complex}
    (h : (∃ c ∈ kept, isGiven c) ∨ ∃ c ∈ l, isGiven c) :
    ∃ c ∈ (trimFrom sources isGiven l kept).value, isGiven c := by
  fun_induction trimFrom sources isGiven l kept with
  | case1 kept => simpa using h
  | case2 d earlier kept _ hk ih =>
    obtain ⟨o, ho, hg⟩ := List.any_eq_true.1 hk
    simp only [Bool.and_eq_true] at hg
    exact ih (Or.inl ⟨o, ho, hg.1⟩)
  | case3 d earlier kept hd _ ih => exact ih (Or.inl ⟨d, by simp, hd⟩)
  | case4 d earlier kept hd _ cover _ ih =>
    rcases h with h | ⟨c, hc, hg⟩
    · exact ih (Or.inl h)
    · rcases List.mem_cons.1 hc with rfl | hc
      · exact absurd hg hd
      · exact ih (Or.inr ⟨c, hc, hg⟩)
  | case5 d earlier kept hd _ _ ih =>
    rcases h with ⟨c, hc, hg⟩ | ⟨c, hc, hg⟩
    · exact ih (Or.inl ⟨c, List.mem_append_left _ hc, hg⟩)
    · rcases List.mem_cons.1 hc with rfl | hc
      · exact absurd hg hd
      · exact ih (Or.inr ⟨c, hc, hg⟩)

/-- Whether one selector can be left out for another: a given one for one that equals it, any other
one for a selector that covers it. -/
def GivesWay (sources : Sources) (isGiven : Complex → Bool) (c d : Complex) : Prop :=
  (isGiven c ∧ isGiven d ∧ d.equal c) ∨ (¬ isGiven c ∧ covers (sources.weightOf c) d c)

/-- From every selector a chain leads to one that stays. Each step goes from a selector that is left
out to what it is left out for. -/
theorem exists_chain_mem_trimFrom {P : Complex → Prop} {l kept : List Complex}
    (hP : ∀ c, c ∈ l ∨ c ∈ kept → P c) {c : Complex} (hc : c ∈ l ∨ c ∈ kept) :
    ∃ d ∈ (trimFrom sources isGiven l kept).value,
      Relation.ReflTransGen (fun c d => P c ∧ P d ∧ GivesWay sources isGiven c d) c d := by
  have hrest {d : Complex} {earlier kept : List Complex}
      (hP : ∀ c, c ∈ d :: earlier ∨ c ∈ kept → P c) (c : Complex) (hc : c ∈ earlier ∨ c ∈ kept) :
      P c :=
    hP c (hc.imp_left (List.mem_cons_of_mem _))
  fun_induction trimFrom sources isGiven l kept generalizing c with
  | case1 kept => exact ⟨c, by simpa using hc, .refl⟩
  | case2 d earlier kept hd hk ih =>
    rw [List.mem_cons, or_assoc] at hc
    rcases hc with rfl | hc
    · obtain ⟨o, ho, heq⟩ := List.any_eq_true.1 hk
      simp only [Bool.and_eq_true] at heq
      have hPc : P c := hP c (Or.inl (List.mem_cons_self ..))
      have hstep : GivesWay sources isGiven c o := Or.inl ⟨hd, heq⟩
      obtain ⟨e, he, hchain⟩ := ih (hrest hP) (Or.inr ho)
      exact ⟨e, he, .head ⟨hPc, hP o (Or.inr ho), hstep⟩ hchain⟩
    · exact ih (hrest hP) hc
  | case3 d earlier kept _ _ ih =>
    exact ih (fun c hc => hP c (mem_keep_iff.1 hc)) (mem_keep_iff.2 hc)
  | case4 d earlier kept hd _ cover hfind ih =>
    rw [List.mem_cons, or_assoc] at hc
    rcases hc with rfl | hc
    · have hmem : cover ∈ earlier ∨ cover ∈ kept := by
        have := List.mem_of_find?_eq_some hfind
        rw [List.mem_append, List.mem_reverse] at this
        exact this.symm
      have hPc : P c := hP c (Or.inl (List.mem_cons_self ..))
      have hcovers := List.find?_some hfind
      have hstep : GivesWay sources isGiven c cover := Or.inr ⟨hd, hcovers⟩
      obtain ⟨e, he, hchain⟩ := ih (hrest hP) hmem
      exact ⟨e, he, .head ⟨hPc, hrest hP cover hmem, hstep⟩ hchain⟩
    · exact ih (hrest hP) hc
  | case5 d earlier kept _ _ _ ih =>
    exact ih (fun c hc => hP c (mem_keep_iff.1 hc)) (mem_keep_iff.2 hc)

end Trim

theorem mem_of_mem_trim {sources : Sources} {limit : Int} {isGiven : Complex → Bool}
    {l : List Complex} {c : Complex} (h : c ∈ (trim sources limit isGiven l).value) : c ∈ l := by
  unfold trim at h
  split at h
  · exact h
  · simpa using Trim.mem_of_mem_trimFrom h

theorem exists_given_mem_trim {sources : Sources} {limit : Int} {isGiven : Complex → Bool}
    {l : List Complex} (h : ∃ c ∈ l, isGiven c) :
    ∃ c ∈ (trim sources limit isGiven l).value, isGiven c := by
  unfold trim
  split
  · exact h
  · exact Trim.exists_given_mem_trimFrom (Or.inr (by simpa using h))

theorem exists_chain_mem_trim_of_mem {sources : Sources} {limit : Int} {isGiven : Complex → Bool}
    {l : List Complex} {c : Complex} (hc : c ∈ l) :
    ∃ d ∈ (trim sources limit isGiven l).value, Relation.ReflTransGen
      (fun c d => c ∈ l ∧ d ∈ l ∧ Trim.GivesWay sources isGiven c d) c d := by
  unfold trim
  split
  · exact ⟨c, hc, .refl⟩
  · apply Trim.exists_chain_mem_trimFrom
    · simp
    · simpa using hc

/-- From a selector that is trimmed away a chain of covering selectors leads to one that stays. -/
theorem exists_chain_mem_trim {sources : Sources} {limit : Int} {isGiven : Complex → Bool}
    {l : List Complex} (hl : l.Pairwise fun c d => ¬ d.equal c) {c : Complex} (hc : c ∈ l) :
    ∃ d ∈ (trim sources limit isGiven l).value,
      Relation.ReflTransGen (fun c d => d.isSuperselectorOf c) c d := by
  obtain ⟨d, hd, hchain⟩ := exists_chain_mem_trim_of_mem hc
  refine ⟨d, hd, hchain.lift' id ?_⟩
  rintro c d ⟨hc, hd, ⟨-, -, hequal⟩ | ⟨-, hcovers⟩⟩
  · have : Std.Symm fun c d : Complex => ¬ d.equal c :=
      ⟨fun _ _ h h' => h (Complex.equal_symm h')⟩
    have hsame : c = d := by
      by_contra hne
      exact hl.forall hc hd hne hequal
    exact hsame ▸ .refl
  · simp only [Trim.covers, Bool.and_eq_true] at hcovers
    exact .single hcovers.2

end SelectorCalculus
