import SelectorCalculus.Proofs.NestedChecks
/-! Where the superselector check is transitive, and gaps for every plain selector where it is
not. -/

namespace SelectorCalculus

open Superselector

namespace Superselector

variable {test : PathTest}

/-! ### Short paths -/

/-- Whether a path is one compound, or two with an explicit combinator between them. -/
def isShort : List Component → Bool
  | [.compound _] => true
  | [.compound _, .combinator _, .compound _] => true
  | _ => false

theorem isShort_iff {cs : List Component} : isShort cs ↔ (∃ c, cs = [.compound c]) ∨
    ∃ c k d, cs = [.compound c, .combinator k, .compound d] := by
  unfold isShort
  split <;> simp_all

theorem walk_step_iff {c d : Compound} {k : Combinator} {ds : List Component} :
    walk test [.compound c, .combinator k, .compound d] ds ↔ ∃ c' k' d',
      ds = [.compound c', .combinator k', .compound d'] ∧ compoundTest test c c' [] ∧
        combinatorTest k k' ∧ compoundTest test d d' [] := by
  constructor
  · intro h
    obtain ⟨hmay, k', ds', hrest, hk, hlen, hlast⟩ := walk_combinator_iff.1 h
    obtain ⟨skipped, c', rfl, htest, -⟩ := restAfter?_eq_some hrest
    obtain ⟨d', rest, rfl⟩ : ∃ d' rest, ds' = .compound d' :: rest := by
      simp only [walk, mayHold, Bool.and_eq_true] at hlast
      exact startsWithCompound_iff.1 hlast.1.2
    obtain ⟨rfl, rfl⟩ : skipped = [] ∧ rest = [] := by
      simp only [List.length_append, List.length_cons, List.length_nil, true_and] at hlen
      constructor <;> apply List.eq_nil_of_length_eq_zero <;> omega
    refine ⟨c', k', d', rfl, htest, hk, ?_⟩
    simpa [walk, mayHold, startsWithCompound, Component.isCompound, Component.compound?] using hlast
  · rintro ⟨c', k', d', rfl, hc, hk, hd⟩
    refine walk_combinator_iff.2 ⟨rfl, k', [.compound d'], restAfter?_cons hc (by simp), hk,
      by simp, ?_⟩
    simpa [walk, mayHold, startsWithCompound, Component.isCompound, Component.compound?] using hd

theorem combinatorTest_trans {k k' k'' : Combinator} (h : combinatorTest k k')
    (h' : combinatorTest k' k'') : combinatorTest k k'' := by
  revert h h'
  cases k <;> cases k' <;> cases k'' <;> decide

/-- A short path is above whatever is below a path that it is above. -/
theorem walk_trans_short {n m : Nat} {as bs cs : List Component} (has : isShort as)
    (ha : isSteadyPath as) (hb : isFilledPath bs) (hc : isSteadyPath cs) (hw : isWellFormed cs)
    (hab : walk (deeper n) as bs) (hbc : walk (deeper m) bs cs) :
    walk (deeper (nestingOfPath as + nestingOfPath cs)) as cs := by
  rcases isShort_iff.1 has with ⟨a, rfl⟩ | ⟨a, k, a', rfl⟩
  · exact walk_of_singleton hw (fun _ _ h => h)
      (threads_trans (transitiveBelow _) ha hb hc le_rfl hab hbc)
  · obtain ⟨b, k', b', rfl, hab, hk, hab'⟩ := walk_step_iff.1 hab
    obtain ⟨c, k'', c', rfl, hbc, hk', hbc'⟩ := walk_step_iff.1 hbc
    rw [isSteadyPath, List.all_eq_true] at ha hc
    rw [isFilledPath, List.all_eq_true] at hb
    have hnest {x z : Compound} (hx : x ∈ [a, a']) (hz : z ∈ [c, c']) :
        nesting.ofCompound x + nesting.ofCompound z ≤
          nestingOfPath [.compound a, .combinator k, .compound a'] +
            nestingOfPath [.compound c, .combinator k'', .compound c'] :=
      Nat.add_le_add (nesting_compound_le hx) (nesting_compound_le hz)
    refine walk_step_iff.2 ⟨c, k'', c', rfl, ?_, combinatorTest_trans hk hk', ?_⟩
    · exact compoundTest_trans (transitiveBelow _) (ha a (by simp)) (hb b (by simp))
        (hc c (by simp)) (hnest (by simp) (by simp)) hab hbc []
    · exact compoundTest_trans (transitiveBelow _) (ha a' (by simp)) (hb b' (by simp))
        (hc c' (by simp)) (hnest (by simp) (by simp)) hab' hbc' []

end Superselector

/-- The check is transitive for a first path that is short, and for one without explicit combinators
if the last path names no siblings. -/
theorem isSuperpath_trans {as bs cs : List Component} (ha : isSteadyPath as) (hb : isFilledPath bs)
    (hc : isSteadyPath cs) (hw : isWellFormed cs)
    (hshape : isShort as ∨ (as.all Component.isCompound ∧ isSiblingFree cs))
    (hab : isSuperpath as bs) (hbc : isSuperpath bs cs) : isSuperpath as cs := by
  rw [isSuperpath, pathTest_eq] at hab hbc ⊢
  have hwalk : walk (deeper (nestingOfPath as + nestingOfPath cs)) as cs := by
    rcases hshape with hshort | ⟨has, hs⟩
    · exact walk_trans_short hshort ha hb hc hw (walk_of_layer hab) (walk_of_layer hbc)
    · exact walk_trans (transitiveBelow _) ha hb hc le_rfl has hw hs (walk_of_layer hab)
        (walk_of_layer hbc)
  simp only [layer, Bool.and_eq_true] at hab hbc
  simp only [layer, hab.1.1, hbc.1.2, hwalk, Bool.and_self]

/-! ### Paths that are not short -/

def Compound.withClass (c : Compound) (name : String) : Compound :=
  { c with simples := c.simples ++ [{ kind := .className, name }] }

namespace Compound

variable {c : Compound} {name : String}

theorem isPlain_withClass (hc : c.isPlain) : (c.withClass name).isPlain := by
  refine isPlain_iff.2 fun s hs => ?_
  rcases List.mem_append.1 hs with hs | hs
  · exact isPlain_iff.1 hc s hs
  · rw [List.mem_singleton.1 hs]
    exact Simple.isPlain_of_kind (by simp)

theorem above_withClass {test : PathTest} (hc : c.isPlain) (parents : List Component) :
    compoundTest test c (c.withClass name) parents :=
  (compoundTest_iff hc (isPlain_withClass hc)).2 fun s hs =>
    ⟨s, List.mem_append_left _ hs, s.isSuperselectorOf_refl⟩

/-- A compound is not below itself with a class that it does not name. -/
theorem not_withClass_above {test : PathTest} (hc : c.isPlain)
    (hname : ∀ s ∈ c.simples, s.name ≠ name) (parents : List Component) :
    compoundTest test (c.withClass name) c parents = false := by
  rw [Bool.eq_false_iff]
  intro h
  obtain ⟨s, hs, habove⟩ := (compoundTest_iff (isPlain_withClass hc) hc).1 h
    { kind := .className, name } (List.mem_append_right _ (List.mem_singleton_self _))
  rw [Simple.isSuperselectorOf_iff_equal (by simp)] at habove
  have halike := (Simple.equal_iff.1 habove).1
  simp only [Label.alike, Bool.and_eq_true, beq_iff_eq] at halike
  exact hname s hs halike.2.symm

theorem exists_withClass (c : Compound) : ∃ name, ∀ s ∈ c.simples, s.name ≠ name := by
  obtain ⟨name, hname⟩ := Infinite.exists_notMem_finset (c.simples.map fun s => s.name).toFinset
  refine ⟨name, fun s hs heq => hname (List.mem_toFinset.2 (List.mem_map.2 ⟨s, hs, heq⟩))⟩

end Compound

/-- Three plain paths on which the check is not transitive. -/
structure IsGap (as bs cs : List Component) : Prop where
  wellFormed : isWellFormed bs ∧ isWellFormed cs
  plain : isPlainPath bs ∧ isPlainPath cs
  above : isSuperpath as bs ∧ isSuperpath bs cs
  notAbove : ¬ isSuperpath as cs

theorem IsGap.of_walk {as bs cs : List Component} (hw : isWellFormed as) (hwb : isWellFormed bs)
    (hwc : isWellFormed cs) (hb : isPlainPath bs) (hc : isPlainPath cs)
    (hab : ∀ test, walk test as bs) (hbc : ∀ test, walk test bs cs)
    (hac : ∀ test, ¬ walk test as cs) : IsGap as bs cs where
  wellFormed := ⟨hwb, hwc⟩
  plain := ⟨hb, hc⟩
  above := ⟨pathTest_of_walk hw hwb hab, pathTest_of_walk hwb hwc hbc⟩
  notAbove h := by
    obtain ⟨test, hwalk⟩ := walk_of_pathTest h
    exact hac test hwalk

/-- A path is above another if the first compound of the other that fits leaves the same rest. -/
theorem Superselector.walk_of_restAfter {test : PathTest} {c : Compound} {next ds : List Component}
    (hw : isWellFormed (.compound c :: next)) (hp : isPlainPath next) (hne : next ≠ [])
    (hlast : ∀ k rest, next = .combinator k :: rest → rest.length ≠ 1)
    (hmay : mayHold next.length ds) (h : restAfter? (compoundTest test c) [] ds = some next) :
    walk test (.compound c :: next) ds := by
  rcases next with _ | ⟨d | k, rest⟩
  · exact absurd rfl hne
  · exact walk_compound_iff.2 ⟨hmay, _, Or.inl ⟨h, rfl⟩, walk_refl hw hp⟩
  · exact walk_combinator_iff.2 ⟨hmay, k, rest, h, combinatorTest_refl k,
      fun hlen => hlast k rest rfl hlen.1, walk_refl hw (isPlainPath_cons.1 hp).2⟩

/-- If a class is added to the first compound of a path, and the compound as it was is put in front
of that, a walk that stops at the latter must be able to go on from there. -/
theorem isGap_withClass {c : Compound} {next : List Component} {s : Option Combinator}
    {name : String} (hw : isWellFormed (.compound c :: next)) (hc : c.isPlain) (hp : isPlainPath next)
    (hne : next ≠ []) (hlast : ∀ k rest, next = .combinator k :: rest → rest.length ≠ 1)
    (hname : ∀ t ∈ c.simples, t.name ≠ name)
    (hstop : ∀ test, ¬ walk test (.compound c :: next)
      (.compound c :: (link s ++ .compound (c.withClass name) :: next))) :
    IsGap (.compound c :: next) (.compound (c.withClass name) :: next)
      (.compound c :: (link s ++ .compound (c.withClass name) :: next)) := by
  have hc' : (c.withClass name).isPlain := Compound.isPlain_withClass hc
  have hplain : isPlainPath (.compound (c.withClass name) :: next) :=
    isPlainPath_cons.2 ⟨isPlainPath_singleton.2 hc', hp⟩
  have hw' : isWellFormed (.compound (c.withClass name) :: next) := by
    rcases next with _ | ⟨d | k, rest⟩ <;> exact hw
  have hlink : isPlainPath (link s ++ .compound (c.withClass name) :: next) := by
    cases s <;> exact hplain
  refine .of_walk hw hw' ((isWellFormed_cons_link _ _ s _).trans hw') hplain
    (isPlainPath_cons.2 ⟨isPlainPath_singleton.2 hc, hlink⟩) ?_ ?_ hstop
  · intro test
    exact walk_of_restAfter hw hp hne hlast (mayHold_cons le_rfl)
      (restAfter?_cons (Compound.above_withClass hc []) hne)
  · intro test
    have hlen : next.length ≤ (link s ++ .compound (c.withClass name) :: next).length := by
      rw [List.length_append, List.length_cons]
      omega
    refine walk_of_restAfter hw' hp hne hlast (mayHold_cons hlen) ?_
    rw [restAfter?_skip (by simpa [Component.compound?] using
      Compound.not_withClass_above hc hname []) (by simp)]
    cases s with
    | none => exact restAfter?_cons (compoundTest_refl hc') hne
    | some k =>
      rw [link, List.singleton_append, restAfter?_skip rfl (by simp)]
      exact restAfter?_cons (compoundTest_refl hc') hne

/-- Every plain path that is not short starts a gap. -/
theorem exists_isGap {as : List Component} (hw : isWellFormed as) (hp : isPlainPath as)
    (hshort : ¬ isShort as) : ∃ bs cs, IsGap as bs cs := by
  obtain ⟨c, next, rfl⟩ := startsWithCompound_iff.1 (isWellFormed_iff.1 hw).1
  obtain ⟨hc, hp⟩ := isPlainPath_cons.1 hp
  have hc := isPlainPath_singleton.1 hc
  obtain ⟨name, hname⟩ := c.exists_withClass
  rcases next with _ | ⟨d | k, rest⟩
  · exact absurd rfl hshort
  · refine ⟨_, _, isGap_withClass (s := some .adjacent) hw hc hp (by simp) (by simp) hname ?_⟩
    intro test h
    obtain ⟨-, ds', hrest, -⟩ := walk_compound_iff.1 h
    rw [restAfter?_cons (compoundTest_refl hc) (by simp [link])] at hrest
    rcases hrest with ⟨hrest, hstart⟩ | hrest
    · cases hrest
      cases hstart
    · cases hrest
  · refine ⟨_, _, isGap_withClass (s := none) hw hc hp (by simp) ?_ hname ?_⟩
    · intro k' rest' heq hlen
      cases heq
      obtain ⟨d, rfl⟩ := List.length_eq_one_iff.1 hlen
      cases d with
      | compound d => exact hshort rfl
      | combinator k' => cases hw
    · intro test h
      obtain ⟨-, k', ds', hrest, -⟩ := walk_combinator_iff.1 h
      rw [restAfter?_cons (compoundTest_refl hc) (by simp [link])] at hrest
      cases hrest

/-- The compound that fits whatever does not fit another. -/
def Compound.butNot (c : Compound) : Compound :=
  .ofSimples [{ kind := .pseudo, name := "not", selector := some [.ofComponents [.compound c]] }]

namespace Complex

/-- Where the check is transitive. A steady selector is above whatever is below a filled selector
that it is above, if it is short, or if it has no explicit combinators and the last selector names no
siblings. Every plain selector that is not short is above one that is above a third, and not above
the third. -/
theorem isSuperselectorOf_transitive {a : Complex} (hw : isWellFormed a.components) :
    (isSteadyPath a.components → ∀ b c : Complex, isFilledPath b.components →
      isSteadyPath c.components → isWellFormed c.components →
      (isShort a.components ∨
        (a.components.all Component.isCompound ∧ isSiblingFree c.components)) →
      a.isSuperselectorOf b → b.isSuperselectorOf c → a.isSuperselectorOf c) ∧
    (isPlainPath a.components → ¬ isShort a.components →
      ∃ b c : Complex, isWellFormed b.components ∧ isWellFormed c.components ∧
        isPlainPath b.components ∧ isPlainPath c.components ∧
        a.isSuperselectorOf b ∧ b.isSuperselectorOf c ∧ ¬ a.isSuperselectorOf c) := by
  constructor
  · intro ha b c hb hc hwc hshape hab hbc
    exact isSuperpath_trans ha hb hc hwc hshape hab hbc
  · intro hp hshort
    obtain ⟨bs, cs, hgap⟩ := exists_isGap hw hp hshort
    exact ⟨.ofComponents bs, .ofComponents cs, hgap.wellFormed.1, hgap.wellFormed.2, hgap.plain.1,
      hgap.plain.2, hgap.above.1, hgap.above.2, hgap.notAbove⟩

/-- `.a :not(.b.c)` is above `.a.x :not(.b)`, which is above `.y .a.x > :not(.b).c`. -/
theorem isSuperselectorOf_transitive_negated :
    let a := Compound.ofClass "a"
    let b := Compound.ofClass "b"
    let y := Component.compound (.ofClass "y")
    (ofComponents [.compound a, .compound (.butNot (b.withClass "c"))]).isSuperselectorOf
      (ofComponents [y, .compound (a.withClass "x"), .combinator .child,
        .compound ((Compound.butNot b).withClass "c")]) :=
  (isSuperselectorOf_transitive rfl).1 rfl
    (.ofComponents [.compound ((Compound.ofClass "a").withClass "x"),
      .compound (.butNot (.ofClass "b"))]) _ rfl rfl rfl (Or.inr ⟨rfl, rfl⟩) rfl rfl

/-- `.a .d` is above `.a.x .d`, which is above `.a + .a.x .d`, but not above the last. -/
theorem isSuperselectorOf_not_transitive :
    let a := Component.compound (.ofClass "a")
    let ax := Component.compound ((Compound.ofClass "a").withClass "x")
    let d := Component.compound (.ofClass "d")
    let first := ofComponents [a, d]
    let middle := ofComponents [ax, d]
    let last := ofComponents [a, .combinator .adjacent, ax, d]
    first.isSuperselectorOf middle ∧ middle.isSuperselectorOf last ∧
      ¬ first.isSuperselectorOf last := by
  decide

end Complex

end SelectorCalculus
