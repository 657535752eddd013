import SelectorCalculus.Proofs.CompoundMeaning
import SelectorCalculus.Proofs.Reach
/-! The superselector check is sound for plain paths whose explicit combinators stand at the end. -/

namespace SelectorCalculus

open ElementTree

namespace Superselector

/-- Whether explicit combinators stand at the end only: at the last step, or at the last two. -/
def bindsAtEnd : List Component → Bool
  | [] => true
  | .compound _ :: rest => bindsAtEnd rest
  | [.combinator _, .compound _] => true
  | [.combinator _, .compound _, .combinator _, .compound _] => true
  | .combinator _ :: _ => false

theorem bindsAtEnd_combinator {k : Combinator} {rest : List Component}
    (h : bindsAtEnd (.combinator k :: rest)) :
    (∃ c, rest = [.compound c]) ∨
      ∃ c k' c', rest = [.compound c, .combinator k', .compound c'] := by
  unfold bindsAtEnd at h
  split at h <;> simp_all

variable {test : PathTest} {t : ElementTree}

/-! ### One step -/

theorem restAfter?_eq_some {check : Compound → List Component → Bool}
    {before ds rest : List Component} (h : restAfter? check before ds = some rest) :
    ∃ skipped d, ds = skipped ++ .compound d :: rest ∧ check d (before ++ skipped) ∧ rest ≠ [] := by
  fun_induction restAfter? check before ds with
  | case1 before => cases h
  | case2 before c rest' _ => cases h
  | case3 before c rest' hne hc =>
    cases h
    cases c with
    | compound d => exact ⟨[], d, rfl, by simpa [Component.compound?] using hc, by simpa using hne⟩
    | combinator k => simp [Component.compound?] at hc
  | case4 before c rest' _ _ ih =>
    obtain ⟨skipped, d, rfl, hd, hne⟩ := ih h
    exact ⟨c :: skipped, d, rfl, by simpa using hd, hne⟩

/-- A compound that passes the test holds wherever the compound found holds. -/
theorem arrive_restAfter {c : Compound} {ds rest : List Component} (hc : c.isPlain)
    (hds : isPlainPath ds) (h : restAfter? (compoundTest test c) [] ds = some rest) {S : Place}
    (hS : Lasting S) {e : Address} (he : t.arrive ds S e) :
    ∃ d, (∀ x : Subject, x.Fits d → x.Fits c) ∧ isPlainPath rest ∧
      t.arrive (.compound d :: rest) S e := by
  obtain ⟨skipped, d, rfl, htest, -⟩ := restAfter?_eq_some h
  have hplain := isPlainPath_cons.1 (isPlainPath_append.1 hds).2
  have hd : d.isPlain := isPlainPath_singleton.1 hplain.1
  exact ⟨d, fun x hx => compoundTest_sound hc hd htest hx, hplain.2, hS.arrive_of_append he⟩

theorem related_of_combinatorTest {k k' : Combinator} (h : combinatorTest k k') {x y : Address}
    (hxy : Related (some k') x y) : Related (some k) x y := by
  cases k <;> cases k' <;> simp [combinatorTest] at h <;> first | exact hxy | exact hxy.of_adjacent

theorem next_of_combinatorTest {k k' : Combinator} (h : combinatorTest k k') {c d : Compound}
    (hcd : ∀ x : Subject, x.Fits d → x.Fits c) {S : Place} (z : Address)
    (hz : t.next (some k') d S z) : t.next (some k) c S z := by
  obtain ⟨x, hx, hd, hS⟩ := hz
  exact ⟨x, related_of_combinatorTest h hx, hcd _ hd, hS⟩

/-! ### The walk -/

theorem walk_combinator_iff {c : Compound} {k : Combinator} {rest ds : List Component} :
    walk test (.compound c :: .combinator k :: rest) ds ↔
      mayHold (rest.length + 1) ds ∧ ∃ k' ds',
        restAfter? (compoundTest test c) [] ds = some (.combinator k' :: ds') ∧
          combinatorTest k k' ∧ ¬ (rest.length = 1 ∧ 3 < ds.length) ∧ walk test rest ds' := by
  rw [walk, Bool.and_eq_true]
  refine and_congr_right fun _ => ?_
  split
  · rename_i k' ds' hrest
    simp only [hrest, Bool.and_eq_true, Bool.not_eq_true', Bool.and_eq_false_iff, beq_eq_false_iff_ne,
      decide_eq_false_iff_not, Option.some.injEq, List.cons.injEq, Component.combinator.injEq]
    constructor
    · rintro ⟨⟨hk, hlen⟩, hwalk⟩
      exact ⟨k', ds', ⟨rfl, rfl⟩, hk, fun ⟨h₁, h₂⟩ => hlen.elim (· h₁) (· h₂), hwalk⟩
    · rintro ⟨_, _, ⟨rfl, rfl⟩, hk, hlen, hwalk⟩
      exact ⟨⟨hk, not_and_or.1 hlen⟩, hwalk⟩
  · rename_i hne
    exact ⟨fun h => (Bool.false_ne_true h).elim, fun ⟨k', ds', h, _⟩ => (hne k' ds' h).elim⟩

theorem walk_compound_iff {c c' : Compound} {rest ds : List Component} :
    walk test (.compound c :: .compound c' :: rest) ds ↔
      mayHold (rest.length + 1) ds ∧ ∃ ds',
        (restAfter? (compoundTest test c) [] ds = some ds' ∧ startsWithCompound ds' ∨
          restAfter? (compoundTest test c) [] ds = some (.combinator .child :: ds')) ∧
        walk test (.compound c' :: rest) ds' := by
  rw [walk, Bool.and_eq_true]
  refine and_congr_right fun _ => ?_
  split
  · rename_i k' ds' hrest
    simp only [hrest, Bool.and_eq_true, beq_iff_eq, Option.some.injEq]
    constructor
    · rintro ⟨rfl, hwalk⟩
      exact ⟨ds', Or.inr rfl, hwalk⟩
    · rintro ⟨_, ⟨rfl, hstart⟩ | heq, hwalk⟩
      · cases hstart
      · cases heq
        exact ⟨rfl, hwalk⟩
  · rename_i ds' hne hrest
    simp only [hrest, Option.some.injEq]
    constructor
    · intro hwalk
      refine ⟨ds', Or.inl ⟨rfl, ?_⟩, hwalk⟩
      cases ds' with
      | nil => exact absurd rfl (restAfter?_eq_some hrest).choose_spec.choose_spec.2.2
      | cons d ds' =>
        cases d with
        | compound d => rfl
        | combinator k => exact absurd rfl (hne k ds')
    · rintro ⟨_, ⟨rfl, -⟩ | rfl, hwalk⟩
      · exact hwalk
      · exact absurd rfl (hne _ _)
  · rename_i hrest
    simp [hrest]

theorem walk_single_sound {c : Compound} {ds : List Component} (hc : c.isPlain)
    (hds : isPlainPath ds) (h : walk test [.compound c] ds) {S : Place} (hS : Lasting S)
    {e : Address} (he : t.arrive ds S e) : t.arrive [.compound c] S e := by
  obtain ⟨ds, d, rfl⟩ := exists_snoc_of_arrive he
  obtain ⟨hd, hr⟩ := arrive_snoc_iff.1 he
  have hdp : d.isPlain := isPlainPath_singleton.1 (isPlainPath_append.1 hds).2
  simp only [walk, List.getLast?_concat, Option.bind_some, Component.compound?, Option.any_some,
    Bool.and_eq_true] at h
  exact ⟨compoundTest_sound hc hdp h.2 hd, hS.of_reach (fun _ => id) hr⟩

/-- The last step is checked against a path of one step, so nothing can stand between. -/
theorem walk_pair_sound {c c' : Compound} {k : Combinator} {ds : List Component}
    (hcs : isPlainPath [.compound c, .combinator k, .compound c']) (hds : isPlainPath ds)
    (h : walk test [.compound c, .combinator k, .compound c'] ds) {S : Place} {e : Address}
    (he : t.arrive ds S e) : t.arrive [.compound c, .combinator k, .compound c'] S e := by
  obtain ⟨hmay, k', ds', hrest, hk, hlen, hlast⟩ := walk_combinator_iff.1 h
  obtain ⟨skipped, d, rfl, htest, -⟩ := restAfter?_eq_some hrest
  have hmay' : mayHold 0 ds' := by
    rw [walk, Bool.and_eq_true] at hlast
    exact hlast.1
  obtain ⟨d', rest, rfl⟩ : ∃ d' rest, ds' = .compound d' :: rest := by
    rw [mayHold, Bool.and_eq_true] at hmay'
    exact startsWithCompound_iff.1 hmay'.2
  obtain ⟨rfl, rfl⟩ : skipped = [] ∧ rest = [] := by
    simp only [List.length_append, List.length_cons, List.length_nil, true_and] at hlen
    constructor <;> apply List.eq_nil_of_length_eq_zero <;> omega
  have hplain := isPlainPath_cons.1 (isPlainPath_cons.1 hds).2
  have hd : d.isPlain := isPlainPath_singleton.1 (isPlainPath_cons.1 hds).1
  have hd' : d'.isPlain := isPlainPath_singleton.1 hplain.2
  have hc : c.isPlain := isPlainPath_singleton.1 (isPlainPath_cons.1 hcs).1
  have hc' : c'.isPlain :=
    isPlainPath_singleton.1 (isPlainPath_cons.1 (isPlainPath_cons.1 hcs).2).2
  obtain ⟨hfit, hnext⟩ : (t.subject e).Fits d' ∧ t.next (some k') d S e := he
  have htest' : compoundTest test c' d' [] := by
    simpa [walk, mayHold, startsWithCompound, Component.isCompound, Component.compound?] using hlast
  have hcd (x : Subject) (hx : x.Fits d) : x.Fits c := compoundTest_sound hc hd htest hx
  exact ⟨compoundTest_sound hc' hd' htest' hfit, next_of_combinatorTest hk hcd e hnext⟩

/-- The walk is sound for paths that bind at the end, from every set that lasts. -/
theorem walk_sound {cs ds : List Component} (hcs : isPlainPath cs) (hds : isPlainPath ds)
    (hend : bindsAtEnd cs) (h : walk test cs ds) {S : Place} (hS : Lasting S) {e : Address}
    (he : t.arrive ds S e) : t.arrive cs S e := by
  induction cs generalizing ds S with
  | nil => simp [walk] at h
  | cons first cs ih =>
    obtain ⟨hfirst, hcs'⟩ := isPlainPath_cons.1 hcs
    cases first with
    | combinator k => simp [walk] at h
    | compound c =>
      have hc : c.isPlain := isPlainPath_singleton.1 hfirst
      cases cs with
      | nil => exact walk_single_sound hc hds h hS he
      | cons second rest =>
        cases second with
        | compound c' =>
          obtain ⟨-, ds', hrest, hwalk⟩ := walk_compound_iff.1 h
          have hstep : ∃ d, (∀ x : Subject, x.Fits d → x.Fits c) ∧ isPlainPath ds' ∧
              t.arrive ds' (t.next none d S) e := by
            rcases hrest with ⟨hrest, hstart⟩ | hrest
            · obtain ⟨d, hcd, hds', he⟩ := arrive_restAfter hc hds hrest hS he
              obtain ⟨d', ds', rfl⟩ := startsWithCompound_iff.1 hstart
              exact ⟨d, hcd, hds', he⟩
            · obtain ⟨d, hcd, hds', he⟩ := arrive_restAfter hc hds hrest hS he
              have he' : t.arrive ds' (t.next (some .child) d S) e := he
              refine ⟨d, hcd, (isPlainPath_cons.1 hds').2, arrive_mono (fun z => ?_) he'⟩
              exact fun ⟨x, hx, hd, hSx⟩ => ⟨x, hx.of_child, hd, hSx⟩
          obtain ⟨d, hcd, hds', he⟩ := hstep
          refine ih hcs' hds' hend hwalk (lasting_next_none c S) (arrive_mono (fun z => ?_) he)
          exact fun ⟨x, hx, hd, hSx⟩ => ⟨x, hx, hcd _ hd, hSx⟩
        | combinator k =>
          rcases bindsAtEnd_combinator hend with ⟨c', rfl⟩ | ⟨c', k', c'', rfl⟩
          · exact walk_pair_sound hcs hds h he
          · obtain ⟨-, k₁, ds', hrest, hk, -, hwalk⟩ := walk_combinator_iff.1 h
            obtain ⟨d, hcd, hds', he⟩ := arrive_restAfter hc hds hrest hS he
            have he' : t.arrive ds' (t.next (some k₁) d S) e := he
            have hpair := walk_pair_sound (isPlainPath_cons.1 hcs').2 (isPlainPath_cons.1 hds').2
              hwalk he'
            exact arrive_mono (next_of_combinatorTest hk hcd) hpair

theorem walk_of_pathTest {n : Nat} {cs ds : List Component} (h : pathTest n cs ds) :
    ∃ test, walk test cs ds := by
  cases n with
  | zero =>
    simp only [pathTest, layer, Bool.and_eq_true] at h
    exact ⟨_, h.2⟩
  | succ n =>
    simp only [pathTest, layer, Bool.and_eq_true] at h
    exact ⟨_, h.2⟩

end Superselector

open Superselector

theorem isSuperpath_sound {cs ds : List Component} (hcs : isPlainPath cs) (hds : isPlainPath ds)
    (hend : bindsAtEnd cs) (h : isSuperpath cs ds) : Subsumes cs ds := by
  intro t e _ he
  obtain ⟨test, hwalk⟩ := walk_of_pathTest h
  rw [matches_iff_arrive] at he ⊢
  exact walk_sound hcs hds hend hwalk lasting_anywhere he

end SelectorCalculus
