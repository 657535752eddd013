import SelectorCalculus.Proofs.ExtensionResults
/-! An extended list holds the given selectors and what each extension makes of them, or something
more general. -/

namespace SelectorCalculus

namespace Apply

theorem Group.path?_single {g : Group} {c b u : Compound}
    (hb : g.extender.components = [.compound b])
    (hu : (Compound.ofSimples (g.remainder c)).unify? b = some u) (parent : Bool) :
    g.path? c parent = some [.compound { u with parent, extended := true }] := by
  simp [path?, Complex.base?, hb, Component.compound?, hu]

variable {setting : Setting} {seen : List String} {again : String → Complex → Traced (List Complex)}

/-- Whatever the path of an applied group is extended to is among the options, up to equality. -/
theorem exists_equal_mem_optionsFor {c : Compound} {gs : List Group} {g : Group} (hg : g ∈ gs)
    (happlies : g.applies setting seen) {path : List Component}
    (hpath : g.path? c c.parent = some path) {d : Complex}
    (hd : d ∈ (again g.key (.ofComponents path)).value) (options : List (List Component)) :
    ∃ o ∈ optionsFor setting seen again c gs options, equalPaths d.components o := by
  induction gs generalizing options with
  | nil => cases hg
  | cons g' gs ih =>
    rcases List.mem_cons.1 hg with rfl | hg
    · have hadded : ∃ o ∈ (applyGroup setting seen again c c.parent options g).value,
          equalPaths d.components o := by
        rw [value_applyGroup, if_pos happlies, hpath]
        exact exists_alike_mem_foldl_addUnless components_equal_refl (List.mem_map_of_mem hd) _
      obtain ⟨o, ho, hdo⟩ := hadded
      exact ⟨o, subset_optionsFor setting seen again c gs _ ho, hdo⟩
    · exact ih hg _

/-- A path with one of the options in the place of each component is among the results, or a chain
of more general selectors leads from it to a result. -/
theorem exists_chain_mem_ofComplex {cs ds : List Component} (lineBreak : Bool)
    (h : List.Forall₂ (fun d c => [d] ∈ optionsOf setting seen again c) ds cs)
    (hsome : ∃ c ∈ cs, ((extending setting seen again).ofComponent c).value.isSome) :
    ∃ first last, (Complex.path ds lineBreak).equal first ∧
      Relation.ReflTransGen (fun c d => d.isSuperselectorOf c) first last ∧
        last ∈ ((extending setting seen again).ofComplex (.path cs lineBreak)).value.1 := by
  have hne : ds ≠ [] := by
    rintro rfl
    cases h
    simp at hsome
  obtain ⟨first, hfirst, hequal⟩ := exists_equal_mem_weaveChoices h hne lineBreak
  have hdistinct : (weaveChoices (cs.map (optionsOf setting seen again)) lineBreak).Pairwise
      fun c d => ¬ d.equal c := by
    rw [weaveChoices_eq]
    exact pairwise_foldl_addUnless _ List.Pairwise.nil
  obtain ⟨last, hlast, hchain⟩ := exists_chain_mem_trim hdistinct hfirst
  refine ⟨first, last, hequal, hchain, ?_⟩
  have hany : (Complex.path cs lineBreak).components.any fun c =>
      ((extending setting seen again).ofComponent c).value.isSome := List.any_eq_true.2 hsome
  rw [value_ofComplex, if_pos hany]
  exact hlast

theorem isSome_ofCompound (hmode : setting.mode = .normal) {c : Compound} (hc : c.isFlat)
    {o : List Component}
    (ho : o ∈ optionsFor setting seen again c (groups (setting.extensions.get c)) []) :
    ((extending setting seen again).ofComponent (.compound c)).value.isSome := by
  rw [value_ofCompound setting seen again hmode hc]
  split
  · rename_i hnil
    rw [hnil] at ho
    cases ho
  · rfl

/-- The options for a compound hold its remainder unified with an extender, up to equality. -/
theorem exists_equal_mem_optionsFor_single (hmode : setting.mode = .normal) (bound : Nat)
    {c : Compound} (hc : c.isFlat) {g : Group} (hg : g ∈ groups (setting.extensions.get c))
    (happlies : g.applies setting seen) {b u : Compound}
    (hb : g.extender.components = [.compound b]) (hbflat : b.isFlat)
    (hu : (Compound.ofSimples (g.remainder c)).unify? b = some u) :
    ∃ v : Compound, u.equal v ∧ [.compound v] ∈ optionsFor setting seen
      (againBy (extendComplex setting bound) seen) c (groups (setting.extensions.get c)) [] := by
  have huflat : u.isFlat := by
    refine Compound.isFlat_unify hu (Compound.isFlat_iff.2 fun s hs => ?_) hbflat
    exact Compound.isFlat_iff.1 hc s (List.mem_of_mem_filter hs)
  let marked : Compound := { u with parent := c.parent, extended := true }
  have hflat : isFlatPath [.compound marked] := by
    refine isFlatPath_iff.2 fun d hd => ?_
    cases List.mem_singleton.1 hd
    exact huflat
  obtain ⟨d, hd, hequal⟩ : ∃ d ∈ (againBy (extendComplex setting bound) seen g.key
      (.ofComponents [.compound marked])).value, (Complex.ofComponents [.compound marked]).equal d :=
    exists_equal_mem_extendComplex setting (g.key :: seen) hmode bound hflat
  have hpath : g.path? c c.parent = some [.compound marked] := g.path?_single hb hu c.parent
  obtain ⟨o, ho, hdo⟩ := exists_equal_mem_optionsFor hg happlies hpath hd []
  have hmarked : equalPaths [.compound marked] o :=
    equalPaths_trans (Complex.equal.equalPaths hequal) hdo
  obtain ⟨w, _, hw, hnil, rfl⟩ := List.forall₂_cons_left_iff.1 (equalPaths_iff.1 hmarked)
  cases hnil
  obtain ⟨v, rfl, hv⟩ := Component.equal_compound_iff.1 hw
  have hsimples := Compound.equal_iff.1 hv
  exact ⟨v, Compound.equal_iff.2 hsimples, ho⟩

/-- The selector in which a compound gives way to its remainder unified with an extender is a
result, or a chain of more general selectors leads from it to one. -/
theorem exists_chain_mem_extendComplex (hmode : setting.mode = .normal) (bound : Nat)
    {pre post : List Component} {c : Compound} (lineBreak : Bool)
    (hflat : isFlatPath (pre ++ .compound c :: post)) {g : Group}
    (hg : g ∈ groups (setting.extensions.get c)) (happlies : g.applies setting seen)
    {b u : Compound} (hb : g.extender.components = [.compound b]) (hbflat : b.isFlat)
    (hu : (Compound.ofSimples (g.remainder c)).unify? b = some u) :
    ∃ first last, (Complex.path (pre ++ .compound u :: post) lineBreak).equal first ∧
      Relation.ReflTransGen (fun c d => d.isSuperselectorOf c) first last ∧
        last ∈ (extendComplex setting (bound + 1) seen
          (.path (pre ++ .compound c :: post) lineBreak)).value.1 := by
  have hc : c.isFlat := isFlatPath_iff.1 hflat c (by simp)
  obtain ⟨v, huv, hv⟩ := exists_equal_mem_optionsFor_single hmode bound hc hg happlies hb hbflat hu
  have hself (d : Component) (hd : d ∈ pre ++ .compound c :: post) :=
    self_mem_optionsOf setting seen (againBy (extendComplex setting bound) seen) hmode hflat hd
  have hoption : [.compound v] ∈ optionsOf setting seen (againBy (extendComplex setting bound) seen)
      (.compound c) := by
    rw [optionsOf_compound setting seen _ hmode hc]
    exact List.mem_cons_of_mem _ hv
  have hpicked : List.Forall₂
      (fun d e => [d] ∈ optionsOf setting seen (againBy (extendComplex setting bound) seen) e)
      (pre ++ .compound v :: post) (pre ++ .compound c :: post) := by
    refine List.rel_append (List.forall₂_same.2 fun d hd => hself d ?_)
      (.cons hoption (List.forall₂_same.2 fun d hd => hself d ?_))
    · exact List.mem_append_left _ hd
    · exact List.mem_append_right _ (List.mem_cons_of_mem _ hd)
  obtain ⟨first, last, hfirst, hchain, hlast⟩ := exists_chain_mem_ofComplex lineBreak hpicked
    ⟨.compound c, by simp, isSome_ofCompound hmode hc hv⟩
  have hequal : (Complex.path (pre ++ .compound u :: post) lineBreak).equal
      (.path (pre ++ .compound v :: post) lineBreak) := by
    have hself (cs : List Component) : List.Forall₂ (fun c d => c.equal d) cs cs :=
      equalPaths_iff.1 (components_equal_refl cs)
    refine Complex.equal_path_iff.2 ⟨_, _, rfl, equalPaths_iff.2 ?_⟩
    exact List.rel_append (hself pre) (.cons huv (hself post))
  exact ⟨first, last, Complex.equal_trans hequal hfirst, hchain, hlast⟩

end Apply

namespace Registry

/-- Whether any extension changes a list inside the given media queries. -/
def changes (reg : Registry) (l : SelectorList) (media : List String) : Bool :=
  (extendList ({ reg with sources := reg.sources.addList l }.setting media) l).value.2

/-- In normal mode no given selector is lost, whatever is registered: extenders may be complex and
lead back to each other. A list that changes has no two equal selectors. -/
theorem extend_keeps_given {reg : Registry} (hmode : reg.options.mode = .normal) (l : SelectorList)
    (media : List String) :
    (∀ c ∈ l, isFlatPath c.components → ∃ d ∈ (reg.extend l media).2.1, c.equal d) ∧
      (reg.changes l media → (reg.extend l media).2.1.Pairwise fun c d => ¬ c.equal d) ∧
        (reg.changes l media = false → (reg.extend l media).2.1 = l) := by
  rw [extend_selector, changes]
  refine ⟨fun c hc hflat => ?_, ?_⟩
  · obtain ⟨d, hd, hcd⟩ := Apply.exists_equal_mem_extendComplex
      ({ reg with sources := reg.sources.addList l }.setting media) [] hmode
      (Nat.pow 2 reg.extensions.size + 1) hflat
    obtain ⟨e, he, hde⟩ := exists_equal_mem_extendList hc hd
    exact ⟨e, he, Complex.equal_trans hcd hde⟩
  · rw [value_extendList]
    split
    · refine ⟨fun _ => ?_, by simp⟩
      refine (pairwise_foldl_addUnless _ List.Pairwise.nil).imp fun hne hequal => hne ?_
      exact Complex.equal_symm hequal
    · simp

/-- The extenders `.p > .b` of `.a` and `.a` of `.b`, which lead back to each other. -/
def looped : Registry :=
  let a := Complex.ofComponents [.compound (.ofClass "a")]
  let b := Complex.ofComponents [.compound (.ofClass "b")]
  let child := Complex.ofComponents
    [.compound (.ofClass "p"), .combinator .child, .compound (.ofClass "b")]
  ((({} : Registry).add [child] [a] false []).1.add [a] [b] false []).1

theorem extend_keeps_given_looped :
    let c := Complex.ofComponents [.compound (.ofClass "b"), .compound (.ofClass "a")]
    let q := Complex.ofComponents [.compound (.ofClass "q")]
    let extended := (looped.extend [c, q] []).2.1
    looped.changes [c, q] [] ∧ looped.changes [q] [] = false ∧
      extended.map Complex.render = [".b .a", ".a .a", ".b .p > .b", ".a .p > .b", ".q"] ∧
      (∃ d ∈ extended, c.equal d) ∧ (∃ d ∈ extended, q.equal d) ∧
      extended.Pairwise (fun c d => ¬ c.equal d) ∧ (looped.extend [q] []).2.1 = [q] := by
  intro c q extended
  have hchanges : looped.changes [c, q] [] := by decide +kernel
  have hsame : looped.changes [q] [] = false := by decide +kernel
  have hrender : extended.map Complex.render =
      [".b .a", ".a .a", ".b .p > .b", ".a .p > .b", ".q"] := by decide +kernel
  obtain ⟨hgiven, hdistinct, -⟩ := @extend_keeps_given looped rfl [c, q] []
  obtain ⟨-, -, hunchanged⟩ := @extend_keeps_given looped rfl [q] []
  exact ⟨hchanges, hsame, hrender, hgiven c (by simp) rfl, hgiven q (by simp) rfl,
    hdistinct hchanges, hunchanged hsame⟩

/-- Every extension that applies takes effect. Where a compound holds the targets of a group of
extensions with a single compound as extender, inside the media queries of all of them, and what is
left of it unifies with the extender, the selector that results is in the extended list, or a chain
of more general selectors leads from it to a member. -/
theorem extend_applies {reg : Registry} (hmode : reg.options.mode = .normal) {l : SelectorList}
    {media : List String} {pre post : List Component} {c : Compound} {lineBreak : Bool}
    (hmem : .path (pre ++ .compound c :: post) lineBreak ∈ l)
    (hflat : isFlatPath (pre ++ .compound c :: post)) {g : Apply.Group}
    (hg : g ∈ Apply.groups (reg.extensions.get c))
    (hmedia : reg.options.checkMedia → ∀ x ∈ g.members, x.media.Sublist media) {b u : Compound}
    (hb : g.extender.components = [.compound b]) (hbflat : b.isFlat)
    (hu : (Compound.ofSimples (g.remainder c)).unify? b = some u) :
    ∃ first last, (Complex.path (pre ++ .compound u :: post) lineBreak).equal first ∧
      Relation.ReflTransGen (fun c d => d.isSuperselectorOf c) first last ∧
        ∃ d ∈ (reg.extend l media).2.1, last.equal d := by
  let setting := { reg with sources := reg.sources.addList l }.setting media
  have hnormal : setting.mode = .normal := hmode
  have happlies : g.applies setting [] := Apply.Group.applies_nil_iff.2 hmedia
  obtain ⟨first, last, hfirst, hchain, hlast⟩ := Apply.exists_chain_mem_extendComplex hnormal
    (Nat.pow 2 setting.extensions.size) lineBreak hflat hg happlies hb hbflat hu
  refine ⟨first, last, hfirst, hchain, ?_⟩
  rw [extend_selector]
  exact exists_equal_mem_extendList hmem hlast

theorem extend_applies_looped :
    let c := Compound.ofSimples
      [{ kind := .className, name := "b" }, { kind := .className, name := "x" }]
    let u := Compound.ofSimples
      [{ kind := .className, name := "x" }, { kind := .className, name := "a" }]
    let stem := [Component.compound (.ofClass "q"), .combinator .child]
    ∃ first last, (Complex.path (stem ++ [.compound u]) false).equal first ∧
      Relation.ReflTransGen (fun c d => d.isSuperselectorOf c) first last ∧
        ∃ d ∈ (looped.extend [.path (stem ++ [.compound c]) false] []).2.1, last.equal d := by
  intro c u stem
  let x : Extension :=
    { extender := .ofComponents [.compound (.ofClass "a")], target := .ofClass "b"
      optional := false, media := [], serial := 1, origin := 1 }
  have hgroups : Apply.groups (looped.extensions.get c) = [⟨1, x.extender, [x]⟩] := rfl
  have hmedia : ∀ y ∈ [x], y.media.Sublist [] := by
    intro y hy
    rw [List.mem_singleton.1 hy]
  exact extend_applies rfl (List.mem_singleton.2 rfl) rfl (hgroups ▸ List.mem_singleton.2 rfl)
    (fun _ => hmedia) rfl rfl rfl

end Registry

end SelectorCalculus
