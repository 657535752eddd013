import SelectorCalculus.Extension.Registry
import SelectorCalculus.Proofs.CompoundMeaning
import SelectorCalculus.Proofs.EqualityLaws
import SelectorCalculus.Proofs.ExtensionSteps
/-! What extension results in, function by function: the options for a compound, what is woven from
them, and lists. -/

namespace SelectorCalculus

/-- No pseudo selector of the compound has a selector argument. -/
def Compound.isFlat (c : Compound) : Bool := c.simples.all (!·.hasSelector)

def isFlatPath (cs : List Component) : Bool := (compoundsOf cs).all Compound.isFlat

theorem Compound.isFlat_iff {c : Compound} : c.isFlat ↔ ∀ s ∈ c.simples, s.hasSelector = false := by
  simp [isFlat]

theorem Compound.isFlat_of_isPlain {c : Compound} (h : c.isPlain) : c.isFlat := by
  refine isFlat_iff.2 fun s hs => ?_
  have hplain := isPlain_iff.1 h s hs
  simp only [Simple.isPlain, Bool.and_eq_true, Bool.not_eq_true'] at hplain
  exact hplain.1

theorem isFlatPath_iff {cs : List Component} :
    isFlatPath cs ↔ ∀ c : Compound, Component.compound c ∈ cs → c.isFlat := by
  simp only [isFlatPath, compoundsOf, List.all_eq_true, List.mem_filterMap]
  constructor
  · intro h c hc
    exact h c ⟨_, hc, rfl⟩
  · rintro h c ⟨d, hd, hdc⟩
    cases d with
    | compound d =>
      obtain rfl := Option.some.inj hdc
      exact h d hd
    | combinator k => cases hdc

theorem isFlatPath_of_isPlainPath {cs : List Component} (h : isPlainPath cs) : isFlatPath cs := by
  refine isFlatPath_iff.2 fun c hc => ?_
  exact Compound.isFlat_of_isPlain (isPlainPath_singleton.1 (isPlainPath_of_mem h hc))

theorem Compound.isFlat_unify {c d u : Compound} (h : c.unify? d = some u) (hc : c.isFlat)
    (hd : d.isFlat) : u.isFlat := by
  refine isFlat_iff.2 fun r hr => ?_
  rcases mem_unify h hr with hr | hr | ⟨ns, name, rfl⟩
  · exact isFlat_iff.1 hc r hr
  · exact isFlat_iff.1 hd r hr
  · rfl

/-! ### Groups of extensions -/

theorem CompoundIndex.get_sublist (m : CompoundIndex α) (c : Compound) :
    (m.get c).Sublist m.values := by
  have h := (List.filter_sublist (p := fun entry =>
    (m.search (c.simples.map Simple.key)).contains entry.2) (l := m.values.zipIdx)).map Prod.fst
  rwa [List.zipIdx_map_fst] at h

namespace Apply

/-- A group is made of given extensions of one origin, in order, and has the extender of one. -/
structure GroupOf (xs : List Extension) (g : Group) : Prop where
  extender : ∃ x ∈ xs, x.origin = g.origin ∧ x.extender = g.extender
  members : g.members.Sublist xs
  origin : ∀ x ∈ g.members, x.origin = g.origin

theorem GroupOf.of_sublist {xs ys : List Extension} {g : Group} (h : GroupOf xs g)
    (hs : xs.Sublist ys) : GroupOf ys g where
  extender := by
    obtain ⟨x, hx, hxg⟩ := h.extender
    exact ⟨x, hs.subset hx, hxg⟩
  members := h.members.trans hs
  origin := h.origin

theorem groupOf_addToGroup {xs : List Extension} {gs : List Group} (h : ∀ g ∈ gs, GroupOf xs g)
    (x : Extension) : ∀ g ∈ addToGroup x gs, GroupOf (xs ++ [x]) g := by
  have hold (g : Group) (hg : GroupOf xs g) : GroupOf (xs ++ [x]) g :=
    hg.of_sublist (List.sublist_append_left xs [x])
  induction gs with
  | nil =>
    intro g hg
    rw [List.mem_singleton.1 hg]
    exact ⟨⟨x, by simp, rfl, rfl⟩, List.sublist_append_right xs [x], by simp⟩
  | cons g gs ih =>
    obtain ⟨hg, h⟩ := List.forall_mem_cons.1 h
    unfold addToGroup
    split
    · rename_i ho
      refine List.forall_mem_cons.2 ⟨⟨(hold g hg).extender, ?_, ?_⟩, fun g hg => hold g (h g hg)⟩
      · exact hg.members.append (List.Sublist.refl [x])
      · refine List.forall_mem_append.2 ⟨hg.origin, ?_⟩
        simpa using ho.symm
    · exact List.forall_mem_cons.2 ⟨hold g hg, ih h⟩

theorem groups_snoc (xs : List Extension) (x : Extension) :
    groups (xs ++ [x]) = addToGroup x (groups xs) := by simp [groups]

theorem groupOf_of_mem_groups {xs : List Extension} : ∀ g ∈ groups xs, GroupOf xs g := by
  induction xs using List.reverseRecOn with
  | nil => simp [groups]
  | append_singleton xs x ih =>
    rw [groups_snoc]
    exact groupOf_addToGroup ih x

theorem Group.exists_of_mem_targets {g : Group} {s : Simple} (h : s ∈ g.targets) :
    ∃ x ∈ g.members, s ∈ x.target.simples := by
  rw [targets, addDistinct_eq] at h
  rcases mem_of_mem_foldl_addUnless h with h | h
  · cases h
  · exact List.mem_flatMap.1 h

/-- Whether a group is applied: its targets are not being replaced already, and the rule is inside
the media queries of its extensions. -/
def Group.applies (g : Group) (setting : Setting) (seen : List String) : Bool :=
  !seen.contains g.key && !(setting.checkMedia && (g.outsider? setting.media).isSome)

theorem Group.applies_nil_iff {g : Group} {setting : Setting} : g.applies setting [] ↔
    (setting.checkMedia → ∀ x ∈ g.members, x.media.Sublist setting.media) := by
  cases hcheck : setting.checkMedia <;> simp [applies, outsider?, hcheck]

/-! ### Options for a compound -/

variable (setting : Setting) (seen : List String) (again : String → Complex → Traced (List Complex))

theorem value_applyGroup (c : Compound) (parent : Bool) (options : List (List Component))
    (g : Group) :
    (applyGroup setting seen again c parent options g).value =
      match if g.applies setting seen then g.path? c parent else none with
      | none => options
      | some path =>
        ((again g.key (.ofComponents path)).value.map Complex.components).foldl addOption
          options := by
  unfold applyGroup Group.applies
  cases hseen : seen.contains g.key with
  | true => rfl
  | false =>
    cases hcheck : setting.checkMedia with
    | true =>
      cases g.outsider? setting.media with
      | some x => rfl
      | none =>
        cases g.path? c parent with
        | none => cases g.extender.base? <;> rfl
        | some path => rfl
    | false =>
      cases g.path? c parent with
      | none => cases g.extender.base? <;> rfl
      | some path => rfl

def optionsFor (c : Compound) (gs : List Group) (options : List (List Component)) :
    List (List Component) :=
  gs.foldl (fun options g => (applyGroup setting seen again c c.parent options g).value) options

theorem subset_optionsFor (c : Compound) (gs : List Group) (options : List (List Component)) :
    options ⊆ optionsFor setting seen again c gs options := by
  induction gs generalizing options with
  | nil => exact List.Subset.refl options
  | cons g gs ih =>
    refine List.Subset.trans ?_ (ih _)
    beta_reduce
    rw [value_applyGroup]
    split
    · exact List.Subset.refl options
    · exact subset_foldl_addUnless equalPaths _ options

theorem value_ofSimple {s : Simple} (hs : s.hasSelector = false) :
    ((extending setting seen again).ofSimple s).value = none := by
  rw [Interpretation.ofSimple_eq]
  cases hsel : s.selector with
  | none => simp [extending, hsel]
  | some list =>
    have hk : s.kind ≠ .pseudo := by simpa [Simple.hasSelector, hsel] using hs
    simp [extending, hsel, hk]

theorem ofComponent_extending (c : Compound) :
    (extending setting seen again).ofComponent (.compound c) =
      extendCompound setting seen again c (c.simples.map (extending setting seen again).ofSimple) :=
  Interpretation.ofCompound_eq _ c

/-- In normal mode nothing applies to a flat compound, or it stays next to the options. -/
theorem value_ofCompound (hmode : setting.mode = .normal) {c : Compound} (hc : c.isFlat) :
    ((extending setting seen again).ofComponent (.compound c)).value =
      match optionsFor setting seen again c (groups (setting.extensions.get c)) [] with
      | [] => none
      | options => some ([.compound c] :: options) := by
  have hsimples : (collectSimples
      (c.simples.zip (c.simples.map (extending setting seen again).ofSimple)) [] false).value =
        (c.simples, false) := by
    rw [value_collectSimples, List.map_fst_zip (by simp), List.nil_append]
    intro p hp
    obtain ⟨s, hs, hvalue⟩ := List.mem_map.1 (List.of_mem_zip hp).2
    rw [← hvalue]
    exact value_ofSimple setting seen again (Compound.isFlat_iff.1 hc s hs)
  rw [ofComponent_extending]
  obtain ⟨ss, parent, extended⟩ := c
  simp only [extendCompound, Traced.value_bind, hsimples, Bool.not_false, Bool.and_true,
    Bool.false_or, hmode, Traced.value_foldlM, optionsFor]
  generalize List.foldl _ [] _ = options
  cases options <;> rfl

/-- What may stand for a component in a path. -/
def optionsOf (d : Component) : List (List Component) :=
  ((extending setting seen again).ofComponent d).value.getD [[d]]

theorem optionsOf_compound (hmode : setting.mode = .normal) {c : Compound} (hc : c.isFlat) :
    optionsOf setting seen again (.compound c) =
      [.compound c] :: optionsFor setting seen again c (groups (setting.extensions.get c)) [] := by
  rw [optionsOf, value_ofCompound setting seen again hmode hc]
  cases optionsFor setting seen again c (groups (setting.extensions.get c)) [] <;> rfl

theorem self_mem_optionsOf (hmode : setting.mode = .normal) {d : Component} {cs : List Component}
    (hcs : isFlatPath cs) (hd : d ∈ cs) : [d] ∈ optionsOf setting seen again d := by
  cases d with
  | compound c =>
    rw [optionsOf_compound setting seen again hmode (isFlatPath_iff.1 hcs c hd)]
    exact List.mem_cons_self ..
  | combinator k => exact List.mem_singleton.2 rfl

/-! ### Weaving the options -/

theorem weaveChoices_eq (choices : List (List (List Component))) (lineBreak : Bool) :
    weaveChoices choices lineBreak =
      (((picks choices).flatMap weave).map (Complex.path · lineBreak)).foldl
        (addUnless Complex.equal) [] := by
  rw [weaveChoices, addComplex_eq, List.foldl_map]

/-- A path with one of the options in the place of each component is woven, up to equality. -/
theorem exists_equal_mem_weaveChoices {options : Component → List (List Component)}
    {cs ds : List Component} (h : List.Forall₂ (fun d c => [d] ∈ options c) ds cs) (hne : ds ≠ [])
    (lineBreak : Bool) :
    ∃ e ∈ weaveChoices (cs.map options) lineBreak, (Complex.path ds lineBreak).equal e := by
  rw [weaveChoices_eq]
  refine exists_alike_mem_foldl_addUnless Complex.equal_refl (List.mem_map.2 ⟨ds, ?_, rfl⟩) []
  refine List.mem_flatMap.2 ⟨ds.map fun d => [d], mem_picks.2 ?_, ?_⟩
  · rw [List.forall₂_map_left_iff, List.forall₂_map_right_iff]
    exact h
  · obtain ⟨d, ds, rfl⟩ := List.exists_cons_of_ne_nil hne
    rw [weave_singletons]
    exact List.mem_singleton.2 rfl

theorem ofComplex_extending (c : Complex) :
    (extending setting seen again).ofComplex c = (do
      let (choices, modified) ← collectChoices
        (c.components.zip (c.components.map (extending setting seen again).ofComponent))
      if !modified then return ([c], false)
      let woven := weaveChoices choices c.lineBreak
      return (← trim setting.sources setting.trimLimit c.equal woven, true)) :=
  Interpretation.ofComplex_eq _ c

theorem value_ofComplex (c : Complex) :
    ((extending setting seen again).ofComplex c).value =
      if c.components.any fun d => ((extending setting seen again).ofComponent d).value.isSome then
        ((trim setting.sources setting.trimLimit c.equal
          (weaveChoices (c.components.map (optionsOf setting seen again)) c.lineBreak)).value, true)
      else ([c], false) := by
  have hchoices : (collectChoices (c.components.map fun d =>
      (d, (extending setting seen again).ofComponent d))).value =
        (c.components.map (optionsOf setting seen again), c.components.any fun d =>
          ((extending setting seen again).ofComponent d).value.isSome) := by
    rw [value_collectChoices, List.map_map, List.any_map]
    rfl
  rw [ofComplex_extending, zip_map_self]
  simp only [Traced.value_bind, hchoices]
  generalize c.components.any _ = modified
  cases modified <;> rfl

/-- How extenders are extended in turn, given the extension of complex selectors. -/
def againBy (f : List String → Complex → Traced (List Complex × Bool)) (seen : List String)
    (key : String) (path : Complex) : Traced (List Complex) := do
  return (← f (key :: seen) path).1

theorem extendComplex_succ (bound : Nat) (c : Complex) :
    extendComplex setting (bound + 1) seen c =
      (extending setting seen (againBy (extendComplex setting bound) seen)).ofComplex c := rfl

/-- In normal mode a flat selector stays, whatever the bound. -/
theorem exists_equal_mem_extendComplex (hmode : setting.mode = .normal) (bound : Nat) {c : Complex}
    (hc : isFlatPath c.components) :
    ∃ d ∈ (extendComplex setting bound seen c).value.1, c.equal d := by
  have hself : ∃ d ∈ [c], c.equal d := ⟨c, List.mem_singleton.2 rfl, c.equal_refl⟩
  cases bound with
  | zero => exact hself
  | succ bound =>
    rw [extendComplex_succ, value_ofComplex]
    split
    · rename_i hmod
      obtain ⟨cs, lineBreak, rfl⟩ : ∃ cs lineBreak, c = .path cs lineBreak := by
        cases c with
        | path cs lineBreak => exact ⟨cs, lineBreak, rfl⟩
        | absent => simp [Complex.components] at hmod
      have hne : cs ≠ [] := by
        rintro rfl
        simp [Complex.components] at hmod
      refine exists_given_mem_trim (exists_equal_mem_weaveChoices (List.forall₂_same.2 ?_) hne _)
      exact fun d hd => self_mem_optionsOf setting seen _ hmode hc hd
    · exact hself

theorem extendComplex_of_unchanged {bound : Nat} {c : Complex}
    (h : (extendComplex setting bound seen c).value.2 = false) :
    (extendComplex setting bound seen c).value.1 = [c] := by
  cases bound with
  | zero => rfl
  | succ bound =>
    rw [extendComplex_succ, value_ofComplex] at h ⊢
    split at h
    · cases h
    · rename_i hnone
      rw [if_neg hnone]

end Apply

/-! ### Extending a list -/

/-- A list is extended to what its members are extended to; where nothing changes it stays. -/
theorem value_extendList (setting : Setting) (l : SelectorList) :
    let parts := l.map fun c =>
      (Apply.extendComplex setting (Nat.pow 2 setting.extensions.size + 1) [] c).value
    (extendList setting l).value =
      if parts.any Prod.snd then
        ((parts.flatMap Prod.fst).foldl (addUnless Complex.equal) [], true)
      else (l, false) := by
  simp only [extendList, Traced.value_bind, Apply.value_collectAlternatives, List.flatMap_map,
    List.any_map, Function.comp_def, Bool.false_or, Apply.addComplex_eq]
  split <;> simp_all

theorem exists_equal_mem_extendList {setting : Setting} {l : SelectorList} {c d : Complex}
    (hc : c ∈ l) (hd : d ∈ (Apply.extendComplex setting
      (Nat.pow 2 setting.extensions.size + 1) [] c).value.1) :
    ∃ e ∈ (extendList setting l).value.1, d.equal e := by
  rw [value_extendList]
  split
  · refine exists_alike_mem_foldl_addUnless Complex.equal_refl (List.mem_flatMap.2 ?_) []
    exact ⟨_, List.mem_map.2 ⟨c, hc, rfl⟩, hd⟩
  · rename_i hnone
    simp only [List.any_map, List.any_eq_true, not_exists, not_and, Bool.not_eq_true] at hnone
    rw [Apply.extendComplex_of_unchanged setting [] (hnone c hc)] at hd
    exact ⟨c, hc, List.mem_singleton.1 hd ▸ c.equal_refl⟩

namespace Registry

theorem extend_selector (reg : Registry) (l : SelectorList) (media : List String) :
    (reg.extend l media).2.1 =
      (extendList ({ reg with sources := reg.sources.addList l }.setting media) l).value.1 := by
  dsimp only [extend]

end Registry

end SelectorCalculus
