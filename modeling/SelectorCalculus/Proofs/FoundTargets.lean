import SelectorCalculus.Proofs.CallHistories
import SelectorCalculus.Proofs.ExtensionTermination
import SelectorCalculus.Proofs.NestedChecks
/-! Over any calls, no extension is reported to have missed its target after it has met it. -/

namespace SelectorCalculus

/-! ### Compounds at any depth -/

/-- The compounds of a selector, with those inside the arguments of pseudo selectors. -/
def allCompounds : Interpretation (List Compound) (List Compound) (List Compound) where
  simple s parts := if s.hasSelector then parts.flatten else []
  component
    | .compound c, parts => c :: parts.flatten
    | .combinator _, _ => []
  complex _ parts := parts.flatten

section AllCompounds

variable {c : Compound}

theorem mem_allCompounds_simple {s : Simple} : c ∈ allCompounds.ofSimple s ↔
    s.hasSelector ∧ ∃ l ∈ s.selector, ∃ d ∈ l, c ∈ allCompounds.ofComplex d := by
  rw [Interpretation.ofSimple_eq]
  cases hs : s.hasSelector with
  | false => simp [allCompounds, hs]
  | true =>
    obtain ⟨-, l, hl⟩ := Simple.hasSelector_iff.1 hs
    simp [allCompounds, hs, hl]

theorem mem_allCompounds_compound {d : Compound} : c ∈ allCompounds.ofCompound d ↔
    c = d ∨ ∃ s ∈ d.simples, c ∈ allCompounds.ofSimple s := by
  rw [Interpretation.ofCompound_eq]
  simp [allCompounds]

theorem mem_allCompounds_complex {d : Complex} : c ∈ allCompounds.ofComplex d ↔
    ∃ e ∈ d.components, c ∈ allCompounds.ofComponent e := by
  rw [Interpretation.ofComplex_eq]
  simp [allCompounds]

end AllCompounds

/-! ### Marks -/

namespace Traced

variable {serial : Nat}

/-- On the way to a value the extension with a given number is said to have found its target. -/
def Marks (serial : Nat) (x : Traced α) : Prop := serial ∈ x.events.flatMap Event.serials

theorem Marks.bind_left {x : Traced α} (h : x.Marks serial) (f : α → Traced β) :
    (x >>= f).Marks serial := by
  unfold Marks at h ⊢
  rw [events_bind, List.flatMap_append]
  exact List.mem_append_left _ h

theorem Marks.bind_right {x : Traced α} {f : α → Traced β} (h : (f x.value).Marks serial) :
    (x >>= f).Marks serial := by
  unfold Marks at h ⊢
  rw [events_bind, List.flatMap_append]
  exact List.mem_append_right _ h

theorem marks_foldlM {f : β → α → Traced β} {xs : List α} {x : α} (hx : x ∈ xs)
    (h : ∀ b, (f b x).Marks serial) (b : β) : (xs.foldlM f b).Marks serial := by
  induction xs generalizing b with
  | nil => cases hx
  | cons y xs ih =>
    rw [List.foldlM_cons]
    rcases List.mem_cons.1 hx with hxy | hx
    · rw [← hxy]
      exact (h b).bind_left _
    · exact Marks.bind_right (ih hx _)

end Traced

open Traced

namespace Apply

theorem mem_zip_map {xs : List α} {x : α} (hx : x ∈ xs) (f : α → β) :
    (x, f x) ∈ xs.zip (xs.map f) := by
  rw [zip_map_self]
  exact List.mem_map_of_mem hx

section Collecting

variable {serial : Nat}

theorem marks_collectAlternatives {parts : List (Traced (List Complex × Bool))}
    (h : ∃ part ∈ parts, part.Marks serial) (found : SelectorList) (modified : Bool) :
    (collectAlternatives parts found modified).Marks serial := by
  induction parts generalizing found modified with
  | nil => simp at h
  | cons part parts ih =>
    rcases (List.exists_mem_cons_iff _ _ _).1 h with hpart | hparts
    · exact hpart.bind_left _
    · exact Marks.bind_right (ih hparts _ _)

theorem marks_collectSimples {parts : List (Simple × Traced (Option (List Simple)))}
    (h : ∃ part ∈ parts, part.2.Marks serial) (found : List Simple) (modified : Bool) :
    (collectSimples parts found modified).Marks serial := by
  induction parts generalizing found modified with
  | nil => simp at h
  | cons part parts ih =>
    unfold collectSimples
    rcases (List.exists_mem_cons_iff _ _ _).1 h with hpart | hparts
    · exact hpart.bind_left _
    · apply Marks.bind_right
      split
      · exact ih hparts _ _
      · exact ih hparts _ _

theorem marks_collectChoices {parts : List (Component × Traced (Option (List (List Component))))}
    (h : ∃ part ∈ parts, part.2.Marks serial) : (collectChoices parts).Marks serial := by
  induction parts with
  | nil => simp at h
  | cons part parts ih =>
    unfold collectChoices
    rcases (List.exists_mem_cons_iff _ _ _).1 h with hpart | hparts
    · exact hpart.bind_left _
    · exact Marks.bind_right ((ih hparts).bind_left _)

end Collecting

theorem exists_mem_addToGroup {x y : Extension} {gs : List Group}
    (h : x = y ∨ ∃ g ∈ gs, x ∈ g.members) : ∃ g ∈ addToGroup y gs, x ∈ g.members := by
  induction gs with
  | nil => simpa [addToGroup] using h
  | cons g gs ih =>
    rw [List.exists_mem_cons_iff] at h
    unfold addToGroup
    split
    · rw [List.exists_mem_cons_iff]
      rcases h with hxy | hg | hgs
      · exact Or.inl (List.mem_append_right _ (List.mem_singleton.2 hxy))
      · exact Or.inl (List.mem_append_left _ hg)
      · exact Or.inr hgs
    · rw [List.exists_mem_cons_iff]
      rcases h with hxy | hg | hgs
      · exact Or.inr (ih (Or.inl hxy))
      · exact Or.inl hg
      · exact Or.inr (ih (Or.inr hgs))

theorem exists_mem_groups {xs : List Extension} {x : Extension} (hx : x ∈ xs) :
    ∃ g ∈ groups xs, x ∈ g.members := by
  induction xs using List.reverseRecOn with
  | nil => cases hx
  | append_singleton xs y ih =>
    rw [groups_snoc]
    apply exists_mem_addToGroup
    rcases List.mem_append.1 hx with hx | hx
    · exact Or.inr (ih hx)
    · exact Or.inl (List.mem_singleton.1 hx)

/-! ### Simple selectors that stay -/

theorem subset_collectSimples (parts : List (Simple × Traced (Option (List Simple))))
    (found : List Simple) (modified : Bool) :
    found ⊆ (collectSimples parts found modified).value.1 := by
  induction parts generalizing found modified with
  | nil => exact List.Subset.refl found
  | cons part parts ih =>
    simp only [collectSimples, Traced.value_bind]
    split
    · exact List.Subset.trans (List.subset_append_left _ _) (ih _ _)
    · exact List.Subset.trans (subset_foldl_addUnless Simple.equal _ found) (ih _ _)

theorem mem_collectSimples {parts : List (Simple × Traced (Option (List Simple)))}
    {part : Simple × Traced (Option (List Simple))} (hpart : part ∈ parts)
    (hvalue : part.2.value = none) (found : List Simple) (modified : Bool) :
    part.1 ∈ (collectSimples parts found modified).value.1 := by
  induction parts generalizing found modified with
  | nil => cases hpart
  | cons first parts ih =>
    rcases List.mem_cons.1 hpart with hfirst | hrest
    · subst hfirst
      simp only [collectSimples, Traced.value_bind, hvalue]
      apply subset_collectSimples
      exact List.mem_append_right _ (List.mem_singleton.2 rfl)
    · simp only [collectSimples, Traced.value_bind]
      split
      · exact ih hrest _ _
      · exact ih hrest _ _

end Apply

/-! ### Compounds with the target in them -/

/-- An extension that finds its target wherever it is: it is registered, no simple selector of its
target has a selector argument, and with all extensions of its extender it is in reach. -/
structure Setting.Finds (setting : Setting) (x : Extension) : Prop where
  order : setting.extensions.InOrder
  mem : x ∈ setting.extensions.values
  flat : x.target.isFlat
  reach : setting.checkMedia → ∀ y ∈ setting.extensions.values, y.origin = x.origin →
    y.media.Sublist setting.media

namespace Apply

variable {setting : Setting} {x : Extension} {again : String → Complex → Traced (List Complex)}

theorem marks_applyGroup {g : Group} (hg : g.applies setting []) (hx : x ∈ g.members)
    (c : Compound) (parent : Bool) (options : List (List Component)) :
    (applyGroup setting [] again c parent options g).Marks x.serial := by
  have hmatched : (report (.matched (g.members.map Extension.serial))).Marks x.serial := by
    have hserial : x.serial ∈ g.members.map Extension.serial := List.mem_map_of_mem hx
    simpa [Marks, report, Event.serials] using hserial
  have hnone : (if setting.checkMedia then g.outsider? setting.media else none) = none := by
    unfold Group.applies at hg
    cases hcheck : setting.checkMedia <;> simp_all
  unfold applyGroup
  rw [hnone]
  exact hmatched.bind_left _

theorem mem_settled {seen : List String} {c : Compound} {s : Simple} (hs : s ∈ c.simples)
    (hflat : s.hasSelector = false) :
    s ∈ (settled c (c.simples.map (extending setting seen again).ofSimple)).simples := by
  have hpart := mem_zip_map hs (extending setting seen again).ofSimple
  exact mem_collectSimples hpart (value_ofSimple setting seen again hflat) [] false

theorem marks_extendCompound (hx : setting.Finds x) {c : Compound}
    (hc : ∀ s ∈ x.target.simples, c.contains s) :
    (extendCompound setting [] again c
      (c.simples.map (extending setting [] again).ofSimple)).Marks x.serial := by
  let parts := c.simples.map (extending setting [] again).ofSimple
  have hcontains : ∀ s ∈ x.target.simples, (settled c parts).contains s := by
    intro s hs
    obtain ⟨t, ht, hst⟩ := containsSimple_iff.1 (hc s hs)
    have hflat : t.hasSelector = false := by
      rw [← Simple.hasSelector_congr hst]
      exact Compound.isFlat_iff.1 hx.flat s hs
    exact containsSimple_iff.2 ⟨t, mem_settled ht hflat, hst⟩
  have hfound : x ∈ setting.extensions.get (settled c parts) := by
    rw [hx.order.get_eq, List.mem_filter]
    exact ⟨hx.mem, Compound.keysWithin_of_contains hcontains⟩
  obtain ⟨g, hg, hmem⟩ := exists_mem_groups hfound
  have hof := groupOf_of_mem_groups g hg
  have happlies : g.applies setting [] := by
    rw [Group.applies_nil_iff]
    intro hcheck y hy
    have hvalue := (hof.members.trans (setting.extensions.get_sublist _)).subset hy
    exact hx.reach hcheck y hvalue ((hof.origin y hy).trans (hof.origin x hmem).symm)
  unfold extendCompound
  apply Marks.bind_right
  apply Marks.bind_left
  exact marks_foldlM hg (fun options => marks_applyGroup happlies hmem _ _ options) []

/-- A compound with the target in it is met at whatever depth it stands. -/
theorem hereditary_marks (hx : setting.Finds x) {c : Compound}
    (hc : ∀ s ∈ x.target.simples, c.contains s) :
    let E := extending setting [] again
    Hereditary (fun s => c ∈ allCompounds.ofSimple s → (E.ofSimple s).Marks x.serial)
      (fun d => c ∈ allCompounds.ofComponent d → (E.ofComponent d).Marks x.serial)
      (fun d => c ∈ allCompounds.ofComplex d → (E.ofComplex d).Marks x.serial) := by
  intro E
  constructor
  · intro s ih hmem
    obtain ⟨hsel, l, hl, d, hd, hmem⟩ := mem_allCompounds_simple.1 hmem
    obtain ⟨hk, -⟩ := Simple.hasSelector_iff.1 hsel
    have hpart : ∃ part ∈ l.map E.ofComplex, part.Marks x.serial :=
      ⟨_, List.mem_map_of_mem hd, ih l hl d hd hmem⟩
    rw [Interpretation.ofSimple_eq, Option.mem_def.1 hl]
    simp only [E, extending, Option.mem_def.1 hl, hk, if_pos, Option.getD_some]
    exact (marks_collectAlternatives hpart [] false).bind_left _
  · intro d ih hmem
    show (E.ofComponent (.compound d)).Marks x.serial
    rw [ofComponent_extending]
    rcases mem_allCompounds_compound.1 hmem with hcd | ⟨s, hs, hmem⟩
    · rw [← hcd]
      exact marks_extendCompound hx hc
    · have hpart : ∃ part ∈ d.simples.zip (d.simples.map E.ofSimple), part.2.Marks x.serial :=
        ⟨_, mem_zip_map hs E.ofSimple, ih s hs hmem⟩
      unfold extendCompound
      exact (marks_collectSimples hpart [] false).bind_left _
  · intro k hmem
    cases hmem
  · intro d ih hmem
    obtain ⟨e, he, hmem⟩ := mem_allCompounds_complex.1 hmem
    have hpart : ∃ part ∈ d.components.zip (d.components.map E.ofComponent),
        part.2.Marks x.serial := ⟨_, mem_zip_map he E.ofComponent, ih e he hmem⟩
    show (E.ofComplex d).Marks x.serial
    rw [ofComplex_extending]
    exact (marks_collectChoices hpart).bind_left _

end Apply

/-- A list with the target in one of its compounds is not extended without a mark. -/
theorem marks_extendList {setting : Setting} {x : Extension} (hx : setting.Finds x)
    {l : SelectorList} {d : Complex} (hd : d ∈ l) {c : Compound}
    (hmem : c ∈ allCompounds.ofComplex d) (hc : ∀ s ∈ x.target.simples, c.contains s) :
    (extendList setting l).Marks x.serial := by
  have hpart : ∃ part ∈ l.map (Apply.extendComplex setting
      (Nat.pow 2 setting.extensions.size + 1) []), part.Marks x.serial :=
    ⟨_, List.mem_map_of_mem hd, (Apply.hereditary_marks hx hc).ofComplex d hmem⟩
  unfold extendList
  exact (Apply.marks_collectAlternatives hpart [] false).bind_left _

/-! ### What calls report -/

/-- The errors about a target that a number of extenders are registered for. -/
def Complex.refusals (extenders : Nat) (t : Complex) : List ExtendError :=
  match t.single? with
  | some c => if c.isEmpty then List.replicate extenders .emptyKey else []
  | none => [.complexTarget t]

theorem Complex.unsatisfied?_of_mem_refusals {extenders : Nat} {t : Complex} {error : ExtendError}
    (h : error ∈ t.refusals extenders) : error.unsatisfied? = none := by
  unfold refusals at h
  split at h
  · split_ifs at h
    · rw [List.eq_of_mem_replicate h]
      rfl
    · cases h
  · rw [List.mem_singleton.1 h]
    rfl

namespace Registry

/-- The extensions that errors report because they have not found their targets, in order. -/
def missingIn (errors : List ExtendError) : List Extension :=
  errors.filterMap ExtendError.unsatisfied?

theorem error?_register (reg : Registry) (target : Compound) (extender : Complex) (origin : Nat)
    (optional : Bool) (media : List String) :
    (reg.register target extender origin optional media).2.error? =
      if target.isEmpty then some .emptyKey else none := by
  unfold register CompoundIndex.insert?
  split_ifs <;> rfl

theorem errorsOf_registerAll (target : Compound) (optional : Bool) (media : List String)
    (extenders : List (Complex × Nat)) (reg : Registry) :
    errorsOf (registerAll target optional media extenders reg).2 =
      if target.isEmpty then List.replicate extenders.length .emptyKey else [] := by
  induction extenders generalizing reg with
  | nil => split_ifs <;> rfl
  | cons extender rest ih =>
    obtain ⟨extender, origin⟩ := extender
    have hrest := ih (reg.register target extender origin optional media).1
    unfold errorsOf at hrest ⊢
    unfold registerAll
    dsimp only
    rw [List.filterMap_cons, error?_register, hrest]
    split_ifs <;> rfl

theorem errorsOf_registerTargets (extenders : List (Complex × Nat)) (optional : Bool)
    (media : List String) (targets : List Complex) (reg : Registry) :
    errorsOf (registerTargets extenders optional media targets reg).2 =
      targets.flatMap (Complex.refusals extenders.length) := by
  induction targets generalizing reg with
  | nil => rfl
  | cons target rest ih =>
    unfold registerTargets
    rw [List.flatMap_cons, Complex.refusals]
    cases hsingle : target.single? with
    | none => exact congrArg _ (ih reg)
    | some c =>
      have hfirst := errorsOf_registerAll c optional media extenders reg
      have hrest := ih (registerAll c optional media extenders reg).1
      unfold errorsOf at hfirst hrest ⊢
      dsimp only
      rw [List.filterMap_append, hfirst, hrest]

theorem missingIn_registerTargets (extenders : List (Complex × Nat)) (optional : Bool)
    (media : List String) (targets : List Complex) (reg : Registry) :
    missingIn (errorsOf (registerTargets extenders optional media targets reg).2) = [] := by
  rw [errorsOf_registerTargets]
  refine List.filterMap_eq_nil_iff.2 fun error herror => ?_
  obtain ⟨t, -, ht⟩ := List.mem_flatMap.1 herror
  exact Complex.unsatisfied?_of_mem_refusals ht

theorem missingIn_extend (reg : Registry) (l : SelectorList) (media : List String) :
    missingIn (errorsOf (reg.extend l media).2.2) = [] := by
  apply List.filterMap_eq_nil_iff.2
  intro error herror
  exact ExtendError.unsatisfied?_of_isCrossing (isCrossing_of_mem_extend herror)

theorem missingIn_unsatisfiedErrors (reg : Registry) :
    missingIn reg.unsatisfiedErrors = reg.unsatisfied := by
  unfold missingIn unsatisfiedErrors
  rw [List.filterMap_map]
  exact List.filterMap_some

namespace Call

/-- The errors that a call returns. -/
def errors (reg : Registry) : Call → List ExtendError
  | add extenders target optional media =>
    errorsOf (reg.addNumbered extenders target optional media).2
  | extend l media => errorsOf (reg.extend l media).2.2
  | resolve rules => (reg.resolve rules).2.errors
  | unsatisfied => reg.unsatisfiedErrors

/-- The extensions that a call reports because they have not found their targets, in order. -/
def missing (reg : Registry) (call : Call) : List Extension := missingIn (call.errors reg)

/-- The lists that a call extends, with the media queries around them. -/
def extended : Call → List (SelectorList × List String)
  | extend l media => [(l, media)]
  | resolve rules => rules.map fun r => (r.selector, r.media)
  | _ => []

/-- What a call reports has not found its target when the call is over. -/
theorem missing_sublist (reg : Registry) (call : Call) :
    (call.missing reg).Sublist (call.run reg).unsatisfied := by
  cases call with
  | add extenders target optional media =>
    have hnone : (add extenders target optional media).missing reg = [] :=
      missingIn_registerTargets ..
    rw [hnone]
    exact List.nil_sublist _
  | extend l media =>
    have hnone : (extend l media).missing reg = [] := reg.missingIn_extend l media
    rw [hnone]
    exact List.nil_sublist _
  | resolve rules =>
    have hsame : (resolve rules).missing reg = (reg.resolve rules).1.unsatisfied :=
      reg.resolve_missing rules
    rw [hsame]
    exact List.Sublist.refl _
  | unsatisfied =>
    have hsame : unsatisfied.missing reg = reg.unsatisfied := reg.missingIn_unsatisfiedErrors
    rw [hsame]
    exact List.Sublist.refl _

end Call

/-! ### Extensions that have met their targets -/

/-- An extension meets its target in a list inside some media queries: the target has no selector
argument, the extension is in reach, and some compound of the list, at any depth, has all simple
selectors of the target. -/
structure Meets (options : ExtendOptions) (x : Extension) (l : SelectorList)
    (media : List String) : Prop where
  flat : x.target.isFlat
  reach : options.checkMedia → x.media.Sublist media
  target : ∃ d ∈ l, ∃ c ∈ allCompounds.ofComplex d, ∀ s ∈ x.target.simples, c.contains s

variable {reg : Registry} {x : Extension} {l : SelectorList} {media : List String}

theorem Meets.marks_extend (h : Meets reg.options x l media) (hreg : reg.InStep)
    (hshared : reg.SharesMedia) (hx : x ∈ reg.registered) :
    x.serial ∈ (reg.extend l media).2.2.flatMap Event.serials := by
  let reg' : Registry := { reg with sources := reg.sources.addList l }
  have hfinds : (reg'.setting media).Finds x := by
    constructor
    · exact hreg.order
    · exact hreg.values ▸ hx
    · exact h.flat
    · intro hcheck y hy ho
      have hy : y ∈ reg.registered := hreg.values ▸ hy
      rw [hshared y hy x hx ho]
      exact h.reach hcheck
  obtain ⟨d, hd, c, hc, htarget⟩ := h.target
  have hmarks := marks_extendList hfinds hd hc htarget
  have hevents : (reg.extend l media).2.2 = (extendList (reg'.setting media) l).events ++
      if (extendList (reg'.setting media) l).value.2 then
        [.extended l (extendList (reg'.setting media) l).value.1] else [] := rfl
  rw [hevents, List.flatMap_append]
  exact List.mem_append_left _ hmarks

theorem Meets.marks_run (h : Meets reg.options x l media) (hreg : reg.InStep)
    (hshared : reg.SharesMedia) (hx : x ∈ reg.registered) {call : Call}
    (hcall : (l, media) ∈ call.extended) : x.serial ∈ (call.run reg).matched := by
  cases call with
  | add extenders target optional media => cases hcall
  | extend l' media' =>
    obtain ⟨hl, hmedia⟩ := Prod.mk.inj (List.mem_singleton.1 hcall)
    subst hl hmedia
    exact List.mem_append_right _ (h.marks_extend hreg hshared hx)
  | resolve rules =>
    obtain ⟨r, hr, hrule⟩ := List.mem_map.1 hcall
    obtain ⟨hl, hmedia⟩ := Prod.mk.inj hrule
    subst hl hmedia
    have hmeets : Meets (reg.counting rules).options x r.selector r.media := h
    have hmarks := hmeets.marks_extend ⟨hreg.values, hreg.order⟩ hshared hx
    show x.serial ∈ (reg.resolve rules).1.matched
    rw [resolve_matched, eventsOf, List.flatMap_assoc]
    exact List.mem_append_right _ (List.mem_flatMap.2 ⟨r, hr, hmarks⟩)
  | unsatisfied => cases hcall

/-- Extensions are reported to have missed their targets only if they have. Over any calls, each
extension that a call reports is mandatory, and they are reported in the order of registration, each
once. None is among them that was registered when a list was extended in which it meets its target,
by an earlier call or by this one, provided that the extensions of one extender had been registered
inside the same media queries. -/
theorem missing_sound (options : ExtendOptions) (calls : List Call) (call : Call) :
    let missing := call.missing (after options calls)
    (∀ x ∈ missing, ¬ x.optional) ∧
    missing.Sublist (after options (calls ++ [call])).registered ∧
    (missing.map Extension.serial).Pairwise (· < ·) ∧
    ∀ before meeting later, calls ++ [call] = before ++ meeting :: later →
      (after options before).SharesMedia → ∀ x ∈ (after options before).registered,
      ∀ l media, (l, media) ∈ meeting.extended → Meets options x l media → x ∉ missing := by
  intro missing
  have hrun : after options (calls ++ [call]) = call.run (after options calls) :=
    after_append options calls [call]
  have hunsatisfied : missing.Sublist (after options (calls ++ [call])).unsatisfied := by
    rw [hrun]
    exact call.missing_sublist (after options calls)
  have hregistered : missing.Sublist (after options (calls ++ [call])).registered :=
    hunsatisfied.trans List.filter_sublist
  have hmem : ∀ x ∈ missing, ¬ x.optional ∧
      x.serial ∉ (after options (calls ++ [call])).matched := by
    intro x hx
    have hfilter := (List.mem_filter.1 (hunsatisfied.subset hx)).2
    simpa using hfilter
  refine ⟨fun x hx => (hmem x hx).1, hregistered, ?_, ?_⟩
  · have hreg := after_inStep options (calls ++ [call])
    have hsublist := hregistered.map Extension.serial
    rw [← hreg.values, hreg.order.serials] at hsublist
    exact List.pairwise_lt_range.sublist hsublist
  · intro before meeting later hcalls hshared x hx l media hextended hmeets hmissing
    have hoptions := after_options options before
    rw [← hoptions] at hmeets
    have hmarked : x.serial ∈ (meeting.run (after options before)).matched :=
      hmeets.marks_run (after_inStep options before) hshared hx hextended
    have hlater :
        (meeting.run (after options before)).LeadsTo (after options (calls ++ [call])) := by
      rw [hcalls, after_append]
      exact run_leadsTo _ later
    exact (hmem x hmissing).2 (hlater.matched hmarked)

/-- `.x` extends `.a` inside `print`, and `.y` extends `.z`. Then `.b:not(.c > .d.a)` is extended
inside `screen` and `print`. Of the two extensions the first has met its target, and asked for the
missing ones the registry reports the other alone. -/
theorem missing_sound_nested :
    let name (s : String) : Simple := { kind := .className, name := s }
    let single (ss : List Simple) : Complex := .ofComponents [.compound (.ofSimples ss)]
    let inner : Complex := .ofComponents [.compound (.ofClass "c"), .combinator .child,
      .compound (.ofSimples [name "d", name "a"])]
    let l : SelectorList := [single [name "b",
      { kind := .pseudo, name := "not", selector := some [inner] }]]
    let before : List Call := [.add [(single [name "x"], 0)] [single [name "a"]] false ["print"],
      .add [(single [name "y"], 1)] [single [name "z"]] false []]
    let meeting : Call := .extend l ["screen", "print"]
    let missing := Call.unsatisfied.missing (after {} (before ++ [meeting]))
    missing.length = 1 ∧ ∃ x ∈ (after {} before).registered,
      Meets {} x l ["screen", "print"] ∧ x ∉ missing := by
  intro name single inner l before meeting missing
  have hlength : missing.length = 1 := by decide +kernel
  have hshared : (after {} before).SharesMedia := by
    unfold SharesMedia
    decide +kernel
  have hmeets : ∃ x ∈ (after {} before).registered, x.target.isFlat ∧
      x.media.Sublist ["screen", "print"] ∧
        ∃ d ∈ l, ∃ c ∈ allCompounds.ofComplex d, ∀ s ∈ x.target.simples, c.contains s := by
    decide +kernel
  obtain ⟨x, hx, hflat, hmedia, htarget⟩ := hmeets
  have hmeets : Meets {} x l ["screen", "print"] := ⟨hflat, fun _ => hmedia, htarget⟩
  obtain ⟨-, -, -, hsound⟩ := missing_sound {} (before ++ [meeting]) .unsatisfied
  have hcalls : before ++ [meeting] ++ [.unsatisfied] = before ++ meeting :: [.unsatisfied] := by
    rw [List.append_assoc, List.singleton_append]
  have hextended : (l, ["screen", "print"]) ∈ meeting.extended := List.mem_singleton.2 rfl
  have hnone := hsound before meeting [.unsatisfied] hcalls hshared x hx l _ hextended hmeets
  refine ⟨hlength, x, hx, hmeets, ?_⟩
  with_reducible exact hnone

end Registry

end SelectorCalculus
