import SelectorCalculus.Proofs.CallHistories
import SelectorCalculus.Proofs.ExtensionTermination
/-! Where media queries are checked, a rule is extended as if only the extensions in its reach had
been registered. -/

namespace SelectorCalculus

/-- The extension without its number. -/
def Extension.unnumbered (x : Extension) : Extension := { x with serial := 0 }

namespace Apply

/-! ### Groups without numbers -/

/-- The group with its extensions unnumbered. -/
def Group.unnumbered (g : Group) : Group :=
  { g with members := g.members.map Extension.unnumbered }

theorem addToGroup_unnumbered (x : Extension) (gs : List Group) :
    addToGroup x.unnumbered (gs.map Group.unnumbered) =
      (addToGroup x gs).map Group.unnumbered := by
  induction gs with
  | nil => rfl
  | cons g gs ih =>
    by_cases ho : g.origin = x.origin
    · simp [addToGroup, Group.unnumbered, Extension.unnumbered, ho]
    · simpa [addToGroup, Group.unnumbered, Extension.unnumbered, ho] using ih

theorem groups_unnumbered (xs : List Extension) :
    groups (xs.map Extension.unnumbered) = (groups xs).map Group.unnumbered := by
  induction xs using List.reverseRecOn with
  | nil => rfl
  | append_singleton xs x ih =>
    rw [List.map_append, List.map_singleton, groups_snoc, groups_snoc, ih, addToGroup_unnumbered]

namespace Group

theorem targets_unnumbered (g : Group) : g.unnumbered.targets = g.targets := by
  unfold targets unnumbered
  rw [List.flatMap_map]
  rfl

theorem key_unnumbered (g : Group) : g.unnumbered.key = g.key := by
  unfold key
  rw [targets_unnumbered]

theorem path?_unnumbered (g : Group) (c : Compound) (parent : Bool) :
    g.unnumbered.path? c parent = g.path? c parent := by
  unfold path? remainder
  rw [targets_unnumbered]
  rfl

/-- Whether all extensions of a group reach into some media queries. -/
def inReach (media : List String) (g : Group) : Bool :=
  g.members.all fun x => x.media.isSublist media

theorem isSome_outsider? (g : Group) (media : List String) :
    (g.outsider? media).isSome = !g.inReach media := by
  rw [Bool.eq_iff_iff, outsider?, List.find?_isSome, inReach, Bool.not_eq_true', List.all_eq_false]
  simp only [Bool.not_eq_true', Bool.not_eq_true]

theorem inReach_unnumbered (g : Group) (media : List String) :
    g.unnumbered.inReach media = g.inReach media := by
  unfold inReach unnumbered
  rw [List.all_map]
  rfl

theorem applies_unnumbered (g : Group) (setting : Setting) (seen : List String) :
    g.unnumbered.applies setting seen = g.applies setting seen := by
  unfold applies
  rw [isSome_outsider?, isSome_outsider?, inReach_unnumbered, key_unnumbered]

end Group

/-! ### Groups in reach -/

theorem members_ne_nil_addToGroup {gs : List Group} (h : ∀ g ∈ gs, g.members ≠ []) (x : Extension) :
    ∀ g ∈ addToGroup x gs, g.members ≠ [] := by
  induction gs with
  | nil => simp [addToGroup]
  | cons g gs ih =>
    obtain ⟨hg, hgs⟩ := List.forall_mem_cons.1 h
    unfold addToGroup
    split
    · exact List.forall_mem_cons.2 ⟨by simp, hgs⟩
    · exact List.forall_mem_cons.2 ⟨hg, ih hgs⟩

theorem members_ne_nil {xs : List Extension} : ∀ g ∈ groups xs, g.members ≠ [] := by
  induction xs using List.reverseRecOn with
  | nil => simp [groups]
  | append_singleton xs x ih =>
    rw [groups_snoc]
    exact members_ne_nil_addToGroup ih x

section Filter

variable {p : Extension → Bool}

theorem filter_addToGroup {x : Extension} {gs : List Group}
    (h : ∀ g ∈ gs, g.origin = x.origin → g.members.all p = p x) :
    (addToGroup x gs).filter (·.members.all p) =
      if p x then addToGroup x (gs.filter (·.members.all p)) else gs.filter (·.members.all p) := by
  induction gs with
  | nil => cases hx : p x <;> simp [addToGroup, hx]
  | cons g gs ih =>
    obtain ⟨hg, hgs⟩ := List.forall_mem_cons.1 h
    have ih := ih hgs
    by_cases ho : g.origin = x.origin
    · have hall := hg ho
      cases hx : p x <;> simp_all [addToGroup]
    · cases hx : p x <;> cases hall : g.members.all p <;> simp_all [addToGroup]

/-- Where extensions of one origin are kept or left out together, so are groups. -/
theorem groups_filter {xs : List Extension}
    (h : ∀ x ∈ xs, ∀ y ∈ xs, x.origin = y.origin → p x = p y) :
    groups (xs.filter p) = (groups xs).filter (·.members.all p) := by
  induction xs using List.reverseRecOn with
  | nil => rfl
  | append_singleton xs x ih =>
    have hxs : ∀ y ∈ xs, ∀ z ∈ xs, y.origin = z.origin → p y = p z := by
      intro y hy z hz
      exact h y (List.mem_append_left _ hy) z (List.mem_append_left _ hz)
    have hgroups : ∀ g ∈ groups xs, g.origin = x.origin → g.members.all p = p x := by
      intro g hg ho
      have hof := groupOf_of_mem_groups g hg
      have hsame : ∀ y ∈ g.members, p y = p x := by
        intro y hy
        have hy' : y ∈ xs ++ [x] := List.mem_append_left _ (hof.members.subset hy)
        exact h y hy' x (by simp) ((hof.origin y hy).trans ho)
      -- A group without members would be kept whatever is left out.
      obtain ⟨y, hy⟩ := List.exists_mem_of_ne_nil _ (members_ne_nil g hg)
      rw [Bool.eq_iff_iff, List.all_eq_true]
      constructor
      · intro hall
        rw [← hsame y hy]
        exact hall y hy
      · intro hx z hz
        rw [hsame z hz]
        exact hx
    rw [groups_snoc, filter_addToGroup hgroups, ← ih hxs, List.filter_append]
    cases hx : p x with
    | true => rw [List.filter_cons_of_pos hx, List.filter_nil, groups_snoc, if_pos rfl]
    | false => simp [hx]

end Filter

/-! ### Values of the steps -/

theorem value_collectAlternatives_congr {parts parts' : List (Traced (List Complex × Bool))}
    (h : parts.map Traced.value = parts'.map Traced.value) (found : SelectorList)
    (modified : Bool) :
    (collectAlternatives parts found modified).value =
      (collectAlternatives parts' found modified).value := by
  have hvalue (parts : List (Traced (List Complex × Bool))) :
      (collectAlternatives parts found modified).value =
        (((parts.map Traced.value).flatMap Prod.fst).foldl addComplex found,
          modified || (parts.map Traced.value).any Prod.snd) := by
    rw [value_collectAlternatives, List.flatMap_map, List.any_map]
    rfl
  rw [hvalue, hvalue, h]

theorem value_collectSimples_congr (ss : List Simple)
    {parts parts' : List (Traced (Option (List Simple)))}
    (h : parts.map Traced.value = parts'.map Traced.value) (found : List Simple)
    (modified : Bool) :
    (collectSimples (ss.zip parts) found modified).value =
      (collectSimples (ss.zip parts') found modified).value := by
  induction ss generalizing parts parts' found modified with
  | nil => rfl
  | cons s ss ih =>
    cases parts with
    | nil =>
      have hnil : parts' = [] := List.map_eq_nil_iff.1 h.symm
      rw [hnil]
    | cons part parts =>
      cases parts' with
      | nil => cases h
      | cons part' parts' =>
        obtain ⟨hpart, hparts⟩ := List.cons.inj h
        simp only [List.zip_cons_cons, collectSimples, Traced.value_bind, hpart]
        cases part'.value with
        | none => exact ih hparts _ _
        | some replaced => exact ih hparts _ _

variable {setting : Setting} {seen : List String}

theorem value_extendCompound (again : String → Complex → Traced (List Complex)) (c : Compound)
    (parts : List (Traced (Option (List Simple)))) :
    (extendCompound setting seen again c parts).value =
      let modified := (collectSimples (c.simples.zip parts) [] false).value.2
      let options := optionsFor setting seen again (settled c parts)
        (groups (setting.extensions.get (settled c parts))) []
      if options.isEmpty && !modified then none
      else if modified || setting.mode.keepsGiven then
        some ([.compound (settled c parts)] :: options)
      else some options := by
  unfold extendCompound optionsFor settled
  simp only [Traced.value_bind, Traced.value_foldlM]
  split_ifs <;> rfl

/-! ### Leaving out groups out of reach -/

/-- An index in which the same groups are found that are in reach of the media queries around a
rule, up to the numbers of their members. -/
def Confines (setting : Setting) (m : CompoundIndex Extension) : Prop :=
  ∀ c, (groups (m.get c)).map Group.unnumbered =
    ((groups (setting.extensions.get c)).filter (·.inReach setting.media)).map Group.unnumbered

section Recursion

variable {m : CompoundIndex Extension} {again again' : String → Complex → Traced (List Complex)}

theorem optionsFor_inReach (hcheck : setting.checkMedia) (c : Compound) (gs : List Group)
    (options : List (List Component)) :
    optionsFor setting seen again c (gs.filter (·.inReach setting.media)) options =
      optionsFor setting seen again c gs options := by
  unfold optionsFor
  rw [List.foldl_filter]
  congr 1
  funext options g
  split_ifs with hreach
  · rfl
  · have happlies : g.applies setting seen = false := by
      simp [Group.applies, hcheck, Group.isSome_outsider?, hreach]
    rw [value_applyGroup, happlies]
    rfl

theorem optionsFor_unnumbered (c : Compound) (gs : List Group) (options : List (List Component)) :
    optionsFor setting seen again c (gs.map Group.unnumbered) options =
      optionsFor setting seen again c gs options := by
  unfold optionsFor
  rw [List.foldl_map]
  simp only [value_applyGroup, Group.applies_unnumbered, Group.path?_unnumbered,
    Group.key_unnumbered]

/-- The options depend on the extensions only through the groups, and on how extenders are extended
in turn only through the results. -/
theorem optionsFor_congr (hagain : ∀ key c, (again' key c).value = (again key c).value)
    (c : Compound) (gs : List Group) (options : List (List Component)) :
    optionsFor { setting with extensions := m } seen again' c gs options =
      optionsFor setting seen again c gs options := by
  unfold optionsFor
  simp only [value_applyGroup, hagain]
  rfl

theorem optionsFor_confined (hcheck : setting.checkMedia) (hm : Confines setting m)
    (hagain : ∀ key c, (again' key c).value = (again key c).value) (c : Compound) :
    optionsFor { setting with extensions := m } seen again' c (groups (m.get c)) [] =
      optionsFor setting seen again c (groups (setting.extensions.get c)) [] := by
  rw [optionsFor_congr hagain, ← optionsFor_unnumbered, hm c, optionsFor_unnumbered,
    optionsFor_inReach hcheck]

theorem hereditary_confined (hcheck : setting.checkMedia) (hm : Confines setting m)
    (hagain : ∀ key c, (again' key c).value = (again key c).value) :
    let E := extending setting seen again
    let E' := extending { setting with extensions := m } seen again'
    Hereditary (fun s => (E'.ofSimple s).value = (E.ofSimple s).value)
      (fun c => (E'.ofComponent c).value = (E.ofComponent c).value)
      (fun c => (E'.ofComplex c).value = (E.ofComplex c).value) := by
  intro E E'
  constructor
  · intro s ih
    rw [Interpretation.ofSimple_eq, Interpretation.ofSimple_eq]
    cases hl : s.selector with
    | none => simp only [E, E', extending, hl]
    | some l =>
      have hparts : (l.map E'.ofComplex).map Traced.value =
          (l.map E.ofComplex).map Traced.value := by
        rw [List.map_map, List.map_map]
        exact List.map_congr_left (ih l hl)
      have hvalue := value_collectAlternatives_congr hparts [] false
      simp only [E, E', extending, hl, Option.getD_some] at hvalue ⊢
      split_ifs
      · simp only [Traced.value_bind, hvalue]
      · rfl
  · intro c ih
    have hparts : (c.simples.map E'.ofSimple).map Traced.value =
        (c.simples.map E.ofSimple).map Traced.value := by
      rw [List.map_map, List.map_map]
      exact List.map_congr_left ih
    have hvalue := value_collectSimples_congr c.simples hparts [] false
    have hsettled : settled c (c.simples.map E'.ofSimple) =
        settled c (c.simples.map E.ofSimple) := by
      unfold settled
      rw [hvalue]
    rw [ofComponent_extending, ofComponent_extending, value_extendCompound, value_extendCompound,
      hsettled, hvalue]
    simp only [optionsFor_confined hcheck hm hagain]
    rfl
  · intro k
    rfl
  · intro c ih
    have hoptions : c.components.map (optionsOf { setting with extensions := m } seen again') =
        c.components.map (optionsOf setting seen again) := by
      apply List.map_congr_left
      intro d hd
      unfold optionsOf
      rw [ih d hd]
    have hany : (c.components.any fun d => (E'.ofComponent d).value.isSome) =
        c.components.any fun d => (E.ofComponent d).value.isSome := by
      rw [Bool.eq_iff_iff, List.any_eq_true, List.any_eq_true]
      exact exists_congr fun d => and_congr_right fun hd => by rw [ih d hd]
    rw [value_ofComplex, value_ofComplex, hoptions, hany]

end Recursion

theorem extendComplex_confined {m : CompoundIndex Extension} (hcheck : setting.checkMedia)
    (hm : Confines setting m) (bound : Nat) (seen : List String) (c : Complex) :
    (extendComplex { setting with extensions := m } bound seen c).value =
      (extendComplex setting bound seen c).value := by
  induction bound generalizing seen c with
  | zero => rfl
  | succ bound ih =>
    have hagain (key : String) (c : Complex) :
        (againBy (extendComplex { setting with extensions := m } bound) seen key c).value =
          (againBy (extendComplex setting bound) seen key c).value := by
      unfold againBy
      rw [Traced.value_bind, Traced.value_bind, ih]
    rw [extendComplex_succ, extendComplex_succ]
    exact (hereditary_confined hcheck hm hagain).ofComplex c

end Apply

/-- A list is extended to the same alternatives with an index of the groups in reach. -/
theorem extendList_confined (setting : Setting) {m : CompoundIndex Extension}
    (hcheck : setting.checkMedia) (hm : Apply.Confines setting m)
    (hsize : m.size ≤ setting.extensions.size) (l : SelectorList) :
    (extendList { setting with extensions := m } l).value = (extendList setting l).value := by
  have hbound (n : Nat) (hn : m.size ≤ n) :
      Apply.unseen { setting with extensions := m } [] < Nat.pow 2 n + 1 := by
    have hle : Apply.unseen { setting with extensions := m } [] ≤ 2 ^ m.size :=
      Apply.unseen_le { setting with extensions := m } []
    have hpow : 2 ^ m.size ≤ 2 ^ n := Nat.pow_le_pow_right (by omega) hn
    exact Nat.lt_succ_of_le (hle.trans hpow)
  -- The smaller index has a smaller bound, which is no more reached than the larger one.
  have hparts (c : Complex) :
      (Apply.extendComplex { setting with extensions := m } (Nat.pow 2 m.size + 1) [] c).value =
        (Apply.extendComplex setting (Nat.pow 2 setting.extensions.size + 1) [] c).value := by
    rw [Apply.extendComplex_bound (hbound m.size le_rfl) (hbound _ hsize)]
    exact Apply.extendComplex_confined hcheck hm _ [] c
  rw [value_extendList, value_extendList]
  simp only [hparts]

/-! ### Registering only the extensions in reach -/

namespace CompoundIndex

theorem values_enter {xs : List Extension} (h : ∀ x ∈ xs, ¬ x.target.isEmpty)
    (m : CompoundIndex Extension) : (xs.foldl enter m).values.map Extension.unnumbered =
      m.values.map Extension.unnumbered ++ xs.map Extension.unnumbered := by
  induction xs generalizing m with
  | nil => simp
  | cons x xs ih =>
    obtain ⟨hx, hxs⟩ := List.forall_mem_cons.1 h
    have hvalues : (m.enter x).values = m.values ++ [{ x with serial := m.size }] := by
      unfold enter
      rw [values_put, if_neg hx]
    rw [List.foldl_cons, ih hxs, hvalues]
    simp [Extension.unnumbered]

/-- Which extensions are found does not depend on their numbers. -/
theorem InOrder.get_unnumbered {m : CompoundIndex Extension} (h : m.InOrder) (q : Compound) :
    (m.get q).map Extension.unnumbered =
      (m.values.map Extension.unnumbered).filter (·.target.keysWithin q) := by
  rw [h.get_eq, List.filter_map]
  rfl

end CompoundIndex

namespace Registry

/-- The registry with the same options and weights in which only the extensions are registered that
reach into some media queries. -/
def confined (reg : Registry) (media : List String) : Registry :=
  (reg.registered.filter fun x => x.media.isSublist media).foldl
    (fun r x => (r.register x.target x.extender x.origin x.optional x.media).1)
    { options := reg.options, sources := reg.sources, origins := reg.origins }

theorem confined_eq (reg : Registry) (media : List String) :
    reg.confined media =
      { options := reg.options, sources := reg.sources, origins := reg.origins
        extensions := (reg.registered.filter fun x => x.media.isSublist media).foldl
          CompoundIndex.enter {}
        registered := (reg.confined media).registered } := by
  refine (foldl_enter _ _).trans ?_
  rw [foldl_enter_extensions]
  rfl

variable {reg : Registry}

theorem confines_confined (hreg : reg.InStep) (hshared : reg.SharesMedia)
    (media : List String) :
    Apply.Confines (reg.setting media) (reg.confined media).extensions := by
  let reaches (x : Extension) : Bool := x.media.isSublist media
  let m := (reg.registered.filter reaches).foldl CompoundIndex.enter {}
  have hm : m.InOrder := CompoundIndex.inOrder_empty.foldl_enter _
  have htargets : ∀ x ∈ reg.registered.filter reaches, ¬ x.target.isEmpty :=
    fun x hx => hreg.target x (List.mem_of_mem_filter hx)
  have hvalues : m.values.map Extension.unnumbered =
      (reg.registered.filter reaches).map Extension.unnumbered :=
    CompoundIndex.values_enter htargets {}
  intro q
  have hfound : (m.get q).map Extension.unnumbered =
      ((reg.extensions.get q).filter reaches).map Extension.unnumbered := by
    calc (m.get q).map Extension.unnumbered
      _ = ((reg.registered.filter reaches).map Extension.unnumbered).filter
          (·.target.keysWithin q) := by rw [hm.get_unnumbered, hvalues]
      _ = ((reg.registered.filter reaches).filter (·.target.keysWithin q)).map
          Extension.unnumbered := List.filter_map
      _ = ((reg.extensions.get q).filter reaches).map Extension.unnumbered := by
        rw [hreg.order.get_eq, hreg.values, List.filter_comm]
  have hsame : ∀ x ∈ reg.extensions.get q, ∀ y ∈ reg.extensions.get q,
      x.origin = y.origin → reaches x = reaches y := by
    intro x hx y hy ho
    have hsub : reg.extensions.get q ⊆ reg.registered :=
      hreg.values ▸ (reg.extensions.get_sublist q).subset
    have hmedia := hshared x (hsub hx) y (hsub hy) ho
    simp only [reaches, hmedia]
  rw [confined_eq, ← Apply.groups_unnumbered, hfound, Apply.groups_unnumbered,
    Apply.groups_filter hsame]
  rfl

theorem size_confined_le (hreg : reg.InStep) (media : List String) :
    (reg.confined media).extensions.size ≤ reg.extensions.size := by
  have htargets : ∀ x ∈ reg.registered.filter fun x => x.media.isSublist media,
      ¬ x.target.isEmpty := fun x hx => hreg.target x (List.mem_of_mem_filter hx)
  have hlength := congrArg List.length (CompoundIndex.values_enter htargets {})
  rw [confined_eq]
  simp only [List.length_map, List.map_nil, List.nil_append] at hlength
  unfold CompoundIndex.size
  rw [hlength, hreg.values]
  exact List.length_filter_le _ _

/-- Extending a selector marks no extension that is out of reach. -/
theorem matched_extend_iff (hreg : reg.InStep) (hcheck : reg.options.checkMedia)
    {l : SelectorList} {media : List String} {x : Extension} (hx : x ∈ reg.registered)
    (hmedia : ¬ x.media.Sublist media) :
    x.serial ∈ (reg.extend l media).1.matched ↔ x.serial ∈ reg.matched := by
  constructor
  · intro h
    rcases List.mem_append.1 h with h | h
    · exact h
    · obtain ⟨e, he, hserial⟩ := List.mem_flatMap.1 h
      rcases List.mem_append.1 he with he | he
      · obtain ⟨y, hy, hxy, hreach⟩ := reaches_extendList _ _ e he x.serial hserial
        have hsame : y = x := hreg.order.eq_of_serial hy (hreg.values ▸ hx) hxy
        exact absurd (hsame ▸ hreach hcheck) hmedia
      · split_ifs at he
        · rw [List.mem_singleton.1 he] at hserial
          cases hserial
        · cases he
  · intro h
    exact (reg.extend_leadsTo l media).matched h

/-- Extensions inside other media queries do not matter. After any calls in which the extensions of
one extender were registered inside the same media queries, a selector is extended as if only the
extensions in reach had been registered, and no other extension is marked to have found its
target. -/
theorem extend_confined {options : ExtendOptions} (hcheck : options.checkMedia) (calls : List Call)
    (hshared : (after options calls).SharesMedia) (l : SelectorList) (media : List String) :
    let reg := after options calls
    (reg.extend l media).2.1 = ((reg.confined media).extend l media).2.1 ∧
      ∀ x ∈ reg.registered, ¬ x.media.Sublist media →
        (x.serial ∈ (reg.extend l media).1.matched ↔ x.serial ∈ reg.matched) := by
  intro reg
  have hreg : reg.InStep := after_inStep options calls
  have hoptions : reg.options.checkMedia := by rw [after_options]; exact hcheck
  constructor
  · have hlist := extendList_confined ({ reg with sources := reg.sources.addList l }.setting media)
      hoptions (confines_confined hreg hshared media) (size_confined_le hreg media) l
    rw [extend_selector, extend_selector, ← hlist, confined_eq]
    rfl
  · intro x hx hmedia
    exact matched_extend_iff hreg hoptions hx hmedia

/-- `.x` extends `.a` inside `print`, and one extender `.y` extends both `.a` and `.b` in two calls.
Outside all media queries `.a` gets `.y` as alternative, and the first extension is not marked. -/
theorem extend_confined_print :
    let single (name : String) : Complex := .ofComponents [.compound (.ofClass name)]
    let calls : List Call := [.add [(single "x", 0)] [single "a"] false ["print"],
      .add [(single "y", 1)] [single "a"] false [], .add [(single "y", 1)] [single "b"] false []]
    let reg := after {} calls
    reg.SharesMedia ∧ (reg.extend [single "a"] []).2.1.length = 2 ∧
      (reg.extend [single "a"] []).2.1 = ((reg.confined []).extend [single "a"] []).2.1 ∧
      ∃ x ∈ reg.registered, ¬ x.media.Sublist [] ∧
        x.serial ∉ (reg.extend [single "a"] []).1.matched := by
  intro single calls reg
  have hshared : reg.SharesMedia := by
    unfold SharesMedia
    decide +kernel
  have hlength : (reg.extend [single "a"] []).2.1.length = 2 := by decide +kernel
  have hfirst : ∃ x ∈ reg.registered, ¬ x.media.Sublist [] ∧ x.serial ∉ reg.matched := by
    decide +kernel
  have hcheck : ({} : ExtendOptions).checkMedia := rfl
  obtain ⟨hsame, hmatched⟩ := extend_confined hcheck calls hshared [single "a"] []
  obtain ⟨x, hx, hmedia, hnone⟩ := hfirst
  have hunmarked := mt (hmatched x hx hmedia).1 hnone
  refine ⟨hshared, hlength, ?_, x, hx, hmedia, ?_⟩
  -- Nothing is to be evaluated: both sides are the same but for the name of the registry.
  · with_reducible exact hsame
  · with_reducible exact hunmarked

end Registry

end SelectorCalculus
