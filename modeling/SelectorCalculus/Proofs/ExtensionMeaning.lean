import SelectorCalculus.Proofs.CallHistories
import SelectorCalculus.Proofs.ExtensionResults
import SelectorCalculus.Proofs.Reach
/-! Extension preserves meaning in a tree where whatever matches an extender has what the extension
targets. -/

namespace SelectorCalculus

/-! ### One extension -/

/-- Every element that matches an extender fits the target of the extension. -/
def ElementTree.Obeys (t : ElementTree) (xs : List Extension) : Prop :=
  ∀ x ∈ xs, ∀ e, t.present e → t.Matches x.extender.components e → (t.subject e).Fits x.target

/-- Every extender is one plain compound, and extensions of one origin share it. -/
structure PlainExtenders (xs : List Extension) : Prop where
  single : ∀ x ∈ xs, ∃ c : Compound, x.extender.components = [.compound c] ∧ c.isPlain
  extender_eq : ∀ x ∈ xs, ∀ y ∈ xs, x.origin = y.origin → x.extender = y.extender

/-- The second path asks for at least as much as the first, step by step, and is plain. -/
def ElementTree.Refines (t : ElementTree) (cs ds : List Component) : Prop :=
  List.Forall₂ t.Weaker cs ds ∧ isPlainPath ds

namespace ElementTree

variable {t : ElementTree}

theorem Weaker.refl (c : Component) : t.Weaker c c := by
  cases c with
  | compound c => exact fun _ _ h => h
  | combinator k => exact rfl

theorem Weaker.trans {a b c : Component} (hab : t.Weaker a b) (hbc : t.Weaker b c) :
    t.Weaker a c := by
  cases c with
  | compound c =>
    obtain ⟨b, rfl, hb⟩ := hbc.compound_right
    obtain ⟨a, rfl, ha⟩ := hab.compound_right
    exact fun e he hc => ha e he (hb e he hc)
  | combinator k =>
    obtain rfl := hbc.combinator_right
    obtain rfl := hab.combinator_right
    exact rfl

theorem Refines.refl {cs : List Component} (h : isPlainPath cs) : t.Refines cs cs :=
  ⟨List.forall₂_same.2 fun c _ => Weaker.refl c, h⟩

theorem Refines.trans_single {c u : Component} {ds : List Component} (h : t.Weaker c u)
    (hd : t.Refines [u] ds) : t.Refines [c] ds := by
  obtain ⟨hd, hp⟩ := hd
  obtain ⟨d, _, hud, hnil, rfl⟩ := List.forall₂_cons_left_iff.1 hd
  exact ⟨.cons (h.trans hud) hnil, hp⟩

end ElementTree

open ElementTree

namespace Apply

/-- A compound in which the targets of a group give way to its extender asks for at least as much as
before, in a tree that obeys the extensions. -/
theorem Group.path?_refines {t : ElementTree} {xs : List Extension} (hx : PlainExtenders xs)
    (ht : t.Obeys xs) {g : Group} (hg : GroupOf xs g) {c : Compound} (hc : c.isPlain)
    {parent : Bool} {path : List Component} (h : g.path? c parent = some path) :
    ∃ u : Compound, path = [.compound u] ∧ u.isPlain ∧ t.Weaker (.compound c) (.compound u) := by
  obtain ⟨x, hxs, hxo, hxe⟩ := hg.extender
  obtain ⟨base, hbase, hplain⟩ := hx.single x hxs
  rw [hxe] at hbase
  simp only [path?, Complex.base?, hbase, List.getLast?_singleton, Option.bind_some,
    Component.compound?, Option.bind_eq_bind, Option.pure_def, List.dropLast_singleton,
    List.nil_append, Option.bind_eq_some_iff, Option.some.injEq] at h
  obtain ⟨u, hu, rfl⟩ := h
  have hrest : (Compound.ofSimples (g.remainder c)).isPlain := by
    refine Compound.isPlain_iff.2 fun s hs => ?_
    exact Compound.isPlain_iff.1 hc s (List.mem_of_mem_filter hs)
  have huplain : u.isPlain := isPlain_unify hu hrest hplain
  refine ⟨_, rfl, huplain, fun e he hfit => ?_⟩
  obtain ⟨hfr, hfb⟩ := (Subject.fits_unify hu).1 hfit
  have htargets (m : Extension) (hm : m ∈ g.members) : (t.subject e).Fits m.target := by
    have hms : m ∈ xs := hg.members.subset hm
    refine ht m hms e he ?_
    rw [hx.extender_eq m hms x hxs ((hg.origin m hm).trans hxo.symm), hxe, hbase]
    exact .single hfb
  intro s hs
  by_cases htarget : containsSimple g.targets s
  · obtain ⟨s', hs', heq⟩ := containsSimple_iff.1 htarget
    obtain ⟨m, hm, hms⟩ := Group.exists_of_mem_targets hs'
    exact (Subject.satisfies_congr heq).2 (htargets m hm s' hms)
  · exact hfr s (List.mem_filter.2 ⟨hs, by simpa using htarget⟩)

variable {setting : Setting} {seen : List String} {again : String → Complex → Traced (List Complex)}
  {t : ElementTree}

theorem optionsFor_refine (hx : PlainExtenders setting.extensions.values)
    (ht : t.Obeys setting.extensions.values)
    (hagain : ∀ key c, isPlainPath c.components →
      ∀ d ∈ (again key c).value, t.Refines c.components d.components)
    {c : Compound} (hc : c.isPlain) {gs : List Group}
    (hgs : ∀ g ∈ gs, GroupOf setting.extensions.values g) {options : List (List Component)}
    (ho : ∀ o ∈ options, t.Refines [.compound c] o) :
    ∀ o ∈ optionsFor setting seen again c gs options, t.Refines [.compound c] o := by
  induction gs generalizing options with
  | nil => exact ho
  | cons g gs ih =>
    obtain ⟨hg, hgs⟩ := List.forall_mem_cons.1 hgs
    refine ih hgs fun o hmem => ?_
    beta_reduce at hmem
    rw [value_applyGroup] at hmem
    split at hmem
    · exact ho o hmem
    · rename_i path happly
      obtain ⟨-, hpath⟩ := Option.ite_none_right_eq_some.1 happly
      rw [addOption_eq] at hmem
      rcases mem_of_mem_foldl_addUnless hmem with hmem | hmem
      · exact ho o hmem
      · obtain ⟨d, hd, rfl⟩ := List.mem_map.1 hmem
        obtain ⟨u, rfl, hu, hw⟩ := Group.path?_refines hx ht hg hc hpath
        exact (hagain g.key (.ofComponents _) (isPlainPath_singleton.2 hu) d hd).trans_single hw

theorem optionsOf_refine (hx : PlainExtenders setting.extensions.values)
    (ht : t.Obeys setting.extensions.values) (hmode : setting.mode = .normal)
    (hagain : ∀ key c, isPlainPath c.components →
      ∀ d ∈ (again key c).value, t.Refines c.components d.components)
    {c : Component} (hc : isPlainPath [c]) :
    ∀ o ∈ optionsOf setting seen again c, t.Refines [c] o := by
  have hself : ∀ o ∈ [[c]], t.Refines [c] o := by
    simpa using Refines.refl hc
  cases c with
  | combinator k => exact hself
  | compound c =>
    have hplain := isPlainPath_singleton.1 hc
    rw [optionsOf_compound setting seen again hmode (Compound.isFlat_of_isPlain hplain)]
    refine List.forall_mem_cons.2 ⟨Refines.refl hc, ?_⟩
    refine optionsFor_refine hx ht hagain hplain (fun g hg => ?_) (by simp)
    exact (groupOf_of_mem_groups g hg).of_sublist (setting.extensions.get_sublist c)

theorem exists_of_mem_picks {options : Component → List (List Component)} {cs : List Component}
    (ho : ∀ c ∈ cs, ∀ o ∈ options c, t.Refines [c] o) {path : List (List Component)}
    (hp : path ∈ picks (cs.map options)) :
    ∃ ds, path = ds.map (fun d => [d]) ∧ t.Refines cs ds := by
  rw [mem_picks] at hp
  induction cs generalizing path with
  | nil =>
    cases hp
    exact ⟨[], rfl, .nil, rfl⟩
  | cons c cs ih =>
    obtain ⟨hc, ho⟩ := List.forall_mem_cons.1 ho
    obtain ⟨o, rest, hmem, hrest, rfl⟩ := List.forall₂_cons_right_iff.1 hp
    obtain ⟨ds, rfl, hw, hds⟩ := ih ho hrest
    obtain ⟨hco, hplain⟩ := hc o hmem
    obtain ⟨d, _, hcd, hnil, rfl⟩ := List.forall₂_cons_left_iff.1 hco
    cases hnil
    exact ⟨d :: ds, rfl, .cons hcd hw, isPlainPath_cons.2 ⟨hplain, hds⟩⟩

theorem weaveChoices_refine {options : Component → List (List Component)} {cs : List Component}
    (ho : ∀ c ∈ cs, ∀ o ∈ options c, t.Refines [c] o) (hcs : cs ≠ []) {lineBreak : Bool} :
    ∀ d ∈ weaveChoices (cs.map options) lineBreak, t.Refines cs d.components := by
  intro d hd
  rw [weaveChoices_eq] at hd
  rcases mem_of_mem_foldl_addUnless hd with hd | hd
  · cases hd
  · obtain ⟨path, hpath, rfl⟩ := List.mem_map.1 hd
    obtain ⟨picked, hpicked, hpath⟩ := List.mem_flatMap.1 hpath
    obtain ⟨ds, rfl, hds⟩ := exists_of_mem_picks ho hpicked
    obtain ⟨d, ds, rfl⟩ : ∃ d ds', ds = d :: ds' := by
      cases ds with
      | nil => exact absurd hds.1.length_eq (by simpa using hcs)
      | cons d ds => exact ⟨d, ds, rfl⟩
    rw [weave_singletons, List.mem_singleton] at hpath
    exact hpath ▸ hds

/-- Whatever a plain complex selector is extended to refines it. The bound on the depth plays no
part. -/
theorem extendComplex_refine (hx : PlainExtenders setting.extensions.values)
    (ht : t.Obeys setting.extensions.values) (hmode : setting.mode = .normal) (bound : Nat)
    (seen : List String) {c : Complex} (hc : isPlainPath c.components) :
    ∀ d ∈ (extendComplex setting bound seen c).value.1, t.Refines c.components d.components := by
  induction bound generalizing seen c with
  | zero => simpa [extendComplex] using Refines.refl hc
  | succ bound ih =>
    have hagain : ∀ key d, isPlainPath d.components →
        ∀ d' ∈ (againBy (extendComplex setting bound) seen key d).value,
          t.Refines d.components d'.components := fun key d hd => ih (key :: seen) hd
    rw [extendComplex_succ, value_ofComplex]
    split
    · rename_i hmod
      have hne : c.components ≠ [] := by
        intro hnil
        simp [hnil] at hmod
      refine fun d hd => weaveChoices_refine (fun d hd => ?_) hne d (mem_of_mem_trim hd)
      exact optionsOf_refine hx ht hmode hagain (isPlainPath_of_mem hc hd)
    · simpa using Refines.refl hc

end Apply

/-! ### Extending a list -/

/-- The extended list matches what the list matches, in a tree that obeys the extensions. -/
theorem extendList_matches_iff {setting : Setting} {t : ElementTree}
    (hx : PlainExtenders setting.extensions.values) (ht : t.Obeys setting.extensions.values)
    (hmode : setting.mode = .normal) {l : SelectorList} (hl : ∀ c ∈ l, isPlainPath c.components)
    {e : Address} (he : t.present e) :
    t.MatchesList (extendList setting l).value.1 e ↔ t.MatchesList l e := by
  constructor
  · rw [value_extendList]
    split
    · rintro ⟨d, hd, hmatch⟩
      rcases mem_of_mem_foldl_addUnless hd with hd | hd
      · cases hd
      · simp only [List.mem_flatMap, List.mem_map] at hd
        obtain ⟨_, ⟨c, hc, rfl⟩, hd⟩ := hd
        have hrefines := Apply.extendComplex_refine hx ht hmode _ [] (hl c hc) d hd
        exact ⟨c, hc, hmatch.weaken he hrefines.1⟩
    · exact id
  · rintro ⟨c, hc, hmatch⟩
    obtain ⟨d, hd, hcd⟩ := Apply.exists_equal_mem_extendComplex setting [] hmode
      (Nat.pow 2 setting.extensions.size + 1) (isFlatPath_of_isPlainPath (hl c hc))
    obtain ⟨d', hd', hdd'⟩ := exists_equal_mem_extendList hc hd
    refine ⟨d', hd', (matches_congr (Complex.equal.equalPaths ?_) he).1 hmatch⟩
    exact Complex.equal_trans hcd hdd'

namespace Registry

/-- Extending a list keeps its meaning. Whatever has been registered, extended and resolved before,
and in whichever order, as long as all extenders are single compounds, some of them perhaps of
several calls: in a tree where the elements that match an extender fit what it extends, the extended
list matches the same elements. -/
theorem extend_matches_iff {options : ExtendOptions} (hmode : options.mode = .normal)
    {calls : List Call} (hidentifies : IdentifiesExtenders calls)
    (hextenders : ∀ x ∈ (after options calls).registered, ∃ c : Compound,
      x.extender.components = [.compound c] ∧ c.isPlain)
    {l : SelectorList} (hl : ∀ c ∈ l, isPlainPath c.components) (media : List String)
    {t : ElementTree} (ht : t.Obeys (after options calls).registered) {e : Address}
    (he : t.present e) :
    t.MatchesList ((after options calls).extend l media).2.1 e ↔ t.MatchesList l e := by
  have hvalues := (after_inStep options calls).values
  have hx : PlainExtenders (after options calls).extensions.values := by
    rw [hvalues]
    exact ⟨hextenders, hidentifies.extender_eq⟩
  rw [← hvalues] at ht
  have hnormal : (after options calls).options.mode = .normal := by
    rw [after_options]
    exact hmode
  rw [extend_selector]
  exact extendList_matches_iff hx ht hnormal hl he

/-- One extender `.x` extends `.a` and, in a later call, `.b`; `.c` and `.d` extend each other. -/
def sharedCalls : List Call :=
  let single (name : String) : Complex := .ofComponents [.compound (.ofClass name)]
  [.add [(single "x", 0)] [single "a"] false [], .add [(single "x", 0)] [single "b"] false ["print"],
    .add [(single "d", 1)] [single "c"] false [], .add [(single "c", 2)] [single "d"] true []]

/-- A root with two children, of which the first has the classes `a`, `b` and `x` and the second has
`a` alone. -/
def twoChildren : ElementTree where
  present e := e ∈ [[], [0], [1]]
  subject e := .ofClasses (if e = [0] then ["a", "b", "x"] else if e = [1] then ["a"] else [])
  present_parent h := by
    simp only [List.mem_cons, List.cons_ne_nil, List.cons.injEq, List.not_mem_nil, or_false,
      false_or] at h ⊢
    exact Or.inl (h.elim And.right And.right)
  present_previous h := by
    simp only [List.mem_cons, List.cons_ne_nil, List.cons.injEq, List.not_mem_nil, or_false,
      false_or] at h ⊢
    exact Or.inl (by simpa using h)

theorem exists_of_registered_sharedCalls {x : Extension}
    (hx : x ∈ (after {} sharedCalls).registered) : ∃ extender target,
      x.extender.components = [.compound (.ofClass extender)] ∧ x.target = .ofClass target ∧
        ∀ e, (twoChildren.subject e).Fits (.ofClass extender) →
          (twoChildren.subject e).Fits (.ofClass target) := by
  have hregistered : (after {} sharedCalls).registered.map (fun x => (x.extender, x.target)) =
      [("x", "a"), ("x", "b"), ("d", "c"), ("c", "d")].map fun (extender, target) =>
        (.ofComponents [.compound (.ofClass extender)], .ofClass target) := rfl
  have hpair := List.mem_map_of_mem (f := fun x => (x.extender, x.target)) hx
  rw [hregistered] at hpair
  obtain ⟨⟨extender, target⟩, hnames, hpair⟩ := List.mem_map.1 hpair
  obtain ⟨he, ht⟩ := Prod.mk.inj hpair
  refine ⟨extender, target, congrArg Complex.components he.symm, ht.symm, fun e => ?_⟩
  simp only [twoChildren, Subject.ofClasses_fits]
  simp only [List.mem_cons, Prod.mk.injEq, List.not_mem_nil, or_false] at hnames
  rcases hnames with ⟨rfl, rfl⟩ | ⟨rfl, rfl⟩ | ⟨rfl, rfl⟩ | ⟨rfl, rfl⟩ <;> split_ifs <;> decide

/-- `.a.b, .c` becomes `.a.b, .x, .c, .d`: the shared extender takes the place of both targets at
once. -/
theorem extend_matches_iff_shared :
    let ab := Compound.ofSimples
      [{ kind := .className, name := "a" }, { kind := .className, name := "b" }]
    let l := [Complex.ofComponents [.compound ab], .ofComponents [.compound (.ofClass "c")]]
    let extended := ((after {} sharedCalls).extend l ["print"]).2.1
    extended.map Complex.render = [".a.b", ".x", ".c", ".d"] ∧
      twoChildren.MatchesList extended [0] ∧ ¬ twoChildren.MatchesList extended [1] := by
  intro ab l extended
  have hrender : extended.map Complex.render = [".a.b", ".x", ".c", ".d"] := by decide +kernel
  have hshared : IdentifiesExtenders (sharedCalls.take 2) :=
    ⟨fun _ => .ofComponents [.compound (.ofClass "x")], by simp [sharedCalls, Call.extenders]⟩
  have hidentifies : IdentifiesExtenders sharedCalls :=
    (hshared.add {} [_] _ false []).add {} [_] _ true []
  have hiff {e : Address} (he : twoChildren.present e) :
      twoChildren.MatchesList extended e ↔ twoChildren.MatchesList l e := by
    refine extend_matches_iff rfl hidentifies ?_ (by decide) ["print"] ?_ he
    · intro x hx
      obtain ⟨extender, -, hx, -⟩ := exists_of_registered_sharedCalls hx
      exact ⟨.ofClass extender, hx, rfl⟩
    · intro x hx e _ hmatch
      obtain ⟨extender, target, he, ht, hfits⟩ := exists_of_registered_sharedCalls hx
      rw [he, matches_single_iff] at hmatch
      exact ht ▸ hfits e hmatch
  have hlist (e : Address) : twoChildren.MatchesList l e ↔
      (twoChildren.subject e).Fits ab ∨ (twoChildren.subject e).Fits (.ofClass "c") := by
    simp [ElementTree.MatchesList, l, Complex.ofComponents, Complex.components, matches_single_iff]
  have hab (e : Address) : (twoChildren.subject e).Fits ab ↔
      (twoChildren.subject e).Fits (.ofClass "a") ∧ (twoChildren.subject e).Fits (.ofClass "b") := by
    simp [Subject.Fits, ab, Compound.ofClass, Compound.ofSimples]
  refine ⟨hrender, ?_, ?_⟩
  · rw [hiff (by simp [twoChildren]), hlist, hab]
    simp [twoChildren]
  · rw [hiff (by simp [twoChildren]), hlist, hab]
    simp [twoChildren]

end Registry

end SelectorCalculus
