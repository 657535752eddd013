import SelectorCalculus.Proofs.IndexRuns
import SelectorCalculus.Proofs.RuleOrder
import Mathlib.Logic.Relation
/-! Histories of calls on one registry, its two stores, and the calls that have filled them. -/

namespace SelectorCalculus

/-! ### Extensions in an index -/

/-- Extensions with their places for numbers. -/
def numbered (xs : List Extension) : List Extension := xs.mapIdx fun i x => { x with serial := i }

/-- Extensions under their targets. -/
def underTargets (xs : List Extension) : List (Compound × Extension) :=
  xs.map fun x => (x.target, x)

theorem underTargets_snoc (xs : List Extension) (x : Extension) :
    underTargets (xs ++ [x]) = underTargets xs ++ [(x.target, x)] := List.map_append

theorem numbered_snoc (xs : List Extension) (x : Extension) :
    numbered (xs ++ [x]) = numbered xs ++ [{ x with serial := xs.length }] := List.mapIdx_concat

theorem exists_of_mem_numbered {xs : List Extension} {y : Extension} (h : y ∈ numbered xs) :
    ∃ x ∈ xs, ∃ i, y = { x with serial := i } := by
  obtain ⟨i, hi, rfl⟩ := List.mem_mapIdx.1 h
  exact ⟨xs[i], List.getElem_mem hi, i, rfl⟩

theorem target_numbered {xs : List Extension} (h : ∀ x ∈ xs, ¬ x.target.isEmpty) :
    ∀ x ∈ numbered xs, ¬ x.target.isEmpty := by
  intro y hy
  obtain ⟨x, hx, i, rfl⟩ := exists_of_mem_numbered hy
  exact h x hx

namespace CompoundIndex

theorem values_put (m : CompoundIndex α) (entry : Compound × α) :
    (m.put entry).values = if entry.1.isEmpty then m.values else m.values ++ [entry.2] := by
  unfold put insert?
  split_ifs <;> rfl

/-- Puts an extension under its target, with the next number. -/
def enter (m : CompoundIndex Extension) (x : Extension) : CompoundIndex Extension :=
  m.put (x.target, { x with serial := m.size })

/-- Extensions are filed under their targets, none of which is empty, and numbered in order. -/
structure InOrder (m : CompoundIndex Extension) : Prop where
  holds : m.Holds (underTargets m.values)
  target : ∀ x ∈ m.values, ¬ x.target.isEmpty
  serials : m.values.map Extension.serial = List.range m.size

variable {m : CompoundIndex Extension}

theorem inOrder_empty : ({} : CompoundIndex Extension).InOrder := by
  constructor
  · exact ⟨rfl, fun _ => rfl⟩
  · intro x hx
    cases hx
  · rfl

theorem InOrder.enter (h : m.InOrder) (x : Extension) : (m.enter x).InOrder := by
  by_cases hempty : x.target.isEmpty
  · have hsame : m.enter x = m := put_of_isEmpty m hempty
    rwa [hsame]
  · have hvalues : (m.enter x).values = m.values ++ [{ x with serial := m.size }] := by
      rw [CompoundIndex.enter, values_put, if_neg hempty]
    constructor
    · rw [hvalues, underTargets_snoc]
      exact h.holds.put hempty
    · rw [hvalues]
      intro y hy
      rcases List.mem_append.1 hy with hy | hy
      · exact h.target y hy
      · rwa [List.mem_singleton.1 hy]
    · rw [size, hvalues, List.map_append, h.serials, List.length_append, List.length_singleton,
        List.range_succ, List.map_singleton, size]

theorem InOrder.foldl_enter (h : m.InOrder) (xs : List Extension) :
    (xs.foldl CompoundIndex.enter m).InOrder := by
  induction xs generalizing m with
  | nil => exact h
  | cons x xs ih => exact ih (h.enter x)

/-- The extensions found in a compound are those whose targets have no other keys. -/
theorem InOrder.get_eq (h : m.InOrder) (q : Compound) :
    m.get q = m.values.filter (·.target.keysWithin q) := by
  have htargets : ∀ entry ∈ underTargets m.values, ¬ entry.1.isEmpty := by
    intro entry hentry
    obtain ⟨x, hx, rfl⟩ := List.mem_map.1 hentry
    exact h.target x hx
  rw [h.holds.get_eq htargets, underTargets, List.filter_map, List.map_map]
  exact List.map_id _

theorem InOrder.eq_of_serial (h : m.InOrder) {x y : Extension} (hx : x ∈ m.values)
    (hy : y ∈ m.values) (hxy : x.serial = y.serial) : x = y := by
  have hnodup : (m.values.map Extension.serial).Nodup := h.serials ▸ List.nodup_range
  exact List.inj_on_of_nodup_map hnodup hx hy hxy

theorem holds_underTargets {xs : List Extension} (h : ∀ x ∈ xs, ¬ x.target.isEmpty) :
    (ofPuts (underTargets xs)).Holds (underTargets xs) := by
  have haccepted : accepted (underTargets xs) = underTargets xs := by
    refine List.filter_eq_self.2 fun entry hentry => ?_
    obtain ⟨x, hx, rfl⟩ := List.mem_map.1 hentry
    simpa using h x hx
  have hholds := holds_ofPuts (underTargets xs)
  rwa [haccepted] at hholds

theorem foldl_enter {xs : List Extension} (h : ∀ x ∈ xs, ¬ x.target.isEmpty) :
    xs.foldl enter {} = ofPuts (underTargets (numbered xs)) := by
  induction xs using List.reverseRecOn with
  | nil => rfl
  | append_singleton xs x ih =>
    have hxs : ∀ y ∈ xs, ¬ y.target.isEmpty := fun y hy => h y (List.mem_append_left _ hy)
    have hsize : (ofPuts (underTargets (numbered xs))).size = xs.length := by
      rw [size, (holds_underTargets (target_numbered hxs)).values]
      simp [underTargets, numbered]
    rw [List.foldl_append, ih hxs, numbered_snoc, underTargets_snoc, ofPuts_snoc, ← hsize]
    rfl

end CompoundIndex

/-! ### Entering an extension -/

/-- The compound that is a proper target: it stands alone and is not empty. -/
def Complex.target? (t : Complex) : Option Compound := t.single?.filter (!·.isEmpty)

namespace Registry

/-- Registers an extension, with the next number. -/
def enter (reg : Registry) (x : Extension) : Registry :=
  (reg.register x.target x.extender x.origin x.optional x.media).1

/-- An extension is entered into both stores or, for an empty target, into neither. -/
theorem enter_eq (reg : Registry) (x : Extension) :
    reg.enter x = if x.target.isEmpty then reg else { reg with
      extensions := reg.extensions.enter x
      registered := reg.registered ++ [{ x with serial := reg.extensions.size }] } := by
  unfold enter register CompoundIndex.enter CompoundIndex.put CompoundIndex.insert?
  split_ifs <;> rfl

theorem enter_of_isEmpty (reg : Registry) {x : Extension} (h : x.target.isEmpty) :
    reg.enter x = reg := by
  rw [enter_eq, if_pos h]

theorem enter_extensions (reg : Registry) (x : Extension) :
    (reg.enter x).extensions = reg.extensions.enter x := by
  rw [enter_eq]
  split_ifs with hempty
  · exact (CompoundIndex.put_of_isEmpty _ hempty).symm
  · rfl

theorem foldl_enter_extensions (xs : List Extension) (reg : Registry) :
    (xs.foldl enter reg).extensions = xs.foldl .enter reg.extensions :=
  (List.foldl_hom Registry.extensions fun reg x => (reg.enter_extensions x).symm).symm

/-- Entering extensions changes the two stores only. -/
theorem foldl_enter (xs : List Extension) (reg : Registry) :
    xs.foldl enter reg = { reg with
      extensions := (xs.foldl enter reg).extensions
      registered := (xs.foldl enter reg).registered } := by
  induction xs generalizing reg with
  | nil => rfl
  | cons x xs ih =>
    rw [List.foldl_cons, ih, enter_eq]
    split_ifs <;> rfl

/-- The extensions of one target by some extenders, without their numbers. -/
def pairsWith (extenders : List (Complex × Nat)) (optional : Bool) (media : List String)
    (target : Compound) : List Extension :=
  extenders.map fun (extender, origin) =>
    { extender, target, optional, media, serial := 0, origin }

theorem registerAll_fst (target : Compound) (optional : Bool) (media : List String)
    (extenders : List (Complex × Nat)) (reg : Registry) :
    (registerAll target optional media extenders reg).1 =
      (pairsWith extenders optional media target).foldl enter reg := by
  induction extenders generalizing reg with
  | nil => rfl
  | cons extender rest ih =>
    unfold registerAll
    dsimp only
    rw [ih]
    rfl

theorem foldl_pairsWith_of_isEmpty {target : Compound} (h : target.isEmpty)
    (extenders : List (Complex × Nat)) (optional : Bool) (media : List String) (reg : Registry) :
    (pairsWith extenders optional media target).foldl enter reg = reg := by
  induction extenders with
  | nil => rfl
  | cons extender rest ih =>
    rw [pairsWith, List.map_cons, List.foldl_cons, enter_of_isEmpty reg h]
    exact ih

theorem registerTargets_fst (extenders : List (Complex × Nat)) (optional : Bool)
    (media : List String) (targets : List Complex) (reg : Registry) :
    (registerTargets extenders optional media targets reg).1 =
      ((targets.filterMap Complex.target?).flatMap (pairsWith extenders optional media)).foldl enter
        reg := by
  induction targets generalizing reg with
  | nil => rfl
  | cons target rest ih =>
    unfold registerTargets
    cases hsingle : target.single? with
    | none =>
      have hnone : target.target? = none := by simp [Complex.target?, hsingle]
      rw [List.filterMap_cons_none hnone]
      exact ih reg
    | some c =>
      dsimp only
      rw [ih, registerAll_fst]
      by_cases hempty : c.isEmpty
      · have hnone : target.target? = none := by simp [Complex.target?, hsingle, hempty]
        rw [List.filterMap_cons_none hnone, foldl_pairsWith_of_isEmpty hempty]
      · have hsome : target.target? = some c := by simp [Complex.target?, hsingle, hempty]
        rw [List.filterMap_cons_some hsome, List.flatMap_cons, List.foldl_append]

/-! ### What a call can do -/

/-- The two stores of a registry hold the same extensions in the same order. -/
structure InStep (reg : Registry) : Prop where
  values : reg.extensions.values = reg.registered
  order : reg.extensions.InOrder

theorem InStep.target {reg : Registry} (h : reg.InStep) :
    ∀ x ∈ reg.registered, ¬ x.target.isEmpty := h.values ▸ h.order.target

/-- What can happen to a registry: an extension is entered, selectors are counted, or extensions
find their targets. -/
inductive Step (reg : Registry) : Registry → Prop where
  | enter (x : Extension) : Step reg (reg.enter x)
  | count (sources : Sources) (origins : Nat) : Step reg { reg with sources, origins }
  | mark (serials : List Nat) : Step reg { reg with matched := reg.matched ++ serials }

/-- One registry comes from another one step by step. -/
def LeadsTo (reg reg' : Registry) : Prop := Relation.ReflTransGen Step reg reg'

section Steps

variable {reg reg' : Registry}

theorem Step.options (h : reg.Step reg') : reg'.options = reg.options := by
  cases h with
  | enter x => rw [enter_eq]; split_ifs <;> rfl
  | count sources origins => rfl
  | mark serials => rfl

theorem Step.matched (h : reg.Step reg') : reg.matched ⊆ reg'.matched := by
  cases h with
  | enter x => rw [enter_eq]; split_ifs <;> exact List.Subset.refl _
  | count sources origins => exact List.Subset.refl _
  | mark serials => exact List.subset_append_left _ _

theorem InStep.step (h : reg.InStep) (hstep : reg.Step reg') : reg'.InStep := by
  cases hstep with
  | enter x =>
    rw [enter_eq]
    split_ifs with hempty
    · exact h
    · constructor
      · show (reg.extensions.put _).values = _
        rw [CompoundIndex.values_put, if_neg hempty, h.values]
      · exact h.order.enter x
  | count sources origins => exact ⟨h.values, h.order⟩
  | mark serials => exact ⟨h.values, h.order⟩

theorem LeadsTo.options (h : reg.LeadsTo reg') : reg'.options = reg.options := by
  induction h with
  | refl => rfl
  | tail _ hstep ih => exact hstep.options.trans ih

theorem LeadsTo.matched (h : reg.LeadsTo reg') : reg.matched ⊆ reg'.matched := by
  induction h with
  | refl => exact List.Subset.refl _
  | tail _ hstep ih => exact List.Subset.trans ih hstep.matched

theorem InStep.leadsTo (h : reg.InStep) (hreg : reg.LeadsTo reg') : reg'.InStep := by
  induction hreg with
  | refl => exact h
  | tail _ hstep ih => exact ih.step hstep

end Steps

theorem foldl_enter_leadsTo (xs : List Extension) (reg : Registry) :
    reg.LeadsTo (xs.foldl enter reg) := by
  induction xs generalizing reg with
  | nil => exact .refl
  | cons x xs ih => exact (Relation.ReflTransGen.single (.enter x)).trans (ih _)

theorem addNumbered_leadsTo (reg : Registry) (extenders : List (Complex × Nat))
    (target : SelectorList) (optional : Bool) (media : List String) :
    reg.LeadsTo (reg.addNumbered extenders target optional media).1 := by
  unfold addNumbered
  rw [registerTargets_fst]
  exact (Relation.ReflTransGen.single (.count _ _)).trans (foldl_enter_leadsTo _ _)

theorem extend_leadsTo (reg : Registry) (l : SelectorList) (media : List String) :
    reg.LeadsTo (reg.extend l media).1 :=
  (Relation.ReflTransGen.single (.count (reg.sources.addList l) reg.origins)).tail (.mark _)

theorem resolveEach_leadsTo (rules : List Rule) (reg : Registry) :
    reg.LeadsTo (resolveEach rules reg).1 := by
  induction rules generalizing reg with
  | nil => exact .refl
  | cons r rest ih => exact (reg.extend_leadsTo r.selector r.media).trans (ih _)

theorem resolve_leadsTo (reg : Registry) (rules : List Rule) :
    reg.LeadsTo (reg.resolve rules).1 := by
  have hcounting : reg.Step (reg.counting rules) := .count _ reg.origins
  exact (Relation.ReflTransGen.single hcounting).trans (resolveEach_leadsTo rules _)

/-! ### Histories -/

/-- The calls on a registry. -/
inductive Call where
  | add (extenders : List (Complex × Nat)) (target : SelectorList) (optional : Bool)
      (media : List String)
  | extend (l : SelectorList) (media : List String)
  | resolve (rules : List Rule)
  /-- Asks for the extensions that have not found their targets. -/
  | unsatisfied

namespace Call

/-- The registry that a call leaves behind. -/
def run (reg : Registry) : Call → Registry
  | add extenders target optional media => (reg.addNumbered extenders target optional media).1
  | extend l media => (reg.extend l media).1
  | resolve rules => (reg.resolve rules).1
  | unsatisfied => reg

theorem run_leadsTo (reg : Registry) (call : Call) : reg.LeadsTo (call.run reg) := by
  cases call with
  | add extenders target optional media =>
    exact reg.addNumbered_leadsTo extenders target optional media
  | extend l media => exact reg.extend_leadsTo l media
  | resolve rules => exact reg.resolve_leadsTo rules
  | unsatisfied => exact .refl

/-- The extenders that a call registers. -/
def extenders : Call → List (Complex × Nat)
  | add extenders _ _ _ => extenders
  | _ => []

/-- The extensions that a call registers, without their numbers. -/
def pairs : Call → List Extension
  | add extenders target optional media =>
    (target.filterMap Complex.target?).flatMap (pairsWith extenders optional media)
  | _ => []

theorem of_mem_pairs {call : Call} {x : Extension} (hx : x ∈ call.pairs) :
    ¬ x.target.isEmpty ∧ (x.extender, x.origin) ∈ call.extenders := by
  cases call with
  | add extenders target optional media =>
    obtain ⟨c, hc, hx⟩ := List.mem_flatMap.1 hx
    obtain ⟨extender, hextender, rfl⟩ := List.mem_map.1 hx
    obtain ⟨t, -, ht⟩ := List.mem_filterMap.1 hc
    exact ⟨by simpa using (Option.filter_eq_some_iff.1 ht).2, hextender⟩
  | _ => cases hx

theorem run_origins (reg : Registry) (call : Call) :
    (call.run reg).origins = call.extenders.foldl (fun n x => max n (x.2 + 1)) reg.origins := by
  cases call with
  | add extenders target optional media =>
    refine congrArg Registry.origins ((registerTargets_fst ..).trans (foldl_enter ..))
  | extend l media => rfl
  | resolve rules => exact (reg.resolve_stores rules).2.2
  | unsatisfied => rfl

theorem run_extensions (reg : Registry) (call : Call) :
    (call.run reg).extensions = call.pairs.foldl .enter reg.extensions := by
  cases call with
  | add extenders target optional media =>
    refine (congrArg Registry.extensions (registerTargets_fst ..)).trans ?_
    exact foldl_enter_extensions _ _
  | extend l media => rfl
  | resolve rules => exact (reg.resolve_stores rules).1
  | unsatisfied => rfl

end Call

/-- The registry after some calls. -/
def run (reg : Registry) (calls : List Call) : Registry := calls.foldl Call.run reg

theorem run_leadsTo (reg : Registry) (calls : List Call) : reg.LeadsTo (reg.run calls) := by
  induction calls generalizing reg with
  | nil => exact .refl
  | cons call rest ih => exact (call.run_leadsTo reg).trans (ih _)

theorem run_extensions (reg : Registry) (calls : List Call) :
    (reg.run calls).extensions = (calls.flatMap Call.pairs).foldl .enter reg.extensions := by
  induction calls generalizing reg with
  | nil => rfl
  | cons call rest ih =>
    rw [List.flatMap_cons, List.foldl_append, ← call.run_extensions]
    exact ih _

/-- The registry after some calls, the first of them on an empty one. -/
def after (options : ExtendOptions) (calls : List Call) : Registry :=
  ({ options } : Registry).run calls

theorem after_append (options : ExtendOptions) (calls calls' : List Call) :
    after options (calls ++ calls') = (after options calls).run calls' := List.foldl_append

theorem after_options (options : ExtendOptions) (calls : List Call) :
    (after options calls).options = options :=
  (run_leadsTo { options } calls).options

theorem after_inStep (options : ExtendOptions) (calls : List Call) :
    (after options calls).InStep :=
  InStep.leadsTo ⟨rfl, CompoundIndex.inOrder_empty⟩ (run_leadsTo { options } calls)

theorem of_mem_pairs {calls : List Call} {x : Extension} (hx : x ∈ calls.flatMap Call.pairs) :
    ¬ x.target.isEmpty ∧ (x.extender, x.origin) ∈ calls.flatMap Call.extenders := by
  obtain ⟨call, hcall, hx⟩ := List.mem_flatMap.1 hx
  obtain ⟨htarget, hextender⟩ := Call.of_mem_pairs hx
  exact ⟨htarget, List.mem_flatMap.2 ⟨call, hcall, hextender⟩⟩

theorem after_extensions (options : ExtendOptions) (calls : List Call) :
    (after options calls).extensions =
      .ofPuts (underTargets (numbered (calls.flatMap Call.pairs))) :=
  (run_extensions { options } calls).trans
    (CompoundIndex.foldl_enter fun _ hx => (of_mem_pairs hx).1)

theorem after_registered (options : ExtendOptions) (calls : List Call) :
    (after options calls).registered = numbered (calls.flatMap Call.pairs) := by
  have hholds := CompoundIndex.holds_underTargets
    (target_numbered fun x (hx : x ∈ calls.flatMap Call.pairs) => (of_mem_pairs hx).1)
  rw [← (after_inStep options calls).values, after_extensions, hholds.values, underTargets,
    List.map_map]
  exact List.map_id _

theorem extender_mem_of_registered {options : ExtendOptions} {calls : List Call} {x : Extension}
    (hx : x ∈ (after options calls).registered) :
    (x.extender, x.origin) ∈ calls.flatMap Call.extenders := by
  rw [after_registered] at hx
  obtain ⟨y, hy, i, rfl⟩ := exists_of_mem_numbered hx
  exact (of_mem_pairs hy).2

/-! ### Numbers of extenders -/

theorem lt_foldl_origins (extenders : List (Complex × Nat)) (n : Nat) :
    n ≤ extenders.foldl (fun n x => max n (x.2 + 1)) n ∧
      ∀ x ∈ extenders, x.2 < extenders.foldl (fun n x => max n (x.2 + 1)) n := by
  induction extenders generalizing n with
  | nil => simp
  | cons x rest ih =>
    obtain ⟨hle, hlt⟩ := ih (max n (x.2 + 1))
    rw [List.foldl_cons, List.forall_mem_cons]
    exact ⟨by omega, by omega, hlt⟩

theorem run_origins (reg : Registry) (calls : List Call) : (reg.run calls).origins =
    (calls.flatMap Call.extenders).foldl (fun n x => max n (x.2 + 1)) reg.origins := by
  induction calls generalizing reg with
  | nil => rfl
  | cons call rest ih =>
    rw [List.flatMap_cons, List.foldl_append, ← call.run_origins]
    exact ih _

theorem after_origins (options : ExtendOptions) (calls : List Call) :
    (after options calls).origins =
      (calls.flatMap Call.extenders).foldl (fun n x => max n (x.2 + 1)) 0 :=
  run_origins { options } calls

/-- Over all calls, each number stands for one extender. -/
def IdentifiesExtenders (calls : List Call) : Prop :=
  ∃ extenderOf : Nat → Complex, ∀ x ∈ calls.flatMap Call.extenders, x.1 = extenderOf x.2

theorem IdentifiesExtenders.extender_eq {options : ExtendOptions} {calls : List Call}
    (h : IdentifiesExtenders calls) : ∀ x ∈ (after options calls).registered,
      ∀ y ∈ (after options calls).registered, x.origin = y.origin → x.extender = y.extender := by
  obtain ⟨extenderOf, h⟩ := h
  intro x hx y hy hxy
  calc x.extender
    _ = extenderOf x.origin := h _ (extender_mem_of_registered hx)
    _ = extenderOf y.origin := by rw [hxy]
    _ = y.extender := (h _ (extender_mem_of_registered hy)).symm

/-- Extenders that are registered without numbers get fresh ones. -/
theorem IdentifiesExtenders.add {calls : List Call} (h : IdentifiesExtenders calls)
    (options : ExtendOptions) (extender target : SelectorList) (optional : Bool)
    (media : List String) : IdentifiesExtenders
      (calls ++ [.add (extender.zipIdx (after options calls).origins) target optional media]) := by
  obtain ⟨extenderOf, h⟩ := h
  have hlt : ∀ x ∈ calls.flatMap Call.extenders, x.2 < (after options calls).origins := by
    rw [after_origins]
    exact (lt_foldl_origins _ _).2
  refine ⟨fun n => if n < (after options calls).origins then extenderOf n
    else extender[n - (after options calls).origins]?.getD (extenderOf n), ?_⟩
  rintro ⟨c, n⟩ hx
  rw [List.flatMap_append, List.mem_append, List.flatMap_singleton] at hx
  rcases hx with hx | hx
  · exact (h _ hx).trans (if_pos (hlt _ hx)).symm
  · obtain ⟨hle, hget⟩ := List.mk_mem_zipIdx_iff_le_and_getElem?_sub.1 hx
    refine Eq.trans ?_ (if_neg (Nat.not_lt.2 hle)).symm
    rw [hget, Option.getD_some]

/-- Extensions of one extender were registered inside the same media queries. -/
def SharesMedia (reg : Registry) : Prop :=
  ∀ x ∈ reg.registered, ∀ y ∈ reg.registered, x.origin = y.origin → x.media = y.media

end Registry

end SelectorCalculus
