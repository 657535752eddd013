import SelectorCalculus.Proofs.FoundTargets
import SelectorCalculus.Proofs.MediaReach
/-! Targets that are refused, by calls that register extensions and where a selector is extended on
its own. -/

namespace SelectorCalculus

/-! ### Any calls -/

namespace Registry

/-- After any calls the pairs of an extender and a proper target are registered, in the order of the
calls and within a call by targets, and nothing else. The index of the targets is a store of its
own, into which the same extensions have been put in the same order. A call to register extensions
reports every target that is not one compound once, and every empty one once for each extender, in
the order of the targets. Extending selectors and resolving rules leave both stores as they are. -/
theorem registered_after (options : ExtendOptions) (calls : List Call) :
    let reg := after options calls
    let valid := numbered (calls.flatMap Call.pairs)
    reg.registered = valid ∧ reg.extensions.values = reg.registered ∧
    reg.extensions = .ofPuts (underTargets valid) ∧ reg.extensions.Holds (underTargets valid) ∧
    (∀ extenders target optional media, (Call.add extenders target optional media).errors reg =
      target.flatMap (Complex.refusals extenders.length)) ∧
    (∀ l media, let reg' := (reg.extend l media).1
      reg'.registered = reg.registered ∧ reg'.extensions = reg.extensions) ∧
    ∀ rules, let reg' := (reg.resolve rules).1
      reg'.registered = reg.registered ∧ reg'.extensions = reg.extensions := by
  intro reg valid
  have hputs : reg.extensions = .ofPuts (underTargets valid) := after_extensions options calls
  have htargets : ∀ x ∈ calls.flatMap Call.pairs, ¬ x.target.isEmpty :=
    fun x hx => (of_mem_pairs hx).1
  have hholds : reg.extensions.Holds (underTargets valid) :=
    hputs ▸ CompoundIndex.holds_underTargets (target_numbered htargets)
  refine ⟨after_registered options calls, (after_inStep options calls).values, hputs, hholds, ?_,
    fun l media => ⟨rfl, rfl⟩, fun rules => ?_⟩
  · intro extenders target optional media
    exact errorsOf_registerTargets extenders optional media target _
  · obtain ⟨hextensions, hregistered, -⟩ := reg.resolve_stores rules
    exact ⟨hregistered, hextensions⟩

/-- For `.x` and `.y`, of the targets `.a .b`, an empty compound and `.c` the first is reported once
and the second twice, and there is an extension of the third for each. -/
example :
    let compound (name : String) : Component :=
      .compound (.ofSimples [{ kind := .className, name }])
    let single (name : String) : Complex := .ofComponents [compound name]
    let descendant : Complex := .ofComponents [compound "a", compound "b"]
    let empty : Complex := .ofComponents [.compound (.ofSimples [])]
    let targets := [descendant, empty, single "c"]
    let call : Call := .add [(single "x", 0), (single "y", 1)] targets false []
    call.errors {} = [.complexTarget descendant, .emptyKey, .emptyKey] ∧
      (call.run {}).registered.map Extension.extender = [single "x", single "y"] ∧
      (call.run {}).extensions.values.map Extension.extender = [single "x", single "y"] :=
  ⟨rfl, rfl, rfl⟩

end Registry

/-! ### Extending a selector on its own -/

theorem flatMap_refusals {targets : List Complex} (h : ∀ t ∈ targets, t.single?.isSome)
    (extenders : Nat) : targets.flatMap (Complex.refusals extenders) =
      List.replicate (targets.countP (·.single?.any Compound.isEmpty) * extenders) .emptyKey := by
  induction targets with
  | nil => simp
  | cons target rest ih =>
    obtain ⟨htarget, hrest⟩ := List.forall_mem_cons.1 h
    obtain ⟨c, hc⟩ := Option.isSome_iff_exists.1 htarget
    rw [List.flatMap_cons, ih hrest, Complex.refusals, hc]
    by_cases hempty : c.isEmpty
    · simp [hc, hempty, Nat.add_mul, Nat.add_comm, List.replicate_append_replicate]
    · simp [hc, hempty]

namespace Registry

theorem errorsOf_add (reg : Registry) (extender target : SelectorList) (optional : Bool)
    (media : List String) : errorsOf (reg.add extender target optional media).2 =
      target.flatMap (Complex.refusals extender.length) := by
  unfold add addNumbered
  rw [errorsOf_registerTargets, List.length_zipIdx]

/-- Where media queries are not checked, extending a selector reports no error. -/
theorem errorsOf_extend {reg : Registry} (hcheck : reg.options.checkMedia = false)
    (l : SelectorList) (media : List String) : errorsOf (reg.extend l media).2.2 = [] := by
  refine List.eq_nil_iff_forall_not_mem.2 fun error herror => ?_
  have hchecked := (mediaContext_of_mem_extend herror).1
  rw [hcheck] at hchecked
  cases hchecked

/-- The registry with which a selector is extended on its own. -/
def alone (mode : Mode) (extendee extender : SelectorList) : Registry :=
  (({ options := { mode, checkMedia := false, stripPlaceholders := false } } : Registry).add
    extender extendee true []).1

theorem alone_options (mode : Mode) (extendee extender : SelectorList) :
    (alone mode extendee extender).options =
      { mode, checkMedia := false, stripPlaceholders := false } :=
  (addNumbered_leadsTo ..).options

/-- What the selector is extended with once it has been recorded as written. -/
def aloneSetting (mode : Mode) (selector extendee extender : SelectorList) : Setting :=
  let reg := alone mode extendee extender
  { reg with sources := reg.sources.addList selector }.setting []

end Registry

/-- The list in which every alternative is extended by a function, with nothing marked. -/
def Apply.listBy (f : List String → Complex → Traced (List Complex × Bool)) (l : SelectorList) :
    SelectorList :=
  let (extended, modified) := (collectAlternatives (l.map (f [])) [] false).value
  if modified then extended else l

theorem find?_isNone_eq_some_iff {targets : List Complex} {target : Complex} :
    targets.find? (·.single?.isNone) = some target ↔ ∃ before after,
      targets = before ++ target :: after ∧ (∀ t ∈ before, t.single?.isSome) ∧
        target.single? = none := by
  rw [List.find?_eq_some_iff_append]
  simp only [Option.isNone_iff_eq_none, Option.not_isNone]
  constructor
  · rintro ⟨htarget, before, after, heq, hbefore⟩
    exact ⟨before, after, heq, hbefore, htarget⟩
  · rintro ⟨before, after, heq, hbefore, htarget⟩
    exact ⟨htarget, before, after, heq, hbefore⟩

theorem find?_isNone_eq_none_iff {targets : List Complex} :
    targets.find? (·.single?.isNone) = none ↔ ∀ t ∈ targets, t.single?.isSome := by
  simp [List.find?_eq_none, Option.isSome_iff_ne_none]

/-- Where all targets are compounds, only empty ones stand in the way of a result. -/
theorem extendIn_of_isSome {extendee : SelectorList} (h : ∀ t ∈ extendee, t.single?.isSome)
    (mode : Mode) (selector extender : SelectorList) :
    let empties := extendee.countP (·.single?.any Compound.isEmpty)
    let setting := Registry.aloneSetting mode selector extendee extender
    extendIn mode selector extendee extender =
      if empties = 0 ∨ extender = [] then .ok (Apply.listBy (Apply.extension setting) selector)
      else .error (List.replicate (empties * extender.length) .emptyKey) := by
  intro empties setting
  have hcheck : (Registry.alone mode extendee extender).options.checkMedia = false := by
    rw [Registry.alone_options]
  have hextend := Registry.errorsOf_extend hcheck selector []
  unfold Registry.alone at hextend
  unfold extendIn
  rw [find?_isNone_eq_none_iff.2 h]
  dsimp only
  rw [Registry.errorsOf_add, flatMap_refusals h, hextend]
  refine if_congr ?_ rfl rfl
  rw [List.isEmpty_replicate, decide_eq_true_iff, Nat.mul_eq_zero, List.length_eq_zero_iff]

/-- Extending a selector on its own fails for improper targets only: with one error about the first
target that is not one compound; or, if there is none, with an error for each extender and each
empty target. Otherwise the result is the list that the recursion into extenders gives, which has
one solution however they lead back to each other. -/
theorem extendIn_fails_iff (mode : Mode) (selector extendee extender : SelectorList) :
    let result := extendIn mode selector extendee extender
    let empties := extendee.countP (·.single?.any Compound.isEmpty)
    (∀ errors, result = .error errors ↔
      (∃ target, (∃ before after, extendee = before ++ target :: after ∧
        (∀ t ∈ before, t.single?.isSome) ∧ target.single? = none) ∧
        errors = [.complexTarget target]) ∨
      ((∀ t ∈ extendee, t.single?.isSome) ∧ 0 < empties ∧ extender ≠ [] ∧
        errors = List.replicate (empties * extender.length) .emptyKey)) ∧
    ∃ f, (∀ g, Apply.IsExtension (Registry.aloneSetting mode selector extendee extender) g ↔
        g = f) ∧
      ∀ l, result = .ok l ↔ (∀ t ∈ extendee, t.single?.isSome) ∧ (empties = 0 ∨ extender = []) ∧
        l = Apply.listBy f selector := by
  intro result empties
  let setting := Registry.aloneSetting mode selector extendee extender
  simp only [← find?_isNone_eq_some_iff]
  simp only [← find?_isNone_eq_none_iff]
  cases hfind : extendee.find? (·.single?.isNone) with
  | some target =>
    have hresult : result = .error [.complexTarget target] := by
      unfold result extendIn
      rw [hfind]
    rw [hresult]
    refine ⟨fun errors => ?_, _, fun g => Apply.isExtension_iff, fun l => ?_⟩
    · simp [eq_comm]
    · simp
  | none =>
    have hresult : result = if empties = 0 ∨ extender = [] then
          .ok (Apply.listBy (Apply.extension setting) selector)
        else .error (List.replicate (empties * extender.length) .emptyKey) :=
      extendIn_of_isSome (find?_isNone_eq_none_iff.1 hfind) mode selector extender
    have hempty : 0 < empties ∧ extender ≠ [] ↔ ¬ (empties = 0 ∨ extender = []) := by
      rw [not_or, Nat.pos_iff_ne_zero]
    rw [hresult]
    refine ⟨fun errors => ?_, _, fun g => Apply.isExtension_iff, fun l => ?_⟩
    · rw [← and_assoc (a := 0 < empties), hempty]
      by_cases hok : empties = 0 ∨ extender = []
      · simp [hok]
      · simpa [hok] using eq_comm
    · by_cases hok : empties = 0 ∨ extender = []
      · simpa [hok] using eq_comm
      · simp [hok]

end SelectorCalculus
