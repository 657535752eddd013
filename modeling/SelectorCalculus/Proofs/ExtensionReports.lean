import SelectorCalculus.Proofs.ExtensionResults
import Mathlib.Tactic.SplitIfs
/-! What is reported while extensions are applied: the events of a run are those that its steps
report themselves. -/

namespace SelectorCalculus

namespace Traced

variable {p : Event → Prop}

/-- All events on the way to a value have a property. -/
def Reports (p : Event → Prop) (x : Traced α) : Prop := ∀ e ∈ x.events, p e

theorem reports_pure (x : α) : Reports p (pure x) := by
  intro e he
  cases he

theorem reports_report {e : Event} (h : p e) : Reports p (report e) := by
  intro e' he'
  rwa [List.mem_singleton.1 he']

theorem Reports.bind {x : Traced α} {f : α → Traced β} (hx : x.Reports p)
    (hf : (f x.value).Reports p) : (x >>= f).Reports p := by
  intro e he
  rw [events_bind, List.mem_append] at he
  rcases he with he | he
  · exact hx e he
  · exact hf e he

theorem reports_foldlM {f : β → α → Traced β} {xs : List α}
    (h : ∀ b, ∀ x ∈ xs, (f b x).Reports p) (b : β) : (xs.foldlM f b).Reports p := by
  induction xs generalizing b with
  | nil => exact reports_pure b
  | cons x xs ih =>
    rw [List.foldlM_cons]
    exact (h b x (List.mem_cons_self ..)).bind
      (ih (fun b y hy => h b y (List.mem_cons_of_mem _ hy)) _)

end Traced

open Traced

/-- A property of the events that the steps report themselves. The groups that say that they found
their targets have no member out of reach. -/
structure Setting.Expects (setting : Setting) (p : Event → Prop) : Prop where
  silent : ∀ e : Event, e.error? = none → e.serials = [] → p e
  crossing : setting.checkMedia → ∀ x, p (.crossesMedia x setting.media)
  matched : ∀ c, ∀ g ∈ Apply.groups (setting.extensions.get c), g.applies setting [] →
    p (.matched (g.members.map Extension.serial))

variable {setting : Setting} {p : Event → Prop}

/-! ### Trimming and collecting -/

theorem Trim.reports_trimFrom (hp : setting.Expects p) {sources : Sources}
    {isGiven : Complex → Bool} {cs kept : List Complex} :
    (trimFrom sources isGiven cs kept).Reports p := by
  induction cs generalizing kept with
  | nil => exact reports_pure _
  | cons c earlier ih =>
    unfold trimFrom
    split_ifs
    · exact ih
    · exact ih
    · dsimp only
      split
      · exact (reports_report (hp.silent _ rfl rfl)).bind ih
      · exact ih

theorem reports_trim (hp : setting.Expects p) {sources : Sources} {limit : Int}
    {isGiven : Complex → Bool} {l : List Complex} :
    (trim sources limit isGiven l).Reports p := by
  unfold trim
  split_ifs
  · exact (reports_report (hp.silent _ rfl rfl)).bind (reports_pure _)
  · exact Trim.reports_trimFrom hp

namespace Apply

theorem reports_collectAlternatives {parts : List (Traced (List Complex × Bool))}
    (h : ∀ part ∈ parts, part.Reports p) (found : SelectorList) (modified : Bool) :
    (collectAlternatives parts found modified).Reports p := by
  induction parts generalizing found modified with
  | nil => exact reports_pure _
  | cons part parts ih =>
    obtain ⟨hpart, hparts⟩ := List.forall_mem_cons.1 h
    exact hpart.bind (ih hparts _ _)

theorem reports_collectSimples {parts : List (Simple × Traced (Option (List Simple)))}
    (h : ∀ part ∈ parts, part.2.Reports p) (found : List Simple) (modified : Bool) :
    (collectSimples parts found modified).Reports p := by
  induction parts generalizing found modified with
  | nil => exact reports_pure _
  | cons part parts ih =>
    obtain ⟨hpart, hparts⟩ := List.forall_mem_cons.1 h
    unfold collectSimples
    refine hpart.bind ?_
    split
    · exact ih hparts _ _
    · exact ih hparts _ _

theorem reports_collectChoices
    {parts : List (Component × Traced (Option (List (List Component))))}
    (h : ∀ part ∈ parts, part.2.Reports p) : (collectChoices parts).Reports p := by
  induction parts with
  | nil => exact reports_pure _
  | cons part parts ih =>
    obtain ⟨hpart, hparts⟩ := List.forall_mem_cons.1 h
    exact hpart.bind ((ih hparts).bind (reports_pure _))

/-! ### Applying extensions -/

section Recursion

variable {seen : List String} {again : String → Complex → Traced (List Complex)}

theorem reports_applyGroup (hp : setting.Expects p) (hagain : ∀ key c, (again key c).Reports p)
    {d : Compound} {g : Group} (hg : g ∈ groups (setting.extensions.get d)) (c : Compound)
    (parent : Bool) (options : List (List Component)) :
    (applyGroup setting seen again c parent options g).Reports p := by
  unfold applyGroup
  cases seen.contains g.key with
  | true => exact reports_pure _
  | false =>
    cases hout : (if setting.checkMedia then g.outsider? setting.media else none) with
    | some x =>
      have hcheck : setting.checkMedia = true := by
        by_contra hcheck
        simp [hcheck] at hout
      exact (reports_report (hp.crossing hcheck x)).bind (reports_pure _)
    | none =>
      have happlies : g.applies setting [] := by
        unfold Group.applies
        cases hcheck : setting.checkMedia <;> simp_all
      have hmatched := reports_report (hp.matched d g hg happlies)
      cases g.path? c parent with
      | none =>
        cases g.extender.base?.isSome with
        | true => exact hmatched.bind ((reports_report (hp.silent _ rfl rfl)).bind (reports_pure _))
        | false => exact hmatched.bind (reports_pure _)
      | some path => exact hmatched.bind ((hagain _ _).bind (reports_pure _))

theorem reports_extendCompound (hp : setting.Expects p) (hagain : ∀ key c, (again key c).Reports p)
    (c : Compound) {parts : List (Traced (Option (List Simple)))}
    (h : ∀ part ∈ parts, part.Reports p) :
    (extendCompound setting seen again c parts).Reports p := by
  unfold extendCompound
  refine (reports_collectSimples (fun part hpart => h _ (List.of_mem_zip hpart).2) _ _).bind ?_
  refine (reports_foldlM (fun options g hg => ?_) _).bind ?_
  · exact reports_applyGroup hp hagain hg _ _ options
  split_ifs <;> exact reports_pure _

/-- Every selector is extended without reporting anything else, if extenders are in turn. -/
theorem hereditary_reports (hp : setting.Expects p) (hagain : ∀ key c, (again key c).Reports p) :
    Hereditary
      (fun s => ((extending setting seen again).ofSimple s).Reports p)
      (fun c => ((extending setting seen again).ofComponent c).Reports p)
      (fun c => ((extending setting seen again).ofComplex c).Reports p) where
  simple s ih := by
    rw [Interpretation.ofSimple_eq]
    cases hl : s.selector with
    | none => simpa only [extending, hl] using reports_pure _
    | some l =>
      simp only [extending, hl]
      split_ifs
      · refine (reports_collectAlternatives (fun part hpart => ?_) _ _).bind ?_
        · obtain ⟨c, hc, rfl⟩ := List.mem_map.1 hpart
          exact ih l hl c hc
        · exact reports_pure _
      · exact reports_pure _
  compound c ih := by
    rw [Interpretation.ofComponent_compound, Interpretation.ofCompound_eq]
    refine reports_extendCompound hp hagain c fun part hpart => ?_
    obtain ⟨s, hs, rfl⟩ := List.mem_map.1 hpart
    exact ih s hs
  combinator k := reports_pure _
  complex c ih := by
    rw [Interpretation.ofComplex_eq]
    simp only [extending]
    refine (reports_collectChoices fun part hpart => ?_).bind ?_
    · obtain ⟨d, hd, heq⟩ := List.mem_map.1 (List.of_mem_zip hpart).2
      rw [← heq]
      exact ih d hd
    · split_ifs
      · exact reports_pure _
      · exact (reports_trim hp).bind (reports_pure _)

end Recursion

theorem reports_extendComplex (hp : setting.Expects p) (bound : Nat) (seen : List String)
    (c : Complex) : (extendComplex setting bound seen c).Reports p := by
  induction bound generalizing seen c with
  | zero => exact reports_pure _
  | succ bound ih =>
    have hagain := fun key path => (ih (key :: seen) path).bind (reports_pure _)
    exact (hereditary_reports hp hagain).ofComplex c

end Apply

theorem Setting.Expects.extendList (hp : setting.Expects p) (l : SelectorList) :
    (extendList setting l).Reports p := by
  unfold SelectorCalculus.extendList
  refine (Apply.reports_collectAlternatives (fun part hpart => ?_) _ _).bind (reports_pure _)
  obtain ⟨c, -, rfl⟩ := List.mem_map.1 hpart
  exact Apply.reports_extendComplex hp _ _ c

/-! ### Errors and extensions that found their targets -/

/-- Whether an event is an error only where media queries are checked, and then about the ones
around the rule. -/
def Setting.Allows (setting : Setting) (e : Event) : Prop :=
  ∀ error ∈ e.error?, setting.checkMedia ∧ ∃ x, error = .mediaContext x setting.media

/-- The only errors that extension reports are about media queries, where these are checked. -/
theorem reports_extendList (setting : Setting) (l : SelectorList) :
    (extendList setting l).Reports setting.Allows := by
  apply Setting.Expects.extendList
  constructor
  · intro e hnone _ error herror
    rw [hnone] at herror
    cases herror
  · intro hcheck x error herror
    exact ⟨hcheck, x, (Option.mem_some_iff.1 herror).symm⟩
  · intro c g _ _ error herror
    cases herror

/-- Whether an event only says of extensions within reach that they found their targets. -/
def Setting.Reaches (setting : Setting) (e : Event) : Prop :=
  ∀ serial ∈ e.serials, ∃ x ∈ setting.extensions.values, x.serial = serial ∧
    (setting.checkMedia → x.media.Sublist setting.media)

/-- Where media queries are checked, only extensions within reach find their targets. -/
theorem reaches_extendList (setting : Setting) (l : SelectorList) :
    (extendList setting l).Reports setting.Reaches := by
  apply Setting.Expects.extendList
  constructor
  · intro e _ hnone serial hserial
    rw [hnone] at hserial
    cases hserial
  · intro _ x serial hserial
    cases hserial
  · intro c g hg happlies serial hserial
    obtain ⟨x, hx, hserial⟩ := List.mem_map.1 hserial
    have hmembers : g.members.Sublist setting.extensions.values :=
      (Apply.groupOf_of_mem_groups g hg).members.trans (setting.extensions.get_sublist c)
    refine ⟨x, hmembers.subset hx, hserial, ?_⟩
    intro hcheck
    exact Apply.Group.applies_nil_iff.1 happlies hcheck x hx

end SelectorCalculus
