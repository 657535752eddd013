import SelectorCalculus.Proofs.ExtensionReports
import Mathlib.Data.List.Perm.Basic
import Mathlib.Order.Basic
/-! Whatever the order of the rules, each of them ends up with the same selector, and the same
errors are reported. -/

namespace SelectorCalculus

/-- The keys of the simple selectors in the compounds of a complex selector. -/
def Complex.keys (c : Complex) : List String :=
  (c.compounds.flatMap Compound.simples).map Simple.key

/-! ### Weights -/

namespace Sources

theorem get_raise_le_iff {key k : String} {m n : Nat} {ws : List (String × Nat)} :
    (Sources.mk (raise key m ws)).get k ≤ n ↔ (Sources.mk ws).get k ≤ n ∧ (k = key → m ≤ n) := by
  induction ws with
  | nil =>
    by_cases hk : k = key
    · simp [raise, get, hk]
    · simp [raise, get, List.lookup_cons, beq_eq_false_iff_ne.2 hk, hk]
  | cons w ws ih =>
    obtain ⟨k', w⟩ := w
    by_cases hkey : k' = key <;> by_cases hk : k = k'
    · have hmax : w.max m ≤ n ↔ w ≤ n ∧ m ≤ n := Nat.max_le
      simp [raise, get, hkey, hk, hmax]
    · have hne : k ≠ key := fun h => hk (h.trans hkey.symm)
      simp [raise, get, hkey, List.lookup_cons, beq_eq_false_iff_ne.2 hne, hne]
    · have hne : k ≠ key := fun h => hkey (hk.symm.trans h)
      simp [raise, get, hkey, hk]
    · simpa [raise, get, hkey, List.lookup_cons, beq_eq_false_iff_ne.2 hk] using ih

theorem get_add_le_iff {s : Sources} {c : Complex} {key : String} {n : Nat} :
    (s.add c).get key ≤ n ↔ s.get key ≤ n ∧ (key ∈ c.keys → c.specificity.max ≤ n) := by
  have h (simples : List Simple) (ws : List (String × Nat)) :
      (Sources.mk (simples.foldl (fun ws s => raise s.key c.specificity.max ws) ws)).get key ≤ n ↔
        (Sources.mk ws).get key ≤ n ∧ (key ∈ simples.map Simple.key → c.specificity.max ≤ n) := by
    induction simples generalizing ws with
    | nil => simp
    | cons s simples ih =>
      rw [List.foldl_cons, ih, get_raise_le_iff]
      simp only [List.map_cons, List.mem_cons, or_imp]
      tauto
  exact h (c.compounds.flatMap Compound.simples) s.weights

theorem get_addList_le_iff {s : Sources} {l : SelectorList} {key : String} {n : Nat} :
    (s.addList l).get key ≤ n ↔
      s.get key ≤ n ∧ ∀ c ∈ l, key ∈ c.keys → c.specificity.max ≤ n := by
  induction l generalizing s with
  | nil => simp [addList]
  | cons c l ih =>
    have hcons : s.addList (c :: l) = (s.add c).addList l := rfl
    rw [hcons, ih, get_add_le_iff, List.forall_mem_cons, and_assoc]

/-- The weights after the selectors of rules have been written. -/
def addRules (s : Sources) (rules : List Rule) : Sources :=
  rules.foldl (fun s r => s.addList r.selector) s

theorem get_addRules_le_iff {s : Sources} {rules : List Rule} {key : String} {n : Nat} :
    (s.addRules rules).get key ≤ n ↔ s.get key ≤ n ∧
      ∀ r ∈ rules, ∀ c ∈ r.selector, key ∈ c.keys → c.specificity.max ≤ n := by
  induction rules generalizing s with
  | nil => simp [addRules]
  | cons r rules ih =>
    have hcons : s.addRules (r :: rules) = (s.addList r.selector).addRules rules := rfl
    rw [hcons, ih, get_addList_le_iff, List.forall_mem_cons, and_assoc]

theorem get_addRules_perm (s : Sources) {rules rules' : List Rule} (h : rules.Perm rules') :
    (s.addRules rules).get = (s.addRules rules').get := by
  funext key
  refine eq_of_forall_ge_iff fun n => ?_
  simp only [get_addRules_le_iff, h.mem_iff]

/-- The weights of the selectors of a list are counted. -/
def Counts (s : Sources) (l : SelectorList) : Prop :=
  ∀ c ∈ l, ∀ key ∈ c.keys, c.specificity.max ≤ s.get key

theorem counts_addRules (s : Sources) {rules : List Rule} {r : Rule} (hr : r ∈ rules) :
    (s.addRules rules).Counts r.selector :=
  fun c hc _ hkey => (get_addRules_le_iff.1 le_rfl).2 r hr c hc hkey

theorem get_addList_of_counts {s : Sources} {l : SelectorList} (h : s.Counts l) :
    (s.addList l).get = s.get := by
  funext key
  refine eq_of_forall_ge_iff fun n => ?_
  rw [get_addList_le_iff]
  exact and_iff_left_of_imp fun hn c hc hkey => (h c hc key hkey).trans hn

end Sources

/-! ### What extension depends on -/

section Weights

variable {s s' : Sources}

theorem Sources.weightOf_congr (h : s.get = s'.get) : s.weightOf = s'.weightOf := by
  funext c
  simp only [weightOf, h]

theorem trim_congr (h : s.get = s'.get) (limit : Int) (isGiven : Complex → Bool)
    (l : List Complex) : trim s limit isGiven l = trim s' limit isGiven l := by
  have hfrom (cs kept : List Complex) :
      Trim.trimFrom s isGiven cs kept = Trim.trimFrom s' isGiven cs kept := by
    induction cs generalizing kept with
    | nil => rfl
    | cons c earlier ih => simp only [Trim.trimFrom, ih, Sources.weightOf_congr h]
  simp only [trim, hfrom]

theorem extendComplex_congr (h : s.get = s'.get) (setting : Setting) (bound : Nat)
    (seen : List String) : Apply.extendComplex { setting with sources := s } bound seen =
      Apply.extendComplex { setting with sources := s' } bound seen := by
  induction bound generalizing seen with
  | zero => rfl
  | succ bound ih =>
    funext c
    simp only [Apply.extendComplex, ih, Apply.extending, trim_congr h]
    rfl

theorem extendList_congr (h : s.get = s'.get) (setting : Setting) (l : SelectorList) :
    extendList { setting with sources := s } l = extendList { setting with sources := s' } l := by
  simp only [extendList, extendComplex_congr h]

end Weights

namespace Registry

/-- Two registries that extend alike: they have the same options, the same extensions and the same
weight for every key. -/
structure Alike (reg reg' : Registry) : Prop where
  options : reg.options = reg'.options
  extensions : reg.extensions = reg'.extensions
  weights : reg.sources.get = reg'.sources.get

variable {reg reg' : Registry}

theorem Alike.extend (h : reg.Alike reg') (l : SelectorList) (media : List String) :
    (reg.extend l media).2 = (reg'.extend l media).2 := by
  have hweights : (reg.sources.addList l).get = (reg'.sources.addList l).get := by
    funext key
    refine eq_of_forall_ge_iff fun n => ?_
    rw [Sources.get_addList_le_iff, Sources.get_addList_le_iff, h.weights]
  have hlist : extendList ({ reg with sources := reg.sources.addList l }.setting media) l =
      extendList ({ reg' with sources := reg'.sources.addList l }.setting media) l := by
    simp only [Registry.setting, h.options, h.extensions]
    exact extendList_congr hweights (reg'.setting media) l
  exact congrArg (fun traced : Traced (SelectorList × Bool) => (traced.value.1,
    traced.events ++ if traced.value.2 then [.extended l traced.value.1] else [])) hlist

theorem Alike.resolveRule (h : reg.Alike reg') (r : Rule) :
    (reg.resolveRule r).2 = (reg'.resolveRule r).2 := by
  have hoptions (reg : Registry) : (reg.extend r.selector r.media).1.options = reg.options := rfl
  have hextend := h.extend r.selector r.media
  simp only [Registry.resolveRule, hoptions, h.options, hextend]

/-- Resolving a rule whose selectors are counted leaves behind a registry that extends alike. -/
theorem resolveRule_alike {r : Rule} (h : reg.sources.Counts r.selector) :
    (reg.resolveRule r).1.Alike reg :=
  ⟨rfl, rfl, Sources.get_addList_of_counts h⟩

theorem resolveRule_matched (reg : Registry) (r : Rule) :
    (reg.resolveRule r).1.matched =
      reg.matched ++ (reg.resolveRule r).2.2.flatMap Event.serials := rfl

/-- If the selectors of all rules are counted, each rule is resolved as if it were the first. -/
theorem resolveEach_eq (reg : Registry) {rules : List Rule}
    (h : ∀ r ∈ rules, reg.sources.Counts r.selector) :
    (resolveEach rules reg).2.1 = rules.map (fun r => (reg.resolveRule r).2.1) ∧
    (resolveEach rules reg).2.2 = rules.flatMap (fun r => (reg.resolveRule r).2.2) ∧
    (resolveEach rules reg).1.matched =
      reg.matched ++ (resolveEach rules reg).2.2.flatMap Event.serials := by
  induction rules generalizing reg with
  | nil => simp [resolveEach]
  | cons r rules ih =>
    obtain ⟨hr, hrules⟩ := List.forall_mem_cons.1 h
    have halike := resolveRule_alike hr
    have hcounts : ∀ r' ∈ rules, (reg.resolveRule r).1.sources.Counts r'.selector := by
      intro r' hr'
      unfold Sources.Counts
      rw [halike.weights]
      exact hrules r' hr'
    obtain ⟨hselectors, hevents, hmatched⟩ := ih _ hcounts
    simp only [halike.resolveRule] at hselectors hevents
    have hcons : resolveEach (r :: rules) reg = ((resolveEach rules (reg.resolveRule r).1).1,
        (reg.resolveRule r).2.1 :: (resolveEach rules (reg.resolveRule r).1).2.1,
        (reg.resolveRule r).2.2 ++ (resolveEach rules (reg.resolveRule r).1).2.2) := rfl
    rw [hcons]
    refine ⟨?_, ?_, ?_⟩
    · rw [hselectors, List.map_cons]
    · rw [hevents, List.flatMap_cons]
    · rw [hmatched, resolveRule_matched, List.flatMap_append, List.append_assoc]

/-- The registry from which rules are resolved: the selectors of all of them are counted. -/
def counting (reg : Registry) (rules : List Rule) : Registry :=
  { reg with sources := reg.sources.addRules rules }

theorem resolveEach_stores (rules : List Rule) (reg : Registry) :
    (resolveEach rules reg).1.extensions = reg.extensions ∧
      (resolveEach rules reg).1.registered = reg.registered ∧
        (resolveEach rules reg).1.origins = reg.origins := by
  induction rules generalizing reg with
  | nil => exact ⟨rfl, rfl, rfl⟩
  | cons r rest ih => exact ih (reg.resolveRule r).1

/-- Resolving rules registers nothing. -/
theorem resolve_stores (reg : Registry) (rules : List Rule) :
    (reg.resolve rules).1.extensions = reg.extensions ∧
      (reg.resolve rules).1.registered = reg.registered ∧
        (reg.resolve rules).1.origins = reg.origins :=
  resolveEach_stores rules (reg.counting rules)

/-- What is reported while rules are resolved, rule by rule. -/
def eventsOf (reg : Registry) (rules : List Rule) : List Event :=
  rules.flatMap fun r => ((reg.counting rules).resolveRule r).2.2

theorem counting_alike {rules rules' : List Rule} (h : rules.Perm rules') :
    (reg.counting rules).Alike (reg.counting rules') :=
  ⟨rfl, rfl, reg.sources.get_addRules_perm h⟩

theorem eventsOf_perm {rules rules' : List Rule} (h : rules.Perm rules') :
    (reg.eventsOf rules).Perm (reg.eventsOf rules') := by
  unfold eventsOf
  simp only [(counting_alike h).resolveRule]
  exact h.flatMap_right _

theorem resolve_selectors (reg : Registry) (rules : List Rule) :
    (reg.resolve rules).2.selectors =
      rules.map fun r => ((reg.counting rules).resolveRule r).2.1 :=
  ((reg.counting rules).resolveEach_eq fun _ hr => reg.sources.counts_addRules hr).1

theorem resolve_matched (reg : Registry) (rules : List Rule) :
    (reg.resolve rules).1.matched = reg.matched ++ (reg.eventsOf rules).flatMap Event.serials := by
  obtain ⟨-, hevents, hmatched⟩ :=
    (reg.counting rules).resolveEach_eq fun _ hr => reg.sources.counts_addRules hr
  exact hmatched.trans (by rw [hevents]; rfl)

theorem resolve_errors (reg : Registry) (rules : List Rule) :
    (reg.resolve rules).2.errors =
      errorsOf (reg.eventsOf rules) ++ (reg.resolve rules).1.unsatisfiedErrors := by
  have hevents :=
    ((reg.counting rules).resolveEach_eq fun _ hr => reg.sources.counts_addRules hr).2.1
  have hresolve : (reg.resolve rules).2.errors = errorsOf (reg.resolve rules).2.events ++
    (reg.resolve rules).1.unsatisfiedErrors := rfl
  have hremoved (events : List Event) (n m : Nat) :
      errorsOf (events ++ [.placeholdersRemoved n m]) = errorsOf events := by
    simp [errorsOf, Event.error?]
  rw [hresolve, eventsOf, ← hevents]
  simp only [resolve]
  split_ifs
  · rw [hremoved]
    rfl
  · rfl

theorem resolve_unsatisfied {rules rules' : List Rule} (h : rules.Perm rules') :
    (reg.resolve rules).1.unsatisfied = (reg.resolve rules').1.unsatisfied := by
  have hmem (serial : Nat) : (reg.resolve rules).1.matched.contains serial =
      (reg.resolve rules').1.matched.contains serial := by
    rw [Bool.eq_iff_iff, List.contains_iff_mem, List.contains_iff_mem, resolve_matched,
      resolve_matched, List.mem_append, List.mem_append,
      ((eventsOf_perm h).flatMap_right Event.serials).mem_iff]
  simp only [unsatisfied, hmem, (reg.resolve_stores rules).2.1, (reg.resolve_stores rules').2.1]

end Registry

/-! ### Errors -/

namespace ExtendError

def isCrossing : ExtendError → Bool
  | mediaContext _ _ => true
  | _ => false

def unsatisfied? : ExtendError → Option Extension
  | unsatisfied x => some x
  | _ => none

theorem unsatisfied?_of_isCrossing {error : ExtendError} (h : error.isCrossing) :
    error.unsatisfied? = none := by
  cases error <;> first | rfl | cases h

end ExtendError

/-- The only errors about a selector are extensions out of the reach of its media queries. -/
theorem Registry.mediaContext_of_mem_extend {reg : Registry} {l : SelectorList}
    {media : List String} {error : ExtendError} (h : error ∈ errorsOf (reg.extend l media).2.2) :
    reg.options.checkMedia ∧ ∃ x, error = .mediaContext x media := by
  obtain ⟨e, he, herror⟩ := List.mem_filterMap.1 h
  rcases List.mem_append.1 he with he | he
  · exact reports_extendList _ _ e he error herror
  · split_ifs at he
    · rw [List.mem_singleton.1 he] at herror
      cases herror
    · cases he

theorem Registry.isCrossing_of_mem_extend {reg : Registry} {l : SelectorList} {media : List String}
    {error : ExtendError} (h : error ∈ errorsOf (reg.extend l media).2.2) : error.isCrossing := by
  obtain ⟨-, x, rfl⟩ := mediaContext_of_mem_extend h
  rfl

theorem Registry.isCrossing_of_mem {reg : Registry} {rules : List Rule} {error : ExtendError}
    (h : error ∈ errorsOf (reg.eventsOf rules)) : error.isCrossing := by
  obtain ⟨e, he, herror⟩ := List.mem_filterMap.1 h
  obtain ⟨r, -, he⟩ := List.mem_flatMap.1 he
  exact isCrossing_of_mem_extend (List.mem_filterMap.2 ⟨e, he, herror⟩)

namespace Registry.Resolution

def crossings (res : Resolution) : List ExtendError := res.errors.filter ExtendError.isCrossing

/-- The extensions reported because they have not found their targets, in order. -/
def missing (res : Resolution) : List Extension := res.errors.filterMap ExtendError.unsatisfied?

end Registry.Resolution

namespace Registry

theorem resolve_crossings (reg : Registry) (rules : List Rule) :
    (reg.resolve rules).2.crossings = errorsOf (reg.eventsOf rules) := by
  rw [Resolution.crossings, resolve_errors, List.filter_append,
    List.filter_eq_self.2 fun _ => isCrossing_of_mem, List.filter_eq_nil_iff.2, List.append_nil]
  intro error herror
  obtain ⟨x, -, rfl⟩ := List.mem_map.1 herror
  simp [ExtendError.isCrossing]

theorem resolve_missing (reg : Registry) (rules : List Rule) :
    (reg.resolve rules).2.missing = (reg.resolve rules).1.unsatisfied := by
  have hnone : (errorsOf (reg.eventsOf rules)).filterMap ExtendError.unsatisfied? = [] :=
    List.filterMap_eq_nil_iff.2 fun error herror =>
      ExtendError.unsatisfied?_of_isCrossing (isCrossing_of_mem herror)
  rw [Resolution.missing, resolve_errors, List.filterMap_append, hnone, List.nil_append,
    unsatisfiedErrors, List.filterMap_map]
  exact List.filterMap_some

theorem Resolution.kept_of_map {ι : Type} {res : Resolution} {order : List ι}
    {outcome : ι → SelectorList} (h : res.selectors = order.map outcome) :
    res.kept.filterMap (order[·]?) = order.filter fun i => !(outcome i).isEmpty := by
  rw [kept, h, List.zipIdx_map, List.filter_map, List.map_map, List.filterMap_map]
  have hget : ∀ p ∈ order.zipIdx.filter fun p => !(outcome p.1).isEmpty,
      order[p.2]? = some p.1 := fun p hp =>
    List.mem_zipIdx_iff_getElem?.1 (List.mem_of_mem_filter hp)
  calc _ = (order.zipIdx.filter fun p => !(outcome p.1).isEmpty).filterMap fun p => some p.1 :=
        List.filterMap_congr hget
    _ = (order.zipIdx.map Prod.fst).filter fun i => !(outcome i).isEmpty := by
        rw [List.filterMap_eq_map', List.filter_map]
        rfl
    _ = _ := by rw [List.zipIdx_map_fst]

/-- The order of rules does not matter. Whatever tells rules apart, each has one selector in which
it ends up, the rules that are left are those for which it is not empty, in the order given, the same
extensions cross media queries as often, and the same ones are missing their targets. -/
theorem resolve_perm (reg : Registry) {ι : Type} (rule : ι → Rule) {order order' : List ι}
    (h : order.Perm order') :
    let res := (reg.resolve (order.map rule)).2
    let res' := (reg.resolve (order'.map rule)).2
    (∃ outcome : ι → SelectorList,
      res.selectors = order.map outcome ∧ res'.selectors = order'.map outcome ∧
      res.kept.filterMap (order[·]?) = order.filter (fun i => !(outcome i).isEmpty) ∧
      res'.kept.filterMap (order'[·]?) = order'.filter fun i => !(outcome i).isEmpty) ∧
    res.crossings.Perm res'.crossings ∧ res.missing = res'.missing ∧
    res.errors = res.crossings ++ res.missing.map .unsatisfied ∧
    res'.errors = res'.crossings ++ res'.missing.map .unsatisfied := by
  have hperm : (order.map rule).Perm (order'.map rule) := h.map rule
  have herrors (rules : List Rule) : (reg.resolve rules).2.errors =
      (reg.resolve rules).2.crossings ++ (reg.resolve rules).2.missing.map .unsatisfied := by
    rw [resolve_crossings, resolve_missing, resolve_errors, unsatisfiedErrors]
  refine ⟨⟨fun i => ((reg.counting (order.map rule)).resolveRule (rule i)).2.1, ?_⟩, ?_, ?_,
    herrors _, herrors _⟩
  · have hselectors := reg.resolve_selectors (order.map rule)
    have hselectors' := reg.resolve_selectors (order'.map rule)
    rw [List.map_map] at hselectors hselectors'
    simp only [← (counting_alike hperm).resolveRule] at hselectors'
    exact ⟨hselectors, hselectors', Resolution.kept_of_map hselectors,
      Resolution.kept_of_map hselectors'⟩
  · rw [resolve_crossings, resolve_crossings]
    exact (eventsOf_perm hperm).filterMap _
  · rw [resolve_missing, resolve_missing, resolve_unsatisfied hperm]

/-- `.x` extends `.a` inside `print`, and `.y` extends `.z`, which no rule names. Of two rules for
`.a` only the one inside `print` gets a second alternative; the other crosses media queries. -/
theorem resolve_perm_swapped :
    let single (name : String) : SelectorList := [.ofComponents [.compound (.ofClass name)]]
    let printed := (({} : Registry).add (single "x") (single "a") false ["print"]).1
    let reg := (printed.add (single "y") (single "z") false []).1
    let rule (media : List String) : Rule := ⟨single "a", media⟩
    let res := (reg.resolve [rule ["print"], rule []]).2
    let res' := (reg.resolve [rule [], rule ["print"]]).2
    res.selectors.map List.length = [2, 1] ∧ res.crossings.length = 1 ∧ res.missing.length = 1 ∧
      (∃ outcome : List String → SelectorList,
        res.selectors = [outcome ["print"], outcome []] ∧
        res'.selectors = [outcome [], outcome ["print"]]) ∧
      res.crossings.Perm res'.crossings ∧ res.missing = res'.missing := by
  intro single printed reg rule res res'
  obtain ⟨⟨outcome, hselectors, hselectors', -⟩, hcrossings, hmissing, -⟩ :=
    resolve_perm reg rule (List.Perm.swap [] ["print"] [])
  simp only [List.map_cons, List.map_nil] at hselectors hselectors' hcrossings hmissing
  have hlengths : res.selectors.map List.length = [2, 1] := by decide +kernel
  have hcrossing : res.crossings.length = 1 := by decide +kernel
  have hmiss : res.missing.length = 1 := by decide +kernel
  exact ⟨hlengths, hcrossing, hmiss, ⟨outcome, hselectors, hselectors'⟩, hcrossings, hmissing⟩

end Registry

end SelectorCalculus
