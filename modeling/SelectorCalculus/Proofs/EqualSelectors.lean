import SelectorCalculus.Proofs.Reach
import Mathlib.Data.List.Forall2
/-! Equality opened level by level. It is reflexive, and elements cannot tell equal selectors
apart. -/

namespace SelectorCalculus

theorem sameMembers_map (f : β → α → Bool) (ys : List β) (xs : List α) :
    sameMembers (ys.map f) xs ↔
      (∀ y ∈ ys, ∃ x ∈ xs, f y x) ∧ ∀ x ∈ xs, ∃ y ∈ ys, f y x := by
  simp [sameMembers]

theorem pointwise_map (f : β → α → Bool) (ys : List β) (xs : List α) :
    pointwise (ys.map f) xs ↔ List.Forall₂ (fun y x => f y x) ys xs := by
  induction ys generalizing xs with
  | nil => cases xs <;> simp [pointwise]
  | cons y ys ih => cases xs <;> simp [pointwise, ih]

theorem Simple.equal_iff {s s' : Simple} : s.equal s' ↔
    s.toLabel.alike s'.toLabel ∧ (s.kind = .pseudo →
      match s.selector, s'.selector with
      | none, none => True
      | some l, some l' => equalLists l l'
      | _, _ => False) := by
  rw [equal, Interpretation.ofSimple_eq]
  simp only [equality, Bool.and_eq_true, Bool.or_eq_true, bne_iff_ne, ne_eq]
  refine and_congr_right fun _ => ?_
  by_cases hk : s.kind = .pseudo
  · simp only [hk, not_true_eq_false, false_or, forall_const]
    cases s.selector <;> cases s'.selector <;> simp [equalLists, Interpretation.ofList_eq_map]; rfl
  · simp [hk]

theorem Compound.equal_iff {c d : Compound} : c.equal d ↔
    c.simples.length = d.simples.length ∧
      (∀ s ∈ c.simples, ∃ s' ∈ d.simples, s.equal s') ∧
        ∀ s' ∈ d.simples, ∃ s ∈ c.simples, s.equal s' := by
  rw [equal, Interpretation.ofCompound_eq]
  simp only [equality, Bool.and_eq_true, beq_iff_eq, List.length_map]
  exact and_congr_right fun _ => sameMembers_map Simple.equal c.simples d.simples

theorem equalPaths_iff {cs ds : List Component} :
    equalPaths cs ds ↔ List.Forall₂ (fun c d => c.equal d) cs ds := by
  rw [equalPaths, Interpretation.ofComponents_eq_map]
  exact pointwise_map Component.equal cs ds

theorem equalLists_iff {l l' : SelectorList} : equalLists l l' ↔
    (∀ c ∈ l, ∃ c' ∈ l', c.equal c') ∧ ∀ c' ∈ l', ∃ c ∈ l, c.equal c' := by
  rw [equalLists, Interpretation.ofList_eq_map]
  exact sameMembers_map Complex.equal l l'

/-- Equal complex selectors have equal paths, also where one is absent. -/
theorem Complex.equal.equalPaths {c d : Complex} (h : c.equal d) :
    equalPaths c.components d.components := by
  cases c <;> cases d
  · exact h
  · cases h
  · cases h
  · rfl

theorem Label.alike_refl (l : Label) : l.alike l := by
  unfold alike
  cases l.kind <;> simp

/-! ### Reflexivity -/

mutual

theorem Simple.equal_refl : ∀ s : Simple, s.equal s
  | ⟨l, none⟩ => Simple.equal_iff.2 ⟨l.alike_refl, fun _ => trivial⟩
  | ⟨l, some list⟩ => by
    have hl := complexes_equal_refl list
    refine Simple.equal_iff.2 ⟨l.alike_refl, fun _ => ?_⟩
    exact equalLists_iff.2 ⟨fun c hc => ⟨c, hc, hl c hc⟩, fun c hc => ⟨c, hc, hl c hc⟩⟩

theorem simples_equal_refl : ∀ ss : List Simple, ∀ s ∈ ss, s.equal s
  | [] => by simp
  | s :: rest => by
    have hs := Simple.equal_refl s
    have hr := simples_equal_refl rest
    exact List.forall_mem_cons.2 ⟨hs, hr⟩

theorem Component.equal_refl : ∀ c : Component, c.equal c
  | .compound ⟨ss, p, e⟩ => by
    have hs := simples_equal_refl ss
    refine Compound.equal_iff.2 ⟨rfl, ?_, ?_⟩ <;> exact fun s h => ⟨s, h, hs s h⟩
  | .combinator k => by simp [Component.equal, Interpretation.ofComponent, equality]

theorem components_equal_refl : ∀ cs : List Component, equalPaths cs cs
  | [] => rfl
  | c :: rest => by
    have hc := Component.equal_refl c
    have hr := components_equal_refl rest
    exact equalPaths_iff.2 (.cons hc (equalPaths_iff.1 hr))

theorem Complex.equal_refl : ∀ c : Complex, c.equal c
  | .path cs _ => components_equal_refl cs
  | .absent => rfl

theorem complexes_equal_refl : ∀ l : List Complex, ∀ c ∈ l, c.equal c
  | [] => by simp
  | c :: rest => by
    have hc := Complex.equal_refl c
    have hr := complexes_equal_refl rest
    exact List.forall_mem_cons.2 ⟨hc, hr⟩

end

theorem containsSimple_iff {ss : List Simple} {s : Simple} :
    containsSimple ss s ↔ ∃ s' ∈ ss, s.equal s' := by
  simp [containsSimple, Simple.equal]

/-! ### Equal selectors and elements -/

namespace Subject

variable {x : Subject}

theorem satisfies_congr {s s' : Simple} (h : s.equal s') : x.Satisfies s ↔ x.Satisfies s' := by
  have ha := (Simple.equal_iff.1 h).1
  obtain ⟨hk, hf⟩ : s.kind = s'.kind ∧ _ := by simpa only [Label.alike, Bool.and_eq_true,
    beq_iff_eq] using ha
  unfold Satisfies
  rw [← hk]
  cases hs : s.kind with
  | typeName =>
    simp only [hs, Bool.and_eq_true, beq_iff_eq] at hf
    simp only [Label.isUniversal, Label.anyNamespace, ← hk, hf.1, hf.2]
  | id =>
    simp only [hs, beq_iff_eq] at hf
    simp only [hf]
  | _ => exact x.passes_congr h

theorem fits_congr {c d : Compound} (h : c.equal d) : x.Fits c ↔ x.Fits d := by
  obtain ⟨-, hcd, hdc⟩ := Compound.equal_iff.1 h
  constructor
  · intro hx s hs
    obtain ⟨s', hs', he⟩ := hdc s hs
    exact (satisfies_congr he).1 (hx s' hs')
  · intro hx s hs
    obtain ⟨s', hs', he⟩ := hcd s hs
    exact (satisfies_congr he).2 (hx s' hs')

end Subject

/-! ### Classes and identifiers -/

def Compound.ofClass (name : String) : Compound := .ofSimples [{ kind := .className, name }]

def Compound.ofId (name : String) : Compound := .ofSimples [{ kind := .id, name }]

theorem Simple.equal_class {s s' : Simple} (h : s.equal s') (P : String → Prop) :
    s.kind = .className ∧ P s.name ↔ s'.kind = .className ∧ P s'.name := by
  have ha := (Simple.equal_iff.1 h).1
  obtain ⟨hk, hf⟩ : s.kind = s'.kind ∧ _ := by simpa only [Label.alike, Bool.and_eq_true,
    beq_iff_eq] using ha
  rw [← hk]
  refine and_congr_right fun hs => ?_
  rw [hs] at hf
  rw [beq_iff_eq.1 hf]

namespace Subject

/-- An element with the given classes and nothing else to be told apart by. -/
def ofClasses (names : List String) : Subject where
  typeName := ""
  ns := ""
  id := none
  passes s := s.kind = .className ∧ s.name ∈ names
  passes_congr h := Simple.equal_class h (· ∈ names)

@[simp] theorem ofClasses_fits {names : List String} {name : String} :
    (ofClasses names).Fits (.ofClass name) ↔ name ∈ names := by
  simp [Fits, Compound.ofClass, Compound.ofSimples, Satisfies, ofClasses]

def ofId (name : String) : Subject := { ofClasses [] with id := some name }

theorem ofId_fits (name : String) : (ofId name).Fits (.ofId name) := by
  simp [Fits, Compound.ofId, Compound.ofSimples, Satisfies, ofId]

/-- Elements can fit each of some classes, and one with another class fits none of them. -/
theorem ofClasses_apart {names : List String} {name : String} (h : name ∉ names) :
    (∀ c ∈ names.map Compound.ofClass, ∃ x : Subject, x.Fits c) ∧
      ∀ c ∈ names.map Compound.ofClass, ¬ (ofClasses [name]).Fits c := by
  constructor
  · intro c hc
    obtain ⟨n, -, rfl⟩ := List.mem_map.1 hc
    exact ⟨ofClasses [n], by simp⟩
  · intro c hc
    obtain ⟨n, hn, rfl⟩ := List.mem_map.1 hc
    rw [ofClasses_fits, List.mem_singleton]
    exact fun heq => h (heq ▸ hn)

def mark (x : Subject) (name : String) (marked : Prop) : Subject where
  typeName := x.typeName
  ns := x.ns
  id := x.id
  passes s := (s.kind = .className ∧ s.name = name ∧ marked) ∨
    (¬ (s.kind = .className ∧ s.name = name) ∧ x.passes s)
  passes_congr h := or_congr (Simple.equal_class h (· = name ∧ marked))
    (and_congr (not_congr (Simple.equal_class h (· = name))) (x.passes_congr h))

@[simp] theorem mark_fits_ofClass {x : Subject} {name : String} {marked : Prop} :
    (x.mark name marked).Fits (.ofClass name) ↔ marked := by
  simp [Fits, Compound.ofClass, Compound.ofSimples, Satisfies, mark]

theorem mark_fits {x : Subject} {name : String} {marked : Prop} {c : Compound}
    (h : ∀ s ∈ c.simples, s.name ≠ name) : (x.mark name marked).Fits c ↔ x.Fits c := by
  refine forall₂_congr fun s hs => ?_
  have hname := h s hs
  unfold Satisfies
  split
  · exact Iff.rfl
  · exact Iff.rfl
  · simp [mark, hname]

end Subject

/-! ### Weaker components -/

namespace ElementTree

/-- Whether a component asks for no more than another one, as far as a tree can tell. -/
def Weaker (t : ElementTree) : Component → Component → Prop
  | .compound c, .compound d => ∀ e, t.present e → (t.subject e).Fits d → (t.subject e).Fits c
  | .combinator k, .combinator k' => k = k'
  | _, _ => False

variable {t : ElementTree}

theorem weaker_of_equal {c d : Component} (h : c.equal d) : t.Weaker c d ∧ t.Weaker d c := by
  cases c with
  | compound c =>
    cases d with
    | compound d =>
      exact ⟨fun _ _ => (Subject.fits_congr h).2, fun _ _ => (Subject.fits_congr h).1⟩
    | combinator k =>
      simp [Component.equal, Interpretation.ofComponent_compound, Interpretation.ofCompound_eq,
        equality] at h
  | combinator k =>
    cases d with
    | compound d => cases h
    | combinator k' =>
      obtain rfl : k = k' := by
        simpa [Component.equal, Interpretation.ofComponent, equality] using h
      exact ⟨rfl, rfl⟩

theorem Weaker.compound_right {c : Component} {d : Compound} (h : t.Weaker c (.compound d)) :
    ∃ c', c = .compound c' ∧
      ∀ e, t.present e → (t.subject e).Fits d → (t.subject e).Fits c' := by
  cases c with
  | compound c' => exact ⟨c', rfl, h⟩
  | combinator k => exact h.elim

theorem Weaker.combinator_right {c : Component} {k : Combinator} (h : t.Weaker c (.combinator k)) :
    c = .combinator k := by
  cases c with
  | compound c => exact h.elim
  | combinator k' => exact congrArg _ h

/-- What matches a path still matches when its components ask for less, each in its place. -/
theorem Matches.weaken {cs : List Component} {e : Address} (hm : t.Matches cs e)
    (he : t.present e) {ds : List Component} (h : List.Forall₂ t.Weaker ds cs) :
    t.Matches ds e := by
  induction hm generalizing ds with
  | single hc =>
    obtain ⟨d, _, hd, hnil, rfl⟩ := List.forall₂_cons_right_iff.1 h
    obtain ⟨d, rfl, hd⟩ := hd.compound_right
    cases hnil
    exact .single (hd _ he hc)
  | @inside cs x e c _ hx hc ih =>
    have hcs := List.forall₂_take_append _ _ _ h
    have hc' := List.forall₂_drop_append _ _ _ h
    obtain ⟨d, _, hd, hnil, hdrop⟩ := List.forall₂_cons_right_iff.1 hc'
    obtain ⟨d, rfl, hd⟩ := hd.compound_right
    cases hnil
    rw [← List.take_append_drop cs.length ds, hdrop]
    exact .inside (ih (present_of_related hx he) hcs) hx (hd _ he hc)
  | @beside cs x e k c _ hx hc ih =>
    have hcs := List.forall₂_take_append _ _ _ h
    have hkc := List.forall₂_drop_append _ _ _ h
    obtain ⟨k', _, hk, hrest, hdrop⟩ := List.forall₂_cons_right_iff.1 hkc
    obtain ⟨d, _, hd, hnil, rfl⟩ := List.forall₂_cons_right_iff.1 hrest
    obtain ⟨d, rfl, hd⟩ := hd.compound_right
    obtain rfl := hk.combinator_right
    cases hnil
    rw [← List.take_append_drop cs.length ds, hdrop]
    exact .beside (ih (present_of_related hx he) hcs) hx (hd _ he hc)

/-- Equal paths match the same elements. -/
theorem matches_congr {cs ds : List Component} (h : equalPaths cs ds) {e : Address}
    (he : t.present e) : t.Matches cs e ↔ t.Matches ds e := by
  have hw := equalPaths_iff.1 h
  constructor
  · intro hm
    exact hm.weaken he (hw.flip.imp fun _ _ h => (weaker_of_equal h).2)
  · intro hm
    exact hm.weaken he (hw.imp fun _ _ h => (weaker_of_equal h).1)

end ElementTree

end SelectorCalculus
