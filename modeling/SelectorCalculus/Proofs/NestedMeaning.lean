import SelectorCalculus.Proofs.Reach
import SelectorCalculus.Selector.Sense
import Mathlib.Data.List.Forall2
/-! Which elements a selector matches when pseudo selectors speak of the alternatives in their
arguments. -/

namespace SelectorCalculus

/-- What the tree does not tell: which elements `:has` looks at, and what combinators say before the
first compound, behind the last one, and side by side. -/
structure Reading where
  kin : Address → Address → Prop
  leading : List Combinator → Address → Prop
  between : List Combinator → Address → Address → Prop
  trailing : List Combinator → Address → Address → Prop

namespace Reading

variable (r : Reading)

/-- What the combinators before the first compound say about its element. -/
def start : List Combinator → Place
  | [] => ElementTree.anywhere
  | ks => r.leading ks

/-- What the combinators between two compounds say about their elements. -/
def step : List Combinator → Address → Address → Prop
  | [] => Related none
  | [k] => Related (some k)
  | ks => r.between ks

/-- What the combinators behind the last compound say about its element and the one matched. -/
def finish : List Combinator → Address → Address → Prop
  | [] => Eq
  | ks => r.trailing ks

/-- The reading in which combinators say nothing but alone between two compounds. -/
def strict (kin : Address → Address → Prop) : Reading where
  kin := kin
  leading _ _ := False
  between _ _ _ := False
  trailing _ _ _ := False

end Reading

/-- A component as elements see it: where a compound holds, or a combinator. -/
inductive Waypoint where
  | element (p : Place)
  | combinator (k : Combinator)

namespace ElementTree

variable (t : ElementTree) (r : Reading)

/-- A path that ends with a compound leads to an element of which the compound holds, by way of
elements of which the compounds before it do. -/
inductive Leads : List Waypoint → Address → Prop where
  | start {ks : List Combinator} {p : Place} {e : Address} :
      t.present e → r.start ks e → p e → Leads (ks.map .combinator ++ [.element p]) e
  | step {ps : List Waypoint} {ks : List Combinator} {p : Place} {x e : Address} :
      Leads ps x → t.present e → r.step ks x e → p e →
        Leads (ps ++ (ks.map .combinator ++ [.element p])) e

/-- The elements that match a path. A path without any compound matches nothing. -/
def follow (ps : List Waypoint) : Place :=
  fun e => ∃ qs ks x, ps = qs ++ ks.map .combinator ∧ t.Leads r qs x ∧ r.finish ks x e

/-- Every selector as where it holds. -/
def meaning : Interpretation Place Waypoint Place where
  simple s parts := fun e =>
    if s.hasSelector then
      match s.sense with
      | .anyOf => ∃ p ∈ parts, p e
      | .related => ∃ x, t.present x ∧ r.kin e x ∧ ∃ p ∈ parts, p x
      | .negation => ¬ ∃ p ∈ parts, p e
      | _ => (t.subject e).passes s
    else (t.subject e).Satisfies s
  component
    | .compound _, parts => .element fun e => ∀ p ∈ parts, p e
    | .combinator k, _ => .combinator k
  complex _ parts := t.follow r parts

/-- Where some alternative of a list holds. -/
def holds (l : SelectorList) : Place := fun e => ∃ c ∈ l, (t.meaning r).ofComplex c e

/-- Two places hold the same elements of the tree. -/
def Agree (p q : Place) : Prop := ∀ e, t.present e → (p e ↔ q e)

/-- A place holds no element of the tree. -/
def Never (p : Place) : Prop := ∀ e, t.present e → ¬ p e

/-- Two components say the same about the elements of the tree. -/
inductive Same : Waypoint → Waypoint → Prop where
  | element {p q : Place} : t.Agree p q → Same (.element p) (.element q)
  | combinator (k : Combinator) : Same (.combinator k) (.combinator k)

variable {t r} {ps qs : List Waypoint} {e : Address}

/-! ### Paths -/

theorem eq_of_same_combinators {ks : List Combinator}
    (h : List.Forall₂ t.Same (ks.map .combinator) qs) : qs = ks.map .combinator := by
  induction ks generalizing qs with
  | nil =>
    cases h
    rfl
  | cons k ks ih =>
    cases h with
    | cons hk h =>
      cases hk
      rw [ih h, List.map_cons]

theorem exists_append_of_same {ps' : List Waypoint} (h : List.Forall₂ t.Same (ps ++ ps') qs) :
    ∃ qs₁ qs₂, qs = qs₁ ++ qs₂ ∧ List.Forall₂ t.Same ps qs₁ ∧ List.Forall₂ t.Same ps' qs₂ :=
  ⟨qs.take ps.length, qs.drop ps.length, (List.take_append_drop _ _).symm,
    (List.forall₂_take_append _ _ _ h.flip).flip, (List.forall₂_drop_append _ _ _ h.flip).flip⟩

theorem exists_element_of_same {ks : List Combinator} {p : Place}
    (h : List.Forall₂ t.Same (ks.map .combinator ++ [.element p]) qs) :
    ∃ q, qs = ks.map .combinator ++ [.element q] ∧ t.Agree p q := by
  obtain ⟨qs₁, qs₂, rfl, h₁, h₂⟩ := exists_append_of_same h
  obtain rfl := eq_of_same_combinators h₁
  cases h₂ with
  | cons hp hnil =>
    cases hnil
    cases hp with
    | element hpq => exact ⟨_, rfl, hpq⟩

theorem Leads.congr (h : t.Leads r ps e) (hsame : List.Forall₂ t.Same ps qs) : t.Leads r qs e := by
  induction h generalizing qs with
  | start he hks hp =>
    obtain ⟨q, rfl, hpq⟩ := exists_element_of_same hsame
    exact .start he hks ((hpq _ he).1 hp)
  | step hx he hks hp ih =>
    obtain ⟨qs₁, qs₂, rfl, h₁, h₂⟩ := exists_append_of_same hsame
    obtain ⟨q, rfl, hpq⟩ := exists_element_of_same h₂
    exact .step (ih h₁) he hks ((hpq _ he).1 hp)

theorem Leads.not_of_never {p : Place} (h : t.Leads r ps e) (hmem : .element p ∈ ps) :
    ¬ t.Never p := by
  induction h with
  | start he hks hp =>
    intro hnever
    obtain rfl : p = _ := by simpa using hmem
    exact hnever _ he hp
  | step hx he hks hp ih =>
    rcases List.mem_append.1 hmem with hmem | hmem
    · exact ih hmem
    · intro hnever
      obtain rfl : p = _ := by simpa using hmem
      exact hnever _ he hp

theorem Leads.exists_element (h : t.Leads r ps e) : ∃ p, .element p ∈ ps := by
  cases h with
  | start => exact ⟨_, List.mem_append_right _ (List.mem_singleton_self _)⟩
  | step =>
    exact ⟨_, List.mem_append_right _ (List.mem_append_right _ (List.mem_singleton_self _))⟩

theorem Same.symm {a b : Waypoint} (h : t.Same a b) : t.Same b a := by
  cases h with
  | element hpq => exact .element fun e he => (hpq e he).symm
  | combinator k => exact .combinator k

theorem Same.trans {a b c : Waypoint} (hab : t.Same a b) (hbc : t.Same b c) : t.Same a c := by
  cases hab with
  | element hpq =>
    cases hbc with
    | element hqs => exact .element fun e he => (hpq e he).trans (hqs e he)
  | combinator k => exact hbc

theorem follow_congr (h : List.Forall₂ t.Same ps qs) : t.follow r ps e ↔ t.follow r qs e := by
  have himp {ps qs : List Waypoint} (h : List.Forall₂ t.Same ps qs) (hps : t.follow r ps e) :
      t.follow r qs e := by
    obtain ⟨ps', ks, x, rfl, hleads, hfinish⟩ := hps
    obtain ⟨qs₁, qs₂, rfl, h₁, h₂⟩ := exists_append_of_same h
    obtain rfl := eq_of_same_combinators h₂
    exact ⟨qs₁, ks, x, rfl, hleads.congr h₁, hfinish⟩
  exact ⟨himp h, himp (h.flip.imp fun _ _ hsame => hsame.symm)⟩

/-- A path with a compound that holds nowhere matches nothing. -/
theorem not_follow_of_never {p : Place} (hmem : .element p ∈ ps) (hp : t.Never p) :
    ¬ t.follow r ps e := by
  rintro ⟨qs, ks, x, rfl, hleads, -⟩
  refine hleads.not_of_never ?_ hp
  simpa using hmem

theorem not_follow_of_combinators (h : ∀ p, .element p ∉ ps) : ¬ t.follow r ps e := by
  rintro ⟨qs, ks, x, rfl, hleads, -⟩
  obtain ⟨p, hp⟩ := hleads.exists_element
  exact h p (List.mem_append_left _ hp)

/-! ### Compounds and their simple selectors -/

theorem meaning_of_not_hasSelector {s : Simple} (hs : ¬ s.hasSelector) :
    (t.meaning r).ofSimple s e ↔ (t.subject e).Satisfies s := by
  rw [Interpretation.ofSimple_eq]
  simp only [meaning, hs]
  exact Iff.rfl

theorem meaning_compound (c : Compound) : (t.meaning r).ofComponent (.compound c) =
    .element fun e => ∀ s ∈ c.simples, (t.meaning r).ofSimple s e := by
  rw [Interpretation.ofComponent_compound, Interpretation.ofCompound_eq]
  simp [meaning]

theorem meaning_complex (c : Complex) : (t.meaning r).ofComplex c =
    t.follow r (c.components.map (t.meaning r).ofComponent) := by
  rw [Interpretation.ofComplex_eq]
  rfl

section Arguments

variable {s : Simple} {l : SelectorList}

theorem meaning_anyOf (hk : s.kind = .pseudo) (hl : s.selector = some l) (hs : s.sense = .anyOf) :
    (t.meaning r).ofSimple s e ↔ t.holds r l e := by
  rw [Interpretation.ofSimple_eq]
  simp [meaning, Simple.hasSelector, hk, hl, hs, holds]

theorem meaning_negation (hk : s.kind = .pseudo) (hl : s.selector = some l)
    (hs : s.sense = .negation) : (t.meaning r).ofSimple s e ↔ ¬ t.holds r l e := by
  rw [Interpretation.ofSimple_eq]
  simp [meaning, Simple.hasSelector, hk, hl, hs, holds]

theorem meaning_related (hk : s.kind = .pseudo) (hl : s.selector = some l)
    (hs : s.sense = .related) : (t.meaning r).ofSimple s e ↔
      ∃ x, t.present x ∧ r.kin e x ∧ t.holds r l x := by
  rw [Interpretation.ofSimple_eq]
  simp [meaning, Simple.hasSelector, hk, hl, hs, holds]

end Arguments

/-! ### Selectors without selector arguments -/

section Plain

variable {kin : Address → Address → Prop}

theorem meaning_eq_element {c : Component} {p : Place}
    (h : (t.meaning r).ofComponent c = .element p) :
    ∃ d, c = .compound d ∧ p = fun e => ∀ s ∈ d.simples, (t.meaning r).ofSimple s e := by
  cases c with
  | compound d =>
    rw [meaning_compound] at h
    cases h
    exact ⟨d, rfl, rfl⟩
  | combinator k => cases h

theorem meaning_eq_combinators {cs : List Component} {ks : List Combinator}
    (h : cs.map (t.meaning r).ofComponent = ks.map .combinator) : cs = ks.map .combinator := by
  induction cs generalizing ks with
  | nil =>
    cases ks with
    | nil => rfl
    | cons => cases h
  | cons c cs ih =>
    cases ks with
    | nil => cases h
    | cons k ks =>
      obtain ⟨hc, hcs⟩ := List.cons.inj h
      rw [List.map_cons, ← ih hcs]
      cases c with
      | compound d =>
        rw [meaning_compound] at hc
        cases hc
      | combinator k' =>
        cases hc
        rfl

theorem exists_compound_of_map {cs : List Component} {ks : List Combinator} {p : Place}
    (h : cs.map (t.meaning r).ofComponent = ks.map .combinator ++ [.element p]) :
    ∃ d, cs = ks.map .combinator ++ [.compound d] ∧
      p = fun e => ∀ s ∈ d.simples, (t.meaning r).ofSimple s e := by
  obtain ⟨cs₁, cs₂, rfl, h₁, h₂⟩ := List.map_eq_append_iff.1 h
  obtain ⟨c, _, rfl, hc, hnil⟩ := List.map_eq_cons_iff.1 h₂
  obtain rfl := List.map_eq_nil_iff.1 hnil
  obtain ⟨d, rfl, hp⟩ := meaning_eq_element hc
  exact ⟨d, by rw [meaning_eq_combinators h₁], hp⟩

/-- Compounds without selector arguments. -/
def Bare (cs : List Component) : Prop := ∀ d, .compound d ∈ cs → ∀ s ∈ d.simples, ¬ s.hasSelector

theorem fits_iff_of_bare {d : Compound} (h : ∀ s ∈ d.simples, ¬ s.hasSelector) :
    (∀ s ∈ d.simples, (t.meaning r).ofSimple s e) ↔ (t.subject e).Fits d :=
  forall₂_congr fun s hs => meaning_of_not_hasSelector (h s hs)

theorem Leads.matches_of_bare (h : t.Leads (.strict kin) ps e) {cs : List Component}
    (hcs : Bare cs) (hps : cs.map (t.meaning (.strict kin)).ofComponent = ps) :
    t.Matches cs e := by
  induction h generalizing cs with
  | @start ks p e _ hks hp =>
    obtain ⟨d, rfl, rfl⟩ := exists_compound_of_map hps
    rw [fits_iff_of_bare (hcs d (by simp))] at hp
    cases ks with
    | nil => exact .single hp
    | cons => exact hks.elim
  | @step ps ks p x e _ _ hks hp ih =>
    obtain ⟨cs₁, cs₂, rfl, h₁, h₂⟩ := List.map_eq_append_iff.1 hps
    obtain ⟨d, rfl, rfl⟩ := exists_compound_of_map h₂
    rw [fits_iff_of_bare (hcs d (by simp))] at hp
    have hx := ih (fun d hd => hcs d (List.mem_append_left _ hd)) h₁
    match ks with
    | [] => exact .inside hx hks hp
    | [k] => exact .beside hx hks hp
    | _ :: _ :: _ => exact hks.elim

theorem Matches.leads_of_bare {cs : List Component} (h : t.Matches cs e) (hcs : Bare cs)
    (he : t.present e) :
    t.Leads (.strict kin) (cs.map (t.meaning (.strict kin)).ofComponent) e := by
  induction h with
  | @single c e hc =>
    rw [List.map_singleton, meaning_compound]
    exact @Leads.start t _ [] _ e he trivial ((fits_iff_of_bare (hcs c (by simp))).2 hc)
  | @inside cs x e c _ hx hc ih =>
    have hleads := ih (fun d hd => hcs d (by simp [hd])) (present_of_related hx he)
    rw [List.map_append, List.map_singleton, meaning_compound]
    exact @Leads.step t _ _ [] _ x e hleads he hx ((fits_iff_of_bare (hcs c (by simp))).2 hc)
  | @beside cs x e k c _ hx hc ih =>
    have hleads := ih (fun d hd => hcs d (by simp [hd])) (present_of_related hx he)
    rw [List.map_append, List.map_cons, List.map_singleton, meaning_compound]
    exact @Leads.step t _ _ [k] _ x e hleads he hx ((fits_iff_of_bare (hcs c (by simp))).2 hc)

/-- Without selector arguments an element matches what it matches by its compounds alone. -/
theorem holds_strict_iff {l : SelectorList} (hl : ∀ c ∈ l, Bare c.components)
    (he : t.present e) : t.holds (.strict kin) l e ↔ t.MatchesList l e := by
  refine exists_congr fun c => and_congr_right fun hc => ?_
  rw [meaning_complex]
  constructor
  · rintro ⟨qs, ks, x, hqs, hleads, hfinish⟩
    cases ks with
    | nil =>
      obtain rfl : x = e := hfinish
      exact hleads.matches_of_bare (hl c hc) (by simpa using hqs)
    | cons => exact hfinish.elim
  · intro hmatches
    exact ⟨_, [], e, (List.append_nil _).symm, hmatches.leads_of_bare (hl c hc) he, rfl⟩

end Plain

end ElementTree

end SelectorCalculus
