import SelectorCalculus.Selector.Basic
/-! Recursion over selectors, once for all: what a selector means in terms of the meanings of its
parts. -/

namespace SelectorCalculus

/-- Meanings of simple selectors, components and complex selectors, given those of their parts. -/
structure Interpretation (α β γ : Type u) where
  /-- The second argument holds the meanings of a selector argument, nothing if there is none. -/
  simple : Simple → List γ → α
  /-- The second argument holds the meanings of the simples of a compound. -/
  component : Component → List α → β
  complex : Complex → List β → γ

namespace Interpretation

variable {α β γ : Type u}

mutual

def ofSimple (m : Interpretation α β γ) : Simple → α
  | ⟨l, none⟩ => m.simple ⟨l, none⟩ []
  | ⟨l, some list⟩ => m.simple ⟨l, some list⟩ (ofList m list)

def ofSimples (m : Interpretation α β γ) : List Simple → List α
  | [] => []
  | s :: rest => ofSimple m s :: ofSimples m rest

def ofComponent (m : Interpretation α β γ) : Component → β
  | .compound ⟨ss, p, e⟩ => m.component (.compound ⟨ss, p, e⟩) (ofSimples m ss)
  | .combinator k => m.component (.combinator k) []

def ofComponents (m : Interpretation α β γ) : List Component → List β
  | [] => []
  | c :: rest => ofComponent m c :: ofComponents m rest

def ofComplex (m : Interpretation α β γ) : Complex → γ
  | .path cs b => m.complex (.path cs b) (ofComponents m cs)
  | .absent => m.complex .absent []

def ofList (m : Interpretation α β γ) : List Complex → List γ
  | [] => []
  | c :: rest => ofComplex m c :: ofList m rest

end

def ofCompound (m : Interpretation α β γ) (c : Compound) : β := m.ofComponent (.compound c)

variable (m : Interpretation α β γ)

theorem ofSimples_eq_map (ss : List Simple) : m.ofSimples ss = ss.map m.ofSimple := by
  induction ss with
  | nil => rfl
  | cons s rest ih => rw [ofSimples, ih, List.map_cons]

theorem ofComponents_eq_map (cs : List Component) : m.ofComponents cs = cs.map m.ofComponent := by
  induction cs with
  | nil => rfl
  | cons c rest ih => rw [ofComponents, ih, List.map_cons]

theorem ofList_eq_map (l : SelectorList) : m.ofList l = l.map m.ofComplex := by
  induction l with
  | nil => rfl
  | cons c rest ih => rw [ofList, ih, List.map_cons]

theorem ofSimple_eq (s : Simple) :
    m.ofSimple s = m.simple s ((s.selector.getD []).map m.ofComplex) := by
  obtain ⟨l, _ | list⟩ := s
  · rfl
  · exact congrArg (m.simple _) (ofList_eq_map m list)

theorem ofCompound_eq (c : Compound) :
    m.ofCompound c = m.component (.compound c) (c.simples.map m.ofSimple) := by
  obtain ⟨ss, p, e⟩ := c
  exact congrArg (m.component _) (ofSimples_eq_map m ss)

theorem ofComponent_compound (c : Compound) : m.ofComponent (.compound c) = m.ofCompound c := rfl

theorem ofComplex_eq (c : Complex) :
    m.ofComplex c = m.complex c (c.components.map m.ofComponent) := by
  cases c with
  | path cs b => exact congrArg (m.complex _) (ofComponents_eq_map m cs)
  | absent => rfl

end Interpretation

/-! ### Induction -/

/-- Properties of simple selectors, components and complex selectors that pass from the parts to the
whole. -/
structure Hereditary (P : Simple → Prop) (Q : Component → Prop) (R : Complex → Prop) : Prop where
  simple : ∀ s : Simple, (∀ l ∈ s.selector, ∀ c ∈ l, R c) → P s
  compound : ∀ c : Compound, (∀ s ∈ c.simples, P s) → Q (.compound c)
  combinator : ∀ k : Combinator, Q (.combinator k)
  complex : ∀ c : Complex, (∀ d ∈ c.components, Q d) → R c

namespace Hereditary

variable {P : Simple → Prop} {Q : Component → Prop} {R : Complex → Prop}

mutual

theorem ofSimple (h : Hereditary P Q R) : ∀ s : Simple, P s
  | ⟨l, none⟩ => h.simple ⟨l, none⟩ (by simp)
  | ⟨l, some list⟩ => by
    have hlist := ofList h list
    exact h.simple ⟨l, some list⟩ (by simpa using hlist)

theorem ofSimples (h : Hereditary P Q R) : ∀ ss : List Simple, ∀ s ∈ ss, P s
  | [] => by simp
  | s :: rest => by
    have hs := ofSimple h s
    have hrest := ofSimples h rest
    exact List.forall_mem_cons.2 ⟨hs, hrest⟩

theorem ofComponent (h : Hereditary P Q R) : ∀ c : Component, Q c
  | .compound ⟨ss, p, e⟩ => by
    have hss := ofSimples h ss
    exact h.compound ⟨ss, p, e⟩ hss
  | .combinator k => h.combinator k

theorem ofComponents (h : Hereditary P Q R) : ∀ cs : List Component, ∀ c ∈ cs, Q c
  | [] => by simp
  | c :: rest => by
    have hc := ofComponent h c
    have hrest := ofComponents h rest
    exact List.forall_mem_cons.2 ⟨hc, hrest⟩

theorem ofComplex (h : Hereditary P Q R) : ∀ c : Complex, R c
  | .path cs b => by
    have hcs := ofComponents h cs
    exact h.complex (.path cs b) hcs
  | .absent => h.complex .absent (by simp [Complex.components])

theorem ofList (h : Hereditary P Q R) : ∀ l : List Complex, ∀ c ∈ l, R c
  | [] => by simp
  | c :: rest => by
    have hc := ofComplex h c
    have hrest := ofList h rest
    exact List.forall_mem_cons.2 ⟨hc, hrest⟩

end

end Hereditary

end SelectorCalculus
