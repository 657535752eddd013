import SelectorCalculus.Selector.Equality
import SelectorCalculus.Proofs.PathShape
/-! Trees of elements, and which elements a plain selector matches. Pseudo elements and selector
arguments are outside this meaning. -/

namespace SelectorCalculus

/-- What simple selectors can say about one element: it has one type name, one namespace and at most
one identifier. Everything else is up to a test that cannot tell equal selectors apart. -/
structure Subject where
  typeName : String
  ns : String
  id : Option String
  passes : Simple → Prop
  passes_congr : ∀ {s s' : Simple}, s.equal s' → (passes s ↔ passes s')

namespace Subject

/-- A universal name and an open namespace constrain nothing. -/
def Satisfies (x : Subject) (s : Simple) : Prop :=
  match s.kind with
  | .typeName => (s.isUniversal ∨ s.name = x.typeName) ∧ (s.anyNamespace ∨ s.ns = x.ns)
  | .id => x.id = some s.name
  | _ => x.passes s

/-- A compound holds when all its simple selectors hold. -/
def Fits (x : Subject) (c : Compound) : Prop := ∀ s ∈ c.simples, x.Satisfies s

end Subject

/-- The place of an element: its number among its siblings, counted from zero, then the place of its
parent. The root is the empty address. -/
abbrev Address := List Nat

/-- Whether the element at `x` is an ancestor of the one at the given address. -/
def IsAncestor (x : Address) : Address → Prop
  | [] => False
  | _ :: p => x = p ∨ IsAncestor x p

/-- What an explicit combinator says about two elements; nothing between two compounds stands for
ancestor and descendant. -/
def Related : Option Combinator → Address → Address → Prop
  | none, x, y => IsAncestor x y
  | some .child, x, y => ∃ i, y = i :: x
  | some .general, x, y => ∃ i j p, i < j ∧ x = i :: p ∧ y = j :: p
  | some .adjacent, x, y => ∃ i p, x = i :: p ∧ y = (i + 1) :: p

/-- A tree of elements. With an element its parent and its earlier siblings are there. -/
structure ElementTree where
  present : Address → Prop
  subject : Address → Subject
  present_parent : ∀ {i : Nat} {p : Address}, present (i :: p) → present p
  present_previous : ∀ {i : Nat} {p : Address}, present ((i + 1) :: p) → present (i :: p)

namespace ElementTree

variable (t : ElementTree)

/-- The element at an address matches a path. Its last compound holds of the element, and what stands
before it leads to an ancestor, or to an element that the combinator between them asks for. A path
that does not start and end with compounds or has combinators side by side matches nothing. -/
inductive Matches : List Component → Address → Prop where
  | single {c : Compound} {e : Address} :
      (t.subject e).Fits c → Matches [.compound c] e
  | inside {cs : List Component} {x e : Address} {c : Compound} :
      Matches cs x → Related none x e → (t.subject e).Fits c → Matches (cs ++ [.compound c]) e
  | beside {cs : List Component} {x e : Address} {k : Combinator} {c : Compound} :
      Matches cs x → Related (some k) x e → (t.subject e).Fits c →
        Matches (cs ++ [.combinator k, .compound c]) e

/-- An element matches a list when it matches one of its alternatives. -/
def MatchesList (l : SelectorList) (e : Address) : Prop := ∃ c ∈ l, t.Matches c.components e

end ElementTree

/-- Every element that matches the second path matches the first, whatever the tree. -/
def Subsumes (cs ds : List Component) : Prop :=
  ∀ (t : ElementTree) (e : Address), t.present e → t.Matches ds e → t.Matches cs e

/-- No element matches both paths, whatever the tree. -/
def NeverTogether (cs ds : List Component) : Prop :=
  ∀ (t : ElementTree) (e : Address), t.present e → ¬ (t.Matches cs e ∧ t.Matches ds e)

/-! ### Addresses -/

theorem IsAncestor.trans {x y z : Address} (hxy : IsAncestor x y) (hyz : IsAncestor y z) :
    IsAncestor x z := by
  induction z with
  | nil => exact hyz
  | cons i p ih =>
    rcases hyz with rfl | h
    · exact Or.inr hxy
    · exact Or.inr (ih h)

/-- The ancestors of an element stay ancestors on the way to a related one. -/
theorem Related.isAncestor {s : Option Combinator} {x y w : Address} (h : Related s x y)
    (hw : IsAncestor w x) : IsAncestor w y := by
  match s, h with
  | none, h => exact hw.trans h
  | some .child, ⟨i, h⟩ => subst h; exact Or.inr hw
  | some .general, ⟨i, j, p, _, hx, hy⟩ => subst hx hy; exact hw
  | some .adjacent, ⟨i, p, hx, hy⟩ => subst hx hy; exact hw

theorem Related.of_child {x y : Address} (h : Related (some .child) x y) : Related none x y := by
  obtain ⟨i, rfl⟩ := h
  exact Or.inl rfl

theorem Related.of_adjacent {x y : Address} (h : Related (some .adjacent) x y) :
    Related (some .general) x y := by
  obtain ⟨i, p, rfl, rfl⟩ := h
  exact ⟨i, i + 1, p, Nat.lt_succ_self i, rfl, rfl⟩

theorem Related.general_trans {x y z : Address} (hxy : Related (some .general) x y)
    (hyz : Related (some .general) y z) : Related (some .general) x z := by
  obtain ⟨i, j, p, hij, rfl, rfl⟩ := hxy
  obtain ⟨j', l, q, hjl, hq, rfl⟩ := hyz
  obtain ⟨rfl, rfl⟩ := List.cons.inj hq
  exact ⟨i, l, p, Nat.lt_trans hij hjl, rfl, rfl⟩

namespace ElementTree

variable {t : ElementTree}

theorem present_of_isAncestor {x y : Address} (h : IsAncestor x y) (hy : t.present y) :
    t.present x := by
  induction y with
  | nil => exact h.elim
  | cons i p ih =>
    have hp := t.present_parent hy
    rcases h with rfl | h
    · exact hp
    · exact ih h hp

theorem present_of_le {i j : Nat} {p : Address} (h : i ≤ j) (hj : t.present (j :: p)) :
    t.present (i :: p) := by
  induction h with
  | refl => exact hj
  | step _ ih => exact ih (t.present_previous hj)

theorem present_of_related {s : Option Combinator} {x y : Address} (h : Related s x y)
    (hy : t.present y) : t.present x := by
  match s, h with
  | none, h => exact present_of_isAncestor h hy
  | some .child, ⟨i, hi⟩ => subst hi; exact t.present_parent hy
  | some .general, ⟨i, j, p, hij, hx, hj⟩ => subst hx hj; exact present_of_le (Nat.le_of_lt hij) hy
  | some .adjacent, ⟨i, p, hx, hi⟩ => subst hx hi; exact t.present_previous hy

end ElementTree

end SelectorCalculus
