import SelectorCalculus.Selector.Interpretation
/-! Specificity: the weight of a selector in the cascade, as a range over the alternatives in its
arguments. -/

namespace SelectorCalculus

/-- The least and the greatest weight a selector can have. -/
structure Specificity where
  min : Nat
  max : Nat
  deriving DecidableEq, Repr

namespace Specificity

def exactly (n : Nat) : Specificity := ⟨n, n⟩

def zero : Specificity := exactly 0

def ofId : Specificity := exactly 1000000

def ofClass : Specificity := exactly 1000

def ofType : Specificity := exactly 1

def add (a b : Specificity) : Specificity := ⟨a.min + b.min, a.max + b.max⟩

def sum (parts : List Specificity) : Specificity := parts.foldr add zero

def either (a b : Specificity) : Specificity := ⟨Nat.min a.min b.min, Nat.max a.max b.max⟩

def greater (a b : Specificity) : Specificity := ⟨Nat.max a.min b.min, Nat.max a.max b.max⟩

/-- Joins ranges two at a time; no range at all is zero. -/
def joinAll (join : Specificity → Specificity → Specificity) : List Specificity → Specificity
  | [] => zero
  | first :: rest => rest.foldl join first

end Specificity

def Label.argumentSpecificity (l : Label) (parts : List Specificity) : Specificity :=
  let name := l.normalizedName
  if name = "where" then .zero
  else if name = "not" then .joinAll .greater parts
  else if name = "nth-child" ∨ name = "nth-last-child" then
    (Specificity.joinAll .either parts).add .ofClass
  else .joinAll .either parts

def weighing : Interpretation Specificity Specificity Specificity where
  simple s parts :=
    match s.kind with
    | .typeName => if s.isUniversal then .zero else .ofType
    | .id => .ofId
    | .pseudo =>
      if s.isPseudoElement then .ofType
      else if s.selector.isNone then .ofClass
      else s.argumentSpecificity parts
    | _ => .ofClass
  component _ parts := .sum parts
  complex _ parts := .sum parts

def Simple.specificity (s : Simple) : Specificity := weighing.ofSimple s

def Compound.specificity (c : Compound) : Specificity := weighing.ofCompound c

def Complex.specificity (c : Complex) : Specificity := weighing.ofComplex c

end SelectorCalculus
