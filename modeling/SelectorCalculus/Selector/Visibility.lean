import SelectorCalculus.Selector.Interpretation
/-! Visibility: a selector that depends on a placeholder matches nothing and is never written
out. -/

namespace SelectorCalculus

/-- Every selector as whether it is invisible. A negation stays visible whatever it negates. -/
def invisibility : Interpretation Bool Bool Bool where
  simple s parts :=
    match s.kind with
    | .placeholder => true
    | .pseudo => s.selector.isSome && s.normalizedName != "not" && parts.all id
    | _ => false
  component _ parts := parts.any id
  complex _ parts := parts.any id

def Simple.isInvisible (s : Simple) : Bool := invisibility.ofSimple s

def Compound.isInvisible (c : Compound) : Bool := invisibility.ofCompound c

def Complex.isInvisible (c : Complex) : Bool := invisibility.ofComplex c

def isInvisibleList (l : SelectorList) : Bool := l.all (·.isInvisible)

end SelectorCalculus
