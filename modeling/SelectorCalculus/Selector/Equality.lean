import SelectorCalculus.Selector.Interpretation
/-! Equality of selectors: compounds and lists as sets, paths step by step, names of pseudo
selectors regardless of case. -/

namespace SelectorCalculus

/-- Whether two labels agree in the fields that matter for their kind. -/
def Label.alike (a b : Label) : Bool :=
  a.kind == b.kind && match a.kind with
    | .typeName => a.name == b.name && a.ns == b.ns
    | .attr =>
      a.name == b.name && a.ns == b.ns && a.op == b.op && a.value == b.value &&
        a.modifier == b.modifier
    | .pseudo =>
      a.element == b.element && a.argument == b.argument && Text.fold a.name == Text.fold b.name
    | _ => a.name == b.name

def sameMembers (tests : List (α → Bool)) (xs : List α) : Bool :=
  tests.all (fun p => xs.any p) && xs.all (fun x => tests.any (· x))

def pointwise : List (α → Bool) → List α → Bool
  | [], [] => true
  | p :: ps, x :: xs => p x && pointwise ps xs
  | _, _ => false

/-- Every selector as the test of being equal to it. -/
def equality : Interpretation (Simple → Bool) (Component → Bool) (Complex → Bool) where
  simple s tests t :=
    s.toLabel.alike t.toLabel && (s.kind != .pseudo || match s.selector, t.selector with
      | none, none => true
      | some _, some list => sameMembers tests list
      | _, _ => false)
  component
    | .compound _, tests => fun
      | .compound d => tests.length == d.simples.length && sameMembers tests d.simples
      | .combinator _ => false
    | .combinator k, _ => fun
      | .compound _ => false
      | .combinator k' => k == k'
  complex
    | .path _ _, tests => fun
      | .path cs _ => pointwise tests cs
      | .absent => false
    | .absent, _ => fun
      | .path _ _ => false
      | .absent => true

namespace Simple

def equal (s t : Simple) : Bool := equality.ofSimple s t

end Simple

def containsSimple (ss : List Simple) (s : Simple) : Bool := ss.any (equality.ofSimple s)

namespace Compound

def equal (c d : Compound) : Bool := equality.ofCompound c (.compound d)

def contains (c : Compound) (s : Simple) : Bool := containsSimple c.simples s

end Compound

def Component.equal (c d : Component) : Bool := equality.ofComponent c d

def equalPaths (cs ds : List Component) : Bool := pointwise (equality.ofComponents cs) ds

def Complex.equal (c d : Complex) : Bool := equality.ofComplex c d

def containsComplex (l : SelectorList) (c : Complex) : Bool := l.any (equality.ofComplex c)

/-- Equality of lists as sets. -/
def equalLists (l l' : SelectorList) : Bool := sameMembers (equality.ofList l) l'

end SelectorCalculus
