import SelectorCalculus.Selector.Superselector
import SelectorCalculus.Selector.Unify
import SelectorCalculus.Weave.CommonSubsequence
/-! Merging the combinators at the ends of two paths that lead to the same element. -/

namespace SelectorCalculus.Weave

abbrev Choice := List (List Component)

def takeCombinators : List Component → List Combinator × List Component
  | .combinator k :: rest =>
    let (ks, rest) := takeCombinators rest
    (k :: ks, rest)
  | cs => ([], cs)

/-- Takes the combinators off the starts of two paths. One run must hold the other. -/
def mergeLeading? (cs ds : List Component) :
    Option (List Combinator × List Component × List Component) :=
  let (ks, cs) := takeCombinators cs
  let (ks', ds) := takeCombinators ds
  (longerOf? ks ks').map fun longer => (longer, cs, ds)

def pair (c : Compound) (k : Combinator) : List Component := [.compound c, .combinator k]

def twoSiblings (c d : Compound) : Choice :=
  if c.isSuperselectorOf d then [pair d .general]
  else if d.isSuperselectorOf c then [pair c .general]
  else
    let unified := match c.unify? d with
      | some u => [pair u .general]
      | none => []
    [pair c .general ++ pair d .general, pair d .general ++ pair c .general] ++ unified

/-- An earlier sibling that matches `general` and the previous one that matches `adjacent`;
`unified` is one that matches both. -/
def siblingAndNeighbour (general adjacent : Compound) (unified : Option Compound) : Choice :=
  if general.isSuperselectorOf adjacent then [pair adjacent .adjacent]
  else
    let unified := match unified with
      | some u => [pair u .adjacent]
      | none => []
    (pair general .general ++ pair adjacent .adjacent) :: unified

abbrev Step := Choice × List Component × List Component

/-- Takes a compound and its combinator off both paths. A sibling is nearer than a parent, so a
child combinator against a sibling combinator stays for the next step. -/
def stepBoth? (c : Compound) (k : Combinator) (cs : List Component)
    (d : Compound) (k' : Combinator) (ds : List Component) : Option Step :=
  match k, k' with
  | .general, .general => some (twoSiblings c d, cs, ds)
  | .general, .adjacent => some (siblingAndNeighbour c d (c.unify? d), cs, ds)
  | .adjacent, .general => some (siblingAndNeighbour d c (c.unify? d), cs, ds)
  | .child, .child => (c.unify? d).map fun u => ([pair u k], cs, ds)
  | .adjacent, .adjacent => (c.unify? d).map fun u => ([pair u k], cs, ds)
  | .child, _ => some ([pair d k'], .combinator .child :: .compound c :: cs, ds)
  | _, .child => some ([pair c k], cs, .combinator .child :: .compound d :: ds)

/-- Takes a compound and its combinator off one path. If the combinator is child, a compound that
ends the other path and is above the one taken goes with it. -/
def stepOne (c : Compound) (k : Combinator) (others : List Component) :
    List (List Component) × List Component :=
  let others := match k, others with
    | .child, .compound d :: rest => if d.isSuperselectorOf c then rest else others
    | _, _ => others
  ([pair c k], others)

/-- Takes combinators and the compounds they bind off the ends of two paths, given last component
first. The choices found are listed outermost first. Each step makes the paths shorter, so their
length bounds the number of steps. -/
def mergeTrailing? : Nat → List Component → List Component →
    Option (List Choice × List Component × List Component)
  | 0, cs, ds => some ([], cs, ds)
  | bound + 1, cs, ds =>
    let continueWith : Step → Option (List Choice × List Component × List Component) :=
      fun (choice, cs, ds) => do
        let (choices, cs, ds) ← mergeTrailing? bound cs ds
        return (choices ++ [choice], cs, ds)
    match takeCombinators cs, takeCombinators ds with
    | ([], _), ([], _) => some ([], cs, ds)
    | ([k], .compound c :: cs), ([k'], .compound d :: ds) => do
      continueWith (← stepBoth? c k cs d k' ds)
    | ([_], _), ([_], _) => none
    | ([k], .compound c :: cs), ([], ds) =>
      let (choice, ds) := stepOne c k ds
      continueWith (choice, cs, ds)
    | ([_], _), ([], _) => none
    | ([], cs), ([k], .compound d :: ds) =>
      let (choice, cs) := stepOne d k cs
      continueWith (choice, cs, ds)
    | ([], _), ([_], _) => none
    | (ks, cs), (ks', ds) =>
      (longerOf? ks ks').map fun longer => ([[longer.reverse.map .combinator]], cs, ds)

end SelectorCalculus.Weave
