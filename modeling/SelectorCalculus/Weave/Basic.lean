import SelectorCalculus.Weave.Combinators
import SelectorCalculus.Weave.Choices
/-! Weaving: the paths that lead to an element which several given paths lead to. -/

namespace SelectorCalculus

namespace Weave

open Superselector

/-- A way to combine two paths into all paths that lead where both do. -/
abbrev Combine := List Component → List Component → List (List Component)

def runs : List Component → List (List Component)
  | [] => []
  | c :: rest =>
    match runs rest with
    | [] => [[c]]
    | run :: more =>
      if c.isCombinator || run.head?.any Component.isCombinator then (c :: run) :: more
      else [c] :: run :: more

def isUnique (s : Simple) : Bool := s.kind == .id || s.isPseudoElement

def uniqueSimples (cs : List Component) : List Simple :=
  ((compoundsOf cs).flatMap Compound.simples).filter isUnique

/-- Whether two runs hold the same simple selector that matches at most one element. -/
def mustUnify (cs ds : List Component) : Bool :=
  (uniqueSimples ds).any (containsSimple (uniqueSimples cs))

def commonRun? (unify : Combine) (cs ds : List Component) : Option (List Component) :=
  if equalPaths cs ds then some cs
  else if !startsWithCompound cs || !startsWithCompound ds then none
  else if isParentSuperpath cs ds then some ds
  else if isParentSuperpath ds cs then some cs
  else if !mustUnify cs ds then none
  else match unify cs ds with
    | [run] => some run
    | _ => none

def isRoot (c : Compound) : Bool :=
  c.simples.any fun s => s.isPseudoClass && s.normalizedName == "root"

def root? : List Component → Option (Compound × List Component)
  | .compound c :: rest => if isRoot c then some (c, rest) else none
  | _ => none

def shareRoot? (cs ds : List Component) : Option (List Component × List Component) :=
  match root? cs, root? ds with
  | some (c, cs), some (d, ds) =>
    (c.unify? d).map fun root => (.compound root :: cs, .compound root :: ds)
  | some (c, cs), none => some (cs, .compound c :: ds)
  | none, some (d, ds) => some (.compound d :: cs, ds)
  | none, none => some (cs, ds)

/-- The choices for the runs of two paths, given the runs that can stand for runs of both: what
comes before such a run may be interleaved. -/
def layOut : List (List Component) → List (List Component) → List (List Component) → List Choice
  | [], left, right => [(interleavings left right).map List.flatten]
  | run :: common, left, right =>
    let (before, left) := left.span (!isParentSuperpath · run)
    let (before', right) := right.span (!isParentSuperpath · run)
    (interleavings before before').map List.flatten :: [run] ::
      layOut common (left.drop 1) (right.drop 1)

/-- All ways to interleave two paths above the same element, none if they contradict. -/
def interleaveWith (unify : Combine) (cs ds : List Component) : List (List Component) :=
  let choices? : Option (List Choice) := do
    let (leading, cs, ds) ← mergeLeading? cs ds
    let (trailing, cs, ds) ← mergeTrailing? (cs.length + ds.length) cs.reverse ds.reverse
    let (cs, ds) ← shareRoot? cs.reverse ds.reverse
    let left := runs cs
    let right := runs ds
    let common := longestCommon (commonRun? unify) right left
    return [leading.map .combinator] :: layOut common left right ++ trailing
  match choices? with
  | none => []
  | some choices => (picks (choices.filter (!·.isEmpty))).map List.flatten

/-- Adds a path to those woven so far: its last component comes last, and what stands before it is
interleaved. -/
def appendPath (interleave : Combine) (woven : List (List Component)) (cs : List Component) :
    List (List Component) :=
  match cs.getLast? with
  | none => woven
  | some last =>
    let parents := cs.dropLast
    let woven := if parents.isEmpty then woven else woven.flatMap (interleave · parents)
    woven.map (· ++ [last])

def weaveWith (interleave : Combine) : List (List Component) → List (List Component)
  | [] => []
  | first :: rest => rest.foldl (appendPath interleave) [first]

def unifyWith (interleave : Combine) (cs ds : List Component) : List (List Component) :=
  match cs.getLast?, ds.getLast? with
  | some (.compound c), some (.compound d) =>
    match c.unify? d with
    | some base => weaveWith interleave [cs.dropLast, ds.dropLast ++ [.compound base]]
    | none => []
  | _, _ => []

def interleaveTo : Nat → Combine
  | 0 => interleaveWith fun _ _ => []
  | n + 1 => interleaveWith (unifyWith (interleaveTo n))

/-- All ways to interleave two paths above the same element. Runs to be unified are shorter than
the paths, so the length of the paths bounds the depth. -/
def interleave (cs ds : List Component) : List (List Component) :=
  interleaveTo (cs.length + ds.length) cs ds

end Weave

/-- Combines paths that all lead to the same element. -/
def weave (complexes : List (List Component)) : List (List Component) :=
  Weave.weaveWith Weave.interleave complexes

def unifyPaths (cs ds : List Component) : List (List Component) :=
  Weave.unifyWith Weave.interleave cs ds

def Complex.unify (c d : Complex) : SelectorList :=
  (unifyPaths c.components d.components).map .ofComponents

def unifyLists (l l' : SelectorList) : SelectorList :=
  l.flatMap fun c => l'.flatMap c.unify

def unifyLists? (l l' : SelectorList) : Option SelectorList :=
  let unified := unifyLists l l'
  if unified.isEmpty then none else some unified

end SelectorCalculus
