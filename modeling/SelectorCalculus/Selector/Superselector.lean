import SelectorCalculus.Selector.Equality
import SelectorCalculus.Selector.Sense
/-! The superselector relation, a greedy check. Each layer takes the check of nested selectors as an
argument. -/

namespace SelectorCalculus

/-- Every selector as the depth to which selector arguments are nested in it. -/
def nesting : Interpretation Nat Nat Nat where
  simple s parts := if s.selector.isSome then parts.foldr Nat.max 0 + 1 else 0
  component _ parts := parts.foldr Nat.max 0
  complex _ parts := parts.foldr Nat.max 0

def nestingOfPath (cs : List Component) : Nat := (nesting.ofComponents cs).foldr Nat.max 0

namespace Simple

def isSuperselectorOf (s t : Simple) : Bool :=
  s.equal t || (s.kind == .typeName &&
    ((s.isUniversal && s.anyNamespace) ||
      (t.kind == .typeName && (s.anyNamespace || s.ns == t.ns) &&
        (s.isUniversal || s.name == t.name))))

/-- Whether no element has both types. A universal name or an open namespace excludes nothing. -/
def excludesType (s t : Simple) : Bool :=
  (!s.isUniversal && !t.isUniversal && s.name != t.name) ||
    (!s.anyNamespace && !t.anyNamespace && s.ns != t.ns)

end Simple

namespace Superselector

/-- Whether the first path matches whatever the second does. -/
abbrev PathTest := List Component → List Component → Bool

def listTest (test : PathTest) (l l' : SelectorList) : Bool :=
  l'.all fun c' => l.any fun c => test c.components c'.components

/-- Whether every alternative of a pseudo selector that narrows its element is one compound that
holds a given simple selector. -/
def alternativesHold (s t : Simple) : Bool :=
  t.hasSelector && (t.sense == .anyOf || t.sense == .counting) &&
    let list := t.selector.getD []
    !list.isEmpty && list.all fun c => c.single?.any (·.contains s)

def simpleTest (s : Simple) (ss : List Simple) : Bool :=
  ss.any fun t => s.isSuperselectorOf t || alternativesHold s t

def argumentsNamed (name : String) (isClass : Bool) (ss : List Simple) : List SelectorList :=
  ss.filterMap fun s =>
    if s.hasSelector && s.isPseudoClass == isClass && s.normalizedName == name then s.selector
    else none

/-- Whether the given simple selectors together rule out one branch of a negation. -/
def rulesOut (test : PathTest) (name : String) (branch : Complex) (base : Compound)
    (ss : List Simple) : Bool :=
  ss.any fun t =>
    match t.kind with
    | .typeName => base.simples.any fun s => s.kind == .typeName && s.excludesType t
    | .id => base.simples.any fun s => s.kind == .id && !s.equal t
    | .pseudo =>
      t.normalizedName == name && t.selector.any fun list => listTest test list [branch]
    | _ => false

/-- Whether a pseudo selector with the given argument matches whatever the given simple selectors
do together, `parents` being the path before them. -/
def argumentTest (test : PathTest) (s : Simple) (list : SelectorList) (ss : List Simple)
    (parents : List Component) : Bool :=
  let name := s.normalizedName
  match s.sense with
  | .anyOf =>
    (argumentsNamed name true ss).any (listTest test list) ||
      list.any fun c => test c.components (parents ++ [.compound (.ofSimples ss)])
  | .related => (argumentsNamed name true ss).any (listTest test list)
  | .slotted => (argumentsNamed name false ss).any (listTest test list)
  | .negation =>
    list.all fun c => c.base?.any fun base => rulesOut test name c base ss
  | .current => (argumentsNamed name true ss).any (equalLists list)
  | .counting =>
    ss.any fun t =>
      t.kind == .pseudo && t.normalizedName == name && t.argument == s.argument &&
        t.selector.any (listTest test list)
  | .unknown => containsSimple ss s

def simplesTest (test : PathTest) (ss ts : List Simple) (parents : List Component) : Bool :=
  ss.all fun s =>
    match s.selector with
    | some list => if s.kind = .pseudo then argumentTest test s list ts parents else simpleTest s ts
    | none => simpleTest s ts

def splitAtElement (ss : List Simple) : Option (List Simple × Simple × List Simple) :=
  match ss.span (!·.isPseudoElement) with
  | (before, e :: after) => some (before, e, after)
  | (_, []) => none

/-- Whether a compound matches whatever another does. A pseudo element moves on to another subject,
so both need the same one, and what stands before and after it is compared separately. -/
def compoundTest (test : PathTest) (c d : Compound) (parents : List Component) : Bool :=
  match splitAtElement c.simples, splitAtElement d.simples with
  | some (before, e, after), some (before', e', after') =>
    e.isSuperselectorOf e' && simplesTest test before before' parents &&
      simplesTest test after after' parents
  | none, none => simplesTest test c.simples d.simples parents
  | _, _ => false

/-- The rest of a path after its first compound that passes a test, which is also given the path
before that compound. Something must be left. -/
def restAfter? (test : Compound → List Component → Bool) (before : List Component) :
    List Component → Option (List Component)
  | [] => none
  | c :: rest =>
    if rest.isEmpty then none
    else if c.compound?.any (test · before) then some rest
    else restAfter? test (before ++ [c]) rest

def combinatorTest (k k' : Combinator) : Bool :=
  if k = .general then k' != .child else k == k'

def startsWithCompound (cs : List Component) : Bool := cs.head?.any Component.isCompound

def mayHold (n : Nat) (ds : List Component) : Bool := n < ds.length && startsWithCompound ds

/-- Walks along two paths. Each compound of the first takes the first compound of the second that
it matches, and the last one takes the last. -/
def walk (test : PathTest) : List Component → List Component → Bool
  | [], _ => false
  | .combinator _ :: _, _ => false
  | [.compound c], ds =>
    mayHold 0 ds &&
      (ds.getLast?.bind Component.compound?).any fun d => compoundTest test c d ds.dropLast
  | .compound c :: .combinator k :: rest, ds =>
    mayHold (rest.length + 1) ds &&
      match restAfter? (compoundTest test c) [] ds with
      | some (.combinator k' :: ds') =>
        combinatorTest k k' && !(rest.length == 1 && 3 < ds.length) && walk test rest ds'
      | _ => false
  | .compound c :: .compound c' :: rest, ds =>
    mayHold (rest.length + 1) ds &&
      match restAfter? (compoundTest test c) [] ds with
      | some (.combinator k' :: ds') => k' == .child && walk test (.compound c' :: rest) ds'
      | some ds' => walk test (.compound c' :: rest) ds'
      | none => false

/-- One layer of the check. A path that ends with a combinator is above and below nothing. -/
def layer (test : PathTest) : PathTest := fun cs ds =>
  !endsWithCombinator cs && !endsWithCombinator ds && walk test cs ds

/-- The check for selectors nested to a given depth in all. -/
def pathTest : Nat → PathTest
  | 0 => layer fun _ _ => false
  | n + 1 => layer (pathTest n)

end Superselector

open Superselector

def isSuperpath (cs ds : List Component) : Bool :=
  pathTest (nestingOfPath cs + nestingOfPath ds) cs ds

/-- Whether paths that lead to the same element below them are above one another. -/
def isParentSuperpath (cs ds : List Component) : Bool :=
  let base : Component := .compound (.ofSimples [{ kind := .placeholder, name := "<temp>" }])
  startsWithCompound cs && startsWithCompound ds && cs.length ≤ ds.length &&
    isSuperpath (cs ++ [base]) (ds ++ [base])

def Compound.isSuperselectorOf (c d : Compound) : Bool :=
  compoundTest (pathTest (nesting.ofCompound c + nesting.ofCompound d)) c d []

def Complex.isSuperselectorOf (c d : Complex) : Bool := isSuperpath c.components d.components

def isSuperlist (l l' : SelectorList) : Bool :=
  l'.all fun c' => l.any fun c => c.isSuperselectorOf c'

def isSuperselectorIfPresent (c d : Option Compound) : Bool :=
  match c, d with
  | some c, some d => c.isSuperselectorOf d
  | _, _ => false

end SelectorCalculus
