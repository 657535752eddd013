import SelectorCalculus.Selector.Equality
/-! Unification of compounds: a compound that matches exactly the elements that two others match. -/

namespace SelectorCalculus

/-- The value that two fields agree on, where an open one gives way; `none` if they do not. -/
def agree? (isOpen : String → Bool) (a b : String) : Option String :=
  if a = b ∨ isOpen b then some a
  else if isOpen a then some b
  else none

namespace Simple

def unifyType? (s t : Simple) : Option Simple := do
  let ns ← agree? (fun x => x == "" || x == "*") s.ns t.ns
  let name ← agree? (· == "*") s.name t.name
  return .ofType ns name

end Simple

def unifyTypes? (s t : Simple) : Option Simple :=
  if s.kind = .typeName ∧ t.kind = .typeName then s.unifyType? t else none

/-- Adds a type selector to simple selectors, at their head. One that constrains nothing is left
out. -/
def addType? (s : Simple) : List Simple → Option (List Simple)
  | [] => some [s]
  | t :: rest =>
    if t.kind = .typeName then (s.unifyType? t).map (· :: rest)
    else if s.isUniversal && s.anyNamespace then some (t :: rest)
    else some (s :: t :: rest)

def insertBeforeElement (s : Simple) (into : List Simple) : List Simple :=
  let (before, after) := into.span (!·.isPseudoElement)
  before ++ s :: after

/-- Whether two simple selectors never match the same element: two identifiers, or two pseudo
elements. -/
def conflicts (s t : Simple) : Bool :=
  (s.kind == .id && t.kind == .id && t.name != s.name) ||
    (s.isPseudoElement && t.isPseudoElement && !t.equal s)

def addSimple? (s : Simple) (into : List Simple) : Option (List Simple) :=
  if s.kind = .typeName then addType? s into
  else match into with
    | [t] => if t.isUniversal then addType? t [s] else add
    | _ => add
where
  add : Option (List Simple) :=
    if into.any (conflicts s) then none
    else if containsSimple into s then some into
    else some (insertBeforeElement s into)

namespace Compound

/-- The compound for elements that match two compounds. The simple selectors of the second are
added to those of the first, whose marks stay. An empty compound changes nothing. -/
def unify? (c d : Compound) : Option Compound :=
  if c.isEmpty then some d
  else if d.isEmpty then some c
  else (d.simples.foldlM (fun ss s => addSimple? s ss) c.simples).map fun ss =>
    { c with simples := ss }

end Compound

def unifySimple? (s : Simple) : Option Compound → Option Compound
  | none => some (.ofSimples [s])
  | some c => (addSimple? s c.simples).map fun ss => { c with simples := ss }

def unifyIfPresent? : Option Compound → Option Compound → Option Compound
  | none, d => d
  | some c, none => if c.isEmpty then none else some c
  | some c, some d => c.unify? d

end SelectorCalculus
