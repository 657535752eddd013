import SelectorCalculus.Selector.Interpretation
/-! Pruning: a visitor decides the fate of every simple selector, and the tree is rebuilt from what
is left. -/

namespace SelectorCalculus

inductive Action where
  | keep
  /-- Take it out of its compound, which becomes universal if nothing is left. -/
  | remove
  /-- Discard the whole complex selector. -/
  | drop
  deriving DecidableEq, Repr

namespace Pruning

inductive Fate where
  | kept (s : Simple)
  | removed
  | dropped

variable {m : Type → Type} [Monad m]

def decideFate (visit : Simple → m Action) (s : Simple) : m Fate := do
  match ← visit s with
  | .keep => return .kept s
  | .remove => return .removed
  | .drop => return .dropped

/-- Runs pruners in order and collects what is left, none of it once something is dropped. -/
def collectSimples : List (m Fate) → m (Option (List Simple))
  | [] => return some []
  | fate :: rest => do
    match ← fate with
    | .kept s => return (← collectSimples rest).map (s :: ·)
    | .removed => collectSimples rest
    | .dropped => return none

def collectComponents : List (m (Option Component)) → m (Option (List Component))
  | [] => return some []
  | component :: rest => do
    match ← component with
    | some c => return (← collectComponents rest).map (c :: ·)
    | none => return none

def collectComplexes : List (m (Option Complex)) → m SelectorList
  | [] => return []
  | complex :: rest => do
    let kept ← complex
    return kept.toList ++ (← collectComplexes rest)

/-- A compound with other simple selectors. If none is left where there were some, it becomes
universal. -/
def rebuild (c : Compound) (simples : List Simple) : Compound :=
  { c with simples := if simples.isEmpty && !c.isEmpty then [.universal] else simples }

/-- Every selector as its pruner. A selector argument without alternatives makes a negation
vanish and drops the complex selector otherwise, before the visitor sees the pseudo selector. -/
def pruner (visit : Simple → m Action) :
    Interpretation (m Fate) (m (Option Component)) (m (Option Complex)) where
  simple s parts :=
    if s.hasSelector then do
      let kept ← collectComplexes parts
      if kept.isEmpty then
        return if s.normalizedName = "not" then .removed else .dropped
      else decideFate visit (s.withSelector kept)
    else decideFate visit s
  component
    | .compound c, parts => do
      return (← collectSimples parts).map fun simples => .compound (rebuild c simples)
    | .combinator k, _ => return some (.combinator k)
  complex c parts :=
    if c.isImpossible then return none
    else do
      return (← collectComponents parts).map fun components => .path components c.lineBreak

def pruneListM (visit : Simple → m Action) (l : SelectorList) : m SelectorList :=
  collectComplexes ((pruner visit).ofList l)

end Pruning

def pruneList (visit : Simple → Action) (l : SelectorList) : SelectorList :=
  Id.run (Pruning.pruneListM (fun s => pure (visit s)) l)

def pruneListRecording (visit : Simple → Action) (l : SelectorList) :
    SelectorList × List Simple :=
  let recording (s : Simple) : StateM (List Simple) Action := do
    modify (· ++ [s])
    return visit s
  (Pruning.pruneListM recording l).run []

/-- Drops every complex selector that refers to a placeholder. -/
def removePlaceholders (l : SelectorList) : SelectorList :=
  pruneList (fun s => if s.kind = .placeholder then .drop else .keep) l

structure PruneRule where
  kind : Option String
  name : Option String
  action : Action

def PruneRule.applies (r : PruneRule) (s : Simple) : Bool :=
  r.kind.all (· == s.kind.word) && r.name.all (· == s.name)

def actionOf (rules : List PruneRule) (s : Simple) : Action :=
  ((rules.find? (·.applies s)).map PruneRule.action).getD .keep

end SelectorCalculus
