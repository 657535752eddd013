import SelectorCalculus.Extension.Mode
import SelectorCalculus.Extension.CompoundIndex
import SelectorCalculus.Extension.Trim
import SelectorCalculus.Selector.Sense
import SelectorCalculus.Weave.Basic
/-! Applying extensions to a selector: options are found, woven together and trimmed, and extenders
are extended in turn. -/

namespace SelectorCalculus

structure Setting where
  mode : Mode
  trimLimit : Int
  checkMedia : Bool
  extensions : CompoundIndex Extension
  sources : Sources
  media : List String

namespace Apply

/-- The extensions of one extender that find their targets in a compound. -/
structure Group where
  origin : Nat
  extender : Complex
  members : List Extension

def addToGroup (x : Extension) : List Group → List Group
  | [] => [⟨x.origin, x.extender, [x]⟩]
  | g :: rest =>
    if g.origin = x.origin then { g with members := g.members ++ [x] } :: rest
    else g :: addToGroup x rest

def groups (xs : List Extension) : List Group := xs.foldl (fun gs x => addToGroup x gs) []

def addDistinct (ss : List Simple) (s : Simple) : List Simple :=
  if containsSimple ss s then ss else ss ++ [s]

namespace Group

def targets (g : Group) : List Simple :=
  (g.members.flatMap fun x => x.target.simples).foldl addDistinct []

/-- A text that tells sets of targets apart. -/
def key (g : Group) : String := "\x00".intercalate (g.targets.map Simple.key).mergeSort

/-- The first extension that is not reachable from the media queries of the rule. -/
def outsider? (g : Group) (media : List String) : Option Extension :=
  g.members.find? fun x => !x.media.isSublist media

def remainder (g : Group) (c : Compound) : List Simple :=
  let targets := g.targets
  c.simples.filter fun s => !containsSimple targets s

/-- The path that a compound with the targets in it turns into. -/
def path? (g : Group) (c : Compound) (parent : Bool) : Option (List Component) := do
  let base ← g.extender.base?
  let unified ← (Compound.ofSimples (g.remainder c)).unify? base
  return g.extender.components.dropLast ++ [.compound { unified with parent, extended := true }]

end Group

def addOption (options : List (List Component)) (path : List Component) :
    List (List Component) :=
  if options.any (pointwise (equality.ofComponents path)) then options else options ++ [path]

def addComplex (l : SelectorList) (c : Complex) : SelectorList :=
  if containsComplex l c then l else l ++ [c]

def collectAlternatives :
    List (Traced (List Complex × Bool)) → SelectorList → Bool → Traced (SelectorList × Bool)
  | [], found, modified => return (found, modified)
  | part :: rest, found, modified => do
    let (extended, changed) ← part
    collectAlternatives rest (extended.foldl addComplex found) (modified || changed)

/-- The only simple selector of a complex selector and its selector argument, if there is one. -/
def solePseudo? (c : Complex) : Option (Simple × SelectorList) :=
  match c.single? with
  | some ⟨[s], _, _⟩ => if s.kind = .pseudo then s.selector.map (s, ·) else none
  | _ => none

/-- The alternatives that an extended one contributes to a pseudo selector. One of the same name
that matches any of its alternatives is flattened. A negation of compounds takes compounds only. -/
def contribution (name : String) (compoundsOnly : Bool) (c : Complex) : SelectorList :=
  match solePseudo? c with
  | some (s, list) =>
    if s.normalizedName = name ∧ Sense.ofName name = .anyOf then list else plain
  | none => plain
where
  plain : SelectorList := if compoundsOnly && c.single?.isNone then [] else [c]

/-- The simple selectors that a pseudo selector with an extended argument turns into, if any. The
negation of one alternative becomes a negation of each result. -/
def replacement? (s : Simple) (argument extended : SelectorList) : Option (List Simple) :=
  let name := s.normalizedName
  let isNegation := Sense.ofName name = .negation
  let compoundsOnly := isNegation && argument.all fun c => c.single?.isSome
  match extended.flatMap (contribution name compoundsOnly) with
  | [] => none
  | alternatives =>
    if isNegation && argument.length == 1 then
      some (alternatives.map fun c => s.withSelector [c])
    else some [s.withSelector alternatives]

def collectSimples :
    List (Simple × Traced (Option (List Simple))) → List Simple → Bool →
      Traced (List Simple × Bool)
  | [], found, modified => return (found, modified)
  | (s, part) :: rest, found, modified => do
    match ← part with
    | none => collectSimples rest (found ++ [s]) modified
    | some replaced => collectSimples rest (replaced.foldl addDistinct found) true

/-- The choices for the components of a path, and whether any differs from the component itself. -/
def collectChoices :
    List (Component × Traced (Option (List (List Component)))) →
      Traced (List (List (List Component)) × Bool)
  | [] => return ([], false)
  | (c, part) :: rest => do
    let options ← part
    let (choices, modified) ← collectChoices rest
    return (options.getD [[c]] :: choices, options.isSome || modified)

def weaveChoices (choices : List (List (List Component))) (lineBreak : Bool) : List Complex :=
  ((picks choices).flatMap weave).foldl
    (fun found path => addComplex found (.path path lineBreak)) []

variable (setting : Setting) (seen : List String)
  (again : String → Complex → Traced (List Complex))

/-- The paths that one group of extensions turns a compound into. `again` extends the extender in
turn once the targets of the group are marked as applied. -/
def applyGroup (c : Compound) (parent : Bool) (options : List (List Component)) (g : Group) :
    Traced (List (List Component)) := do
  if seen.contains g.key then return options
  let outsider := if setting.checkMedia then g.outsider? setting.media else none
  match outsider with
  | some x =>
    Traced.report (.crossesMedia x setting.media)
    return options
  | none =>
    Traced.report (.matched (g.members.map Extension.serial))
    match g.path? c parent with
    | none =>
      if g.extender.base?.isSome then Traced.report (.doesNotUnify c g.extender)
      return options
    | some path =>
      let extended ← again g.key (.ofComponents path)
      return (extended.map Complex.components).foldl addOption options

def extendCompound (c : Compound) (parts : List (Traced (Option (List Simple)))) :
    Traced (Option (List (List Component))) := do
  let (simples, modified) ← collectSimples (c.simples.zip parts) [] false
  let current := { c with simples }
  let found := groups (setting.extensions.get current)
  let options ← found.foldlM (applyGroup setting seen again current c.parent) []
  if options.isEmpty && !modified then return none
  if modified || setting.mode.keepsGiven then
    return some ([.compound current] :: options)
  return some options

def extending : Interpretation (Traced (Option (List Simple)))
    (Traced (Option (List (List Component)))) (Traced (List Complex × Bool)) where
  simple s parts :=
    match s.selector with
    | none => return none
    | some argument =>
      if s.kind = .pseudo then do
        let (extended, modified) ← collectAlternatives parts [] false
        return if modified then replacement? s argument extended else none
      else return none
  component
    | .compound c, parts => extendCompound setting seen again c parts
    | .combinator _, _ => return none
  complex c parts := do
    let (choices, modified) ← collectChoices (c.components.zip parts)
    if !modified then return ([c], false)
    let woven := weaveChoices choices c.lineBreak
    return (← trim setting.sources setting.trimLimit (equality.ofComplex c) woven, true)

/-- Extends a complex selector. On the way to an extender a set of targets is applied at most once,
so `bound` need not exceed the number of sets of extensions. -/
def extendComplex : Nat → List String → Complex → Traced (List Complex × Bool)
  | 0, _, c => return ([c], false)
  | bound + 1, seen, c =>
    (extending setting seen fun key path => do
      return (← extendComplex bound (key :: seen) path).1).ofComplex c

end Apply

/-- Extends a list. The second part says whether anything changed. -/
def extendList (setting : Setting) (l : SelectorList) : Traced (SelectorList × Bool) := do
  let bound := Nat.pow 2 setting.extensions.size + 1
  let parts := l.map (Apply.extendComplex setting bound [])
  let (extended, modified) ← Apply.collectAlternatives parts [] false
  return (if modified then extended else l, modified)

end SelectorCalculus
