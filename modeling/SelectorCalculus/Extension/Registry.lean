import SelectorCalculus.Extension.Apply
import SelectorCalculus.Selector.Pruning
/-! The registry of extensions. Each operation returns the new registry and the events on the
way. -/

namespace SelectorCalculus

structure ExtendOptions where
  mode : Mode := .normal
  /-- How many selectors generated from one are still trimmed. -/
  trimLimit : Int := 100
  /-- Whether an extension reaches only rules inside its media queries. -/
  checkMedia : Bool := true
  stripPlaceholders : Bool := true
  deriving DecidableEq, Repr

structure Rule where
  selector : SelectorList
  media : List String

structure Registry where
  options : ExtendOptions := {}
  extensions : CompoundIndex Extension := {}
  /-- All registered extensions, in order. -/
  registered : List Extension := []
  sources : Sources := {}
  matched : List Nat := []
  /-- From here on no number is the origin of an extension. -/
  origins : Nat := 0

namespace Registry

def register (reg : Registry) (target : Compound) (extender : Complex) (origin : Nat)
    (optional : Bool) (media : List String) : Registry × Event :=
  let x : Extension :=
    { extender, target, optional, media, serial := reg.extensions.size, origin }
  match reg.extensions.insert? target x with
  | some extensions =>
    ({ reg with extensions, registered := reg.registered ++ [x] }, .registered x)
  | none => (reg, .refused .emptyKey)

def registerAll (target : Compound) (optional : Bool) (media : List String) :
    List (Complex × Nat) → Registry → Registry × List Event
  | [], reg => (reg, [])
  | (extender, origin) :: rest, reg =>
    let (reg, event) := reg.register target extender origin optional media
    let (reg, events) := registerAll target optional media rest reg
    (reg, event :: events)

/-- Registers numbered extenders for several targets, each of which must be one compound. -/
def registerTargets (extenders : List (Complex × Nat)) (optional : Bool) (media : List String) :
    List Complex → Registry → Registry × List Event
  | [], reg => (reg, [])
  | target :: rest, reg =>
    let (reg, events) := match target.single? with
      | some c => registerAll c optional media extenders reg
      | none => (reg, [.refused (.complexTarget target)])
    let (reg, more) := registerTargets extenders optional media rest reg
    (reg, events ++ more)

/-- Registers every numbered extender as an extension of every target. Targets that cannot be
extended are reported and skipped. Extenders with one number are one and the same, also where they
take part in several calls. -/
def addNumbered (reg : Registry) (extenders : List (Complex × Nat)) (target : SelectorList)
    (optional : Bool) (media : List String) : Registry × List Event :=
  registerTargets extenders optional media target { reg with
    sources := reg.sources.addList (extenders.map Prod.fst)
    origins := extenders.foldl (fun n x => max n (x.2 + 1)) reg.origins }

/-- Registers extenders that take part in no other call. -/
def add (reg : Registry) (extender target : SelectorList) (optional : Bool) (media : List String) :
    Registry × List Event :=
  reg.addNumbered (extender.zipIdx reg.origins) target optional media

def setting (reg : Registry) (media : List String) : Setting where
  mode := reg.options.mode
  trimLimit := reg.options.trimLimit
  checkMedia := reg.options.checkMedia
  extensions := reg.extensions
  sources := reg.sources
  media := media

/-- Applies all extensions to the selector of a rule inside the given media queries. -/
def extend (reg : Registry) (l : SelectorList) (media : List String) :
    Registry × SelectorList × List Event :=
  let reg := { reg with sources := reg.sources.addList l }
  let traced := extendList (reg.setting media) l
  let (extended, modified) := traced.value
  let events := traced.events ++ (if modified then [.extended l extended] else [])
  ({ reg with matched := reg.matched ++ events.flatMap Event.serials }, extended, events)

/-- The extensions that had to find their targets and have not. -/
def unsatisfied (reg : Registry) : List Extension :=
  reg.registered.filter fun x => !x.optional && !reg.matched.contains x.serial

def unsatisfiedErrors (reg : Registry) : List ExtendError := reg.unsatisfied.map .unsatisfied

def resolveRule (reg : Registry) (r : Rule) : Registry × SelectorList × List Event :=
  let (reg, extended, events) := reg.extend r.selector r.media
  (reg, if reg.options.stripPlaceholders then removePlaceholders extended else extended, events)

def resolveEach : List Rule → Registry → Registry × List SelectorList × List Event
  | [], reg => (reg, [], [])
  | r :: rest, reg =>
    let (reg, selector, events) := reg.resolveRule r
    let (reg, selectors, more) := resolveEach rest reg
    (reg, selector :: selectors, events ++ more)

structure Resolution where
  selectors : List SelectorList
  events : List Event
  errors : List ExtendError

/-- The numbers of the rules that are left, those with a selector that is not empty. -/
def Resolution.kept (r : Resolution) : List Nat :=
  (r.selectors.zipIdx.filter (!·.1.isEmpty)).map Prod.snd

/-- Extends the selectors of all rules. Extensions that had to find their targets and have not are
reported last. -/
def resolve (reg : Registry) (rules : List Rule) : Registry × Resolution :=
  let reg := { reg with sources := rules.foldl (fun s r => s.addList r.selector) reg.sources }
  let (reg, selectors, events) := resolveEach rules reg
  let dropped := selectors.countP List.isEmpty
  let events :=
    if reg.options.stripPlaceholders then events ++ [.placeholdersRemoved rules.length dropped]
    else events
  (reg, { selectors, events, errors := errorsOf events ++ reg.unsatisfiedErrors })

end Registry

/-- Extends a selector as the functions of style sheets do: in a given mode, in no media query and
with all targets single compounds. -/
def extendIn (mode : Mode) (selector extendee extender : SelectorList) :
    Except (List ExtendError) SelectorList :=
  match extendee.find? (·.single?.isNone) with
  | some target => .error [.complexTarget target]
  | none =>
    let options : ExtendOptions := { mode, checkMedia := false, stripPlaceholders := false }
    let (reg, events) := ({ options : Registry }).add extender extendee true []
    let errors := errorsOf events
    if errors.isEmpty then
      let (_, extended, events) := reg.extend selector []
      let errors := errorsOf events
      if errors.isEmpty then .ok extended else .error errors
    else .error errors

end SelectorCalculus
