import SelectorCalculus.Selector.Outline
/-! Extensions and the events that are reported while they are registered and applied. -/

namespace SelectorCalculus

/-- A wish that `extender` also match wherever `target` does. -/
structure Extension where
  extender : Complex
  target : Compound
  /-- Whether it is no error that the target is never found. -/
  optional : Bool
  media : List String
  serial : Nat
  /-- The number of the extender; extensions registered for one extender share it. -/
  origin : Nat

inductive ExtendError where
  | emptyKey
  | complexTarget (target : Complex)
  | unsatisfied (extension : Extension)
  | mediaContext (extension : Extension) (rule : List String)

namespace ExtendError

def message : ExtendError → String
  | emptyKey => "subset map: empty compound selector used as key"
  | complexTarget target =>
    "can't extend " ++ target.render ++ ": complex selectors may not be extended"
  | unsatisfied x =>
    x.extender.render ++ " failed to @extend " ++ x.target.render ++ ": extend target not found"
  | mediaContext x rule =>
    x.extender.render ++ " extending " ++ x.target.render ++ " from @media " ++
      Text.quotedAll x.media ++ " into " ++ Text.quotedAll rule ++
      ": may not extend across media contexts"

def messages (errors : List ExtendError) : String :=
  "; ".intercalate (errors.map message)

end ExtendError

inductive FieldValue where
  | text (s : String)
  | number (n : Int)
  | truth (b : Bool)
  | texts (xs : List String)

structure LogEntry where
  message : String
  fields : List (String × FieldValue)

inductive Event where
  | registered (extension : Extension)
  | refused (error : ExtendError)
  | matched (serials : List Nat)
  | crossesMedia (extension : Extension) (rule : List String)
  | doesNotUnify (selector : Compound) (extender : Complex)
  | tooManyToTrim (count : Nat) (limit : Int)
  | trimmed (selector cover : Complex)
  | extended (before after : SelectorList)
  | placeholdersRemoved (rules dropped : Nat)

namespace Event

def error? : Event → Option ExtendError
  | refused e => some e
  | crossesMedia x rule => some (.mediaContext x rule)
  | _ => none

def serials : Event → List Nat
  | matched serials => serials
  | _ => []

def logEntries : Event → List LogEntry
  | registered x =>
    [⟨"Extension registered",
      [("target", .text x.target.render), ("extender", .text x.extender.render),
        ("optional", .truth x.optional), ("media", .texts x.media)]⟩]
  | refused _ => []
  | matched _ => []
  | crossesMedia x rule =>
    [⟨"Extension crosses media context",
      [("target", .text x.target.render), ("declared", .texts x.media), ("rule", .texts rule)]⟩]
  | doesNotUnify selector extender =>
    [⟨"Extension does not unify",
      [("selector", .text selector.render), ("extender", .text extender.render)]⟩]
  | tooManyToTrim count limit =>
    [⟨"Too many selectors to trim", [("selectors", .number count), ("limit", .number limit)]⟩]
  | trimmed selector cover =>
    [⟨"Selector trimmed", [("selector", .text selector.render), ("by", .text cover.render)]⟩]
  | extended before after =>
    [⟨"Selector extended",
      [("from", .text (renderList before)), ("to", .text (renderList after)),
        ("selectors", .number after.length)]⟩,
      ⟨"Extended selector tree", [("tree", .text (outline (some after)))]⟩]
  | placeholdersRemoved rules dropped =>
    [⟨"Placeholders removed", [("rules", .number rules), ("dropped", .number dropped)]⟩]

end Event

/-- A value and the events on the way to it. -/
structure Traced (α : Type) where
  value : α
  events : List Event := []

namespace Traced

instance : Monad Traced where
  pure x := { value := x }
  bind x f :=
    let y := f x.value
    { value := y.value, events := x.events ++ y.events }

def report (e : Event) : Traced Unit := { value := (), events := [e] }

end Traced

def errorsOf (events : List Event) : List ExtendError := events.filterMap Event.error?

end SelectorCalculus
