import SelectorCalculus.Text.Folding
/-! Selectors as trees of simple selectors, compounds, paths and lists. Selector arguments are lists
again. -/

namespace SelectorCalculus

inductive Kind where
  | typeName
  | className
  | id
  | attr
  | pseudo
  | placeholder
  deriving DecidableEq, Repr

namespace Kind

def word : Kind → String
  | typeName => "type"
  | className => "class"
  | id => "id"
  | attr => "attribute"
  | pseudo => "pseudo"
  | placeholder => "placeholder"

def all : List Kind := [typeName, className, id, attr, pseudo, placeholder]

def ofWord? (w : String) : Option Kind :=
  all.find? (·.word == w)

def ofCode? : Int → Option Kind
  | .ofNat n => all[n]?
  | .negSucc _ => none

def wordOfCode (code : Int) : String :=
  match ofCode? code with
  | some k => k.word
  | none => "unknown"

end Kind

/-- An explicit relation between neighbouring compounds. Two compounds with nothing between them
stand for ancestor and descendant. -/
inductive Combinator where
  | child
  | general
  | adjacent
  deriving DecidableEq, Repr

namespace Combinator

def text : Combinator → String
  | child => ">"
  | general => "~"
  | adjacent => "+"

def ofText? : String → Option Combinator
  | ">" => some child
  | "~" => some general
  | "+" => some adjacent
  | _ => none

def ofCode? : Int → Option Combinator
  | 1 => some child
  | 2 => some general
  | 3 => some adjacent
  | _ => none

def textOfCode (code : Int) : String :=
  match ofCode? code with
  | some k => k.text
  | none => s!"Combinator({code})"

end Combinator

/-- Everything a simple selector holds besides a selector argument. Fields that do not matter for
the kind are kept as they are. -/
structure Label where
  kind : Kind
  name : String
  /-- Empty when no namespace is asserted, `*` for any namespace. -/
  ns : String := ""
  op : String := ""
  value : String := ""
  modifier : String := ""
  element : Bool := false
  argument : String := ""
  deriving DecidableEq, Repr

/-- A name without the vendor mark in front: `-moz-any` is `any`. -/
def unvendored : List Char → List Char
  | '-' :: c :: rest =>
    if c = '-' then '-' :: c :: rest
    else match rest.dropWhile (· ≠ '-') with
      | [] => '-' :: c :: rest
      | _ :: name => name
  | cs => cs

namespace Label

def normalizedName (l : Label) : String :=
  if l.kind = .pseudo then String.ofList (unvendored (Text.fold l.name).toList) else l.name

def isUniversal (l : Label) : Bool :=
  l.kind == .typeName && l.name == "*"

def anyNamespace (l : Label) : Bool :=
  l.ns == "" || l.ns == "*"

/-- Whether a pseudo selector denotes a part of an element. Four names do so with one colon too. -/
def isPseudoElement (l : Label) : Bool :=
  l.kind == .pseudo && (l.element ||
    ["before", "after", "first-line", "first-letter"].contains l.normalizedName)

def isPseudoClass (l : Label) : Bool :=
  l.kind == .pseudo && !l.isPseudoElement

end Label

mutual

structure Simple extends Label where
  /-- The argument of a pseudo selector when it is a selector list. -/
  selector : Option (List Complex) := none

/-- Simple selectors that hold of one element together. An empty compound constrains nothing. -/
structure Compound where
  simples : List Simple
  /-- Whether the compound was written with a reference to the enclosing rule. -/
  parent : Bool := false
  /-- Whether the compound comes from an extension. -/
  extended : Bool := false

inductive Component where
  | compound (c : Compound)
  | combinator (k : Combinator)

/-- A path of compounds and combinators, with a mark for a line break before it. A place in a list
may also be left absent; it then has no components and equals no path. -/
inductive Complex where
  | path (components : List Component) (lineBreak : Bool)
  | absent

end

abbrev SelectorList := List Complex

namespace Simple

def universal : Simple := { kind := .typeName, name := "*" }

def ofType (ns name : String) : Simple := { kind := .typeName, name, ns }

def withSelector (s : Simple) (l : SelectorList) : Simple :=
  { s with selector := some l }

def hasSelector (s : Simple) : Bool :=
  s.kind == .pseudo && s.selector.isSome

theorem hasSelector_iff {s : Simple} :
    s.hasSelector ↔ s.kind = .pseudo ∧ ∃ l, s.selector = some l := by
  simp [hasSelector, Option.isSome_iff_exists]

end Simple

namespace Compound

def ofSimples (simples : List Simple) : Compound := { simples }

def isEmpty (c : Compound) : Bool := c.simples.isEmpty

end Compound

namespace Component

def isCompound : Component → Bool
  | .compound _ => true
  | .combinator _ => false

def isCombinator (c : Component) : Bool := !c.isCompound

def compound? : Component → Option Compound
  | .compound c => some c
  | .combinator _ => none

def combinator? : Component → Option Combinator
  | .compound _ => none
  | .combinator k => some k

end Component

def compoundsOf (components : List Component) : List Compound :=
  components.filterMap Component.compound?

def endsWithCombinator (components : List Component) : Bool :=
  components.getLast?.any Component.isCombinator

namespace Complex

def ofComponents (components : List Component) : Complex := .path components false

def components : Complex → List Component
  | .path cs _ => cs
  | .absent => []

def lineBreak : Complex → Bool
  | .path _ b => b
  | .absent => false

def compounds (c : Complex) : List Compound := compoundsOf c.components

/-- The last compound, unless the path is empty or ends with a combinator. -/
def base? (c : Complex) : Option Compound :=
  c.components.getLast?.bind Component.compound?

def single? (c : Complex) : Option Compound :=
  match c.components with
  | [.compound d] => some d
  | _ => none

def isImpossible (c : Complex) : Bool := c.compounds.isEmpty

end Complex

end SelectorCalculus
