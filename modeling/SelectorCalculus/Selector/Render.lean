import SelectorCalculus.Selector.Interpretation
import SelectorCalculus.Text.Identifier
/-! The text of selectors as a style sheet writes them. -/

namespace SelectorCalculus

def namespaced (ns name : String) : String :=
  if ns = "" then name else ns ++ "|" ++ name

def escapeValueChar (c : Char) : List Char :=
  if c = '"' ∨ c = '\\' then ['\\', c]
  else if c = '\n' then ['\\', 'a', ' ']
  else [c]

/-- An attribute value, bare if it is an identifier and otherwise between double quotes. -/
def attributeValue (value : String) : String :=
  if Text.Identifier.isIdentifier value then value
  else String.ofList ('"' :: value.toList.flatMap escapeValueChar ++ ['"'])

namespace Label

/-- The part of a pseudo selector between parentheses, if there is one: the plain argument and
the text of the selector argument. -/
def parenthesized (l : Label) (selector : Option String) : String :=
  match selector with
  | none => if l.argument = "" then "" else "(" ++ l.argument ++ ")"
  | some text => "(" ++ l.argument ++ (if l.argument = "" then "" else " of ") ++ text ++ ")"

def colons (l : Label) : String :=
  if l.element then "::" else ":"

def render (l : Label) (selector : Option String) : String :=
  match l.kind with
  | .typeName => namespaced l.ns l.name
  | .className => "." ++ l.name
  | .id => "#" ++ l.name
  | .placeholder => "%" ++ l.name
  | .attr =>
    let comparison :=
      if l.op = "" then ""
      else l.op ++ attributeValue l.value ++ (if l.modifier = "" then "" else " " ++ l.modifier)
    "[" ++ namespaced l.ns l.name ++ comparison ++ "]"
  | .pseudo => l.colons ++ l.name ++ l.parenthesized selector

end Label

def rendering : Interpretation String String String where
  simple s parts := s.toLabel.render (s.selector.map fun _ => ", ".intercalate parts)
  component
    | .compound _, parts => String.join parts
    | .combinator k, _ => k.text
  complex _ parts := " ".intercalate parts

def Simple.render (s : Simple) : String := rendering.ofSimple s

def Compound.render (c : Compound) : String := rendering.ofCompound c

def Component.render (c : Component) : String := rendering.ofComponent c

def Complex.render (c : Complex) : String := rendering.ofComplex c

def renderList (l : SelectorList) : String :=
  ", ".intercalate (rendering.ofList l)

end SelectorCalculus
