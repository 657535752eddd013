import SelectorCalculus.Selector.Basic
/-! What the names of pseudo selectors say about their selector arguments. -/

namespace SelectorCalculus

/-- How a pseudo selector uses its selector argument. -/
inductive Sense where
  | anyOf
  /-- An element related to this one matches some alternative. -/
  | related
  | slotted
  | negation
  | current
  /-- The element has a certain place among those that match. -/
  | counting
  | unknown
  deriving DecidableEq, Repr

def Sense.ofName (name : String) : Sense :=
  if ["is", "matches", "any", "where"].contains name then anyOf
  else if ["has", "host", "host-context"].contains name then related
  else if name = "slotted" then slotted
  else if name = "not" then negation
  else if name = "current" then current
  else if ["nth-child", "nth-last-child"].contains name then counting
  else unknown

def Label.sense (l : Label) : Sense := .ofName l.normalizedName

end SelectorCalculus
