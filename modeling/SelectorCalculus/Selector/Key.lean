import SelectorCalculus.Selector.Render
/-! Keys: texts that equal selectors share. Where order does not matter, parts are sorted and not
repeated. -/

namespace SelectorCalculus

/-- The texts in increasing order, each once. -/
def distinct (texts : List String) : List String := texts.eraseDups.mergeSort

def joinDistinct (separator : String) (texts : List String) : String :=
  separator.intercalate (distinct texts)

def Label.key (l : Label) (selector : Option String) : String :=
  match l.kind with
  | .pseudo => l.colons ++ Text.fold l.name ++ l.parenthesized selector
  | _ => l.render none

/-- Every selector as its key. -/
def keys : Interpretation String String String where
  simple s parts := s.toLabel.key (s.selector.map fun _ => joinDistinct ", " parts)
  component
    | .compound _, parts => joinDistinct "" parts
    | .combinator k, _ => k.text
  complex _ parts := " ".intercalate parts

def Simple.key (s : Simple) : String := keys.ofSimple s

end SelectorCalculus
