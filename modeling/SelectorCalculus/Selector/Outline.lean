import SelectorCalculus.Selector.Render
import SelectorCalculus.Text.Outline
/-! The outline of a selector: its tree with every mark and field that matters, for inspection. -/

namespace SelectorCalculus

open Text

def marks (named : List (String × Bool)) : List String :=
  (named.filter (·.2)).map (·.1)

def fieldsLine (kind : Kind) (fields : List (String × String)) : String :=
  " ".intercalate (kind.word :: fields.map fun f => f.1 ++ "=" ++ quoted f.2)

def outlineOfList (level : Int) (parts : List (Int → String)) : String :=
  Outline.line level s!"List ({parts.length})" ++ String.join (parts.map (· (level + 1)))

def optionalBlock (level : Int) (label value : String) : String :=
  if value = "" then "" else Outline.textBlock level label value

/-- Every selector as its outline at a level. -/
def outlining : Interpretation (Int → String) (Int → String) (Int → String) where
  simple s parts level :=
    match s.kind with
    | .typeName =>
      Outline.line level (fieldsLine s.kind [("name", s.name), ("namespace", s.ns)])
    | .attr =>
      Outline.line level
          (fieldsLine s.kind [("name", s.name), ("namespace", s.ns), ("op", s.op)]) ++
        (if s.op = "" then "" else Outline.textBlock (level + 1) "value" s.value) ++
        optionalBlock (level + 1) "modifier" s.modifier
    | .pseudo =>
      Outline.flags level (s.kind.word ++ " name=" ++ s.name)
          (marks [("element", s.isPseudoElement)]) ["element"] ++
        optionalBlock (level + 1) "argument" s.argument ++
        (if s.selector.isSome then outlineOfList (level + 1) parts else "")
    | _ => Outline.line level (fieldsLine s.kind [("name", s.name)])
  component
    | .compound c, parts => fun level =>
      Outline.flags level "Compound" (marks [("parent", c.parent), ("extended", c.extended)])
        ["parent", "extended"] ++ String.join (parts.map (· (level + 1)))
    | .combinator k, _ => fun level => Outline.line level ("Combinator " ++ quoted k.text)
  complex c parts level :=
    Outline.flags level ("Complex " ++ c.render) (marks [("linebreak", c.lineBreak)])
      ["linebreak"] ++ String.join (parts.map (· (level + 1)))

def outline : Option SelectorList → String
  | none => "<nil List>"
  | some l => outlineOfList 0 (outlining.ofList l)

end SelectorCalculus
