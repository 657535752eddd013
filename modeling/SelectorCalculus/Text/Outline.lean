import SelectorCalculus.Text.Quoted
/-! Outlines: trees written one node a line, each level indented by two spaces. -/

namespace SelectorCalculus.Text.Outline

def indent (level : Int) : String :=
  String.join (List.replicate level.toNat "  ")

def line (level : Int) (content : String) : String :=
  indent level ++ content ++ "\n"

/-- A label and a quoted value, or nothing after the colon for an empty value. -/
def textBlock (level : Int) (label value : String) : String :=
  line level (label ++ ": " ++ (if value = "" then "" else quoted value))

def flags (level : Int) (label : String) (set order : List String) : String :=
  let shown := order.filter set.contains
  line level (label ++ (if shown.isEmpty then "" else " [" ++ " ".intercalate shown ++ "]"))

end SelectorCalculus.Text.Outline
