/-! Modes of extension: whether a selector stays next to those generated from it. -/

namespace SelectorCalculus

inductive Mode where
  | normal
  /-- The selector is kept only when no extension applied. -/
  | replace
  deriving DecidableEq, Repr

namespace Mode

def text : Mode → String
  | normal => "normal"
  | replace => "replace"

def ofText? : String → Option Mode
  | "normal" => some normal
  | "replace" => some replace
  | _ => none

def invalidMessage (text : String) : String := text ++ " is not a valid ExtendMode"

def code : Mode → Int
  | normal => 0
  | replace => 1

def ofCode? : Int → Option Mode
  | 0 => some normal
  | 1 => some replace
  | _ => none

def textOfCode (n : Int) : String :=
  match ofCode? n with
  | some m => m.text
  | none => s!"ExtendMode({n})"

def keepsGiven (m : Mode) : Bool := m == normal

end Mode

end SelectorCalculus
