/-! Text of a document, with unified line breaks and the line and column of every character. -/

namespace SelectorCalculus.Yaml

structure Placed where
  char : Char
  line : Nat
  column : Nat

abbrev Source := List Placed

def isAllowed (c : Char) : Bool :=
  let n := c.toNat
  n == 0x09 || n == 0x0A || n == 0x0D || (0x20 ≤ n && n ≤ 0x7E) || n == 0x85 ||
    (0xA0 ≤ n && n ≤ 0xFFFD) || 0x10000 ≤ n

/-- One line feed for every way to break a line, except the separators of lines and paragraphs,
which stand for themselves. -/
def unifyBreaks : List Char → List Char
  | '\r' :: '\n' :: rest => '\n' :: unifyBreaks rest
  | c :: rest => (if c.toNat = 0x0D ∨ c.toNat = 0x85 then '\n' else c) :: unifyBreaks rest
  | [] => []

def isBreak (c : Char) : Bool := c == '\n' || c.toNat == 0x2028 || c.toNat == 0x2029

def isBlank (c : Char) : Bool := c == ' ' || c == '\t'

def place (line column : Nat) : List Char → Source
  | [] => []
  | c :: rest =>
    ⟨c, line, column⟩ ::
      if isBreak c then place (line + 1) 0 rest else place line (column + 1) rest

/-- The characters of a document, each in its place and without the mark of byte order in front, or
nothing if one of them may not occur. -/
def Source.ofChars? (cs : List Char) : Option Source :=
  let cs := match cs with
    | c :: rest => if c.toNat = 0xFEFF then rest else c :: rest
    | [] => []
  if cs.all isAllowed then some (place 0 0 (unifyBreaks cs)) else none

def Source.atGap : Source → Bool
  | [] => true
  | p :: _ => isBlank p.char || isBreak p.char

/-- The character of which a mark between documents is made, if such a mark comes next: three
hyphens or three dots at the start of a line. -/
def Source.documentMark? : Source → Option Char
  | a :: b :: c :: rest =>
    if a.column == 0 && (a.char == '-' || a.char == '.') && b.char == a.char && c.char == a.char &&
        Source.atGap rest then some a.char
    else none
  | _ => none

end SelectorCalculus.Yaml
