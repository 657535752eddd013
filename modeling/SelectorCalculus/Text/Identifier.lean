/-! Identifiers of style sheets: which texts can be written without quotes. -/

namespace SelectorCalculus.Text.Identifier

def isStart (c : Char) : Bool :=
  c.isAlpha || c == '_' || 128 ≤ c.toNat

def isBody (c : Char) : Bool :=
  isStart c || c.isDigit || c == '-'

def isHexDigit (c : Char) : Bool :=
  c.isDigit || ('a' ≤ c && c ≤ 'f') || ('A' ≤ c && c ≤ 'F')

def isLineEnd (c : Char) : Bool :=
  c == '\n' || c == '\r' || c == '\x0c'

def isEscapeEnd (c : Char) : Bool :=
  c == ' ' || c == '\t' || isLineEnd c

/-- How many of the characters after a backslash belong to the escape, if it is one: up to six
hexadecimal digits and one blank, or any one character but a line end. -/
def escapeLength? : List Char → Option Nat
  | [] => none
  | c :: rest =>
    if isHexDigit c then
      let digits := 1 + ((rest.take 5).takeWhile isHexDigit).length
      match (rest.drop (digits - 1)).head? with
      | some b => some (if isEscapeEnd b then digits + 1 else digits)
      | none => some digits
    else if isLineEnd c then none
    else some 1

/-- Whether the characters after the first `skip` are body characters and escapes to the end. -/
def isTail : Nat → List Char → Bool
  | 0, [] => true
  | _ + 1, [] => false
  | skip + 1, _ :: rest => isTail skip rest
  | 0, c :: rest =>
    if c = '\\' then
      match escapeLength? rest with
      | some n => isTail n rest
      | none => false
    else isBody c && isTail 0 rest

def startsAndEnds : List Char → Bool
  | [] => false
  | c :: rest =>
    if c = '\\' then
      match escapeLength? rest with
      | some n => isTail n rest
      | none => false
    else isStart c && isTail 0 rest

/-- Whether a text is one identifier from end to end. Two leading hyphens need no start. -/
def isIdentifier (s : String) : Bool :=
  match s.toList with
  | '-' :: '-' :: rest => isTail 0 rest
  | '-' :: rest => startsAndEnds rest
  | cs => startsAndEnds cs

end SelectorCalculus.Text.Identifier
