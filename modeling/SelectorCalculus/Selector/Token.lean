import SelectorCalculus.Selector.Basic
import SelectorCalculus.Text.Blank
/-! Tokens of written selectors, each with the byte at which it starts. -/

namespace SelectorCalculus

inductive Reason where
  | expectedIdentifier
  | expectedSimple
  | expectedBracket
  | expectedParenthesis
  | unterminatedString
  | unterminatedArgument
  | emptySelector
  | unexpectedInput
  deriving DecidableEq, Repr

def Reason.message : Reason → String
  | expectedIdentifier => "expected identifier"
  | expectedSimple => "expected simple selector"
  | expectedBracket => "expected ]"
  | expectedParenthesis => "expected )"
  | unterminatedString => "unterminated string"
  | unterminatedArgument => "unterminated argument"
  | emptySelector => "empty selector"
  | unexpectedInput => "unexpected input"

inductive Token where
  | space
  | combinator (k : Combinator)
  | comma
  | close
  | parent
  | simple (s : Simple)
  /-- A pseudo selector up to the point where its argument list begins. -/
  | opening (l : Label)

inductive Ending where
  /-- The end of the text, or the null character, which is taken for it. -/
  | finish (position : Nat) (atEnd : Bool)
  | broken (reason : Reason) (position : Nat)
  /-- The operator of an attribute test runs to the end of the text. -/
  | runaway

namespace Token

inductive Stop where
  | broken (reason : Reason) (rest : List Char)
  | runaway

def isSpace (c : Char) : Bool := c == ' ' || c == '\n' || c == '\t'

/-- A letter, a digit, a hyphen, an underscore or any character above ASCII. -/
def isNameChar (c : Char) : Bool :=
  c.isAlphanum || c == '-' || c == '_' || 128 ≤ c.toNat

def skipSpace (cs : List Char) : List Char := cs.dropWhile isSpace

def readName (cs : List Char) : Except Stop (String × List Char) :=
  match cs.span isNameChar with
  | ([], _) => .error (.broken .expectedIdentifier cs)
  | (name, rest) => .ok (String.ofList name, rest)

def readNameOrStar : List Char → Except Stop (String × List Char)
  | '*' :: rest => .ok ("*", rest)
  | '|' :: rest => .ok ("", '|' :: rest)
  | cs => readName cs

def readType (cs : List Char) : Except Stop (Token × List Char) := do
  let (first, rest) ← readNameOrStar cs
  match rest with
  | '|' :: rest =>
    let (name, rest) ← readNameOrStar rest
    return (.simple (.ofType first name), rest)
  | _ => return (.simple (.ofType "" first), rest)

def readNamed (kind : Kind) (cs : List Char) : Except Stop (Token × List Char) := do
  let (name, rest) ← readName cs
  return (.simple { kind, name }, rest)

/-- The name of an attribute and its namespace. A bar before an equals sign belongs to the
operator. -/
def readAttributeName (cs : List Char) : Except Stop (String × String × List Char) := do
  let (first, rest) ← readName cs
  match rest with
  | '|' :: c :: more =>
    if c = '=' then return ("", first, rest)
    else
      let (name, rest) ← readName (c :: more)
      return (first, name, rest)
  | _ => return ("", first, rest)

def readString (quote : Char) (cs : List Char) : Except Stop (String × List Char) :=
  match cs.span (· ≠ quote) with
  | (_, []) => .error (.broken .unterminatedString cs)
  | (value, _ :: rest) => .ok (String.ofList value, rest)

def readValue : List Char → Except Stop (String × List Char)
  | c :: rest => if c = '"' ∨ c = Char.ofNat 39 then readString c rest else readName (c :: rest)
  | [] => readName []

def readModifier (cs : List Char) : Except Stop (String × List Char) :=
  match cs with
  | c :: _ =>
    let rest := skipSpace cs
    if isSpace c ∧ rest.head? ≠ some ']' then do
      let (modifier, rest) ← readName rest
      return (modifier, skipSpace rest)
    else return ("", rest)
  | [] => return ("", [])

def closeBracket (l : Label) : List Char → Except Stop (Token × List Char)
  | ']' :: rest => .ok (.simple { l with }, rest)
  | cs => .error (.broken .expectedBracket cs)

/-- An attribute test after the opening bracket. The operator is all that stands before the equals
sign, and the sign. -/
def readAttribute (cs : List Char) : Except Stop (Token × List Char) := do
  let (ns, name, rest) ← readAttributeName (skipSpace cs)
  match skipSpace rest with
  | ']' :: rest => return (.simple { kind := .attr, name, ns }, rest)
  | rest =>
    match rest.span (· ≠ '=') with
    | (_, []) => .error .runaway
    | (op, sign :: rest) =>
      let (value, rest) ← readValue (skipSpace rest)
      let (modifier, rest) ← readModifier rest
      closeBracket
        { kind := .attr, name, ns, op := String.ofList (op ++ [sign]), value, modifier } rest

/-- A character as it is compared with the known names of pseudo selectors. -/
def lowerChar (c : Char) : Char := if c = 'İ' then 'i' else c.toLower

def listPseudos : List String :=
  ["not", "is", "matches", "any", "where", "has", "host", "host-context", "slotted", "current"]

def formulaPseudos : List String := ["nth-child", "nth-last-child"]

/-- Splits a text before the first closing parenthesis or the first ` of `. -/
def splitFormula : List Char → List Char × List Char
  | [] => ([], [])
  | c :: cs =>
    if c = ')' ∨ [' ', 'o', 'f', ' '].isPrefixOf (c :: cs) then ([], c :: cs)
    else
      let (formula, rest) := splitFormula cs
      (c :: formula, rest)

def readArgument (l : Label) (cs : List Char) : Except Stop (Token × List Char) :=
  let name := String.ofList (l.name.toList.map lowerChar)
  if listPseudos.contains name then .ok (.opening l, cs)
  else if formulaPseudos.contains name then
    let (formula, rest) := splitFormula cs
    let l := { l with argument := String.ofList (Text.trim formula) }
    match rest with
    | ')' :: rest => .ok (.simple { l with }, rest)
    | [] => .error (.broken .expectedParenthesis [])
    | _ => .ok (.opening l, rest.drop 4)
  else match cs.span (· ≠ ')') with
    | (_, []) => .error (.broken .unterminatedArgument cs)
    | (argument, _ :: rest) =>
      .ok (.simple { l with argument := String.ofList argument }, rest)

def readPseudo (cs : List Char) : Except Stop (Token × List Char) := do
  let (element, cs) := match cs with
    | ':' :: rest => (true, rest)
    | _ => (false, cs)
  let (name, rest) ← readName cs
  let l : Label := { kind := .pseudo, name, element }
  match rest with
  | '(' :: rest => readArgument l rest
  | _ => return (.simple { l with }, rest)

def read (c : Char) (cs : List Char) : Except Stop (Token × List Char) :=
  match c with
  | '>' => .ok (.combinator .child, cs)
  | '~' => .ok (.combinator .general, cs)
  | '+' => .ok (.combinator .adjacent, cs)
  | ',' => .ok (.comma, cs)
  | ')' => .ok (.close, cs)
  | '&' => .ok (.parent, cs)
  | '.' => readNamed .className cs
  | '#' => readNamed .id cs
  | '%' => readNamed .placeholder cs
  | '[' => readAttribute cs
  | ':' => readPseudo cs
  | _ =>
    if isSpace c then .ok (.space, cs)
    else if c = '*' ∨ c = '|' ∨ isNameChar c then readType (c :: cs)
    else .error (.broken .expectedSimple (c :: cs))

def byteLength (cs : List Char) : Nat := cs.foldr (fun c n => c.utf8Size + n) 0

/-- The tokens of a text that starts at a byte position and whose first `skip` characters belong
to an earlier token. -/
def scan (position skip : Nat) : List Char → List (Nat × Token) × Ending
  | [] => ([], .finish position true)
  | c :: cs =>
    match skip with
    | skip + 1 => scan (position + c.utf8Size) skip cs
    | 0 =>
      if c.toNat = 0 then ([], .finish position false)
      else match read c cs with
        | .ok (token, rest) =>
          let (tokens, ending) := scan (position + c.utf8Size) (cs.length - rest.length) cs
          ((position, token) :: tokens, ending)
        | .error (.broken reason rest) =>
          ([], .broken reason (position + byteLength (c :: cs) - byteLength rest))
        | .error .runaway => ([], .runaway)

end Token

end SelectorCalculus
