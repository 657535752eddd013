import SelectorCalculus.Yaml.Source
/-! The texts of scalars: plain ones, ones between quotes, and blocks. -/

namespace SelectorCalculus.Yaml

inductive Gap where
  | none
  | blanks (cs : List Char)
  | breaks (first : Option Char) (more : List Char)

namespace Gap

def isNone : Gap → Bool
  | none => true
  | _ => false

def isBreaks : Gap → Bool
  | breaks _ _ => true
  | _ => false

def add (g : Gap) (c : Char) : Gap :=
  match g with
  | breaks first more => if isBreak c then breaks first (more ++ [c]) else g
  | none => if isBreak c then breaks (some c) [] else blanks [c]
  | blanks cs => if isBreak c then breaks (some c) [] else blanks (cs ++ [c])

/-- What a gap leaves in the text: a single line feed becomes a space, and of several the first is
lost. -/
def fold : Gap → List Char
  | none => []
  | blanks cs => cs
  | breaks (some '\n') [] => [' ']
  | breaks (some '\n') more => more
  | breaks first more => first.toList ++ more

end Gap

def endsPlain (inFlow : Bool) (indent : Int) (g : Gap) (p : Placed) (rest : Source) : Bool :=
  (g.isBreaks && !inFlow && decide ((p.column : Int) < indent)) ||
    (p.char == '#' && !g.isNone) ||
    (Source.documentMark? (p :: rest)).isSome ||
    (p.char == ':' && rest.atGap) ||
    (inFlow && [',', '?', '[', ']', '\x7b', '\x7d'].contains p.char)

/-- A plain text, whether line breaks follow it, and the rest. Lines after the first must be
indented by at least `indent` unless the text stands in brackets. -/
def plainText (inFlow : Bool) (indent : Int) :
    Source → Gap → Option (List Char × Bool × Source)
  | [], g => some ([], g.isBreaks, [])
  | p :: rest, g =>
    if isBlank p.char || isBreak p.char then
      if p.char == '\t' && g.isBreaks && decide ((p.column : Int) < indent) then none
      else plainText inFlow indent rest (g.add p.char)
    else if endsPlain inFlow indent g p rest then some ([], g.isBreaks, p :: rest)
    else (plainText inFlow indent rest .none).map fun (text, broken, rest) =>
      (g.fold ++ p.char :: text, broken, rest)

def singleQuotedText : Source → Gap → Bool → Option (List Char × Source)
  | [], _, afterQuote => if afterQuote then some ([], []) else none
  | p :: rest, g, afterQuote =>
    let isQuote := p.char.toNat == 39
    if afterQuote then
      if isQuote then
        (singleQuotedText rest .none false).map fun (text, rest) => (p.char :: text, rest)
      else some ([], p :: rest)
    else if isBlank p.char || isBreak p.char then singleQuotedText rest (g.add p.char) false
    else if (Source.documentMark? (p :: rest)).isSome then none
    else if isQuote then
      (singleQuotedText rest .none true).map fun (text, rest) => (g.fold ++ text, rest)
    else (singleQuotedText rest .none false).map fun (text, rest) =>
      (g.fold ++ p.char :: text, rest)

inductive Escape where
  | none
  | started
  | hex (left value : Nat)

def escapedChar? (c : Char) : Option Char :=
  match c with
  | '0' => some (Char.ofNat 0)
  | 'a' => some (Char.ofNat 7)
  | 'b' => some (Char.ofNat 8)
  | 't' => some '\t'
  | '\t' => some '\t'
  | 'n' => some '\n'
  | 'v' => some (Char.ofNat 11)
  | 'f' => some (Char.ofNat 12)
  | 'r' => some (Char.ofNat 13)
  | 'e' => some (Char.ofNat 27)
  | ' ' => some ' '
  | '"' => some '"'
  | '/' => some '/'
  | '\\' => some '\\'
  | 'N' => some (Char.ofNat 0x85)
  | '_' => some (Char.ofNat 0xA0)
  | 'L' => some (Char.ofNat 0x2028)
  | 'P' => some (Char.ofNat 0x2029)
  | _ => if c.toNat = 39 then some c else none

def hexWidth? : Char → Option Nat
  | 'x' => some 2
  | 'u' => some 4
  | 'U' => some 8
  | _ => none

def hexValue? (c : Char) : Option Nat :=
  if c.isDigit then some (c.toNat - 48)
  else if 'a' ≤ c ∧ c ≤ 'f' then some (c.toNat - 87)
  else if 'A' ≤ c ∧ c ≤ 'F' then some (c.toNat - 55)
  else none

def doubleQuotedText : Source → Gap → Escape → Option (List Char × Source)
  | [], _, _ => none
  | p :: rest, g, .hex left value => do
    let value := value * 16 + (← hexValue? p.char)
    if left ≤ 1 then
      if value.isValidChar then
        let (text, rest) ← doubleQuotedText rest .none .none
        return (Char.ofNat value :: text, rest)
      else none
    else doubleQuotedText rest g (.hex (left - 1) value)
  | p :: rest, g, .started =>
    if isBreak p.char then doubleQuotedText rest (.breaks none []) .none
    else match hexWidth? p.char with
      | some width => doubleQuotedText rest g (.hex width 0)
      | none => do
        let c ← escapedChar? p.char
        let (text, rest) ← doubleQuotedText rest .none .none
        return (c :: text, rest)
  | p :: rest, g, .none =>
    if isBlank p.char || isBreak p.char then doubleQuotedText rest (g.add p.char) .none
    else if (Source.documentMark? (p :: rest)).isSome then none
    else if p.char == '"' then some (g.fold, rest)
    else if p.char == '\\' then
      (doubleQuotedText rest .none .started).map fun (text, rest) => (g.fold ++ text, rest)
    else (doubleQuotedText rest .none .none).map fun (text, rest) =>
      (g.fold ++ p.char :: text, rest)

inductive Chomping where
  | strip
  | clip
  | keep
  deriving DecidableEq

structure BlockHeader where
  chomping : Chomping := .clip
  increment : Nat := 0

def BlockHeader.chomp? (h : BlockHeader) : Char → Option BlockHeader
  | '+' => some { h with chomping := .keep }
  | '-' => some { h with chomping := .strip }
  | _ => none

def BlockHeader.indent? (h : BlockHeader) (c : Char) : Option BlockHeader :=
  if c.isDigit && c != '0' then some { h with increment := c.toNat - 48 } else none

def blockHeader : Source → BlockHeader × Source
  | [] => ({}, [])
  | p :: rest =>
    match BlockHeader.chomp? {} p.char, BlockHeader.indent? {} p.char, rest with
    | some h, _, q :: more =>
      match h.indent? q.char with
      | some h => (h, more)
      | none => (h, rest)
    | some h, _, [] => (h, [])
    | none, some h, q :: more =>
      match h.chomp? q.char with
      | some h => (h, more)
      | none => (h, rest)
    | none, some h, [] => (h, [])
    | none, none, _ => ({}, p :: rest)

def skipToBreak (s : Source) : Source := s.dropWhile fun p => !isBreak p.char

def skipLineEnd? (s : Source) : Option Source :=
  let s := s.dropWhile fun p => isBlank p.char
  let s := if s.head?.any (·.char == '#') then skipToBreak s else s
  match s with
  | [] => some []
  | p :: rest => if isBreak p.char then some rest else none

/-- The state of a block being read: the indent of its lines once it is known, the text so far, the
line break after the last line and those of empty lines since, whether the last line starts with a
blank, and the greatest indent seen while the indent is unknown. -/
structure BlockState where
  indent : Option Nat
  text : List Char := []
  lineEnd : List Char := []
  emptyLines : List Char := []
  startsBlank : Bool := false
  widest : Nat := 0

/-- Starts a line of a block with its first character. In a folded block the line break before it
becomes a space unless one of the two lines starts with a blank. -/
def BlockState.startLine (b : BlockState) (literal : Bool) (c : Char) : BlockState :=
  let joined :=
    if !literal && !b.startsBlank && !isBlank c && b.lineEnd == ['\n'] then
      if b.emptyLines.isEmpty then [' '] else []
    else b.lineEnd
  { b with
    text := b.text ++ joined ++ b.emptyLines ++ [c]
    lineEnd := [], emptyLines := [], startsBlank := isBlank c }

def BlockState.finish (b : BlockState) (chomping : Chomping) : List Char :=
  match chomping with
  | .strip => b.text
  | .clip => b.text ++ b.lineEnd
  | .keep => b.text ++ b.lineEnd ++ b.emptyLines

/-- The lines of a block. `least` is the least indent they may have, and `inLine` says whether the
indent of the current line has been read. -/
def blockLines (literal : Bool) (chomping : Chomping) (least : Nat) :
    Source → BlockState → Bool → Option (List Char × Source)
  | [], b, _ => some (b.finish chomping, [])
  | p :: rest, b, true =>
    if isBreak p.char then
      blockLines literal chomping least rest { b with lineEnd := [p.char] } false
    else blockLines literal chomping least rest { b with text := b.text ++ [p.char] } true
  | p :: rest, b, false =>
    let inIndent := b.indent.all (p.column < ·)
    if inIndent && p.char == ' ' then
      blockLines literal chomping least rest { b with widest := Nat.max b.widest (p.column + 1) }
        false
    else if inIndent && p.char == '\t' then none
    else if isBreak p.char then
      let b := { b with emptyLines := b.emptyLines ++ [p.char] }
      blockLines literal chomping least rest b false
    else
      let indent := b.indent.getD (Nat.max b.widest least)
      if p.column = indent then
        let b := { b with indent := some indent }
        blockLines literal chomping least rest (b.startLine literal p.char) true
      else some (b.finish chomping, p :: rest)

def blockText (literal : Bool) (indent : Int) (s : Source) : Option (List Char × Source) := do
  let (header, s) := blockHeader s
  let s ← skipLineEnd? s
  let least := Nat.max (indent + 1).toNat 1
  let known := if header.increment = 0 then none
    else some ((if 0 ≤ indent then indent.toNat else 0) + header.increment)
  blockLines literal header.chomping least s { indent := known } false

end SelectorCalculus.Yaml
