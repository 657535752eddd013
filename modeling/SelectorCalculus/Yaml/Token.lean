import SelectorCalculus.Yaml.ScalarText
/-! Tokens of a document. A scalar or bracket is known to be a key only once a colon follows it. -/

namespace SelectorCalculus.Yaml

inductive TokenKind where
  | streamEnd
  | versionDirective
  | tagDirective (handle meaning : String)
  | documentStart
  | documentEnd
  | blockSequenceStart
  | blockMappingStart
  | blockEnd
  | flowSequenceStart
  | flowSequenceEnd
  | flowMappingStart
  | flowMappingEnd
  | blockEntry
  | flowEntry
  | key
  | value
  | reference (name : String)
  | anchor (name : String)
  | tag (handle suffix : String)
  | scalar (text : String) (isPlain : Bool)
  deriving DecidableEq, Repr

structure Token where
  kind : TokenKind
  line : Nat
  deriving DecidableEq, Repr

structure PossibleKey where
  number : Nat
  /-- Whether it is an error if no colon follows. -/
  required : Bool
  line : Nat
  column : Nat

/-- The tokens found so far and what later ones depend on. -/
structure Scan where
  tokens : List Token := []
  flow : Nat := 0
  /-- The column of the innermost open block. -/
  indent : Int := -1
  outer : List Int := []
  keyAllowed : Bool := true
  /-- The possible key of each bracket and of the blocks around them, innermost first. -/
  keys : List (Option PossibleKey) := [none]

namespace Scan

def push (s : Scan) (kind : TokenKind) (line : Nat) : Scan :=
  { s with tokens := s.tokens ++ [⟨kind, line⟩] }

def insert (s : Scan) (number : Nat) (kind : TokenKind) (line : Nat) : Scan :=
  { s with tokens := s.tokens.take number ++ ⟨kind, line⟩ :: s.tokens.drop number }

def unrollFrom (column : Int) (line : Nat) : Int → List Int → List Token × Int × List Int
  | indent, [] => ([], indent, [])
  | indent, next :: outer =>
    if column < indent then
      let (closed, indent, outer) := unrollFrom column line next outer
      (⟨.blockEnd, line⟩ :: closed, indent, outer)
    else ([], indent, next :: outer)

def unroll (s : Scan) (column : Int) (line : Nat) : Scan :=
  if s.flow = 0 then
    let (closed, indent, outer) := unrollFrom column line s.indent s.outer
    { s with tokens := s.tokens ++ closed, indent, outer }
  else s

/-- Opens a block at a column if it is to the right of the innermost one. Its token gets a given
number. -/
def roll (s : Scan) (column number : Nat) (kind : TokenKind) (line : Nat) : Scan :=
  if s.flow = 0 ∧ s.indent < column then
    { s.insert number kind line with indent := column, outer := s.indent :: s.outer }
  else s

def dropKey? (s : Scan) : Option Scan :=
  match s.keys with
  | some k :: rest => if k.required then none else some { s with keys := none :: rest }
  | _ => some s

def noteKey? (s : Scan) (p : Placed) : Option Scan :=
  if s.keyAllowed then do
    let s ← s.dropKey?
    let k : PossibleKey :=
      { number := s.tokens.length, required := s.flow == 0 && s.indent == p.column,
        line := p.line, column := p.column }
    return { s with keys := some k :: s.keys.drop 1 }
  else some s

/-- The possible key, if it started on the same line and not too far away; a required one must. -/
def validKey? (s : Scan) (p : Placed) : Option (Option PossibleKey) :=
  match s.keys with
  | some k :: _ =>
    if k.line = p.line ∧ p.column ≤ k.column + 1024 then some (some k)
    else if k.required then none
    else some none
  | _ => some none

def openFlow? (s : Scan) (p : Placed) (kind : TokenKind) : Option Scan := do
  let s ← s.noteKey? p
  return { s.push kind p.line with flow := s.flow + 1, keys := none :: s.keys, keyAllowed := true }

def closeFlow? (s : Scan) (p : Placed) (kind : TokenKind) : Option Scan := do
  let s ← s.dropKey?
  let keys := if s.flow = 0 then s.keys else s.keys.drop 1
  return { s.push kind p.line with flow := s.flow - 1, keys, keyAllowed := false }

def flowEntry? (s : Scan) (p : Placed) : Option Scan := do
  let s ← s.dropKey?
  return { s.push .flowEntry p.line with keyAllowed := true }

def blockEntry? (s : Scan) (p : Placed) : Option Scan := do
  if s.flow = 0 ∧ !s.keyAllowed then none
  let s := s.roll p.column s.tokens.length .blockSequenceStart p.line
  let s ← s.dropKey?
  return { s.push .blockEntry p.line with keyAllowed := true }

def key? (s : Scan) (p : Placed) : Option Scan := do
  if s.flow = 0 ∧ !s.keyAllowed then none
  let s := s.roll p.column s.tokens.length .blockMappingStart p.line
  let s ← s.dropKey?
  return { s.push .key p.line with keyAllowed := s.flow == 0 }

/-- A colon: it makes a key of what started at the possible key. -/
def value? (s : Scan) (p : Placed) : Option Scan := do
  match ← s.validKey? p with
  | some k =>
    let s := s.insert k.number .key k.line
    let s := s.roll k.column k.number .blockMappingStart k.line
    return { s.push .value p.line with keys := none :: s.keys.drop 1, keyAllowed := false }
  | none =>
    if s.flow = 0 ∧ !s.keyAllowed then none
    let s := { s with keys := none :: s.keys.drop 1 }
    let s := s.roll p.column s.tokens.length .blockMappingStart p.line
    return { s.push .value p.line with keyAllowed := s.flow == 0 }

def documentMark? (s : Scan) (p : Placed) (kind : TokenKind) : Option Scan := do
  let s ← (s.unroll (-1) p.line).dropKey?
  return { s.push kind p.line with keyAllowed := false }

def atom? (s : Scan) (p : Placed) (kind : TokenKind) : Option Scan := do
  let s ← s.noteKey? p
  return { s.push kind p.line with keyAllowed := false }

def block? (s : Scan) (p : Placed) (kind : TokenKind) : Option Scan := do
  let s ← s.dropKey?
  return { s.push kind p.line with keyAllowed := true }

def finish? (s : Scan) (line : Nat) : Option Scan := do
  let s ← (s.unroll (-1) line).dropKey?
  return s.push .streamEnd line

end Scan

def isNameChar (c : Char) : Bool := c.isAlphanum || c == '_' || c == '-'

def textOf (s : Source) : String := String.ofList (s.map Placed.char)

def readName? (s : Source) : Option (String × Source) :=
  let (name, rest) := s.span fun p => isNameChar p.char
  let ended := Source.atGap rest ||
    rest.head?.any fun p => ['?', ':', ',', ']', '\x7d', '%', '@', Char.ofNat 96].contains p.char
  if name.isEmpty || !ended then none else some (textOf name, rest)

def isTagChar (c : Char) : Bool :=
  isNameChar c || [';', '/', '?', ':', '@', '&', '=', '+', '$', '.', '%', '!', '~', '*', '(', ')',
    Char.ofNat 39].contains c

/-- A tag after its first mark: verbatim between angle brackets, or a handle and a suffix. -/
def readTag? (s : Source) : Option (TokenKind × Source) := do
  let (tag, rest) ← match s with
    | p :: more =>
      if p.char = '<' then
        let (name, rest) := more.span fun q => isTagChar q.char || q.char == ',' ||
          q.char == '[' || q.char == ']' || q.char == '#'
        match rest with
        | q :: rest =>
          if q.char = '>' ∧ !name.isEmpty then some (TokenKind.tag "" (textOf name), rest) else none
        | [] => none
      else some (shorthand s)
    | [] => some (shorthand s)
  if Source.atGap rest || rest.head?.any (·.char == ',') then some (tag, rest) else none
where
  shorthand (s : Source) : TokenKind × Source :=
    let (handle, rest) := s.span fun p => isNameChar p.char
    match rest with
    | p :: rest =>
      if p.char = '!' then
        let (suffix, rest) := rest.span fun q => isTagChar q.char
        (.tag ("!" ++ textOf handle ++ "!") (textOf suffix), rest)
      else
        let (suffix, rest) := s.span fun q => isTagChar q.char
        (.tag "!" (textOf suffix), rest)
    | [] => (.tag "!" (textOf handle), [])

def readDirective? (s : Source) : Option (TokenKind × Source) :=
  let (line, rest) := s.span fun p => !isBreak p.char
  let line := (textOf line).toList
  let words := (splitWords line).takeWhile fun w => w.head? ≠ some '#'
  match words.map String.ofList with
  | ["YAML", version] =>
    if version = "1.1" then some (.versionDirective, rest) else none
  | ["TAG", handle, meaning] => some (.tagDirective handle meaning, rest)
  | _ => none
where
  splitWords (cs : List Char) : List (List Char) :=
    (cs.foldr (fun c words => if isBlank c then [] :: words else
      match words with
      | w :: more => (c :: w) :: more
      | [] => [[c]]) [[]]).filter (!·.isEmpty)

namespace Scan

def plain? (s : Scan) (p : Placed) (rest : Source) : Option (Scan × Source) := do
  let (text, broken, more) ← plainText (s.flow > 0) (s.indent + 1) (p :: rest) .none
  let s ← s.atom? p (.scalar (String.ofList text) true)
  return ({ s with keyAllowed := broken }, more)

def indicators : List Char :=
  ['-', '?', ':', ',', '[', ']', '\x7b', '\x7d', '#', '&', '*', '!', '|', '>', Char.ofNat 39, '"',
    '%', '@', Char.ofNat 96, '\t']

def startsPlain (s : Scan) (p : Placed) (rest : Source) : Bool :=
  let blankFollows := rest.head?.any fun q => isBlank q.char
  !indicators.contains p.char ||
    (p.char == '-' && !blankFollows) ||
    (s.flow == 0 && (p.char == '?' || p.char == ':') && !rest.atGap)

def token? (s : Scan) (p : Placed) (rest : Source) : Option (Scan × Source) :=
  let s := s.unroll p.column p.line
  let inFlow := s.flow > 0
  let here : Source := p :: rest
  match here.documentMark? with
  | some mark =>
    let kind : TokenKind := if mark = '-' then .documentStart else .documentEnd
    (s.documentMark? p kind).map (·, rest.drop 2)
  | none =>
    if p.char = '%' ∧ p.column = 0 then do
      let (kind, more) ← readDirective? rest
      return (← s.documentMark? p kind, more)
    else if p.char = '[' then (s.openFlow? p .flowSequenceStart).map (·, rest)
    else if p.char = '\x7b' then (s.openFlow? p .flowMappingStart).map (·, rest)
    else if p.char = ']' then (s.closeFlow? p .flowSequenceEnd).map (·, rest)
    else if p.char = '\x7d' then (s.closeFlow? p .flowMappingEnd).map (·, rest)
    else if p.char = ',' then (s.flowEntry? p).map (·, rest)
    else if p.char = '-' ∧ rest.atGap then (s.blockEntry? p).map (·, rest)
    else if p.char = '?' ∧ (inFlow ∨ rest.atGap) then (s.key? p).map (·, rest)
    else if p.char = ':' ∧ (inFlow ∨ rest.atGap) then (s.value? p).map (·, rest)
    else if p.char = '*' then do
      let (name, more) ← readName? rest
      return (← s.atom? p (.reference name), more)
    else if p.char = '&' then do
      let (name, more) ← readName? rest
      return (← s.atom? p (.anchor name), more)
    else if p.char = '!' then do
      let (kind, more) ← readTag? rest
      return (← s.atom? p kind, more)
    else if (p.char = '|' ∨ p.char = '>') ∧ !inFlow then do
      let (text, more) ← blockText (p.char == '|') s.indent rest
      return (← s.block? p (.scalar (String.ofList text) false), more)
    else if p.char.toNat = 39 then do
      let (text, more) ← singleQuotedText rest .none false
      return (← s.atom? p (.scalar (String.ofList text) false), more)
    else if p.char = '"' then do
      let (text, more) ← doubleQuotedText rest .none .none
      return (← s.atom? p (.scalar (String.ofList text) false), more)
    else if s.startsPlain p rest then s.plain? p rest
    else none

/-- Takes one step at a character: past a blank, a line break, a comment or a token. Tabs are blanks
only where no key can start. -/
def step? (s : Scan) (p : Placed) (rest : Source) : Option (Scan × Source) :=
  if p.char = ' ' ∨ (p.char.toNat = 0xFEFF ∧ p.column = 0) then some (s, rest)
  else if p.char = '\t' ∧ (s.flow > 0 ∨ !s.keyAllowed) then some (s, rest)
  else if isBreak p.char then some ({ s with keyAllowed := s.keyAllowed || s.flow == 0 }, rest)
  else if p.char = '#' then some (s, skipToBreak rest)
  else s.token? p rest

/-- Scans a text of which the first `skip` characters belong to an earlier token. `line` is the line
reached so far. What was found before an error is kept; only a scan without error ends with the
token for the end. -/
def run (skip line : Nat) : Source → Scan → Scan
  | [], s => (s.finish? line).getD s
  | p :: rest, s =>
    match skip with
    | skip + 1 => run skip p.line rest s
    | 0 =>
      match s.step? p rest with
      | some (s, more) => run (rest.length - more.length) p.line rest s
      | none => s

end Scan

def tokensOf (source : Source) : List Token := (Scan.run 0 0 source {}).tokens

end SelectorCalculus.Yaml
