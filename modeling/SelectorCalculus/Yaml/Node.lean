import SelectorCalculus.Yaml.Resolve
import SelectorCalculus.Yaml.Token
/-! Nodes of a document: scalars, sequences and mappings, each with its line and its tag. -/

namespace SelectorCalculus.Yaml

inductive Node where
  | scalar (line : Nat) (tag value : String)
  | sequence (line : Nat) (tag : String) (items : List Node)
  | mapping (line : Nat) (tag : String) (entries : List (Node × Node))

def Node.line : Node → Nat
  | scalar line _ _ => line
  | sequence line _ _ => line
  | mapping line _ _ => line

/-- What is left to read, and the names that have been given a meaning. -/
structure Input where
  tokens : List Token
  anchors : List (String × Node) := []
  handles : List (String × String) := [("!", "!"), ("!!", "tag:yaml.org,2002:")]

namespace Input

def next? (i : Input) : Option TokenKind := i.tokens.head?.map Token.kind

def nextIsOneOf (i : Input) (kinds : List TokenKind) : Bool := i.next?.any kinds.contains

def line (i : Input) : Nat := (i.tokens.head?.map Token.line).getD 0

def skip (i : Input) : Input := { i with tokens := i.tokens.drop 1 }

def expect? (i : Input) (kind : TokenKind) : Option Input :=
  if i.next? = some kind then some i.skip else none

def anchored (i : Input) (name : Option String) (n : Node) : Input :=
  match name with
  | some name => { i with anchors := (name, n) :: i.anchors }
  | none => i

end Input

def shortTag (tag : String) : String :=
  let long := "tag:yaml.org,2002:".toList
  if long.isPrefixOf tag.toList then "!!" ++ String.ofList (tag.toList.drop long.length) else tag

/-- What stands before a node: an anchor and a tag, in either order. The tag is empty if there is
none, and the line is the one on which it all starts. -/
structure Properties where
  anchor : Option String := none
  tag : String := ""
  line : Nat

def Input.tag? (i : Input) (handle suffix : String) : Option String :=
  if handle = "" then some suffix
  else (i.handles.lookup handle).map (· ++ suffix)

def Input.properties? (i : Input) : Option (Properties × Input) :=
  let line := i.line
  match i.next?, i.skip.next? with
  | some (.anchor a), some (.tag h s) => do
    return ({ anchor := some a, tag := ← i.tag? h s, line }, i.skip.skip)
  | some (.tag h s), some (.anchor a) => do
    return ({ anchor := some a, tag := ← i.tag? h s, line }, i.skip.skip)
  | some (.anchor a), _ => some ({ anchor := some a, line }, i.skip)
  | some (.tag h s), _ => do return ({ tag := ← i.tag? h s, line }, i.skip)
  | _, _ => some ({ line }, i)

def Properties.tagOr (p : Properties) (default : String) : String :=
  if p.tag = "" ∨ p.tag = "!" then default else shortTag p.tag

def Properties.scalar (p : Properties) (value : String) (isPlain : Bool) : Node :=
  let default :=
    if !isPlain then "!!str" else if value = "<<" then "!!merge" else (resolvePlain value).tag
  .scalar (p.line + 1) (p.tagOr default) value

def emptyNode (line : Nat) : Node := .scalar (line + 1) "!!null" ""

mutual

/-- Reads a node. `inBlock` says whether it may be a block, and `indentless` whether it may be a
sequence whose entries are not indented. -/
def readNode : Nat → Bool → Bool → Input → Option (Node × Input)
  | 0, _, _, _ => none
  | fuel + 1, inBlock, indentless, i =>
    match i.next? with
    | some (.reference name) => (i.anchors.lookup name).map (·, i.skip)
    | _ => do
      let (p, i) ← i.properties?
      let (n, i) ← match i.next? with
        | some (.scalar value isPlain) => some (p.scalar value isPlain, i.skip)
        | some .flowSequenceStart => do
          let (items, i) ← readFlowItems fuel true i.skip
          return (.sequence (p.line + 1) (p.tagOr "!!seq") items, i)
        | some .flowMappingStart => do
          let (entries, i) ← readFlowEntries fuel true i.skip
          return (.mapping (p.line + 1) (p.tagOr "!!map") entries, i)
        | some .blockSequenceStart =>
          if inBlock then do
            let (items, i) ← readBlockItems fuel i.skip
            return (.sequence (p.line + 1) (p.tagOr "!!seq") items, i)
          else none
        | some .blockMappingStart =>
          if inBlock then do
            let (entries, i) ← readBlockEntries fuel i.skip
            return (.mapping (p.line + 1) (p.tagOr "!!map") entries, i)
          else none
        | some other =>
          if other = .blockEntry ∧ indentless then do
            let (items, i) ← readIndentlessItems fuel i
            return (.sequence (p.line + 1) (p.tagOr "!!seq") items, i)
          else if p.anchor.isSome ∨ p.tag ≠ "" then some (p.scalar "" true, i)
          else none
        | none => none
      return (n, i.anchored p.anchor n)

def readBlockItems : Nat → Input → Option (List Node × Input)
  | 0, _ => none
  | fuel + 1, i =>
    match i.next? with
    | some .blockEntry => do
      let line := i.line
      let i := i.skip
      let ended := i.nextIsOneOf [.blockEntry, .blockEnd]
      let (item, i) ← if ended then some (emptyNode line, i) else readNode fuel true false i
      let (items, i) ← readBlockItems fuel i
      return (item :: items, i)
    | some .blockEnd => some ([], i.skip)
    | _ => none

def readIndentlessItems : Nat → Input → Option (List Node × Input)
  | 0, _ => none
  | fuel + 1, i =>
    match i.next? with
    | some .blockEntry => do
      let line := i.line
      let i := i.skip
      let ended := i.nextIsOneOf [.blockEntry, .key, .value, .blockEnd]
      let (item, i) ← if ended then some (emptyNode line, i) else readNode fuel true false i
      let (items, i) ← readIndentlessItems fuel i
      return (item :: items, i)
    | _ => some ([], i)

def readBlockEntries : Nat → Input → Option (List (Node × Node) × Input)
  | 0, _ => none
  | fuel + 1, i =>
    match i.next? with
    | some .key => do
      let (k, i) ← readBlockPart fuel i
      let (v, i) ← if i.next? = some .value then readBlockPart fuel i
        else some (emptyNode i.line, i)
      let (entries, i) ← readBlockEntries fuel i
      return ((k, v) :: entries, i)
    | some .blockEnd => some ([], i.skip)
    | _ => none

def readBlockPart : Nat → Input → Option (Node × Input)
  | 0, _ => none
  | fuel + 1, i =>
    let line := i.line
    let i := i.skip
    if i.nextIsOneOf [.key, .value, .blockEnd] then
      some (emptyNode line, i)
    else readNode fuel true true i

/-- The items of a sequence in brackets and its end. A pair in it is a mapping of its own. -/
def readFlowItems : Nat → Bool → Input → Option (List Node × Input)
  | 0, _, _ => none
  | fuel + 1, first, i =>
    if i.next? = some .flowSequenceEnd then some ([], i.skip)
    else do
      let i ← if first then some i else i.expect? .flowEntry
      if i.next? = some .flowSequenceEnd then return ([], i.skip)
      let (item, i) ← if i.next? = some .key then do
          let line := i.line
          let i := i.skip
          let ended := i.nextIsOneOf [.value, .flowEntry, .flowSequenceEnd]
          let (k, i) ← if ended then some (emptyNode line, i) else readNode fuel false false i
          let (v, i) ← readFlowValue fuel .flowSequenceEnd i
          pure (Node.mapping (line + 1) "!!map" [(k, v)], i)
        else readNode fuel false false i
      let (items, i) ← readFlowItems fuel false i
      return (item :: items, i)

def readFlowValue : Nat → TokenKind → Input → Option (Node × Input)
  | 0, _, _ => none
  | fuel + 1, closing, i =>
    if i.next? = some .value then
      let line := i.line
      let i := i.skip
      if i.nextIsOneOf [.flowEntry, closing] then some (emptyNode line, i)
      else readNode fuel false false i
    else some (emptyNode i.line, i)

def readFlowEntries : Nat → Bool → Input → Option (List (Node × Node) × Input)
  | 0, _, _ => none
  | fuel + 1, first, i =>
    if i.next? = some .flowMappingEnd then some ([], i.skip)
    else do
      let i ← if first then some i else i.expect? .flowEntry
      if i.next? = some .flowMappingEnd then return ([], i.skip)
      let (k, v, i) ← if i.next? = some .key then do
          let line := i.line
          let i := i.skip
          let ended := i.nextIsOneOf [.value, .flowEntry, .flowMappingEnd]
          let (k, i) ← if ended then some (emptyNode line, i) else readNode fuel false false i
          let (v, i) ← readFlowValue fuel .flowMappingEnd i
          pure (k, v, i)
        else do
          let (k, i) ← readNode fuel false false i
          pure (k, emptyNode i.line, i)
      let (entries, i) ← readFlowEntries fuel false i
      return ((k, v) :: entries, i)

end

def readDirectives : List Token → Bool → List (String × String) →
    Option (List Token × List (String × String))
  | ⟨.versionDirective, _⟩ :: rest, seen, handles =>
    if seen then none else readDirectives rest true handles
  | ⟨.tagDirective handle meaning, _⟩ :: rest, seen, handles =>
    readDirectives rest seen ((handle, meaning) :: handles)
  | tokens, _, handles => some (tokens, handles)

inductive Document where
  | absent
  | root (n : Node)

/-- Whether tokens go on for two after the next one, or to the end of the text. They stop short of
it only at an error. -/
def Input.seesAhead (i : Input) : Bool :=
  2 < i.tokens.length || i.tokens.getLast?.any (·.kind == .streamEnd)

/-- Reads the first document from tokens. The one after it is looked at together with the two that
follow, so an error must not stand among these. -/
def Document.ofTokens? (tokens : List Token) : Option Document := do
  let fuel := 2 * tokens.length + 2
  let start : Input := { tokens }
  match start.next? with
  | some .streamEnd => return .absent
  | some .versionDirective | some (.tagDirective _ _) | some .documentStart =>
    let (tokens, handles) ← readDirectives tokens false []
    let i : Input := { tokens, handles := handles ++ start.handles }
    let i ← i.expect? .documentStart
    match i.next? with
    | some .streamEnd | some .documentStart | some .documentEnd | some .versionDirective
    | some (.tagDirective _ _) => finish (emptyNode i.line, i)
    | _ => finish (← readNode fuel true false i)
  | _ => finish (← readNode fuel true false start)
where
  finish : Node × Input → Option Document
    | (n, i) => if i.seesAhead then some (.root n) else none

end SelectorCalculus.Yaml
