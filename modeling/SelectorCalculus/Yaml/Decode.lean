import SelectorCalculus.Text.Quoted
import SelectorCalculus.Yaml.Node
/-! Decoding nodes into records. Mismatches with the fields are collected, and decoding goes on. -/

namespace SelectorCalculus.Yaml

inductive Issue where
  | mismatch (line : Nat) (tag value type : String)
  | unknownField (line : Nat) (name type : String)
  | duplicateKey (line : Nat) (key : String) (firstLine : Nat)
  deriving DecidableEq, Repr

/-- The first `n` bytes of a text; a character that is cut apart leaves a replacement character for
each of its bytes. -/
def firstBytes : Nat → List Char → List Char
  | 0, _ => []
  | _, [] => []
  | n + 1, c :: rest =>
    if c.utf8Size ≤ n + 1 then c :: firstBytes (n + 1 - c.utf8Size) rest
    else List.replicate (n + 1) '\uFFFD'

def excerpt (s : String) : String :=
  if s.utf8ByteSize ≤ 10 then s else String.ofList (firstBytes 7 s.toList) ++ "..."

def Issue.message : Issue → String
  | mismatch line tag value type =>
    let shown := if tag = "!!seq" ∨ tag = "!!map" then value
      else String.ofList [' ', Char.ofNat 96] ++ excerpt value ++ String.ofList [Char.ofNat 96]
    s!"line {line}: cannot unmarshal {tag}{shown} into {type}"
  | unknownField line name type => s!"line {line}: field {name} not found in type {type}"
  | duplicateKey line key firstLine =>
    s!"line {line}: mapping key " ++ Text.quoted key ++ s!" already defined at line {firstLine}"

inductive Refusal where
  | malformed
  | text (message : String)

/-- A way to decode a node into part of a record, with a list of what did not fit. -/
abbrev Decoder (σ : Type) := Node → σ → Except Refusal (σ × List Issue)

/-- What a scalar with a tag stands for. A known tag must agree with the text. -/
def meaningOf (tag value : String) : Except Refusal Meaning :=
  if ["!!bool", "!!int", "!!float", "!!null", "!!timestamp"].contains tag then
    let meaning := resolvePlain value
    if meaning.tag = tag then .ok meaning
    else match meaning with
      | .whole n =>
        if tag = "!!float" ∧ n < signedLimit then .ok (.fraction (.decimal (n < 0) n.natAbs 0))
        else .error .malformed
      | _ => .error .malformed
  else .ok .text

namespace Node

def misfit (n : Node) (type : String) : Issue :=
  match n with
  | scalar line tag value => .mismatch line tag value type
  | sequence line tag _ => .mismatch line tag "" type
  | mapping line tag _ => .mismatch line tag "" type

def sameKey : Node → Node → Bool
  | scalar _ _ v, scalar _ _ w => v == w
  | sequence _ _ _, sequence _ _ _ => true
  | mapping _ _ _, mapping _ _ _ => true
  | _, _ => false

def text : Node → String
  | scalar _ _ v => v
  | _ => ""

def isMerge : Node → Bool
  | scalar _ tag value => tag == "!!merge" && value == "<<"
  | _ => false

mutual

def height : Node → Nat
  | scalar _ _ _ => 0
  | sequence _ _ items => heightOfItems items + 1
  | mapping _ _ entries => heightOfEntries entries + 1

def heightOfItems : List Node → Nat
  | [] => 0
  | n :: rest => Nat.max (height n) (heightOfItems rest)

def heightOfEntries : List (Node × Node) → Nat
  | [] => 0
  | (_, v) :: rest => Nat.max (height v) (heightOfEntries rest)

end

end Node

def duplicates : List (Node × Node) → List Issue
  | [] => []
  | (k, _) :: rest =>
    (rest.filter fun entry => k.sameKey entry.1).map (fun entry =>
      .duplicateKey entry.1.line entry.1.text k.line) ++ duplicates rest

/-- Decodes a scalar by its meaning; what has no meaning leaves the record as it is. -/
def scalarDecoder (type : String) (take : Meaning → String → σ → Except Refusal (Option σ)) :
    Decoder σ
  | .scalar line tag value, s => do
    match ← meaningOf tag value with
    | .nothing => return (s, [])
    | meaning =>
      match ← take meaning value s with
      | some s => return (s, [])
      | none => return (s, [Node.misfit (.scalar line tag value) type])
  | .sequence line tag items, s => return (s, [Node.misfit (.sequence line tag items) type])
  | .mapping line tag entries, s =>
    match duplicates entries with
    | [] => return (s, [Node.misfit (.mapping line tag entries) type])
    | issues => return (s, issues)

/-- The least number of 64 bits, which stands for all that are smaller. -/
def leastWhole : Int := -signedLimit

/-- The whole number of 64 bits that a scalar is taken for. Fractions lose their decimal places. -/
def wholeOf? : Meaning → Option Int
  | .whole n => if n < signedLimit then some n else none
  | .fraction (.infinite true) => some leastWhole
  | .fraction f => do
    let n ← f.whole?
    if signedLimit < n then none
    else some (if leastWhole ≤ n ∧ n < signedLimit then n else leastWhole)
  | _ => none

def truthOf? (meaning : Meaning) (value : String) : Option Bool :=
  match meaning with
  | .truth b => some b
  | .text =>
    if ["y", "Y", "yes", "Yes", "YES", "on", "On", "ON"].contains value then some true
    else if ["n", "N", "no", "No", "NO", "off", "Off", "OFF"].contains value then some false
    else none
  | _ => none

def wholeDecoder (set : Int → σ → σ) : Decoder σ :=
  scalarDecoder "int" fun meaning _ s => .ok ((wholeOf? meaning).map (set · s))

def truthDecoder (set : Bool → σ → σ) : Decoder σ :=
  scalarDecoder "bool" fun meaning value s => .ok ((truthOf? meaning value).map (set · s))

def textDecoder (set : String → σ → σ) : Decoder σ :=
  scalarDecoder "string" fun _ value s => .ok (some (set value s))

def choiceDecoder (type : String) (choose : String → Except String α) (set : α → σ → σ) :
    Decoder σ :=
  scalarDecoder type fun _ value s =>
    match choose value with
    | .ok a => .ok (some (set a s))
    | .error message => .error (.text message)

def fieldName (k : Node) : Except Refusal (Option String × List Issue) := do
  let (name, issues) ← textDecoder (fun name _ => some name) k (none : Option String)
  return (name, issues)

/-- Decodes the fields of a record in order. `taken` holds the names that are not to be set
again. -/
def decodeFields (type : String) (fields : List (String × Decoder σ)) :
    List (Node × Node) → Option (List String) → σ →
      Except Refusal (σ × List Issue × Option (List String))
  | [], taken, s => return (s, [], taken)
  | (k, v) :: rest, taken, s => do
    if k.isMerge then decodeFields type fields rest taken s
    else
      let (name, issues) ← fieldName k
      match name with
      | none =>
        let (s, more, taken) ← decodeFields type fields rest taken s
        return (s, issues ++ more, taken)
      | some name =>
        if taken.any (·.contains name) then decodeFields type fields rest taken s
        else
          let taken := taken.map (name :: ·)
          let (s, issues) ← match fields.lookup name with
            | some decode => decode v s
            | none => pure (s, [.unknownField k.line name type])
          let (s, more, taken) ← decodeFields type fields rest taken s
          return (s, issues ++ more, taken)

def mergedMappings? : Node → Option (List (List (Node × Node)))
  | .mapping _ _ entries => some [entries]
  | .sequence _ _ items => items.mapM fun
    | .mapping _ _ entries => some entries
    | _ => none
  | .scalar _ _ _ => none

/-- Decodes a mapping into a record, and then the mappings merged into it, which do not set again
what is set. -/
def decodeMapping (type : String) (fields : List (String × Decoder σ)) :
    Nat → List (Node × Node) → Option (List String) → σ →
      Except Refusal (σ × List Issue × Option (List String))
  | 0, _, taken, s => return (s, [], taken)
  | depth + 1, entries, taken, s => do
    match duplicates entries with
    | [] =>
      let (s, issues, taken) ← decodeFields type fields entries taken s
      match (entries.filter (·.1.isMerge)).getLast? with
      | none => return (s, issues, taken)
      | some (_, merge) =>
        match mergedMappings? merge with
        | none => throw .malformed
        | some mappings =>
          let names := entries.map fun entry => entry.1.text
          let (s, issues, merged) ← mappings.foldlM (fun (s, issues, merged) entries => do
            let (s, more, merged) ← decodeMapping type fields depth entries merged s
            return (s, issues ++ more, merged)) (s, issues, some (taken.getD names))
          return (s, issues, if taken.isSome then merged else none)
    | issues => return (s, issues, taken)

def recordDecoder (type : String) (fields : List (String × Decoder σ)) : Decoder σ
  | .mapping line tag entries, s => do
    let depth := (Node.mapping line tag entries).height
    let (s, issues, _) ← decodeMapping type fields depth entries none s
    return (s, issues)
  | n, s => scalarDecoder type (fun _ _ _ => .ok none) n s

def Decoder.within (get : τ → σ) (set : σ → τ → τ) (decode : Decoder σ) : Decoder τ := fun n t => do
  let (s, issues) ← decode n (get t)
  return (set s t, issues)

end SelectorCalculus.Yaml
