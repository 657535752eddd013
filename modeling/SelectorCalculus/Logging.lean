/-! The console log: entries with fields, written to one of two streams according to their level. -/

namespace SelectorCalculus.Logging

inductive Level where
  | debug
  | info
  | warn
  | error
  deriving DecidableEq, Repr

namespace Level

def ofText? : String → Option Level
  | "debug" => some debug
  | "info" => some info
  | "warn" => some warn
  | "error" => some error
  | _ => none

def word : Level → String
  | debug => "DEBUG"
  | info => "INFO"
  | warn => "WARN"
  | error => "ERROR"

end Level

inductive Verbosity where
  | off
  | normal
  | everything
  deriving DecidableEq, Repr

namespace Verbosity

def ofText? : String → Option Verbosity
  | "none" => some off
  | "" => some off
  | "normal" => some normal
  | "debug" => some everything
  | _ => none

def unknownMessage (text : String) : String := "unknown console logging level: " ++ text

def enables : Verbosity → Level → Bool
  | off, _ => false
  | normal, level => level != .debug
  | everything, _ => true

end Verbosity

inductive Value where
  | text (s : String)
  | number (n : Int)
  | truth (b : Bool)
  /-- Several errors at once; none at all are not written. -/
  | errors (messages : List String)

abbrev Field := String × Value

def escapeChar (c : Char) : List Char :=
  if c = '"' ∨ c = '\\' then ['\\', c]
  else match c.toNat with
    | 9 => ['\\', 't']
    | 10 => ['\\', 'n']
    | 13 => ['\\', 'r']
    | n =>
      if n < 0x20 then
        ['\\', 'u', '0', '0', (n / 16).digitChar, (n % 16).digitChar]
      else [c]

def quoted (s : String) : String :=
  String.ofList ('"' :: s.toList.flatMap escapeChar ++ ['"'])

def member (key written : String) : String := quoted key ++ ": " ++ written

/-- The members that a field is written as. Several errors are listed once more, one by one, unless
only their message is wanted. -/
def members (messageOnly : Bool) : Field → List String
  | (key, .text s) => [member key (quoted s)]
  | (key, .number n) => [member key (toString n)]
  | (key, .truth b) => [member key (if b then "true" else "false")]
  | (_, .errors []) => []
  | (key, .errors messages) =>
    let whole := member key (quoted ("; ".intercalate messages))
    let one (m : String) : String := "\x7b" ++ member "error" (quoted m) ++ "\x7d"
    if messageOnly || messages.length ≤ 1 then [whole]
    else [whole, member (key ++ "Causes") ("[" ++ ", ".intercalate (messages.map one) ++ "]")]

structure Logger where
  verbosity : Verbosity
  name : String
  fields : List Field := []

structure Entry where
  level : Level
  message : String
  fields : List Field

namespace Logger

def ofVerbosity (v : Verbosity) : Logger where
  verbosity := v
  name := if v = .off then "" else "sassext"

def named (l : Logger) (part : String) : Logger :=
  if part = "" then l
  else { l with name := if l.name = "" then part else l.name ++ "." ++ part }

def withFields (l : Logger) (fields : List Field) : Logger :=
  { l with fields := l.fields ++ fields }

/-- The line for an entry. Of the errors in the fields of an entry that is an error itself only the
message is written. -/
def line (l : Logger) (e : Entry) : String :=
  let written := l.fields.flatMap (members false) ++
    e.fields.flatMap (members (e.level == .error))
  let context := if written.isEmpty then ""
    else "\t\x7b" ++ ", ".intercalate written ++ "\x7d"
  e.level.word ++ "\t" ++ l.name ++ "\t" ++ e.message ++ context ++ "\n"

def write (l : Logger) (e : Entry) : String × String :=
  if !l.verbosity.enables e.level then ("", "")
  else if e.level = .error then ("", l.line e)
  else (l.line e, "")

end Logger

end SelectorCalculus.Logging
