import SelectorCalculus.Config.Basic
import SelectorCalculus.Text.Blank
import SelectorCalculus.Yaml.Decode
/-! Reading the configuration: a document is laid over the defaults, and the result is checked. -/

namespace SelectorCalculus

inductive ConfigError where
  | malformed
  | types (issues : List Yaml.Issue)
  | invalidMode (text : String)
  | invalid (faults : List ConfigFault)

namespace ConfigError

def whileDecoding : String :=
  "failed to process configuration: failed to decode configuration data: "

/-- The message for an error; a document that is not well formed has none. -/
def message? : ConfigError → Option String
  | malformed => none
  | types issues =>
    some (whileDecoding ++ "yaml: unmarshal errors:" ++
      String.join (issues.map fun i => "\n  " ++ i.message))
  | invalidMode text => some (whileDecoding ++ Mode.invalidMessage text)
  | invalid faults => some ("\n".intercalate (faults.map ConfigFault.message))

end ConfigError

namespace Config

open Yaml

def modeDecoder : Decoder ExtendOptions :=
  choiceDecoder "common.ExtendMode"
    (fun text => match Mode.ofText? text with
      | some mode => .ok mode
      | none => .error text)
    fun mode o => { o with mode }

def extendDecoder : Decoder ExtendOptions :=
  recordDecoder "config.ExtendConfig" [
    ("mode", modeDecoder),
    ("trim_limit", wholeDecoder fun n o => { o with trimLimit := n }),
    ("strip_placeholders", truthDecoder fun b o => { o with stripPlaceholders := b }),
    ("check_media", truthDecoder fun b o => { o with checkMedia := b })]

def consoleDecoder : Decoder String :=
  recordDecoder "config.LoggerConfig" [("level", textDecoder fun level _ => level)]

def loggingDecoder : Decoder String :=
  recordDecoder "config.LoggingConfig" [("console", consoleDecoder)]

def decoder : Decoder Config :=
  recordDecoder "config.Config" [
    ("version", wholeDecoder fun n c => { c with version := n }),
    ("extend", extendDecoder.within Config.extend fun extend c => { c with extend }),
    ("logging", loggingDecoder.within Config.level fun level c => { c with level })]

/-- Lays the fields of a document over a configuration. -/
def overlay (text : List Char) (c : Config) : Except ConfigError Config :=
  match (Source.ofChars? text).bind fun source => Document.ofTokens? (tokensOf source) with
  | none => .error .malformed
  | some .absent => .error .malformed
  | some (.root n) =>
    match decoder n c with
    | .error .malformed => .error .malformed
    | .error (.text mode) => .error (.invalidMode mode)
    | .ok (c, []) => .ok c
    | .ok (_, issues) => .error (.types issues)

def check (c : Config) : Except ConfigError Config :=
  match c.faults with
  | [] => .ok c
  | faults => .error (.invalid faults)

/-- A configuration in which nothing is set. -/
def zero : Config where
  version := 0
  extend := { mode := .normal, trimLimit := 0, checkMedia := false, stripPlaceholders := false }
  level := ""

def builtIn : String := String.join [
  "version: 1\n",
  "\n",
  "extend:\n",
  "  # normal keeps extended selectors next to the generated ones, replace drops\n",
  "  # them once an extension applied\n",
  "  mode: normal\n",
  "  # selectors generated from one original selector above this count are not\n",
  "  # checked for redundancy\n",
  "  trim_limit: 100\n",
  "  # remove rules and selectors referring to %placeholders after resolution\n",
  "  strip_placeholders: true\n",
  "  # refuse to extend across media contexts\n",
  "  check_media: true\n",
  "\n",
  "logging:\n",
  "  console:\n",
  "    # none, normal or debug\n",
  "    level: normal\n"]

def readBuiltIn : Except ConfigError Config := do
  let c ← overlay builtIn.toList zero
  c.check

/-- Reads a configuration, which is laid over the one that is built in unless it is blank. -/
def read (text : String) : Except ConfigError Config := do
  let c ← overlay builtIn.toList zero
  let c ← if text.toList.all Text.isBlank then pure c else overlay text.toList c
  c.check

end Config

end SelectorCalculus
