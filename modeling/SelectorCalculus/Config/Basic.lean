import SelectorCalculus.Extension.Registry
/-! The configuration: its fields, their defaults, the conditions on them, and its text. -/

namespace SelectorCalculus

structure Config where
  version : Int := 1
  extend : ExtendOptions := {}
  level : String := "normal"
  deriving DecidableEq, Repr

inductive ConfigFault where
  | version
  | trimLimit
  | levelMissing
  | levelUnknown
  deriving DecidableEq, Repr

namespace ConfigFault

/-- The field that is at fault, its path, and the condition. -/
def parts : ConfigFault → String × String × String
  | version => ("Version", "Config.Version", "eq")
  | trimLimit => ("TrimLimit", "Config.Extend.TrimLimit", "gte")
  | levelMissing => ("Level", "Config.Logging.ConsoleLogger.Level", "required")
  | levelUnknown => ("Level", "Config.Logging.ConsoleLogger.Level", "oneof")

def message (f : ConfigFault) : String :=
  let (field, path, condition) := f.parts
  "Key: '" ++ path ++ "' Error:Field validation for '" ++ field ++ "' failed on the '" ++
    condition ++ "' tag"

end ConfigFault

namespace Config

def levels : List String := ["none", "debug", "normal"]

/-- The conditions that do not hold, in the order of the fields. -/
def faults (c : Config) : List ConfigFault :=
  (if c.version = 1 then [] else [.version]) ++
    (if 0 ≤ c.extend.trimLimit then [] else [.trimLimit]) ++
    (if c.level = "" then [.levelMissing]
      else if levels.contains c.level then [] else [.levelUnknown])

def render (c : Config) : String :=
  "version: " ++ toString c.version ++ "\n" ++
    "extend:\n" ++
    "    mode: " ++ c.extend.mode.text ++ "\n" ++
    "    trim_limit: " ++ toString c.extend.trimLimit ++ "\n" ++
    "    strip_placeholders: " ++ toString c.extend.stripPlaceholders ++ "\n" ++
    "    check_media: " ++ toString c.extend.checkMedia ++ "\n" ++
    "logging:\n" ++
    "    console:\n" ++
    "        level: " ++ c.level ++ "\n"

end Config

end SelectorCalculus
