/-! Choices: all ways to pick one option from each of several choices. -/

namespace SelectorCalculus

/-- All ways to pick one option from each choice. The first choice varies fastest. -/
def picks (choices : List (List α)) : List (List α) :=
  choices.foldl (fun found choice => choice.flatMap fun option => found.map (· ++ [option])) [[]]

/-- The orders in which two runs may follow each other, none if there is nothing to order. -/
def interleavings (run run' : List α) : List (List α) :=
  match run, run' with
  | [], [] => []
  | [], _ => [run']
  | _, [] => [run]
  | _, _ => [run ++ run', run' ++ run]

end SelectorCalculus
