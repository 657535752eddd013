import SelectorCalculus.Selector.Token
import SelectorCalculus.Text.Quoted
/-! Reading selectors from tokens. Open lists are kept on a stack, each under its pseudo
selector. -/

namespace SelectorCalculus

inductive ReadError where
  | malformed (reason : Reason) (position : Nat) (text : String)
  | notSingleComplex (text : String)
  | notSingleCompound (text : String)
  /-- The operator of an attribute test runs to the end of the text. -/
  | runawayOperator

def ReadError.message? : ReadError → Option String
  | malformed reason position text =>
    some ("selectortest: " ++ reason.message ++ " at " ++ toString position ++ " in " ++
      Text.quoted text)
  | notSingleComplex text =>
    some ("selectortest: " ++ Text.quoted text ++ " is not a single complex selector")
  | notSingleCompound text =>
    some ("selectortest: " ++ Text.quoted text ++ " is not a single compound selector")
  | runawayOperator => none

namespace Reader

/-- A list being read: the complex selectors finished so far, the components of the next one, and
the compound at its end if that is still open. -/
structure Frame where
  complexes : List Complex := []
  components : List Component := []
  current : Option Compound := none

namespace Frame

def addSimple (f : Frame) (s : Simple) : Frame :=
  let c := f.current.getD { simples := [] }
  { f with current := some { c with simples := c.simples ++ [s] } }

def addParent (f : Frame) : Frame :=
  let c := f.current.getD { simples := [] }
  { f with current := some { c with parent := true } }

def endCompound (f : Frame) : Frame :=
  match f.current with
  | none => f
  | some c => { f with components := f.components ++ [.compound c], current := none }

def addCombinator (f : Frame) (k : Combinator) : Frame :=
  let f := f.endCompound
  { f with components := f.components ++ [.combinator k] }

def endComplex? (f : Frame) : Option Frame :=
  let f := f.endCompound
  if f.components.isEmpty then none
  else some { complexes := f.complexes ++ [.path f.components false] }

end Frame

/-- The list being read and, innermost first, the lists around it, each with the pseudo selector
whose argument comes next. -/
structure State where
  frame : Frame := {}
  outer : List (Label × Frame) := []

def step (st : State) : Nat × Token → Except (Reason × Nat) State
  | (_, .space) => .ok { st with frame := st.frame.endCompound }
  | (_, .combinator k) => .ok { st with frame := st.frame.addCombinator k }
  | (_, .parent) => .ok { st with frame := st.frame.addParent }
  | (_, .simple s) => .ok { st with frame := st.frame.addSimple s }
  | (_, .opening l) => .ok { frame := {}, outer := (l, st.frame) :: st.outer }
  | (position, .comma) =>
    match st.frame.endComplex? with
    | none => .error (.emptySelector, position)
    | some f => .ok { st with frame := f }
  | (position, .close) =>
    match st.frame.endComplex?, st.outer with
    | none, _ => .error (.emptySelector, position)
    | some _, [] => .error (.unexpectedInput, position)
    | some f, (l, around) :: outer =>
      .ok { frame := around.addSimple { l with selector := some f.complexes }, outer }

def finish (st : State) (position : Nat) (atEnd : Bool) :
    Except (Reason × Nat) SelectorList :=
  match st.frame.endComplex?, st.outer with
  | none, _ => .error (.emptySelector, position)
  | some _, _ :: _ => .error (.expectedParenthesis, position)
  | some f, [] => if atEnd then .ok f.complexes else .error (.unexpectedInput, position)

end Reader

def readList (text : String) : Except ReadError SelectorList :=
  let (tokens, ending) := Token.scan 0 0 text.toList
  let malformed : Reason × Nat → ReadError := fun (reason, position) =>
    .malformed reason position text
  match tokens.foldlM Reader.step {} with
  | .error e => .error (malformed e)
  | .ok st =>
    match ending with
    | .finish position atEnd => (Reader.finish st position atEnd).mapError malformed
    | .broken reason position => .error (.malformed reason position text)
    | .runaway => .error .runawayOperator

def readComplex (text : String) : Except ReadError Complex := do
  match ← readList text with
  | [c] => return c
  | _ => throw (.notSingleComplex text)

def readCompound (text : String) : Except ReadError Compound := do
  match (← readComplex text).single? with
  | some c => return c
  | none => throw (.notSingleCompound text)

end SelectorCalculus
