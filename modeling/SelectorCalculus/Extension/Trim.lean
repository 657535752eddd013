import SelectorCalculus.Extension.Event
import SelectorCalculus.Selector.Key
import SelectorCalculus.Selector.Specificity
import SelectorCalculus.Selector.Superselector
/-! Trimming: generated selectors that another one covers are left out, if it is specific enough. -/

namespace SelectorCalculus

/-- For the key of each simple selector, the highest specificity of a complex selector in which it
was written. -/
structure Sources where
  weights : List (String × Nat) := []

namespace Sources

def raise (key : String) (n : Nat) : List (String × Nat) → List (String × Nat)
  | [] => [(key, n)]
  | (k, w) :: rest => if k = key then (k, Nat.max w n) :: rest else (k, w) :: raise key n rest

def get (s : Sources) (key : String) : Nat := (s.weights.lookup key).getD 0

def add (s : Sources) (c : Complex) : Sources :=
  let weight := c.specificity.max
  let simples := c.compounds.flatMap Compound.simples
  { weights := simples.foldl (fun ws simple => raise simple.key weight ws) s.weights }

def addList (s : Sources) (l : SelectorList) : Sources := l.foldl add s

def weightOf (s : Sources) (c : Complex) : Nat :=
  (c.compounds.flatMap Compound.simples).foldr (fun simple w => Nat.max (s.get simple.key) w) 0

end Sources

namespace Trim

/-- Whether a complex selector makes another one superfluous that was generated from selectors of
the given weight. -/
def covers (weight : Nat) (c d : Complex) : Bool :=
  weight ≤ c.specificity.min && c.isSuperselectorOf d

/-- Trims selectors from the last to the first. `kept` holds those kept so far in the order in which
they were met. Given ones are only freed of repetition. -/
def trimFrom (sources : Sources) (isGiven : Complex → Bool) :
    List Complex → List Complex → Traced (List Complex)
  | [], kept => return kept.reverse
  | c :: earlier, kept =>
    if isGiven c then
      if kept.any fun o => isGiven o && o.equal c then trimFrom sources isGiven earlier kept
      else trimFrom sources isGiven earlier (kept ++ [c])
    else
      let weight := sources.weightOf c
      match (kept ++ earlier.reverse).find? (covers weight · c) with
      | some cover => do
        Traced.report (.trimmed c cover)
        trimFrom sources isGiven earlier kept
      | none => trimFrom sources isGiven earlier (kept ++ [c])

end Trim

/-- Leaves out generated selectors that others cover, unless there are more than `limit`. -/
def trim (sources : Sources) (limit : Int) (isGiven : Complex → Bool) (l : List Complex) :
    Traced (List Complex) := do
  if limit < l.length then
    Traced.report (.tooManyToTrim l.length limit)
    return l
  Trim.trimFrom sources isGiven l.reverse []

end SelectorCalculus
