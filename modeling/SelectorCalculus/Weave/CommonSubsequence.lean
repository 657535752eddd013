/-! Longest common subsequences, where a selection says which two elements count as common. -/

namespace SelectorCalculus

/-- The cells of a row of the table to the right of `left`. Each cell holds a longest common
subsequence of two initial segments, last element first. -/
def nextCells (select : α → β → Option γ) (x : α) :
    List β → List (List γ) → List γ → List (List γ)
  | y :: ys, diagonal :: above :: row, left =>
    let cell := match select x y with
      | some v => v :: diagonal
      | none => if above.length < left.length then left else above
    cell :: nextCells select x ys (above :: row) cell
  | _, _, _ => []

def nextRow (select : α → β → Option γ) (ys : List β) (row : List (List γ)) (x : α) :
    List (List γ) :=
  [] :: nextCells select x ys row []

/-- A longest list of values selected from pairs that increase in both lists. -/
def longestCommon (select : α → β → Option γ) (xs : List α) (ys : List β) : List γ :=
  let row := xs.foldl (nextRow select ys) (List.replicate (ys.length + 1) [])
  (row.getLast?.getD []).reverse

def longerOf? [DecidableEq α] (xs ys : List α) : Option (List α) :=
  let common := longestCommon (fun x y => if x = y then some x else none) xs ys
  if common = xs then some ys
  else if common = ys then some xs
  else none

end SelectorCalculus
