import SelectorCalculus.Selector.Key
/-! Maps from compounds to values that find every value whose compound is part of a given one. -/

namespace SelectorCalculus

structure Filed where
  keys : List String
  number : Nat
  deriving DecidableEq, Repr

/-- Values in the order in which they were put, and under each key the compounds that have it. -/
structure CompoundIndex (α : Type u) where
  values : List α := []
  index : List (String × List Filed) := []

namespace CompoundIndex

def file (entry : Filed) (key : String) : List (String × List Filed) → List (String × List Filed)
  | [] => [(key, [entry])]
  | (k, filed) :: rest =>
    if k = key then (k, filed ++ [entry]) :: rest else (k, filed) :: file entry key rest

variable {α : Type u}

def size (m : CompoundIndex α) : Nat := m.values.length

def filedUnder (m : CompoundIndex α) (key : String) : List Filed := (m.index.lookup key).getD []

/-- Adds a value under a compound, which must not be empty. A simple selector that occurs twice in
it is filed once. -/
def insert? (m : CompoundIndex α) (c : Compound) (value : α) : Option (CompoundIndex α) :=
  if c.isEmpty then none
  else
    let keys := c.simples.map Simple.key
    let entry : Filed := { keys, number := m.size }
    let index := keys.eraseDups.foldl (fun index key => file entry key index) m.index
    some { values := m.values ++ [value], index }

/-- The numbers of the values whose compounds have no other keys than the given ones. A number is
listed once for every key under which it is found. -/
def search (m : CompoundIndex α) (keys : List String) : List Nat :=
  ((keys.flatMap m.filedUnder).filter fun entry => entry.keys.all keys.contains).map Filed.number

/-- The values whose compounds are part of a given one, each once and in order. -/
def get (m : CompoundIndex α) (c : Compound) : List α :=
  let found := m.search (c.simples.map Simple.key)
  (m.values.zipIdx.filter fun entry => found.contains entry.2).map Prod.fst

end CompoundIndex

end SelectorCalculus
