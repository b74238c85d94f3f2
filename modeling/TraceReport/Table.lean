namespace TraceReport

/-- Pairs in ascending key order, one for each key. -/
abbrev Table (κ ν : Type) := List (κ × ν)

namespace Table

variable {κ ν : Type} [LT κ] [DecidableLT κ]

/-- Writes a pair in its place; a pair already under the key is replaced. -/
def insert (key : κ) (value : ν) : Table κ ν → Table κ ν
  | [] => [(key, value)]
  | (k, v) :: rest =>
    if key < k then (key, value) :: (k, v) :: rest
    else if k < key then (k, v) :: insert key value rest
    else (key, value) :: rest

def erase (key : κ) : Table κ ν → Table κ ν
  | [] => []
  | (k, v) :: rest =>
    if key < k then (k, v) :: rest
    else if k < key then (k, v) :: erase key rest
    else rest

def find? (key : κ) : Table κ ν → Option ν
  | [] => none
  | (k, v) :: rest =>
    if key < k then none
    else if k < key then find? key rest
    else some v

/-- Writes pairs one after the other, so the last under a key stays. -/
def insertAll (table : Table κ ν) (pairs : List (κ × ν)) : Table κ ν :=
  pairs.foldl (fun t (k, v) => insert k v t) table

def ofPairs (pairs : List (κ × ν)) : Table κ ν := insertAll [] pairs

end Table
end TraceReport
