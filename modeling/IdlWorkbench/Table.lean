/-!
# Tables

A table maps keys to values and remembers the order in which its keys came: a new key goes to the end, a
value put under a known key replaces the old one in place.
-/

namespace IdlWorkbench

abbrev Table (κ α : Type) := List (κ × α)

namespace Table

variable {κ α : Type} [BEq κ]

def find? (t : Table κ α) (key : κ) : Option α := List.lookup key t

def contains (t : Table κ α) (key : κ) : Bool := (t.find? key).isSome

def insert : Table κ α → κ → α → Table κ α
  | [], key, a => [(key, a)]
  | (k, b) :: rest, key, a => if k == key then (k, a) :: rest else (k, b) :: insert rest key a

def insertAll (t new : Table κ α) : Table κ α := new.foldl (fun t (key, a) => t.insert key a) t

def erase (t : Table κ α) (key : κ) : Table κ α := t.filter fun (k, _) => !(k == key)

def modify (t : Table κ α) (key : κ) (f : α → α) : Table κ α :=
  t.map fun (k, a) => (k, if k == key then f a else a)

def keys (t : Table κ α) : List κ := t.map (·.1)

def values (t : Table κ α) : List α := t.map (·.2)

end Table

end IdlWorkbench
