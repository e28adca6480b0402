/-
  Dictionaries.

  A dictionary holds its entries oldest first.  With `unique` a key that is there is not inserted
  again; without, a key may have several entries, and the oldest counts: it is what a lookup finds
  and a removal takes out.
-/

/-- Keys with their data, the oldest first. -/
structure Dict (κ ν : Type) where
  unique : Bool
  entries : List (κ × ν)

namespace Dict

variable {κ ν : Type} [DecidableEq κ] (d : Dict κ ν)

/-- The oldest entry of a key. -/
def lookup (k : κ) : Option ν := (d.entries.find? fun e => e.1 = k).map Prod.snd

/-- Whether an insertion takes place. -/
def admits (k : κ) : Bool := !(d.unique && (d.lookup k).isSome)

/-- A new entry, unless keys are unique and this one is there. -/
def insert (k : κ) (v : ν) : Dict κ ν :=
  if d.admits k then { d with entries := d.entries ++ [(k, v)] } else d

/-- Without the oldest entry of a key. -/
def remove (k : κ) : Dict κ ν := { d with entries := d.entries.eraseP fun e => e.1 = k }

def clear : Dict κ ν := { d with entries := [] }

def size : Nat := d.entries.length

end Dict
