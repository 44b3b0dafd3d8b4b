/-!
# Unique names

A name table holds the names in use within one unit: a function or a module. A request for a name
that is in use is answered with the name followed by a number. The table's counter makes sure that a
number is not tried twice, and it is increased until the numbered name is free.

With `n` names in use one of the next `n + 1` numbers is free, so the search is bounded.
-/

namespace BlockCompiler

/-- The names in use, and the number that was tried last. -/
structure NameTable where
  used : List String := []
  counter : Nat := 0
deriving DecidableEq, Repr

namespace NameTable

/-- A name with a number behind it. -/
def numbered (base joiner : String) (k : Nat) : String := base ++ joiner ++ toString k

/-- The first number above the counter under which `base` is free. -/
def firstFree (t : NameTable) (base joiner : String) : Nat :=
  let candidates := (List.range (t.used.length + 1)).map (t.counter + 1 + ·)
  (candidates.find? fun k ↦ numbered base joiner k ∉ t.used).getD (t.counter + 1)

/-- Takes a name into use, with a number behind `joiner` if it is in use already. -/
def add (t : NameTable) (joiner wanted : String) : String × NameTable :=
  if wanted ∈ t.used then
    let k := t.firstFree wanted joiner
    let name := numbered wanted joiner k
    (name, { used := name :: t.used, counter := k })
  else (wanted, { t with used := wanted :: t.used })

def release (t : NameTable) (name : String) : NameTable := { t with used := t.used.erase name }

/-- Gives a thing called `old` a new name. The old name is freed first, and nothing happens if the
thing is called so already. -/
def rename (t : NameTable) (joiner old wanted : String) : String × NameTable :=
  if old = wanted then (old, t) else (t.release old).add joiner wanted

end NameTable

end BlockCompiler
