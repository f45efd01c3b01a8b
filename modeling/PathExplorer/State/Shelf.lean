import PathExplorer.State.Basic

namespace PathExplorer

structure Shelf where
  places : List (Nat × State) := []
  log : List Resource := []

namespace Shelf

variable (shelf : Shelf)

def get? (place : Nat) : Option State := shelf.places.lookup place

def discard (place : Nat) : Shelf where
  places := shelf.places.filter (·.1 ≠ place)
  log := ((shelf.get? place).elim [] State.toRelease) ++ shelf.log

/-- Put a state on a place; the state that was there goes. -/
def put (place : Nat) (s : State) : Shelf :=
  let cleared := shelf.discard place
  { cleared with places := (place, s) :: cleared.places }

def alter (place : Nat) (f : State → State) : Shelf :=
  { shelf with places := shelf.places.map fun p => if p.1 = place then (p.1, f p.2) else p }

def attach (place : Nat) (r : Resource) : Shelf := shelf.alter place (·.attach r)

def release (place : Nat) : Shelf :=
  { shelf.alter place State.released with
    log := ((shelf.get? place).elim [] State.toRelease) ++ shelf.log }

def go (place source : Nat) (m : Move) : Shelf :=
  match shelf.get? source >>= m.next? with
  | some s => shelf.put place s
  | none => shelf

def clear : Shelf where
  log := (shelf.places.flatMap fun p => p.2.toRelease) ++ shelf.log

end Shelf

end PathExplorer
