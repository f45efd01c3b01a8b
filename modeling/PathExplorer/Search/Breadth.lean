import PathExplorer.Metric.Distance

namespace PathExplorer

variable {N : Type} [DecidableEq N] {ε : Type}

structure Visit (N : Type) where
  node : N
  behind : List N

def Visit.distance (v : Visit N) : Nat := v.behind.length

def Visit.path (v : Visit N) : List N := (v.node :: v.behind).reverse

/-- What a search found, in the order of discovery. -/
structure SearchTree (N : Type) where
  start : N
  visits : List (Visit N)

namespace SearchTree

def visit? (t : SearchTree N) (n : N) : Option (Visit N) := t.visits.find? (·.node = n)

def reaches (t : SearchTree N) (n : N) : Bool := (t.visit? n).isSome

def distanceTo (t : SearchTree N) (n : N) : Distance :=
  match t.visit? n with
  | some v => .ofNat v.distance
  | none => .unreachable

def pathTo? (t : SearchTree N) (n : N) : Option (List N) := (t.visit? n).map Visit.path

def size (t : SearchTree N) : Nat := t.visits.length

end SearchTree

def discover (seen : List (Visit N)) (v : Visit N) (ns : List N) : List (Visit N) :=
  ((ns.filter fun n => seen.all (·.node ≠ n)).eraseDups).map fun n => ⟨n, v.node :: v.behind⟩

/-- Expand at most `limit` visits of the queue, those in `done` being expanded already. -/
def expand (next : N → Except ε (List N)) (limit : Nat) (done queue : List (Visit N)) :
    Except ε (List (Visit N)) :=
  match limit, queue with
  | _, [] => .ok done
  | 0, queue => .ok (done ++ queue)
  | limit + 1, v :: queue => do
    let ns ← next v.node
    expand next limit (done ++ [v]) (queue ++ discover (done ++ v :: queue) v ns)

/-- Search from `start`, where at most `limit` nodes can be reached.  The failure of an expanded
node is the failure of the search. -/
def explore (limit : Nat) (next : N → Except ε (List N)) (start : N) :
    Except ε (SearchTree N) := do
  return ⟨start, ← expand next limit [] [⟨start, []⟩]⟩

def searchName : String := "bfs"

end PathExplorer
