import PathExplorer.Ascending
import PathExplorer.Program.Graph
import PathExplorer.Search.Breadth

namespace PathExplorer

structure Route where
  methods : List Method
deriving DecidableEq

namespace Route

def length (r : Route) : Nat := r.methods.length

def isEmpty (r : Route) : Bool := r.methods.isEmpty

def hops (r : Route) : Nat := r.length - 1

def first? (r : Route) : Option Method := r.methods.head?

def target? (r : Route) : Option Method := r.methods.getLast?

end Route

def View.callTree (v : View) (start : Method) : SearchTree Method :=
  match explore (v.calls.length + 1) (fun m => (.ok (v.calleesOf m) : Except Empty _)) start with
  | .ok tree => tree

/-- Shortest routes from `start` to those of the targets that it reaches, in the order of the
targets.  The start itself is reached by the route that stays in it. -/
def View.routes (v : View) (start : Method) (targets : Ascending Method) : List Route :=
  if targets.isEmpty then [] else
    let tree := v.callTree start
    targets.toList.filterMap fun m => (tree.pathTo? m).map Route.mk

def Flow.tree (f : Flow) (start : Stmt) : Except Fault (SearchTree Stmt) :=
  if start ∈ f then explore f.size f.successors start else .error (.stmtNotFound start)

/-- The distances of the targets from `start`.  A target that lies only behind is unreachable. -/
def Flow.distances (f : Flow) (start : Stmt) (targets : Ascending Stmt) :
    Except Fault (List (Stmt × Distance)) := do
  let tree ← f.tree start
  return targets.toList.map fun s => (s, tree.distanceTo s)

end PathExplorer
