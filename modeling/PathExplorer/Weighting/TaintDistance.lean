import PathExplorer.Goals.Registry
import PathExplorer.Memo.Basic
import PathExplorer.Memo.Lru
import PathExplorer.Settings.Basic
import PathExplorer.Weighting.Basic

namespace PathExplorer

structure Coefficients where
  inner : UInt32
  inter : UInt32
deriving DecidableEq

structure Estimate where
  route : Option Route
  /-- How many stack levels return before the route begins. -/
  framesToReturn : Nat
  inner : Distance
  combined : Distance
deriving DecidableEq

namespace Estimate

def unreachable : Estimate := ⟨none, 0, .unreachable, .unreachable⟩

def weight (e : Estimate) : Weight := .ofDistance e.combined

def hops (e : Estimate) : Nat := e.route.elim 0 Route.hops

end Estimate

/-- A stack level: its method, and where the execution stands in it or is going to resume. -/
structure Level where
  method : Method
  stand : Stmt
deriving DecidableEq

def Stack.levels : Stack → Stmt → List Level
  | .empty, _ => []
  | .root m, here => [⟨m, here⟩]
  | .push below m site, here => ⟨m, here⟩ :: below.levels site

/-- The levels that a way to a goal can start from.  A state that stands where its innermost frame
resumes has left that frame; without any level left, its own method is the only one. -/
def State.levels (s : State) : Except Fault (List Level) :=
  match s.stack.top? with
  | none => .ok [⟨s.method, s.stmt⟩]
  | some top =>
    if top.method = s.method then .ok (s.stack.levels s.stmt)
    else if top.site? = some s.stmt then
      match s.stack.pop.levels s.stmt with
      | [] => .ok [⟨s.method, s.stmt⟩]
      | levels => .ok levels
    else .error (.inconsistentStack s.stmt top.method)

def Registry.visitedSources (r : Registry) (s : State) : Ascending Source :=
  r.sources.filter fun source => s.hasVisited source.stmt

def Registry.targets (r : Registry) (s : State) : Ascending Stmt :=
  let visited := r.visitedSources s
  if visited.isEmpty then r.sources.map (·.stmt)
  else (r.sinksFor visited.toList).map (·.stmt)

/-- The first level from which some target method is reached, with the levels that return before it
and a shortest route; among routes of one length, the one to the least method. -/
def View.firstRoute (v : View) (targets : Ascending Method) :
    List Level → Option (List Level × Level × Route)
  | [] => none
  | level :: outer =>
    match (v.routes level.method targets).minOn? Route.length with
    | some route => some ([], level, route)
    | none => (v.firstRoute targets outer).map fun (inner, found) => (level :: inner, found)

def SearchTree.nearest (t : SearchTree Stmt) (stmts : List Stmt) : Distance :=
  .least (stmts.map t.distanceTo)

abbrev Trees := Lru Stmt (SearchTree Stmt)

structure TaintDistance where
  view : View
  goals : Registry
  coefficients : Coefficients
  memo : Memo Trees

namespace TaintDistance

def ofSettings (view : View) (goals : Registry) (settings : SelectorSettings) :
    Except Fault TaintDistance := do
  let s ← accept settings
  return { view, goals, coefficients := ⟨s.inner, s.inter⟩, memo := .ofCapacity s.capacity.toNat }

variable (v : View)

/-- Statements until each of the levels has returned. -/
def returning : List Level → Recall Trees Distance
  | [] => return .zero
  | level :: levels => do
    let flow ← v.flow level.method
    let tree ← Memo.tree v level.stand
    return tree.nearest flow.returns + (← returning levels)

def startIn (m : Method) (stand : Option Stmt) : Recall Trees Stmt :=
  match stand with
  | some s => return s
  | none => return (← v.flow m).entry

/-- Statements along a route that is in `m` and goes on through `rest`: to a call of each next
method, and to a target in the last one. -/
def along (targets : Ascending Stmt) (stand : Option Stmt) (m : Method) :
    List Method → Recall Trees Distance
  | [] => do
    let tree ← Memo.tree v (← startIn v m stand)
    return tree.nearest (targets.toList.filter (·.method = m))
  | next :: rest => do
    let sites ← Memo.sitesInto v m next
    for site in sites do
      discard (Memo.join v ⟨site, next⟩)
    let tree ← Memo.tree v (← startIn v m stand)
    return tree.nearest sites + (← along targets none next rest)

def alongRoute (targets : Ascending Stmt) (level : Level) (route : Route) : Recall Trees Distance :=
  match route.methods with
  | m :: rest => along v targets (some level.stand) m rest
  | [] => return .zero

def Coefficients.combine (c : Coefficients) (inner : Distance) (hops : Nat) : Distance :=
  inner.scale c.inner.toUInt64 + .ofNat (hops * c.inter.toNat)

def estimating (goals : Registry) (c : Coefficients) (s : State) : Recall Trees Estimate := do
  let levels ← s.levels
  let targets := goals.targets s
  match v.firstRoute (targets.map (·.method)) levels with
  | none => return .unreachable
  | some (inner, level, route) =>
    let inside ← returning v inner
    let outside ← alongRoute v targets level route
    let total := inside + outside
    return ⟨some route, inner.length, total, Coefficients.combine c total route.hops⟩

def estimate (s : State) (t : TaintDistance) : Except Fault Estimate × TaintDistance :=
  let (result, memo) := (estimating t.view t.goals t.coefficients s).run t.memo
  (result, { t with memo })

end TaintDistance

instance : Weighting TaintDistance where
  name _ := "taint-distance"
  weigh s t :=
    let (result, t) := t.estimate s
    (result.map Estimate.weight, t)

end PathExplorer
