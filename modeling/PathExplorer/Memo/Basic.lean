import PathExplorer.Memo.Cache
import PathExplorer.Search.Route

namespace PathExplorer

structure MemoStats where
  hits : Nat := 0
  misses : Nat := 0
  evictions : Nat := 0
  joins : Nat := 0
deriving DecidableEq

def MemoStats.hitRate (s : MemoStats) : Float :=
  if s.hits + s.misses = 0 then 0
  else (UInt64.ofNat s.hits).toFloat / (UInt64.ofNat (s.hits + s.misses)).toFloat

/-- What is remembered of a program, the search trees in a store `σ`. -/
structure Memo (σ : Type) where
  trees : σ
  sites : List ((Method × Method) × List Stmt) := []
  joined : List Call := []
  /-- Edges between methods: from a call site to the entry of the callee, and from the returns of
  the callee to the statements that follow the site. -/
  stitches : List (Stmt × Stmt) := []
  stats : MemoStats := {}

/-- A computation that may fail and that reads and extends a memo, also when it fails. -/
abbrev Recall (σ : Type) := ExceptT Fault (StateM (Memo σ))

namespace Memo

variable {σ : Type}

def isJoined (memo : Memo σ) (c : Call) : Bool := c ∈ memo.joined

def stitchedFrom (memo : Memo σ) (s : Stmt) : List Stmt :=
  (memo.stitches.filter (·.1 = s)).map (·.2)

def hit (trees : σ) (memo : Memo σ) : Memo σ :=
  { memo with trees, stats := { memo.stats with hits := memo.stats.hits + 1 } }

def miss (trees : σ) (memo : Memo σ) : Memo σ :=
  { memo with trees, stats := { memo.stats with misses := memo.stats.misses + 1 } }

/-- Edges that stitch a callee behind a call site, given what follows the site. -/
def seams (site : Stmt) (callee : Flow) (resume : List Stmt) : List (Stmt × Stmt) :=
  (site, callee.entry) :: callee.returns.flatMap fun r => resume.map (r, ·)

def stitch (c : Call) (callee : Flow) (resume : List Stmt) (memo : Memo σ) : Memo σ :=
  { memo with
    joined := c :: memo.joined
    stitches := (memo.stitches ++ seams c.site callee resume).eraseDups
    stats := { memo.stats with joins := memo.stats.joins + 1 } }

section Trees

variable [Cache σ Stmt (SearchTree Stmt)]

def ofCapacity (n : Nat) : Memo σ := { trees := Cache.withRoom (max n 1) (by omega) }

/-- Forget everything but the counters. -/
def clear (memo : Memo σ) : Memo σ := { trees := Cache.clear memo.trees, stats := memo.stats }

def store (start : Stmt) (tree : SearchTree Stmt) (memo : Memo σ) : Memo σ :=
  let (given, trees) := Cache.push memo.trees start tree
  { memo with
    trees
    stats := { memo.stats with
      evictions := memo.stats.evictions + (if given.isSome then 1 else 0) } }

def tree (v : View) (start : Stmt) : Recall σ (SearchTree Stmt) := do
  match Cache.get? (← get).trees start with
  | (some found, trees) =>
    modify (hit trees)
    return found
  | (none, trees) =>
    modify (miss trees)
    let flow ← v.flow start.method
    let found ← flow.tree start
    modify (store start found)
    return found

end Trees

variable (v : View)

def sitesInto (caller callee : Method) : Recall σ (List Stmt) := do
  match (← get).sites.lookup (caller, callee) with
  | some found => return found
  | none =>
    let flow ← v.flow caller
    let found := flow.stmts.filter fun s => callee ∈ v.callees s
    modify fun memo => { memo with sites := ((caller, callee), found) :: memo.sites }
    return found

/-- Join a call unless it is joined already; whether it was joined now. -/
def join (c : Call) : Recall σ Bool := do
  if (← get).isJoined c then
    return false
  else
    let callee ← v.flow c.callee
    let caller ← v.flow c.caller
    let resume ← caller.successors c.site
    modify (stitch c callee resume)
    return true

end Memo

end PathExplorer
