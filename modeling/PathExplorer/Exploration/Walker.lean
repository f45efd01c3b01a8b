import PathExplorer.Exploration.Interpreter
import PathExplorer.Program.Graph

namespace PathExplorer

/-- Whether `next` was visited since the method of `entry` was last entered.  The entry is visited
once in an activation, so what lies before its last visit belongs to other activations. -/
def State.visitedSince (s : State) (entry next : Stmt) : Bool :=
  scan (s.stmt :: s.earlier)
where
  scan : List Stmt → Bool
    | [] => false
    | x :: xs => x = next || (x ≠ entry && scan xs)

namespace View

variable (v : View)

def fallThrough (s : State) : Except Fault (List State) := do
  let flow ← v.flow s.method
  let next ← flow.successors s.stmt
  return (next.filter fun n => !s.visitedSince flow.entry n).map s.advance

def enterAll (s : State) (callees : List Method) : Except Fault (List State) :=
  (callees.filter fun m => !s.stack.holds m).mapM fun m => do
    let flow ← v.flow m
    return s.enter flow.entry

def successors (s : State) : Except Fault (List State) := do
  let flow ← v.flow s.method
  match ← flow.kind s.stmt with
  | .plain => v.fallThrough s
  | .call =>
    let callees := v.callees s.stmt
    if callees.isEmpty then v.fallThrough s else v.enterAll s callees
  | .ret =>
    match s.resume? with
    | some resumed => v.fallThrough resumed
    | none => return []
  | .throw => return []

end View

structure Walker where
  view : View

instance : Interpreter Walker where
  step s w := (w.view.successors s, w)

end PathExplorer
