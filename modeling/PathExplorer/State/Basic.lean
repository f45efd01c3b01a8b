import PathExplorer.State.Stack

namespace PathExplorer

/-- A token for something outside that has to be released when the state carrying it goes. -/
structure Resource where
  id : Nat
deriving DecidableEq

structure State where
  stmt : Stmt
  stack : Stack
  /-- Statements visited before the current one, the latest first. -/
  earlier : List Stmt := []
  resource : Option Resource := none
deriving DecidableEq

namespace State

def root (s : Stmt) : State := { stmt := s, stack := .root s.method }

variable (s : State)

def method : Method := s.stmt.method

def path : List Stmt := (s.stmt :: s.earlier).reverse

def depth : Nat := s.earlier.length + 1

def hasVisited (x : Stmt) : Bool := x ∈ s.stmt :: s.earlier

def withHistory (history : List Stmt) : State := { s with earlier := history.reverse }

/-- The state with a resource, which takes the place of one it had. -/
def attach (r : Resource) : State := { s with resource := some r }

def holdsResource : Bool := s.resource.isSome

def released : State := { s with resource := none }

def toRelease : List Resource := s.resource.toList

def follow (next : Stmt) (stack : Stack) : State :=
  { stmt := next, stack, earlier := s.stmt :: s.earlier }

def advance (next : Stmt) : State := s.follow next s.stack

/-- Enter the method of `entry`; its return is going to resume at the current statement. -/
def enter (entry : Stmt) : State := s.follow entry (s.stack.push entry.method s.stmt)

/-- Leave the innermost frame and stand again on the statement that called it. -/
def resume? : Option State :=
  match s.stack with
  | .push below _ site => some (s.follow site below)
  | _ => none

end State

inductive Move where
  | advance (next : Stmt)
  | enter (entry : Stmt)
  | resume
deriving DecidableEq

def Move.next? : Move → State → Option State
  | .advance next, s => some (s.advance next)
  | .enter entry, s => some (s.enter entry)
  | .resume, s => s.resume?

namespace State

variable {s : State}

@[simp] theorem path_follow (s : State) (next : Stmt) (stack : Stack) :
    (s.follow next stack).path = s.path ++ [next] := by
  simp [path, follow]

@[simp] theorem length_path (s : State) : s.path.length = s.depth := by
  simp [path, depth]

theorem hasVisited_iff {x : Stmt} : s.hasVisited x ↔ x ∈ s.path := by
  simp [hasVisited, path, or_comm]

theorem path_withHistory (s : State) (history : List Stmt) :
    (s.withHistory history).path = history ++ [s.stmt] := by
  simp [path, withHistory]

theorem resource_of_next {m : Move} {t : State} (h : m.next? s = some t) : t.resource = none := by
  cases m with
  | advance next => cases h; rfl
  | enter entry => cases h; rfl
  | resume =>
    simp only [Move.next?, resume?] at h
    split at h
    · cases h; rfl
    · cases h

def debugText (s : State) : String :=
  let stmt := s!"StmtId \x7b method: MethodId({s.stmt.method.index}), index: {s.stmt.index} \x7d"
  let standing := s!"stmt: {stmt}, stack: {s.stack.debugText}"
  s!"ExecutionState \x7b {standing}, depth: {s.depth}, has_resources: {s.holdsResource} \x7d"

end State

end PathExplorer
