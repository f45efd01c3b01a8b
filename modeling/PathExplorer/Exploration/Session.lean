import PathExplorer.Exploration.Interpreter
import PathExplorer.Exploration.Report
import PathExplorer.Exploration.Selector
import PathExplorer.Goals.Tracker
import PathExplorer.Settings.Basic

namespace PathExplorer

structure Session (φ ι : Type) where
  settings : ExplorationSettings
  goals : Registry
  frontier : φ
  interpreter : ι
  tracker : GoalTracker := .ofRegistry goals
  steps : Nat := 0
  statesOffered : Nat := 0
  pathsCompleted : Nat := 0
  reached : List ReachedGoal := []
  released : List Resource := []

abbrev Ending := Except Fault StopReason

namespace Session

def allReleased {ω χ τ ι : Type} (s : Session (Frontier ω χ τ) ι) : List Resource :=
  s.released ++ s.frontier.released

variable {φ ι : Type} (s : Session φ ι)

def release (state : State) : Session φ ι :=
  { s with released := state.toRelease ++ s.released }

variable [PathSelector φ]

def offer (state : State) : Session φ ι :=
  { s with
    frontier := (PathSelector.offer s.frontier state).2
    statesOffered := s.statesOffered + 1 }

def offerAll (states : List State) : Session φ ι := states.foldl (fun s state => s.offer state) s

/-- The first reason to stop: all of at least one goal reached, the steps used up, the stop rule. -/
def stopReason? : Option StopReason :=
  if s.settings.stopWhenSatisfied && !s.goals.isEmpty && s.tracker.pending.isEmpty then
    some .goalsSatisfied
  else if s.settings.stepsLimit.any fun limit => limit.toNat ≤ s.steps then some .stepsLimit
  else if PathSelector.stops s.frontier then some (.strategy (PathSelector.stopName s.frontier))
  else none

def visit (state : State) : Session φ ι :=
  { s with
    steps := s.steps + 1
    frontier := PathSelector.onVisit state s.frontier
    tracker := s.tracker.observe state
    reached := s.reached ++ (s.tracker.fresh state).map fun g => ⟨g, s.steps + 1⟩ }

def complete (state : State) : Session φ ι :=
  { s with
    pathsCompleted := s.pathsCompleted + 1
    frontier := PathSelector.onTraversed state s.frontier }

variable [Interpreter ι]

def execute (state : State) : Option Ending × Session φ ι :=
  let s := s.visit state
  let (outcome, interpreter) := Interpreter.step state s.interpreter
  let s := { s with interpreter }
  match outcome with
  | .error fault => (some (.error fault), s.release state)
  | .ok next =>
    let s := if next.isEmpty then s.complete state else s
    (none, (s.offerAll next).release state)

/-- One round; how the exploration ends if it ends here. -/
def round : Option Ending × Session φ ι :=
  match s.stopReason? with
  | some reason => (some (.ok reason), s)
  | none =>
    let (polled, frontier) := PathSelector.poll s.frontier
    let s := { s with frontier }
    match polled with
    | .error fault => (some (.error fault), s)
    | .ok none => (some (.ok .frontierExhausted), s)
    | .ok (some state) => s.execute state

def run : Nat → Session φ ι → Option Ending × Session φ ι
  | 0, s => (none, s)
  | n + 1, s =>
    match s.round with
    | (none, s) => run n s
    | ended => ended

def close : Session φ ι := { s with frontier := PathSelector.close s.frontier }

def report (reason : StopReason) : Report where
  steps := s.steps
  statesOffered := s.statesOffered
  pathsCompleted := s.pathsCompleted
  goalsReached := s.reached
  goalPairs := s.goals.size
  stopReason := reason
  selector := PathSelector.stats s.frontier

end Session

/-- Explore from some states for at most `rounds` rounds and close the frontier.  The outcome is
none when the exploration has not ended by then. -/
def Session.explore {φ ι : Type} [PathSelector φ] [Interpreter ι] (s : Session φ ι) (rounds : Nat)
    (initial : List State) : Option (Except Fault Report) × Session φ ι :=
  let (ending, s) := (s.offerAll initial).run rounds
  let s := s.close
  (ending.map fun e => e.map s.report, s)

end PathExplorer
