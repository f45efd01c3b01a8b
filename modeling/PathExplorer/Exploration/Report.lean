import PathExplorer.Frontier.Basic
import PathExplorer.Goals.Point

namespace PathExplorer

inductive StopReason where
  | frontierExhausted
  | stepsLimit
  | goalsSatisfied
  | strategy (name : String)
deriving DecidableEq

structure ReachedGoal where
  goal : Goal
  step : Nat
deriving DecidableEq

structure Report where
  steps : Nat
  /-- States handed to the frontier, the initial ones included. -/
  statesOffered : Nat
  pathsCompleted : Nat
  goalsReached : List ReachedGoal
  goalPairs : Nat
  stopReason : StopReason
  selector : FrontierStats
deriving DecidableEq

namespace Report

/-- The share of the goals that were reached; 1 when there were none. -/
def coverage (r : Report) : Float :=
  if r.goalPairs = 0 then 1
  else (UInt64.ofNat r.goalsReached.length).toFloat / (UInt64.ofNat r.goalPairs).toFloat

def allGoalsReached (r : Report) : Bool := r.goalsReached.length = r.goalPairs

end Report

end PathExplorer
