import PathExplorer.Exploration.Report
import PathExplorer.Settings.Basic
import PathExplorer.Text.Format

namespace PathExplorer

namespace Stmt

def toJson (s : Stmt) : Json :=
  .ofFields [("method", .natural s.method.index), ("index", .natural s.index)]

def ofJson? (j : Json) : Option Stmt := do
  match ← j.slots? ["method", "index"] with
  | [method, index] =>
    return ⟨⟨← required (Json.nat? greatest32) method⟩, ← required (Json.nat? greatest32) index⟩
  | _ => none

end Stmt

namespace ReachedGoal

def pointJson (s : Stmt) : Json := .ofFields [("stmt", s.toJson)]

def pointOfJson? (j : Json) : Option Stmt := do
  match ← j.slots? ["stmt"] with
  | [stmt] => required Stmt.ofJson? stmt
  | _ => none

def toJson (r : ReachedGoal) : Json :=
  .ofFields [("source", pointJson r.goal.source.stmt), ("sink", pointJson r.goal.sink.stmt),
    ("step", .natural r.step)]

def ofJson? (j : Json) : Option ReachedGoal := do
  match ← j.slots? ["source", "sink", "step"] with
  | [source, sink, step] =>
    let source ← required pointOfJson? source
    let sink ← required pointOfJson? sink
    return ⟨⟨⟨source⟩, ⟨sink⟩⟩, ← required (Json.nat? greatest64) step⟩
  | _ => none

end ReachedGoal

namespace StopReason

def toJson : StopReason → Json
  | .frontierExhausted => .text "frontier_exhausted"
  | .stepsLimit => .text "steps_limit"
  | .goalsSatisfied => .text "goals_satisfied"
  | .strategy name => .ofFields [("strategy", .text name)]

def ofJson? (j : Json) : Option StopReason := do
  let (name, value) ← j.choice?
  match name with
  | "frontier_exhausted" => if Json.isBare value then some .frontierExhausted else none
  | "steps_limit" => if Json.isBare value then some .stepsLimit else none
  | "goals_satisfied" => if Json.isBare value then some .goalsSatisfied else none
  | "strategy" => (value >>= Json.text?).map .strategy
  | _ => none

end StopReason

namespace FrontierStats

def fieldNames : List String := ["offered", "polled", "removed", "weighted", "released_on_close"]

def numbers (s : FrontierStats) : List Nat :=
  [s.offered, s.polled, s.removed, s.weighted, s.releasedOnClose]

def toJson (s : FrontierStats) : Json :=
  .ofFields ((fieldNames.zip s.numbers).map fun f => (f.1, .natural f.2))

def ofJson? (j : Json) : Option FrontierStats := do
  match ← (← j.slots? fieldNames).mapM (required (Json.nat? greatest64)) with
  | [offered, polled, removed, weighted, releasedOnClose] =>
    return { offered, polled, removed, weighted, releasedOnClose }
  | _ => none

end FrontierStats

namespace Report

def toJson (r : Report) : Json :=
  .ofFields [
    ("steps", .natural r.steps),
    ("states_offered", .natural r.statesOffered),
    ("paths_completed", .natural r.pathsCompleted),
    ("goals_reached", .list (r.goalsReached.map ReachedGoal.toJson)),
    ("goal_pairs", .natural r.goalPairs),
    ("stop_reason", r.stopReason.toJson),
    ("selector", r.selector.toJson)]

def ofJson? (j : Json) : Option Report := do
  match ← j.slots? ["steps", "states_offered", "paths_completed", "goals_reached", "goal_pairs",
      "stop_reason", "selector"] with
  | [steps, offered, completed, reached, pairs, reason, selector] => return {
      steps := ← required (Json.nat? greatest64) steps
      statesOffered := ← required (Json.nat? greatest64) offered
      pathsCompleted := ← required (Json.nat? greatest64) completed
      goalsReached := ← required (Json.items? ReachedGoal.ofJson?) reached
      goalPairs := ← required (Json.nat? greatest64) pairs
      stopReason := ← required StopReason.ofJson? reason
      selector := ← required FrontierStats.ofJson? selector }
  | _ => none

def jsonText (json : Format Json) (r : Report) : String := json.write r.toJson

def ofJsonText? (json : Format Json) (text : String) : Option Report := json.read? text >>= ofJson?

end Report

end PathExplorer
