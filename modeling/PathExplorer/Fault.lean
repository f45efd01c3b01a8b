import PathExplorer.Goals.Point
import PathExplorer.Settings.Fault

namespace PathExplorer

inductive Fault where
  | methodNotFound (method : Method)
  | stmtNotFound (stmt : Stmt)
  /-- The current statement is neither in the innermost frame's method nor the one at which that
  frame resumes its caller. -/
  | inconsistentStack (current : Stmt) (top : Method)
  | emptySinkSet (source : Source)
  | settings (fault : SettingsFault)
  | interpreter (reason : String)
deriving DecidableEq

namespace Fault

def message : Fault → String
  | methodNotFound m => s!"Method not found in program graph: {m}"
  | stmtNotFound s => s!"Statement not found in control-flow graph: {s}"
  | inconsistentStack current top =>
    s!"Inconsistent execution stack: current statement {current} is not in top method {top}"
  | emptySinkSet source => s!"Taint source {source} has an empty sink set"
  | settings fault => s!"Configuration error: {fault.message}"
  | interpreter reason => s!"Interpreter error: {reason}"

def isContractViolation : Fault → Bool
  | inconsistentStack .. => true
  | _ => false

end Fault

end PathExplorer
