import PathExplorer.Fault
import PathExplorer.State.Basic

namespace PathExplorer

class Interpreter (ι : Type) where
  step : State → ι → Except Fault (List State) × ι

end PathExplorer
