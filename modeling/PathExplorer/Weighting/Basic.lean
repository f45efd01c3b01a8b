import PathExplorer.Fault
import PathExplorer.Metric.Weight
import PathExplorer.State.Basic

namespace PathExplorer

class Weighting (ω : Type) where
  name : ω → String
  weigh : State → ω → Except Fault Weight × ω

structure Uniform where

instance : Weighting Uniform where
  name _ := "uniform"
  weigh _ u := (.ok .zero, u)

end PathExplorer
