import PathExplorer.Frontier.Basic
import PathExplorer.Weighting.TaintDistance

namespace PathExplorer

abbrev TaintFrontier := Frontier TaintDistance HighestWeight NeverStop

abbrev FifoFrontier := Frontier Uniform Fifo NeverStop

def TaintFrontier.ofSettings (view : View) (goals : Registry) (settings : SelectorSettings) :
    Except Fault TaintFrontier := do
  let weighting ← TaintDistance.ofSettings view goals settings
  return { weighting, choice := {}, stop := {} }

def FifoFrontier.new : FifoFrontier := { weighting := {}, choice := {}, stop := {} }

end PathExplorer
