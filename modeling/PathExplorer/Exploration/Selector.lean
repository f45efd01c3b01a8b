import PathExplorer.Frontier.Basic

namespace PathExplorer

/-- What an exploration asks of the selector that holds its waiting states. -/
class PathSelector (φ : Type) where
  offer : φ → State → Ticket × φ
  poll : φ → Except Fault (Option State) × φ
  close : φ → φ
  stats : φ → FrontierStats
  stops : φ → Bool
  stopName : φ → String
  onVisit : State → φ → φ
  onTraversed : State → φ → φ

instance {ω χ τ : Type} [StopRule τ] [Weighting ω] [ChoiceRule χ] :
    PathSelector (Frontier ω χ τ) where
  offer := Frontier.offer
  poll f := f.poll
  close := Frontier.close
  stats := Frontier.stats
  stops f := StopRule.stops f.stop
  stopName f := StopRule.name f.stop
  onVisit s f := { f with stop := StopRule.onVisit s f.stop }
  onTraversed s f := { f with stop := StopRule.onTraversed s f.stop }

end PathExplorer
