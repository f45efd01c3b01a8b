import PathExplorer.Exploration.Document
import PathExplorer.Exploration.Session
import PathExplorer.Exploration.Walker
import PathExplorer.Frontier.Standard
import PathExplorer.Program.Draft
import PathExplorer.Proofs.Exploration.Activation
import PathExplorer.Proofs.Exploration.Budget
import PathExplorer.Proofs.Exploration.CallSites
import PathExplorer.Proofs.Exploration.Coverage
import PathExplorer.Proofs.Exploration.Derivation
import PathExplorer.Proofs.Exploration.Ending
import PathExplorer.Proofs.Exploration.Guided
import PathExplorer.Proofs.Exploration.Interchange
import PathExplorer.Proofs.Exploration.Leaving
import PathExplorer.Proofs.Exploration.LevelOrder
import PathExplorer.Proofs.Exploration.Placed
import PathExplorer.Proofs.Exploration.Reached
import PathExplorer.Proofs.Exploration.Release
import PathExplorer.Proofs.Exploration.Replay
import PathExplorer.Proofs.Exploration.Rootless
import PathExplorer.Proofs.Exploration.Round
import PathExplorer.Proofs.Exploration.Schedule
import PathExplorer.Proofs.Exploration.Tally
import PathExplorer.Proofs.Exploration.Termination
import PathExplorer.Proofs.Exploration.Unfolding
import PathExplorer.Proofs.Exploration.Uniqueness
import PathExplorer.Proofs.Frontier.Contest
import PathExplorer.Proofs.Frontier.Custody
import PathExplorer.Proofs.Frontier.Highest
import PathExplorer.Proofs.Frontier.Insertion
import PathExplorer.Proofs.Frontier.Joined
import PathExplorer.Proofs.Frontier.Ledger
import PathExplorer.Proofs.Frontier.Observing
import PathExplorer.Proofs.Frontier.Ready
import PathExplorer.Proofs.Frontier.Recovery
import PathExplorer.Proofs.Goals.Relation
import PathExplorer.Proofs.Goals.Tracking
import PathExplorer.Proofs.Memo.Recency
import PathExplorer.Proofs.Memo.Stitching
import PathExplorer.Proofs.Program.Adjacency
import PathExplorer.Proofs.Program.Building
import PathExplorer.Proofs.Search.Failure
import PathExplorer.Proofs.Search.Halting
import PathExplorer.Proofs.Search.Shortest
import PathExplorer.Proofs.Settings.RoundTrip
import PathExplorer.Proofs.Settings.Written
import PathExplorer.Proofs.State.Holding
import PathExplorer.Proofs.State.Indexed
import PathExplorer.Proofs.State.Nesting
import PathExplorer.Proofs.Weighting.Completing
import PathExplorer.Proofs.Weighting.Detour
import PathExplorer.Proofs.Weighting.Estimate
import PathExplorer.Proofs.Weighting.Exact
import PathExplorer.Proofs.Weighting.Failing
import PathExplorer.Proofs.Weighting.ImplicitLevel
import PathExplorer.Settings.Document
import PathExplorer.State.Shelf
