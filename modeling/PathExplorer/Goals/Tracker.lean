import PathExplorer.Frontier.Stop
import PathExplorer.Goals.Registry

namespace PathExplorer

def Goal.reachedBy (g : Goal) (s : State) : Bool :=
  g.sink.stmt = s.stmt && s.earlier.contains g.source.stmt

structure GoalTracker where
  pending : Ascending Goal
  reached : Ascending Goal

namespace GoalTracker

def ofRegistry (r : Registry) : GoalTracker := ⟨r.goals, .empty⟩

def fresh (t : GoalTracker) (s : State) : List Goal := (t.pending.filter (·.reachedBy s)).toList

def observe (s : State) (t : GoalTracker) : GoalTracker where
  pending := t.pending.filter fun g => !g.reachedBy s
  reached := (t.fresh s).foldr Ascending.insert t.reached

theorem mem_fresh {t : GoalTracker} {s : State} {g : Goal} :
    g ∈ t.fresh s ↔ g ∈ t.pending ∧ g.reachedBy s := by
  simp [fresh, ← Ascending.mem_iff]

theorem mem_pending_observe {t : GoalTracker} {s : State} {g : Goal} :
    g ∈ (t.observe s).pending ↔ g ∈ t.pending ∧ g.reachedBy s = false := by
  simp [observe]

theorem mem_reached_observe {t : GoalTracker} {s : State} {g : Goal} :
    g ∈ (t.observe s).reached ↔ g ∈ t.reached ∨ (g ∈ t.pending ∧ g.reachedBy s) := by
  have h : ∀ gs : List Goal, g ∈ gs.foldr Ascending.insert t.reached ↔ g ∈ t.reached ∨ g ∈ gs := by
    intro gs
    induction gs with
    | nil => simp
    | cons a gs ih => simp [ih, or_left_comm]
  rw [observe, h, mem_fresh]

end GoalTracker

instance : StopRule GoalTracker where
  name _ := "goals-satisfied"
  onVisit := GoalTracker.observe
  onTraversed _ t := t
  stops t := t.pending.isEmpty

end PathExplorer
