import PathExplorer.Goals.Tracker
import PathExplorer.Proofs.Exploration.Round

namespace PathExplorer

variable {ω χ τ τ' ι : Type}

/-- A stop rule that can be told from the number of steps, from the goals that are left and from
another stop rule. -/
structure Mirrors [StopRule τ] [StopRule τ'] (rule : Nat → GoalTracker → τ → τ') : Prop where
  onVisit : ∀ steps tracker stop state, StopRule.onVisit state (rule steps tracker stop) =
    rule (steps + 1) (tracker.observe state) (StopRule.onVisit state stop)
  onTraversed : ∀ steps tracker stop state, StopRule.onTraversed state (rule steps tracker stop) =
    rule steps tracker (StopRule.onTraversed state stop)

namespace Frontier

def ruled (f : Frontier ω χ τ) (rule : τ') : Frontier ω χ τ' where
  weighting := f.weighting
  choice := f.choice
  stop := rule
  held := f.held
  next := f.next
  closed := f.closed
  stats := f.stats
  released := f.released

theorem ruled_start (w : ω) (choice : χ) (stop : τ) (rule : τ') :
    (start w choice stop).ruled rule = start w choice rule := rfl

variable (f : Frontier ω χ τ) (rule : τ')

theorem ruled_offer (s : State) : ((f.ruled rule).offer s).2 = (f.offer s).2.ruled rule := by
  unfold offer
  by_cases hc : f.closed <;> simp [hc, ruled]

theorem ruled_close : (f.ruled rule).close = f.close.ruled rule := by
  unfold close
  by_cases hc : f.closed <;> simp [hc, ruled]

variable [Weighting ω] [ChoiceRule χ]

theorem ruled_offers (new : List State) :
    (f.ruled rule).after (new.map .offer) = (f.after (new.map .offer)).ruled rule := by
  induction new generalizing f with
  | nil => rfl
  | cons s new ih =>
    change ((f.ruled rule).offer s).2.after _ = ((f.offer s).2.after _).ruled rule
    rw [ruled_offer, ih]

theorem ruled_prepare : (f.ruled rule).prepare = (f.prepare.1, f.prepare.2.ruled rule) := by
  unfold prepare
  by_cases hu : ChoiceRule.usesWeights f.choice
  · rw [if_pos hu]
    exact if_pos hu
  · rw [if_neg hu]
    exact if_neg hu

theorem ruled_choose : (f.ruled rule).choose = (f.choose.1, f.choose.2.ruled rule) := by
  by_cases hn : f.entries = []
  · rw [choose_of_isEmpty hn, choose_of_isEmpty (f := f.ruled rule) hn]
  · rw [choose_of_not_isEmpty hn, choose_of_not_isEmpty (f := f.ruled rule) hn, ruled_prepare]
    cases f.prepare with
    | mk fault g => cases fault <;> rfl

/-- What is polled does not depend on the stop rule. -/
theorem ruled_poll : (f.ruled rule).poll = (f.poll.1, f.poll.2.ruled rule) := by
  unfold poll
  rw [ruled_choose]
  cases f.choose with
  | mk result g => rcases result with _ | _ | _ <;> rfl

end Frontier

namespace Session

def ruled (s : Session (Frontier ω χ τ) ι) (change : ExplorationSettings → ExplorationSettings)
    (rule : Nat → GoalTracker → τ → τ') : Session (Frontier ω χ τ') ι where
  settings := change s.settings
  goals := s.goals
  frontier := s.frontier.ruled (rule s.steps s.tracker s.frontier.stop)
  interpreter := s.interpreter
  tracker := s.tracker
  steps := s.steps
  statesOffered := s.statesOffered
  pathsCompleted := s.pathsCompleted
  reached := s.reached
  released := s.released

variable {change : ExplorationSettings → ExplorationSettings} {rule : Nat → GoalTracker → τ → τ'}

variable [Weighting ω] [ChoiceRule χ] [StopRule τ] [StopRule τ']

theorem offerAll_ruled (s : Session (Frontier ω χ τ) ι)
    (change : ExplorationSettings → ExplorationSettings) (rule : Nat → GoalTracker → τ → τ')
    (new : List State) :
    (s.ruled change rule).offerAll new = (s.offerAll new).ruled change rule := by
  have hoffers : (s.ruled change rule).frontier.after (new.map .offer) =
      (s.frontier.after (new.map .offer)).ruled
        (rule s.steps s.tracker (s.frontier.after (new.map .offer)).stop) := by
    rw [Frontier.after_offers_stop]
    exact s.frontier.ruled_offers _ new
  rw [offerAll_after, offerAll_after]
  exact congrArg (fun frontier => { s.ruled change rule with
    frontier, statesOffered := s.statesOffered + new.length }) hoffers

variable [Interpreter ι]

theorem execute_ruled (hr : Mirrors rule) (s : Session (Frontier ω χ τ) ι)
    (change : ExplorationSettings → ExplorationSettings) (state : State) :
    (s.ruled change rule).execute state =
      ((s.execute state).1, (s.execute state).2.ruled change rule) := by
  have hvisit : (s.ruled change rule).visit state = (s.visit state).ruled change rule :=
    congrArg (fun stop : τ' => ({ (s.visit state).ruled change rule with
      frontier.stop := stop } : Session (Frontier ω χ τ') ι)) (hr.onVisit s.steps s.tracker _ state)
  cases hstep : Interpreter.step state s.interpreter with
  | mk outcome interpreter =>
    cases outcome with
    | error fault =>
      rw [execute_of_fault hstep, execute_of_fault (s := s.ruled change rule) hstep, hvisit]
      rfl
    | ok new =>
      rw [execute_of_ok hstep, execute_of_ok (s := s.ruled change rule) hstep, hvisit]
      generalize s.visit state = visited
      cases new with
      | nil =>
        have hdone := hr.onTraversed visited.steps visited.tracker visited.frontier.stop state
        exact congrArg (fun stop : τ' => (none, ({ visited.ruled change rule with
          interpreter
          pathsCompleted := visited.pathsCompleted + 1
          frontier.stop := stop } : Session (Frontier ω χ τ') ι).release state)) hdone
      | cons x new =>
        have hoffers := offerAll_ruled { visited with interpreter } change rule (x :: new)
        exact congrArg (fun offered : Session (Frontier ω χ τ') ι =>
          (none, offered.release state)) hoffers

omit [StopRule τ'] in
theorem map_execute (s : Session (Frontier ω χ τ) ι) (state : State) (f : StopReason → StopReason) :
    (s.execute state).1.map (Except.map f) = (s.execute state).1 := by
  cases hstep : Interpreter.step state s.interpreter with
  | mk outcome interpreter =>
    cases outcome with
    | error fault =>
      rw [execute_of_fault hstep]
      rfl
    | ok new =>
      rw [execute_of_ok hstep]
      rfl

variable {s : Session (Frontier ω χ τ) ι}

/-- Where the reasons to stop before a round are the same in other words, the round is the same, and
ends in these words if it ends. -/
theorem round_ruled (hr : Mirrors rule) (restate : Nat → StopReason → StopReason)
    (hexhausted : ∀ steps, restate steps .frontierExhausted = .frontierExhausted)
    (hstop : (s.ruled change rule).stopReason? = s.stopReason?.map (restate s.steps)) :
    (s.ruled change rule).round =
      (s.round.1.map (Except.map (restate s.round.2.steps)), s.round.2.ruled change rule) := by
  unfold round
  rw [hstop]
  cases s.stopReason? with
  | some reason => rfl
  | none =>
    have hpoll : PathSelector.poll (s.ruled change rule).frontier =
        ((PathSelector.poll s.frontier).1, (PathSelector.poll s.frontier).2.ruled
          (rule s.steps s.tracker (PathSelector.poll s.frontier).2.stop)) := by
      have hstop : (PathSelector.poll s.frontier).2.stop = s.frontier.stop :=
        s.frontier.kept_poll.stop
      rw [hstop]
      exact s.frontier.ruled_poll _
    dsimp only [Option.map_none]
    rw [hpoll]
    cases PathSelector.poll s.frontier with
    | mk polled frontier =>
      rcases polled with fault | _ | state
      · rfl
      · dsimp only [Option.map_some, Except.map]
        rw [hexhausted]
        rfl
      · have hexecute := execute_ruled hr { s with frontier } change state
        exact hexecute.trans (Prod.ext (map_execute _ state _).symm rfl)

end Session

end PathExplorer
