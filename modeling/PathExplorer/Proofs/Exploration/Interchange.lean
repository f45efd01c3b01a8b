import PathExplorer.Proofs.Exploration.CallSites
import PathExplorer.Proofs.Exploration.Reached
import PathExplorer.Proofs.Exploration.Ruled

namespace PathExplorer

variable {ω χ τ τ' ι : Type}

theorem mirrors_stepsLimit (limit : Nat) :
    Mirrors fun steps _ (_ : NeverStop) => StepsLimit.mk limit steps :=
  ⟨fun _ _ _ _ => rfl, fun _ _ _ _ => rfl⟩

theorem mirrors_goalTracker : Mirrors fun _ tracker (_ : NeverStop) => tracker :=
  ⟨fun _ _ _ _ => rfl, fun _ _ _ _ => rfl⟩

def Report.restated (restate : Nat → StopReason → StopReason) (r : Report) : Report :=
  { r with stopReason := restate r.steps r.stopReason }

namespace Session

variable [StopRule τ] [StopRule τ'] {settings settings' : ExplorationSettings} {goals : Registry}
  {rule : Nat → GoalTracker → τ → τ'} {restate : Nat → StopReason → StopReason}
  {s : Session (Frontier ω χ τ) ι}

/-- Under some settings a session stops for the same reasons, in other words, as under the other
settings and the rule. -/
structure Restates (ω χ τ ι : Type) [StopRule τ] [StopRule τ'] [Weighting ω] [ChoiceRule χ]
    (settings settings' : ExplorationSettings) (goals : Registry)
    (rule : Nat → GoalTracker → τ → τ') (restate : Nat → StopReason → StopReason) : Prop where
  mirrors : Mirrors rule
  exhausted : ∀ steps, restate steps .frontierExhausted = .frontierExhausted
  stopReason : ∀ s : Session (Frontier ω χ τ) ι, s.settings = settings → s.goals = goals →
    (s.ruled (fun _ => settings') rule).stopReason? = s.stopReason?.map (restate s.steps)

variable [Weighting ω] [ChoiceRule χ] [Interpreter ι]

theorem run_ruled (h : Restates ω χ τ ι settings settings' goals rule restate)
    (hs : s.settings = settings) (hg : s.goals = goals) (n : Nat) :
    (s.ruled (fun _ => settings') rule).run n =
      ((s.run n).1.map (Except.map (restate (s.run n).2.steps)),
        (s.run n).2.ruled (fun _ => settings') rule) := by
  induction n generalizing s with
  | zero => rfl
  | succ n ih =>
    have hround := round_ruled h.mirrors restate h.exhausted (h.stopReason s hs hg)
    have hcases := s.round_cases
    unfold run
    rw [hround]
    cases hr : s.round with
    | mk ending next =>
      rw [hr] at hcases
      cases ending with
      | some ending => rfl
      | none =>
        cases ht : s.turn? with
        | none =>
          rw [ht] at hcases
          cases hcases
        | some t =>
          rw [ht] at hcases
          obtain ⟨-, -, htakes⟩ := hcases.takes
          exact ih (htakes.settings.trans hs) (htakes.goals.trans hg)

theorem explore_ruled (h : Restates ω χ τ ι settings settings' goals rule restate)
    (hs : s.settings = settings) (hg : s.goals = goals) (rounds : Nat) (initial : List State) :
    ((s.ruled (fun _ => settings') rule).explore rounds initial).1 =
      (s.explore rounds initial).1.map (Except.map (Report.restated restate)) := by
  have hs : (s.offerAll initial).settings = settings := by rw [offerAll_after, hs]
  have hg : (s.offerAll initial).goals = goals := by rw [offerAll_after, hg]
  unfold explore
  rw [offerAll_ruled, run_ruled h hs hg]
  cases (s.offerAll initial).run rounds with
  | mk ending final =>
    rcases ending with _ | fault | reason
    · rfl
    · rfl
    · have hclose := final.frontier.ruled_close
        (rule final.steps final.tracker final.frontier.stop)
      let closed (frontier : Frontier ω χ τ') : Session (Frontier ω χ τ') ι :=
        { final.ruled (fun _ => settings') rule with frontier }
      exact congrArg (fun frontier => some (Except.ok
        ((closed frontier).report (restate final.steps reason)))) hclose

end Session

namespace StopReason

def whenLimitRules : StopReason → StopReason
  | .stepsLimit => .strategy "steps-limit"
  | reason => reason

/-- The reason behind so many steps if the wish to stop at the last goal is a stop rule, which is
asked after the limit. -/
def whenGoalsRule (stepsLimit : Option UInt64) (steps : Nat) : StopReason → StopReason
  | .goalsSatisfied =>
    if stepsLimit.any (·.toNat ≤ steps) then .stepsLimit else .strategy "goals-satisfied"
  | reason => reason

end StopReason

namespace Session

variable [Weighting ω] [ChoiceRule χ]

theorem restates_stepsLimit (goals : Registry) (n : UInt64) (stopWhenSatisfied : Bool) :
    Restates ω χ NeverStop ι { stepsLimit := some n, stopWhenSatisfied }
      { stepsLimit := none, stopWhenSatisfied } goals
      (fun steps _ _ => StepsLimit.mk n.toNat steps)
      fun _ => StopReason.whenLimitRules := by
  refine ⟨mirrors_stepsLimit n.toNat, fun _ => rfl, fun s hs _ => ?_⟩
  have hruled : (s.ruled (fun _ => { stepsLimit := none, stopWhenSatisfied })
      fun steps _ _ => StepsLimit.mk n.toNat steps).stopReason? =
      if stopWhenSatisfied && !s.goals.isEmpty && s.tracker.pending.isEmpty then
        some .goalsSatisfied
      else if decide (n.toNat ≤ s.steps) then some (.strategy "steps-limit") else none := rfl
  have hlimited : s.stopReason? =
      if stopWhenSatisfied && !s.goals.isEmpty && s.tracker.pending.isEmpty then
        some .goalsSatisfied
      else if decide (n.toNat ≤ s.steps) then some .stepsLimit else none := by
    rw [stopReason?, hs]
    rfl
  rw [hruled, hlimited]
  split_ifs <;> rfl

theorem restates_goalTracker {goals : Registry} (hgoals : goals.isEmpty = false)
    (stepsLimit : Option UInt64) :
    Restates ω χ NeverStop ι { stepsLimit, stopWhenSatisfied := true }
      { stepsLimit, stopWhenSatisfied := false } goals (fun _ tracker _ => tracker)
      (StopReason.whenGoalsRule stepsLimit) := by
  refine ⟨mirrors_goalTracker, fun _ => rfl, fun s hs hg => ?_⟩
  have hruled : (s.ruled (fun _ => { stepsLimit, stopWhenSatisfied := false })
      fun _ tracker _ => tracker).stopReason? =
      if stepsLimit.any (·.toNat ≤ s.steps) then some .stepsLimit
      else if s.tracker.pending.isEmpty then some (.strategy "goals-satisfied") else none := rfl
  have hsatisfied : s.stopReason? =
      if s.tracker.pending.isEmpty then some .goalsSatisfied
      else if stepsLimit.any (·.toNat ≤ s.steps) then some .stepsLimit else none := by
    rw [stopReason?, hs, hg, hgoals]
    rfl
  rw [hruled, hsatisfied]
  split_ifs <;> simp_all [StopReason.whenGoalsRule]

variable [Interpreter ι]

/-- A limit of steps, and the wish to stop when every goal is reached, may as well be stop rules.
The explorations have the same report, or fail alike, but for the reason, which becomes the name of
the rule. -/
theorem conditions_as_rules {goals : Registry} (hgoals : goals.isEmpty = false)
    (f : Frontier ω χ NeverStop) (interpreter : ι) (initial : List State) (rounds : Nat) :
    (∀ (n : UInt64) (stopWhenSatisfied : Bool),
      ((fresh { stepsLimit := none, stopWhenSatisfied } goals
          (f.ruled (StepsLimit.mk n.toNat 0)) interpreter).explore rounds initial).1 =
        ((fresh { stepsLimit := some n, stopWhenSatisfied } goals
            f interpreter).explore rounds initial).1.map
          (Except.map (Report.restated fun _ => StopReason.whenLimitRules))) ∧
    ∀ stepsLimit : Option UInt64,
      ((fresh { stepsLimit, stopWhenSatisfied := false } goals
          (f.ruled (GoalTracker.ofRegistry goals)) interpreter).explore rounds initial).1 =
        ((fresh { stepsLimit, stopWhenSatisfied := true } goals
            f interpreter).explore rounds initial).1.map
          (Except.map (Report.restated (StopReason.whenGoalsRule stepsLimit))) :=
  ⟨fun n stopWhenSatisfied =>
      explore_ruled (s := fresh _ goals f interpreter)
        (restates_stepsLimit goals n stopWhenSatisfied) rfl rfl rounds initial,
    fun stepsLimit =>
      explore_ruled (s := fresh _ goals f interpreter) (restates_goalTracker hgoals stepsLimit)
        rfl rfl rounds initial⟩

theorem conditions_as_rules_helperTwice :
    let goals := Draft.inHelper
    let explored (settings : ExplorationSettings) :=
      ((fresh settings goals (Frontier.start Uniform.mk Fifo.mk NeverStop.mk)
        (Walker.mk helperTwice.view)).explore 10 [.root ⟨⟨0⟩, 0⟩]).1
    goals.isEmpty = false ∧ ∃ r r',
      explored { stepsLimit := some 2 } = some (.ok r) ∧ r.stopReason = .stepsLimit ∧
      ((fresh { stepsLimit := none } goals (Frontier.start Uniform.mk Fifo.mk (StepsLimit.mk 2 0))
        (Walker.mk helperTwice.view)).explore 10 [.root ⟨⟨0⟩, 0⟩]).1 =
          some (.ok { r with stopReason := .strategy "steps-limit" }) ∧
      explored { stepsLimit := none } = some (.ok r') ∧ r'.stopReason = .goalsSatisfied ∧
      ((fresh { stepsLimit := none, stopWhenSatisfied := false } goals
        (Frontier.start Uniform.mk Fifo.mk (GoalTracker.ofRegistry goals))
        (Walker.mk helperTwice.view)).explore 10 [.root ⟨⟨0⟩, 0⟩]).1 =
          some (.ok { r' with stopReason := .strategy "goals-satisfied" }) := by
  intro goals explored
  obtain ⟨r, hlimited, hreason⟩ : ∃ r, explored { stepsLimit := some 2 } = some (.ok r) ∧
      r.stopReason = .stepsLimit := by
    refine ⟨{
      steps := 2, statesOffered := 3, pathsCompleted := 0, goalsReached := [], goalPairs := 1
      stopReason := .stepsLimit
      selector := { offered := 3, polled := 2, releasedOnClose := 1 } }, ?_, rfl⟩
    decide
  obtain ⟨r', hsatisfied, hreason'⟩ : ∃ r, explored { stepsLimit := none } = some (.ok r) ∧
      r.stopReason = .goalsSatisfied := by
    refine ⟨{
      steps := 5, statesOffered := 6, pathsCompleted := 0, goalPairs := 1
      goalsReached := [⟨⟨⟨⟨⟨1⟩, 0⟩⟩, ⟨⟨⟨1⟩, 0⟩⟩⟩, 5⟩]
      stopReason := .goalsSatisfied
      selector := { offered := 6, polled := 5, releasedOnClose := 1 } }, ?_, rfl⟩
    decide
  have hgoals : goals.isEmpty = false := rfl
  obtain ⟨hlimit, hgoal⟩ := conditions_as_rules hgoals
    (Frontier.start Uniform.mk Fifo.mk NeverStop.mk) (Walker.mk helperTwice.view)
    [.root ⟨⟨0⟩, 0⟩] 10
  have hlimit := hlimit 2 true
  have hgoal := hgoal none
  rw [Frontier.ruled_start] at hlimit hgoal
  refine ⟨hgoals, r, r', hlimited, hreason, hlimit.trans ?limit, hsatisfied, hreason',
    hgoal.trans ?goals⟩
  case limit =>
    change (explored { stepsLimit := some 2 }).map _ = _
    rw [hlimited, Option.map_some, Except.map, Report.restated, hreason]
    rfl
  case goals =>
    change (explored { stepsLimit := none }).map _ = _
    rw [hsatisfied, Option.map_some, Except.map, Report.restated, hreason']
    rfl

end Session

end PathExplorer
