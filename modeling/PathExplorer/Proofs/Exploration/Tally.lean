import PathExplorer.Proofs.Exploration.Ending
import PathExplorer.Proofs.Exploration.Release

namespace PathExplorer

inductive Event where
  | visited (s : State)
  | traversed (s : State)

namespace StopRule

variable {τ : Type} [StopRule τ]

def hear (rule : τ) : Event → τ
  | .visited s => onVisit s rule
  | .traversed s => onTraversed s rule

end StopRule

structure Recorder (τ : Type) where
  rule : τ
  heard : List Event := []

namespace Recorder

variable {τ : Type} [StopRule τ]

instance : StopRule (Recorder τ) where
  name r := StopRule.name r.rule
  onVisit s r := ⟨StopRule.onVisit s r.rule, r.heard ++ [.visited s]⟩
  onTraversed s r := ⟨StopRule.onTraversed s r.rule, r.heard ++ [.traversed s]⟩
  stops r := StopRule.stops r.rule

theorem foldl_hear (r : Recorder τ) (events : List Event) :
    events.foldl StopRule.hear r =
      ⟨events.foldl StopRule.hear r.rule, r.heard ++ events⟩ := by
  induction events generalizing r with
  | nil => simp
  | cons event events ih =>
    rw [List.foldl_cons, List.foldl_cons, ih]
    cases event with
    | visited | traversed => simp [StopRule.hear, StopRule.onVisit, StopRule.onTraversed]

end Recorder

namespace Turn

variable (t : Turn)

def events : List Event :=
  .visited t.state :: if t.completes then [.traversed t.state] else []

def Succeeds : Prop := ∃ next, t.outcome = .ok next

variable {t}

theorem succeeds_of_ending (h : t.ending = none) : t.Succeeds := by
  unfold ending at h
  split at h
  · exact ⟨_, ‹_›⟩
  · cases h

theorem outcome_of_ending {fault : Fault} (h : t.ending = some (.error fault)) :
    t.outcome = .error fault := by
  unfold ending at h
  split at h
  · cases h
  · cases h
    assumption

end Turn

inductive Executes {ι : Type} [Interpreter ι] : ι → List Turn → ι → Prop
  | nil {i : ι} : Executes i [] i
  | cons {i j : ι} {t : Turn} {ts : List Turn} : t.outcome = (Interpreter.step t.state i).1 →
      Executes (Interpreter.step t.state i).2 ts j → Executes i (t :: ts) j

namespace Session

variable {ω χ τ ι : Type} [StopRule τ] [Weighting ω] [ChoiceRule χ] [Interpreter ι]
  {s next final : Session (Frontier ω χ τ) ι} {t : Turn} {ts : List Turn} {ending : Option Ending}
  {initial : List State} {n rounds : Nat} {fault : Fault}

section Turns

/-- An exploration that fails with the fault has taken these turns: others that succeeded, and after
them none where nothing could be polled, or that of a state that could not be executed. -/
inductive FailsWith (begun : Session (Frontier ω χ τ) ι) (fault : Fault) : List Turn → Prop
  | poll {n : Nat} : (∀ t ∈ begun.turns n, t.Succeeds) →
      (begun.run n).2.frontier.poll.1 = .error fault → FailsWith begun fault (begun.turns n)
  | step {n : Nat} {state : State} : (∀ t ∈ begun.turns n, t.Succeeds) →
      (begun.run n).2.frontier.poll.1 = .ok (some state) →
      (Interpreter.step state (begun.run n).2.interpreter).1 = .error fault →
      FailsWith begun fault (begun.turns n ++ [⟨state, .error fault⟩])

theorem Runs.executes (h : Runs n s ts ending final) :
    Executes s.interpreter ts final.interpreter := by
  induction h with
  | here => exact .nil
  | @last _ _ _ t? _ hround =>
    cases t? with
    | none =>
      obtain ⟨_, rfl⟩ := hround.idle
      exact .nil
    | some t =>
      obtain ⟨-, houtcome, ht⟩ := hround.takes
      rw [ht.interpreter]
      exact .cons houtcome .nil
  | round hround _ ih =>
    obtain ⟨-, houtcome, ht⟩ := hround.takes
    rw [ht.interpreter] at ih
    exact .cons houtcome ih

theorem Round.succeeds (h : s.Round (some t) none next) : t.Succeeds := by
  generalize he : none = ending at h
  cases h with
  | take => exact t.succeeds_of_ending he.symm

theorem Runs.succeeds (h : Runs n s ts none final) : ∀ t ∈ ts, t.Succeeds := by
  generalize he : (none : Option Ending) = ending at h
  induction h with
  | here => simp
  | last => cases he
  | round hround _ ih => exact List.forall_mem_cons.mpr ⟨hround.succeeds, ih he⟩

theorem turns_of_ends {e : Ending} (h : (s.run rounds).1 = some e) :
    ∃ n, (∀ t ∈ s.turns n, t.Succeeds) ∧
      (s.run n).2.Round (s.run n).2.turn? (some e) (s.run rounds).2 ∧
      s.turns rounds = s.turns n ++ (s.run n).2.turn?.toList := by
  obtain ⟨n, hlt, hnone, hlast⟩ := exists_last_round h
  have hn := hnone n (Nat.le_refl n)
  obtain ⟨hrun, hturns⟩ := run_add_one hn
  have hround := (s.run n).2.round_cases
  have hruns := s.runs n
  rw [hlast, h] at hround
  rw [hn] at hruns
  have hended : (s.run (n + 1)).1 ≠ none := by simp [hrun, hlast, h]
  exact ⟨n, hruns.succeeds, hround, (run_of_le hlt hended).2.trans hturns⟩

theorem Round.turn_eq_none {t? : Option Turn} {reason : StopReason}
    (h : s.Round t? (some (.ok reason)) next) : t? = none := by
  generalize he : some (Except.ok reason) = ending at h
  cases h with
  | stop | fault | exhausted => rfl
  | @take t =>
    unfold Turn.ending at he
    split at he
    · cases he
    · cases he

/-- A round that ends it with a fault takes no turn but that of a state that cannot be executed. -/
theorem Round.fails {t? : Option Turn} (h : s.Round t? (some (.error fault)) next) :
    (t? = none ∧ s.frontier.poll.1 = .error fault) ∨
      ∃ state, t? = some ⟨state, .error fault⟩ ∧ s.frontier.poll.1 = .ok (some state) ∧
        (Interpreter.step state s.interpreter).1 = .error fault := by
  generalize he : some (Except.error fault) = ending at h
  cases h with
  | stop | exhausted => cases he
  | fault _ hp =>
    cases he
    exact .inl ⟨rfl, hp⟩
  | @take t _ _ hp ho =>
    obtain ⟨state, outcome⟩ := t
    obtain rfl : outcome = .error fault := Turn.outcome_of_ending he.symm
    exact .inr ⟨state, rfl, hp, ho.symm⟩

theorem succeeds_of_ends {reason : StopReason} (h : (s.run rounds).1 = some (.ok reason)) :
    ∀ t ∈ s.turns rounds, t.Succeeds := by
  obtain ⟨n, hbefore, hround, hturns⟩ := turns_of_ends h
  rw [hturns, hround.turn_eq_none, Option.toList_none, List.append_nil]
  exact hbefore

theorem failsWith_of_ends (h : (s.run rounds).1 = some (.error fault)) :
    s.FailsWith fault (s.turns rounds) := by
  obtain ⟨n, hbefore, hround, hturns⟩ := turns_of_ends h
  rw [hturns]
  obtain ⟨hturn, hp⟩ | ⟨state, hturn, hp, hstep⟩ := hround.fails
  · rw [hturn, Option.toList_none, List.append_nil]
    exact .poll hbefore hp
  · rw [hturn]
    exact .step hbefore hp hstep

end Turns

section Hearing

/-- The stop rule hears of the events of the turn, and of nothing else. -/
theorem execute_hears (s : Session (Frontier ω χ τ) ι) (state : State) :
    (s.execute state).2.frontier.stop =
      (Turn.mk state (Interpreter.step state s.interpreter).1).events.foldl StopRule.hear
        s.frontier.stop := by
  cases hr : Interpreter.step state s.interpreter with
  | mk outcome interpreter =>
    cases outcome with
    | error fault =>
      rw [execute_of_fault hr]
      rfl
    | ok new =>
      rw [execute_of_ok hr]
      cases new with
      | nil => rfl
      | cons x new =>
        dsimp only
        rw [offerAll_after]
        exact (Frontier.after_offers_stop ..).trans rfl

theorem round_hears (s : Session (Frontier ω χ τ) ι) :
    s.round.2.frontier.stop =
      (s.turn?.toList.flatMap Turn.events).foldl StopRule.hear s.frontier.stop := by
  have hstop : (PathSelector.poll s.frontier).2.stop = s.frontier.stop := s.frontier.kept_poll.stop
  unfold round turn?
  cases s.stopReason? with
  | some reason => rfl
  | none =>
    cases hp : PathSelector.poll s.frontier with
    | mk polled frontier =>
      rw [hp] at hstop
      rcases polled with fault | _ | state
      · exact hstop
      · exact hstop
      · refine (execute_hears _ state).trans ?_
        have hstop : frontier.stop = s.frontier.stop := hstop
        simp only [hstop, Option.toList_some, List.flatMap_singleton]

theorem run_hears (n : Nat) (s : Session (Frontier ω χ τ) ι) :
    (s.run n).2.frontier.stop =
      ((s.turns n).flatMap Turn.events).foldl StopRule.hear s.frontier.stop := by
  induction n generalizing s with
  | zero => rfl
  | succ n ih =>
    have hround := s.round_hears
    unfold run turns
    cases hr : s.round with
    | mk ending next =>
      rw [hr] at hround
      cases ending with
      | some ending => exact hround
      | none => rw [ih, hround, List.flatMap_append, List.foldl_append]

end Hearing

structure Stocks (s : Session (Frontier ω χ τ) ι) (ts : List Turn)
    (final : Session (Frontier ω χ τ) ι) : Prop where
  polled : final.frontier.stats.polled = s.frontier.stats.polled + ts.length
  offered : final.frontier.stats.offered =
    s.frontier.stats.offered + (ts.flatMap Turn.offered).length
  removed : final.frontier.stats.removed = s.frontier.stats.removed

theorem Stocks.round {x : Session (Frontier ω χ τ) ι} {t? : Option Turn} (hx : s.Stocks ts x)
    (h : x.Round t? ending next) : s.Stocks (ts ++ t?.toList) next := by
  obtain ⟨m, hpoll⟩ : ∃ m, (PathSelector.poll x.frontier).2.stats = { x.frontier.stats with
      weighted := m
      polled := x.frontier.stats.polled + (handed (PathSelector.poll x.frontier).1).length } :=
    x.frontier.stats_poll
  obtain ⟨hpolled, hoffered, hremoved⟩ := hx
  cases h with
  | stop => simpa using ⟨hpolled, hoffered, hremoved⟩
  | fault _ hp | exhausted _ hp =>
    rw [hp] at hpoll
    simp only [Option.toList_none, List.append_nil]
    refine ⟨?_, ?_, ?_⟩
    · rw [hpoll]
      exact hpolled
    · rw [hpoll]
      exact hoffered
    · rw [hpoll]
      exact hremoved
  | @take t _ _ hp _ ht =>
    obtain ⟨stop, hfrontier⟩ := ht.after
    rw [hp] at hpoll
    have hstats : next.frontier.stats = { x.frontier.stats with
        weighted := m
        polled := x.frontier.stats.polled + 1
        offered := x.frontier.stats.offered + t.offered.length } := by
      rw [hfrontier, Frontier.after_offers_stats]
      exact congrArg (fun stats : FrontierStats =>
        { stats with offered := stats.offered + t.offered.length }) hpoll
    refine ⟨?_, ?_, ?_⟩
    · simp [hstats, hpolled, Nat.add_assoc]
    · simp [hstats, hoffered, Nat.add_assoc]
    · rw [hstats]
      exact hremoved

theorem Runs.stocks (h : Runs n s ts ending final) : s.Stocks ts final :=
  h.keeps (I := s.Stocks) Stocks.round [] ⟨rfl, rfl, rfl⟩

/-- What an exploration from some states has counted when it is over, if it took these turns. -/
structure Tally (initial : List State) (stop : τ) (ts : List Turn)
    (final : Session (Frontier ω χ τ) ι) : Prop where
  steps : final.steps = ts.length
  polled : final.frontier.stats.polled = ts.length
  statesOffered : final.statesOffered = initial.length + (ts.flatMap Turn.offered).length
  offered : final.frontier.stats.offered = initial.length + (ts.flatMap Turn.offered).length
  completed : final.pathsCompleted = ts.countP Turn.completes
  settled : final.frontier.stats.offered =
    final.frontier.stats.polled + final.frontier.stats.releasedOnClose
  removed : final.frontier.stats.removed = 0
  stop : final.frontier.stop = (ts.flatMap Turn.events).foldl StopRule.hear stop

omit [Weighting ω] [ChoiceRule χ] [Interpreter ι] in
theorem Tally.heard {final : Session (Frontier ω χ (Recorder τ)) ι} {rule : τ}
    (h : final.Tally initial ⟨rule, []⟩ ts) :
    final.frontier.stop.heard = ts.flatMap Turn.events := by
  rw [h.stop, Recorder.foldl_hear, List.nil_append]

structure Begun (initial : List State) (stop : τ) (begun : Session (Frontier ω χ τ) ι) : Prop where
  isOpen : begun.frontier.closed = false
  states : begun.frontier.states = initial
  stats : begun.frontier.stats = { offered := initial.length }
  stop : begun.frontier.stop = stop
  steps : begun.steps = 0
  statesOffered : begun.statesOffered = initial.length
  completed : begun.pathsCompleted = 0

omit [Interpreter ι] in
theorem begun_offerAll (settings : ExplorationSettings) (goals : Registry) (w : ω) (rule : χ)
    (stop : τ) (interpreter : ι) (initial : List State) :
    ((fresh settings goals (Frontier.start w rule stop) interpreter).offerAll initial).Begun initial
      stop := by
  obtain ⟨hstates, hopen, -⟩ :=
    Frontier.after_offers (f := Frontier.start w rule stop) rfl initial
  rw [offerAll_after]
  refine ⟨hopen, hstates, ?_, Frontier.after_offers_stop .., rfl, Nat.zero_add _, rfl⟩
  exact (Frontier.after_offers_stats ..).trans (by simp [fresh, Frontier.start])

/-- Closing counts what is still held, so that every offered state is counted where it left. -/
theorem Begun.tally {begun : Session (Frontier ω χ τ) ι} {stop : τ} (h : begun.Begun initial stop)
    (rounds : Nat) : (begun.run rounds).2.close.Tally initial stop (begun.turns rounds) := by
  have hruns := begun.runs rounds
  have hcounts := hruns.counts
  have hstocks := hruns.stocks
  have hbalance := hruns.balance h.isOpen
  have hhears := begun.run_hears rounds
  have hreleased := hruns.releasedOnClose
  generalize (begun.run rounds).2 = final at *
  generalize begun.turns rounds = ts at *
  have hclose : (PathSelector.close final.frontier).stats = { final.frontier.stats with
      releasedOnClose := final.frontier.stats.releasedOnClose + final.frontier.held.length } ∧
      (PathSelector.close final.frontier).stop = final.frontier.stop := by
    change final.frontier.close.stats = _ ∧ final.frontier.close.stop = _
    unfold Frontier.close
    rw [hbalance.isOpen]
    exact ⟨rfl, rfl⟩
  obtain ⟨hstats, hstop⟩ := hclose
  have hoffered : final.frontier.stats.offered =
      initial.length + (ts.flatMap Turn.offered).length := by
    rw [hstocks.offered, h.stats]
  have hpolled : final.frontier.stats.polled = ts.length := by
    rw [hstocks.polled, h.stats, Nat.zero_add]
  refine ⟨?steps, ?polled, ?statesOffered, ?offered, ?completed, ?settled, ?removed, ?stop⟩
  case steps => exact hcounts.steps.trans (by rw [h.steps, Nat.zero_add])
  case statesOffered => exact hcounts.offered.trans (by rw [h.statesOffered])
  case completed => exact hcounts.completed.trans (by rw [h.completed, Nat.zero_add])
  case stop => exact hstop.trans (hhears.trans (by rw [h.stop]))
  all_goals simp only [close, hstats]
  case polled => exact hpolled
  case offered => exact hoffered
  case removed => rw [hstocks.removed, h.stats]
  case settled =>
    have hlength := hbalance.states.length_eq
    have hnone : begun.frontier.stats.releasedOnClose = 0 := by rw [h.stats]
    rw [h.states, List.length_append, List.length_append, List.length_map, Frontier.states_eq,
      List.length_map] at hlength
    rw [hoffered, hpolled, hreleased, hnone]
    omega

/-- Whatever the weighting, the rules and the interpreter, the counts of an exploration are those of
its turns.  If it returns a report the states that it offered are those that it polled and those
left at the end; if it fails, the turns end where it does. -/
theorem explore_tallies (settings : ExplorationSettings) (goals : Registry) (w : ω) (rule : χ)
    (stop : τ) (interpreter : ι) (initial : List State) (rounds : Nat) :
    let s := fresh settings goals (Frontier.start w rule stop) interpreter
    let ts := (s.offerAll initial).turns rounds
    let final := (s.explore rounds initial).2
    Executes interpreter ts final.interpreter ∧ final.Tally initial stop ts ∧
      (∀ report, (s.explore rounds initial).1 = some (.ok report) →
        (∀ t ∈ ts, t.Succeeds) ∧
        report.steps = ts.length ∧ report.steps = report.selector.polled ∧
        report.statesOffered = initial.length + (ts.flatMap Turn.offered).length ∧
        report.statesOffered = report.selector.offered ∧
        report.selector.offered = report.selector.polled + report.selector.releasedOnClose ∧
        report.selector.removed = 0 ∧
        report.pathsCompleted = ts.countP Turn.completes) ∧
      ∀ fault, (s.explore rounds initial).1 = some (.error fault) →
        (s.offerAll initial).FailsWith fault ts := by
  intro s ts final
  have hbegun := begun_offerAll settings goals w rule stop interpreter initial
  have htally : final.Tally initial stop ts := hbegun.tally rounds
  have hexecutes := ((s.offerAll initial).runs rounds).executes
  have hinterpreter : (s.offerAll initial).interpreter = interpreter := by
    rw [offerAll_after]
    rfl
  rw [hinterpreter] at hexecutes
  refine ⟨hexecutes, htally, fun report h => ?report, fun fault h => ?fails⟩
  case report =>
    obtain ⟨reason, hrun, rfl⟩ := run_of_explore_ok h
    exact ⟨succeeds_of_ends hrun, htally.steps, htally.steps.trans htally.polled.symm,
      htally.statesOffered, htally.statesOffered.trans htally.offered.symm, htally.settled,
      htally.removed, htally.completed⟩
  case fails => exact failsWith_of_ends (run_of_explore_error h)

def recorded (view : View) : Session (Frontier Uniform Fifo (Recorder NeverStop)) Walker :=
  fresh (.ofPreset .fast) ⟨.empty⟩ (.start {} {} ⟨{}, []⟩) ⟨view⟩

def outset : List State := [.root ⟨⟨0⟩, 0⟩]

def hiddenMethod : View := twoMethods.view.hide [⟨1⟩]

/-- Eight states of `helperTwice` are visited, and two of them end their paths.  Where the second
method of `twoMethods` is hidden, the state that enters it is visited and cannot be executed. -/
theorem explore_tallies_recorded :
    (∃ report, ((recorded helperTwice.view).explore 10 outset).1 = some (.ok report) ∧
      report.steps = 8 ∧ report.pathsCompleted = 2 ∧
      report.selector.offered = report.selector.polled + report.selector.releasedOnClose) ∧
    ((recorded helperTwice.view).explore 10 outset).2.frontier.stop.heard =
      (((recorded helperTwice.view).offerAll outset).turns 10).flatMap Turn.events ∧
    ((recorded helperTwice.view).explore 10 outset).2.frontier.stop.heard.length = 10 ∧
    ((recorded hiddenMethod).explore 10 outset).1 = some (.error (.methodNotFound ⟨1⟩)) ∧
    ((recorded hiddenMethod).offerAll outset).FailsWith (.methodNotFound ⟨1⟩)
      (((recorded hiddenMethod).offerAll outset).turns 10) ∧
    ((recorded hiddenMethod).explore 10 outset).2.frontier.stats =
      { offered := 2, polled := 2 } := by
  obtain ⟨report, h, hsteps, hcompleted⟩ : ∃ report,
      ((recorded helperTwice.view).explore 10 outset).1 = some (.ok report) ∧
      report.steps = 8 ∧ report.pathsCompleted = 2 := by
    refine ⟨{
      steps := 8, statesOffered := 8, pathsCompleted := 2, goalPairs := 0, goalsReached := []
      stopReason := .frontierExhausted, selector := { offered := 8, polled := 8 } }, ?_, rfl, rfl⟩
    decide
  have hf : ((recorded hiddenMethod).explore 10 outset).1 =
      some (.error (.methodNotFound ⟨1⟩)) := by decide
  have hall := fun view => explore_tallies (.ofPreset .fast) ⟨.empty⟩ Uniform.mk Fifo.mk
    (Recorder.mk NeverStop.mk []) (Walker.mk view) outset 10
  obtain ⟨-, htally, hreport, -⟩ := hall helperTwice.view
  obtain ⟨-, -, -, hfails⟩ := hall hiddenMethod
  obtain ⟨-, -, -, -, -, hsettled, -⟩ := hreport report h
  exact ⟨⟨report, h, hsteps, hcompleted, hsettled⟩, htally.heard, by decide, hf, hfails _ hf,
    by decide⟩

end Session

end PathExplorer
