import PathExplorer.Exploration.Session
import PathExplorer.Proofs.Frontier.Stock

namespace PathExplorer

structure Turn where
  state : State
  outcome : Except Fault (List State)

namespace Turn

variable (t : Turn)

def offered : List State :=
  match t.outcome with
  | .ok next => next
  | .error _ => []

def completes : Bool :=
  match t.outcome with
  | .ok next => next.isEmpty
  | .error _ => false

def ending : Option Ending :=
  match t.outcome with
  | .ok _ => none
  | .error fault => some (.error fault)

end Turn

namespace PathSelector

variable {φ : Type} [PathSelector φ]

def offerAll (f : φ) (new : List State) : φ := new.foldl (fun f x => (offer f x).2) f

def after (f : φ) (t : Turn) : φ :=
  let visited := onVisit t.state f
  offerAll (if t.completes then onTraversed t.state visited else visited) t.offered

end PathSelector

namespace Session

variable {φ ι : Type} [PathSelector φ] [Interpreter ι]

def turn? (s : Session φ ι) : Option Turn :=
  match s.stopReason? with
  | some _ => none
  | none =>
    match (PathSelector.poll s.frontier).1 with
    | .ok (some state) => some ⟨state, (Interpreter.step state s.interpreter).1⟩
    | _ => none

def turns : Nat → Session φ ι → List Turn
  | 0, _ => []
  | n + 1, s =>
    match s.round with
    | (none, next) => s.turn?.toList ++ turns n next
    | (some _, _) => s.turn?.toList

def polled (n : Nat) (s : Session φ ι) : List State := (s.turns n).map (·.state)

structure Takes (s : Session φ ι) (t : Turn) (next : Session φ ι) : Prop where
  settings : next.settings = s.settings
  goals : next.goals = s.goals
  interpreter : next.interpreter = (Interpreter.step t.state s.interpreter).2
  steps : next.steps = s.steps + 1
  offered : next.statesOffered = s.statesOffered + t.offered.length
  completed : next.pathsCompleted = s.pathsCompleted + if t.completes then 1 else 0
  tracker : next.tracker = s.tracker.observe t.state
  reached : next.reached =
    s.reached ++ (s.tracker.fresh t.state).map fun g => ⟨g, s.steps + 1⟩
  released : next.released = t.state.toRelease ++ s.released
  frontier : next.frontier = PathSelector.after (PathSelector.poll s.frontier).2 t

/-- What a round may come to: the turn that is taken in it, how the exploration ends if it ends, and
the session afterwards. -/
inductive Round (s : Session φ ι) : Option Turn → Option Ending → Session φ ι → Prop
  | stop {reason : StopReason} : s.stopReason? = some reason → Round s none (some (.ok reason)) s
  | fault {fault : Fault} : s.stopReason? = none →
      (PathSelector.poll s.frontier).1 = .error fault →
      Round s none (some (.error fault)) { s with frontier := (PathSelector.poll s.frontier).2 }
  | exhausted : s.stopReason? = none → (PathSelector.poll s.frontier).1 = .ok none →
      Round s none (some (.ok .frontierExhausted))
        { s with frontier := (PathSelector.poll s.frontier).2 }
  | take {t : Turn} {next : Session φ ι} : s.stopReason? = none →
      (PathSelector.poll s.frontier).1 = .ok (some t.state) →
      t.outcome = (Interpreter.step t.state s.interpreter).1 → s.Takes t next →
      Round s (some t) t.ending next

inductive Runs : Nat → Session φ ι → List Turn → Option Ending → Session φ ι → Prop
  | here {s : Session φ ι} : Runs 0 s [] none s
  | last {n : Nat} {s next : Session φ ι} {t? : Option Turn} {ending : Ending} :
      s.Round t? (some ending) next → Runs (n + 1) s t?.toList (some ending) next
  | round {n : Nat} {s next final : Session φ ι} {t : Turn} {ts : List Turn}
      {ending : Option Ending} : s.Round (some t) none next → Runs n next ts ending final →
      Runs (n + 1) s (t :: ts) ending final

omit [Interpreter ι] in
theorem offerAll_eq (s : Session φ ι) (new : List State) : s.offerAll new = { s with
    frontier := PathSelector.offerAll s.frontier new
    statesOffered := s.statesOffered + new.length } := by
  induction new generalizing s with
  | nil => rfl
  | cons x new ih =>
    rw [offerAll, List.foldl_cons]
    refine (ih (s.offer x)).trans ?_
    simp only [offer, List.length_cons, Nat.add_comm new.length, Nat.add_assoc]
    rfl

variable {s next final : Session φ ι} {t : Turn} {ts : List Turn} {ending : Option Ending}
  {n : Nat}

theorem execute_of_fault {state : State} {fault : Fault} {interpreter : ι}
    (h : Interpreter.step state s.interpreter = (.error fault, interpreter)) :
    s.execute state =
      (some (.error fault), ({ s.visit state with interpreter } : Session φ ι).release state) := by
  have hi : (s.visit state).interpreter = s.interpreter := rfl
  simp only [execute, hi, h]

theorem execute_of_ok {state : State} {new : List State} {interpreter : ι}
    (h : Interpreter.step state s.interpreter = (.ok new, interpreter)) :
    s.execute state =
      let executed : Session φ ι := { s.visit state with interpreter }
      let counted := if new.isEmpty then executed.complete state else executed
      (none, (counted.offerAll new).release state) := by
  have hi : (s.visit state).interpreter = s.interpreter := rfl
  simp only [execute, hi, h]

theorem execute_takes (s : Session φ ι) (state : State) :
    let polled : Session φ ι := { s with frontier := (PathSelector.poll s.frontier).2 }
    let t : Turn := ⟨state, (Interpreter.step state s.interpreter).1⟩
    (polled.execute state).1 = t.ending ∧ s.Takes t (polled.execute state).2 := by
  intro polled t
  cases hr : Interpreter.step state s.interpreter with
  | mk outcome interpreter =>
    have hnext : (Interpreter.step state s.interpreter).2 = interpreter := congrArg Prod.snd hr
    have ht : t = ⟨state, outcome⟩ := congrArg (Turn.mk state ∘ Prod.fst) hr
    rw [ht]
    cases outcome with
    | error fault =>
      rw [execute_of_fault (s := polled) hr]
      exact ⟨rfl, rfl, rfl, hnext.symm, rfl, rfl, rfl, rfl, rfl, rfl, rfl⟩
    | ok new =>
      rw [execute_of_ok (s := polled) hr]
      refine ⟨rfl, ?_⟩
      -- Without successors the path is counted, and the rest of the turn is the same.
      cases new with
      | nil => exact ⟨rfl, rfl, hnext.symm, rfl, rfl, rfl, rfl, rfl, rfl, rfl⟩
      | cons x new =>
        dsimp only
        rw [offerAll_eq]
        exact ⟨rfl, rfl, hnext.symm, rfl, rfl, rfl, rfl, rfl, rfl, rfl⟩

theorem round_cases (s : Session φ ι) : s.Round s.turn? s.round.1 s.round.2 := by
  unfold round turn?
  cases hs : s.stopReason? with
  | some reason => exact .stop hs
  | none =>
    cases hp : PathSelector.poll s.frontier with
    | mk polled frontier =>
      have hfirst : (PathSelector.poll s.frontier).1 = polled := by rw [hp]
      have hsecond : (PathSelector.poll s.frontier).2 = frontier := by rw [hp]
      subst hsecond
      cases polled with
      | error fault => exact .fault hs hfirst
      | ok answer =>
        cases answer with
        | none => exact .exhausted hs hfirst
        | some state =>
          obtain ⟨hending, htakes⟩ := s.execute_takes state
          dsimp only
          rw [hending]
          exact .take hs hfirst rfl htakes

theorem runs (n : Nat) (s : Session φ ι) : Runs n s (s.turns n) (s.run n).1 (s.run n).2 := by
  induction n generalizing s with
  | zero => exact .here
  | succ n ih =>
    have hr := s.round_cases
    unfold turns run
    cases hround : s.round with
    | mk ending next =>
      rw [hround] at hr
      cases ending with
      | some ending => exact .last hr
      | none =>
        cases ht : s.turn? with
        | none =>
          rw [ht] at hr
          cases hr
        | some t =>
          rw [ht] at hr
          exact .round hr (ih next)

/-- More rounds than it takes to end change nothing. -/
theorem run_of_le {m : Nat} (h : n ≤ m) (he : (s.run n).1 ≠ none) :
    s.run m = s.run n ∧ s.turns m = s.turns n := by
  induction n generalizing s m with
  | zero => exact absurd rfl he
  | succ n ih =>
    obtain ⟨m, rfl⟩ : ∃ k, m = k + 1 := ⟨m - 1, by omega⟩
    unfold run at he ⊢
    unfold turns
    cases hr : s.round with
    | mk ending next =>
      rw [hr] at he
      cases ending with
      | some ending => exact ⟨rfl, rfl⟩
      | none =>
        obtain ⟨hrun, hturns⟩ := ih (Nat.le_of_succ_le_succ h) he
        exact ⟨hrun, congrArg _ hturns⟩

theorem explore_of_le {initial : List State} {e : Ending} {rounds : Nat} (h : n ≤ rounds)
    (he : ((s.offerAll initial).run n).1 = some e) :
    s.explore rounds initial =
      let final := ((s.offerAll initial).run n).2.close
      (some (e.map final.report), final) := by
  have hne : ((s.offerAll initial).run n).1 ≠ none := by simp [he]
  unfold explore
  rw [(run_of_le h hne).1]
  dsimp only
  rw [he]
  rfl

theorem Round.idle (h : s.Round none ending next) : ∃ frontier, next = { s with frontier } := by
  cases h with
  | stop => exact ⟨s.frontier, rfl⟩
  | fault | exhausted => exact ⟨_, rfl⟩

theorem Round.takes (h : s.Round (some t) ending next) :
    (PathSelector.poll s.frontier).1 = .ok (some t.state) ∧
    t.outcome = (Interpreter.step t.state s.interpreter).1 ∧ s.Takes t next := by
  cases h with
  | take _ hp ho ht => exact ⟨hp, ho, ht⟩

namespace Runs

theorem length_eq (h : Runs n s ts none final) : ts.length = n := by
  generalize he : (none : Option Ending) = ending at h
  induction h with
  | here => rfl
  | last => cases he
  | round _ _ ih => exact congrArg (· + 1) (ih he)

/-- What every round keeps, with one turn more if it takes one, is kept by the whole run. -/
theorem keeps {I : List Turn → Session φ ι → Prop}
    (hround : ∀ {before : List Turn} {s next : Session φ ι} {t? : Option Turn}
      {ending : Option Ending}, I before s → s.Round t? ending next → I (before ++ t?.toList) next)
    (h : Runs n s ts ending final) (before : List Turn) (hs : I before s) :
    I (before ++ ts) final := by
  induction h generalizing before with
  | here => simpa using hs
  | last h => exact hround hs h
  | round h _ ih => simpa using ih _ (hround hs h)

end Runs

structure Counts (s : Session φ ι) (ts : List Turn) (final : Session φ ι) : Prop where
  settings : final.settings = s.settings
  goals : final.goals = s.goals
  steps : final.steps = s.steps + ts.length
  offered : final.statesOffered = s.statesOffered + (ts.flatMap Turn.offered).length
  completed : final.pathsCompleted = s.pathsCompleted + ts.countP Turn.completes

theorem Counts.round {x : Session φ ι} {t? : Option Turn} (hx : s.Counts ts x)
    (h : x.Round t? ending next) : s.Counts (ts ++ t?.toList) next := by
  cases t? with
  | none =>
    obtain ⟨frontier, rfl⟩ := h.idle
    simpa using ⟨hx.settings, hx.goals, hx.steps, hx.offered, hx.completed⟩
  | some t =>
    obtain ⟨-, -, ht⟩ := h.takes
    refine ⟨ht.settings.trans hx.settings, ht.goals.trans hx.goals, ?_, ?_, ?_⟩
    · rw [ht.steps, hx.steps]
      simp [Nat.add_assoc]
    · rw [ht.offered, hx.offered]
      simp [Nat.add_assoc]
    · rw [ht.completed, hx.completed]
      simp [Nat.add_assoc]

theorem Runs.counts (h : Runs n s ts ending final) : s.Counts ts final :=
  h.keeps (I := s.Counts) Counts.round [] ⟨rfl, rfl, rfl, rfl, rfl⟩

structure Reaches (s : Session φ ι) (ts : List Turn) (final : Session φ ι) : Prop where
  pending : ∀ g, g ∈ final.tracker.pending ↔
    g ∈ s.tracker.pending ∧ ∀ t ∈ ts, g.reachedBy t.state = false
  reached : ∀ g, g ∈ final.reached.map (·.goal) ↔
    g ∈ s.reached.map (·.goal) ∨ g ∈ s.tracker.pending ∧ ∃ t ∈ ts, g.reachedBy t.state

theorem Reaches.round {x : Session φ ι} {t? : Option Turn} (hx : s.Reaches ts x)
    (h : x.Round t? ending next) : s.Reaches (ts ++ t?.toList) next := by
  cases t? with
  | none =>
    obtain ⟨frontier, rfl⟩ := h.idle
    simpa using ⟨hx.pending, hx.reached⟩
  | some t =>
    obtain ⟨-, -, ht⟩ := h.takes
    refine ⟨fun g => ?_, fun g => ?_⟩
    · rw [ht.tracker, GoalTracker.mem_pending_observe, hx.pending]
      simp [or_imp, forall_and, and_assoc]
    · have hfresh : g ∈ (x.tracker.fresh t.state) ↔
          (g ∈ s.tracker.pending ∧ ∀ t ∈ ts, g.reachedBy t.state = false) ∧
            g.reachedBy t.state := by
        rw [GoalTracker.mem_fresh, hx.pending]
      have hmap : (((x.tracker.fresh t.state).map fun g => ReachedGoal.mk g (x.steps + 1)).map
          (·.goal)) = x.tracker.fresh t.state := by
        simp [Function.comp_def]
      have hnone : (∀ u ∈ ts, g.reachedBy u.state = false) ↔ ¬ ∃ u ∈ ts, g.reachedBy u.state := by
        simp
      have hsome : (∃ u ∈ ts ++ (some t).toList, g.reachedBy u.state) ↔
          (∃ u ∈ ts, g.reachedBy u.state) ∨ g.reachedBy t.state := by
        simp [or_and_right, exists_or]
      rw [ht.reached, List.map_append, List.mem_append, hx.reached, hmap, hfresh, hnone, hsome]
      by_cases hr : ∃ u ∈ ts, g.reachedBy u.state
      · simp [hr]
      · simp only [hr, and_false, false_or, or_false, not_false_eq_true, and_true]

theorem Runs.reached (h : Runs n s ts ending final) : s.Reaches ts final :=
  h.keeps (I := s.Reaches) Reaches.round [] ⟨by simp, by simp⟩

section Frontiers

variable {ω χ τ : Type} [StopRule τ] [Weighting ω] [ChoiceRule χ]
  {s next : Session (Frontier ω χ τ) ι}

theorem offerAll_frontier (f : Frontier ω χ τ) (new : List State) :
    PathSelector.offerAll f new = f.after (new.map .offer) := by
  induction new generalizing f with
  | nil => rfl
  | cons x new ih => exact ih (f.offer x).2

omit [Interpreter ι] in
theorem offerAll_after (s : Session (Frontier ω χ τ) ι) (new : List State) :
    s.offerAll new = { s with
      frontier := s.frontier.after (new.map .offer)
      statesOffered := s.statesOffered + new.length } := by
  rw [offerAll_eq, offerAll_frontier]

theorem Takes.after (h : s.Takes t next) : ∃ stop, next.frontier =
    ({ s.frontier.poll.2 with stop } : Frontier ω χ τ).after (t.offered.map .offer) := by
  rw [h.frontier, PathSelector.after, offerAll_frontier]
  cases t.completes with
  | true | false => exact ⟨_, rfl⟩

/-- Behind what a poll leaves, the frontier holds what is offered in the turn. -/
theorem Takes.stock (h : s.Takes t next) (hs : s.frontier.closed = false) :
    next.frontier.states = s.frontier.poll.2.states ++ t.offered ∧
      next.frontier.closed = false ∧ next.frontier.released = s.frontier.released := by
  obtain ⟨stop, hfrontier⟩ := h.after
  have hkept := s.frontier.kept_poll
  obtain ⟨hstates, hopen, hreleased⟩ := Frontier.after_offers
    (f := { s.frontier.poll.2 with stop }) (hkept.closed.trans hs) t.offered
  rw [hfrontier]
  exact ⟨hstates, hopen, hreleased.trans hkept.released⟩

/-- In a round without a turn a frontier holds on to what it has. -/
theorem Round.idle_kept (h : s.Round none ending next) : ∃ frontier, next = { s with frontier } ∧
    s.frontier.Kept frontier ∧ frontier.entries = s.frontier.entries := by
  cases h with
  | stop _ => exact ⟨_, rfl, .refl _, rfl⟩
  | fault _ hp | exhausted _ hp =>
    refine ⟨_, rfl, s.frontier.kept_poll, ?_⟩
    obtain ⟨-, he⟩ | ⟨_, _, _, -, hpoll, -⟩ := s.frontier.poll_cases
    · exact he
    · exact nomatch hp.symm.trans hpoll

end Frontiers

end Session

end PathExplorer
