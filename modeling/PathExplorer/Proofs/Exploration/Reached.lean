import Mathlib.Data.List.Induction
import Mathlib.Data.List.Perm.Subperm
import PathExplorer.Exploration.Walker
import PathExplorer.Frontier.Standard
import PathExplorer.Proofs.Exploration.Round
import PathExplorer.Proofs.Program.Graph

namespace PathExplorer

namespace Goal

variable {g : Goal} {s : State} {states : List State} {j k : Nat}

def CompletedBy (g : Goal) (s : State) : Prop :=
  s.stmt = g.sink.stmt ∧ g.source.stmt ∈ s.path.dropLast

/-- Of some states, the one at this place counted from 1 is the first to complete the goal. -/
def FirstAt (g : Goal) (states : List State) (k : Nat) : Prop :=
  ∃ before s after, states = before ++ s :: after ∧ k = before.length + 1 ∧ g.CompletedBy s ∧
    ∀ x ∈ before, ¬ g.CompletedBy x

theorem reachedBy_iff : g.reachedBy s ↔ g.CompletedBy s := by
  have hpath : s.path.dropLast = s.earlier.reverse := by
    rw [State.path, List.reverse_cons, List.dropLast_concat]
  rw [CompletedBy, hpath, List.mem_reverse, reachedBy, Bool.and_eq_true, decide_eq_true_iff,
    List.contains_iff_mem, eq_comm]

theorem reachedBy_eq_false_iff : g.reachedBy s = false ↔ ¬ g.CompletedBy s := by
  rw [← reachedBy_iff, Bool.not_eq_true]

theorem firstAt_concat : g.FirstAt (states ++ [s]) k ↔ g.FirstAt states k ∨
    k = states.length + 1 ∧ g.CompletedBy s ∧ ∀ x ∈ states, ¬ g.CompletedBy x := by
  constructor
  · rintro ⟨before, x, after, h, rfl, hx, hb⟩
    cases after using List.reverseRecOn with
    | nil =>
      obtain ⟨rfl, hsx⟩ := List.append_inj' h rfl
      cases hsx
      exact .inr ⟨rfl, hx, hb⟩
    | append_singleton after y =>
      rw [← List.cons_append, ← List.append_assoc] at h
      obtain ⟨rfl, -⟩ := List.append_inj' h rfl
      exact .inl ⟨before, x, after, rfl, rfl, hx, hb⟩
  · rintro (⟨before, x, after, rfl, rfl, hx, hb⟩ | ⟨rfl, hs, hb⟩)
    · exact ⟨before, x, after ++ [s], by simp, rfl, hx, hb⟩
    · exact ⟨states, s, [], rfl, rfl, hs, hb⟩

theorem exists_firstAt_iff : (∃ k, g.FirstAt states k) ↔ ∃ s ∈ states, g.CompletedBy s := by
  induction states using List.reverseRecOn with
  | nil => simp [FirstAt]
  | append_singleton states s ih =>
    simp only [firstAt_concat, exists_or, ih, List.mem_append, List.mem_singleton, or_and_right,
      exists_eq_left]
    constructor
    · exact Or.imp_right And.left
    · rintro (h | hs)
      · exact .inl h
      · by_cases h : ∃ x ∈ states, g.CompletedBy x
        · exact .inl h
        · exact .inr ⟨hs, fun x hx hc => h ⟨x, hx, hc⟩⟩

theorem FirstAt.le_length (h : g.FirstAt states k) : k ≤ states.length := by
  obtain ⟨before, s, after, rfl, rfl, -⟩ := h
  simp

theorem FirstAt.not_lt (hj : g.FirstAt states j) (hk : g.FirstAt states k) : ¬ j < k := by
  obtain ⟨before, x, after, h, rfl, hx, -⟩ := hj
  obtain ⟨before', x', after', h', rfl, -, hb⟩ := hk
  intro hlt
  -- The state at `j` is one of those before the state at `k`.
  have hmem : x ∈ before' := by
    have hget : (before ++ x :: after)[before.length]? = some x := by simp
    rw [← h, h', List.getElem?_append_left (by omega)] at hget
    exact List.mem_of_getElem? hget
  exact hb x hmem hx

theorem FirstAt.unique (hj : g.FirstAt states j) (hk : g.FirstAt states k) : j = k := by
  have := hj.not_lt hk
  have := hk.not_lt hj
  omega

end Goal

def ReachedGoal.Precedes (a b : ReachedGoal) : Prop :=
  a.step < b.step ∨ a.step = b.step ∧ compare a.goal b.goal = .lt

theorem ReachedGoal.Precedes.step_le {a b : ReachedGoal} (h : a.Precedes b) : a.step ≤ b.step :=
  h.elim Nat.le_of_lt fun h => Nat.le_of_eq h.1

namespace Session

variable {φ ι : Type} {goals : Registry} {s next final : Session φ ι} {ts : List Turn}

/-- What is known of the goals after some turns of an exploration for all of them. -/
structure Notes (goals : Registry) (ts : List Turn) (s : Session φ ι) : Prop where
  steps : s.steps = ts.length
  pending : ∀ g, g ∈ s.tracker.pending ↔ g ∈ goals.goals ∧ ∀ t ∈ ts, ¬ g.CompletedBy t.state
  reached : ∀ r, r ∈ s.reached ↔
    r.goal ∈ goals.goals ∧ r.goal.FirstAt (ts.map (·.state)) r.step
  sorted : s.reached.Pairwise ReachedGoal.Precedes

def fresh (settings : ExplorationSettings) (goals : Registry) (frontier : φ)
    (interpreter : ι) : Session φ ι :=
  { settings, goals, frontier, interpreter }

namespace Notes

theorem mem_fresh (h : s.Notes goals ts) {g : Goal} {state : State} :
    g ∈ s.tracker.fresh state ↔
      (g ∈ goals.goals ∧ ∀ t ∈ ts, ¬ g.CompletedBy t.state) ∧ g.CompletedBy state := by
  rw [GoalTracker.mem_fresh, h.pending, Goal.reachedBy_iff]

theorem nodup (h : s.Notes goals ts) : (s.reached.map (·.goal)).Nodup := by
  refine List.pairwise_map.mpr (h.sorted.imp_of_mem fun {a b} ha hb hab he => ?_)
  have hstep : a.step = b.step := by
    have hb := ((h.reached b).mp hb).2
    rw [← he] at hb
    exact ((h.reached a).mp ha).2.unique hb
  obtain hlt | ⟨-, hlt⟩ := hab
  · omega
  · rw [he] at hlt
    exact Ascending.compare_self_ne_lt _ hlt

theorem mem_goals (h : s.Notes goals ts) {g : Goal} : g ∈ s.reached.map (·.goal) ↔
    g ∈ goals.goals ∧ ∃ x ∈ ts.map (·.state), g.CompletedBy x := by
  rw [← Goal.exists_firstAt_iff, List.mem_map]
  constructor
  · rintro ⟨r, hr, rfl⟩
    obtain ⟨hg, hfirst⟩ := (h.reached r).mp hr
    exact ⟨hg, _, hfirst⟩
  · rintro ⟨hg, k, hfirst⟩
    exact ⟨⟨g, k⟩, (h.reached _).mpr ⟨hg, hfirst⟩, rfl⟩

/-- As many goals are noted as there are exactly when every goal was completed. -/
theorem length_eq_iff (h : s.Notes goals ts) : s.reached.length = goals.size ↔
    ∀ g ∈ goals.goals, ∃ x ∈ ts.map (·.state), g.CompletedBy x := by
  have hsub : s.reached.map (·.goal) ⊆ goals.goals.toList := fun g hg => (h.mem_goals.mp hg).1
  have hsubperm := List.subperm_of_subset h.nodup hsub
  have hl : (s.reached.map (·.goal)).length = s.reached.length := List.length_map ..
  constructor
  · intro hlength g hg
    have hp := hsubperm.perm_of_length_le (by rw [hl, hlength]; exact Nat.le_refl _)
    exact (h.mem_goals.mp (hp.mem_iff.mpr hg)).2
  · intro hall
    have hback : goals.goals.toList ⊆ s.reached.map (·.goal) :=
      fun g hg => h.mem_goals.mpr ⟨hg, hall g hg⟩
    have hle := (List.subperm_of_subset goals.goals.nodup_toList hback).length_le
    exact hl ▸ Nat.le_antisymm hsubperm.length_le hle

variable [PathSelector φ] [Interpreter ι] {t : Turn}

/-- The entries of a turn come behind all others, each for a goal that no turn completed before. -/
theorem take (h : s.Notes goals ts) (ht : s.Takes t next) : next.Notes goals (ts ++ [t]) := by
  have hlast : ∀ r, r ∈ (s.tracker.fresh t.state).map (fun g => ReachedGoal.mk g (s.steps + 1)) ↔
      r.step = ts.length + 1 ∧ r.goal ∈ s.tracker.fresh t.state := by
    intro r
    rw [List.mem_map, h.steps]
    constructor
    · rintro ⟨g, hg, rfl⟩
      exact ⟨rfl, hg⟩
    · rintro ⟨hs, hg⟩
      exact ⟨r.goal, hg, by cases r; cases hs; rfl⟩
  refine ⟨?steps, fun g => ?pending, fun r => ?reached, ?sorted⟩
  case steps => rw [ht.steps, h.steps, List.length_append, List.length_singleton]
  case pending =>
    rw [ht.tracker, GoalTracker.mem_pending_observe, h.pending, Goal.reachedBy_eq_false_iff]
    simp [or_imp, forall_and, and_assoc]
  case reached =>
    rw [ht.reached, List.mem_append, h.reached, hlast, h.mem_fresh, List.map_append,
      List.map_singleton, Goal.firstAt_concat, List.length_map, List.forall_mem_map]
    tauto
  case sorted =>
    rw [ht.reached]
    refine List.pairwise_append.mpr ⟨h.sorted, List.pairwise_map.mpr ?_, fun a ha b hb => ?_⟩
    · exact (Ascending.sorted _).imp fun hlt => .inr ⟨rfl, hlt⟩
    · have hle := ((h.reached a).mp ha).2.le_length
      rw [List.length_map] at hle
      exact .inl (by rw [((hlast b).mp hb).1]; omega)

variable {t? : Option Turn} {ending : Option Ending} {n : Nat}

theorem round (h : s.Notes goals ts) (hr : s.Round t? ending next) :
    next.Notes goals (ts ++ t?.toList) := by
  cases t? with
  | none =>
    obtain ⟨frontier, rfl⟩ := hr.idle
    rw [Option.toList_none, List.append_nil]
    exact ⟨h.steps, h.pending, h.reached, h.sorted⟩
  | some t => exact h.take hr.takes.2.2

theorem runs (h : s.Notes goals []) (hr : Runs n s ts ending final) : final.Notes goals ts :=
  hr.keeps (I := Notes goals) round [] h

end Notes

variable [PathSelector φ] [Interpreter ι]

omit [Interpreter ι] in
theorem notes_offerAll (settings : ExplorationSettings) (goals : Registry)
    (frontier : φ) (interpreter : ι) (initial : List State) :
    ((fresh settings goals frontier interpreter).offerAll initial).Notes goals [] := by
  rw [offerAll_eq]
  exact ⟨rfl, by simp [fresh, GoalTracker.ofRegistry], by simp [fresh, Goal.FirstAt], .nil⟩

theorem run_of_explore_ok {initial : List State} {rounds : Nat} {report : Report}
    (h : (s.explore rounds initial).1 = some (.ok report)) :
    ∃ reason, ((s.offerAll initial).run rounds).1 = some (.ok reason) ∧
      report = ((s.offerAll initial).run rounds).2.close.report reason := by
  unfold explore at h
  cases he : ((s.offerAll initial).run rounds).1 with
  | none => simp [he] at h
  | some ending =>
    cases ending with
    | error fault => simp [he, Except.map] at h
    | ok reason => exact ⟨reason, rfl, by simpa [he, Except.map, eq_comm] using h⟩

theorem run_of_explore_error {initial : List State} {rounds : Nat} {fault : Fault}
    (h : (s.explore rounds initial).1 = some (.error fault)) :
    ((s.offerAll initial).run rounds).1 = some (.error fault) := by
  unfold explore at h
  cases he : ((s.offerAll initial).run rounds).1 with
  | none => simp [he] at h
  | some ending =>
    cases ending with
    | error fault => simpa [he, Except.map] using h
    | ok reason => simp [he, Except.map] at h

theorem explore_eq_ok {initial : List State} {rounds : Nat} {report : Report}
    (h : (s.explore rounds initial).1 = some (.ok report)) :
    ∃ reason, report = ((s.offerAll initial).run rounds).2.close.report reason := by
  obtain ⟨reason, -, hreport⟩ := run_of_explore_ok h
  exact ⟨reason, hreport⟩

/-- A goal is reported at the step of the first polled state that completes it, and at no other. -/
theorem goalsReached_exact (settings : ExplorationSettings) (goals : Registry)
    (frontier : φ) (interpreter : ι) (initial : List State) {rounds : Nat}
    {report : Report}
    (h : ((fresh settings goals frontier interpreter).explore rounds initial).1 =
      some (.ok report)) :
    let polled := ((fresh settings goals frontier interpreter).offerAll initial).polled rounds
    (∀ r, r ∈ report.goalsReached ↔ r.goal ∈ goals.goals ∧ r.goal.FirstAt polled r.step) ∧
      (report.goalsReached.map (·.goal)).Nodup ∧
      report.goalsReached.Pairwise ReachedGoal.Precedes ∧
      (report.allGoalsReached ↔ ∀ g ∈ goals.goals, ∃ s ∈ polled, g.CompletedBy s) := by
  obtain ⟨reason, rfl⟩ := explore_eq_ok h
  have hbegun := notes_offerAll settings goals frontier interpreter initial
  have hnotes := hbegun.runs (runs rounds _)
  have hgoals : ((fresh settings goals frontier interpreter).offerAll initial).goals = goals := by
    rw [offerAll_eq]
    rfl
  generalize (fresh settings goals frontier interpreter).offerAll initial = begun at *
  intro polled
  refine ⟨hnotes.reached, hnotes.nodup, hnotes.sorted, ?_⟩
  have hfinal : (begun.run rounds).2.goals = goals := (begun.runs rounds).counts.goals.trans hgoals
  have hpairs : ((begun.run rounds).2.close.report reason).goalPairs = goals.size :=
    congrArg Registry.size hfinal
  rw [Report.allGoalsReached, hpairs, decide_eq_true_iff]
  exact hnotes.length_eq_iff

/-- Goals for `helperTwice`: the helper after itself, the second call after the first call and after
the helper, the helper after the first call, and one whose sink is in no program. -/
def helperGoals : Registry where
  goals := {
    toList := [⟨⟨⟨⟨0⟩, 0⟩⟩, ⟨⟨⟨0⟩, 1⟩⟩⟩, ⟨⟨⟨⟨0⟩, 0⟩⟩, ⟨⟨⟨1⟩, 0⟩⟩⟩, ⟨⟨⟨⟨0⟩, 0⟩⟩, ⟨⟨⟨9⟩, 0⟩⟩⟩,
      ⟨⟨⟨⟨1⟩, 0⟩⟩, ⟨⟨⟨0⟩, 1⟩⟩⟩, ⟨⟨⟨⟨1⟩, 0⟩⟩, ⟨⟨⟨1⟩, 0⟩⟩⟩]
    sorted := by decide }

theorem goalsReached_exact_helperTwice :
    let session := fresh (.ofPreset .fast) helperGoals FifoFrontier.new (Walker.mk helperTwice.view)
    let polled := (session.offerAll [.root ⟨⟨0⟩, 0⟩]).polled 10
    let reached : List ReachedGoal := [⟨⟨⟨⟨⟨0⟩, 0⟩⟩, ⟨⟨⟨1⟩, 0⟩⟩⟩, 2⟩, ⟨⟨⟨⟨⟨0⟩, 0⟩⟩, ⟨⟨⟨0⟩, 1⟩⟩⟩, 4⟩,
      ⟨⟨⟨⟨⟨1⟩, 0⟩⟩, ⟨⟨⟨0⟩, 1⟩⟩⟩, 4⟩, ⟨⟨⟨⟨⟨1⟩, 0⟩⟩, ⟨⟨⟨1⟩, 0⟩⟩⟩, 5⟩]
    ∃ report, (session.explore 10 [.root ⟨⟨0⟩, 0⟩]).1 = some (.ok report) ∧
      report.goalsReached = reached ∧
      ∀ r, r ∈ reached ↔ r.goal ∈ helperGoals.goals ∧ r.goal.FirstAt polled r.step := by
  intro session polled reached
  let report : Report := {
    steps := 8, statesOffered := 8, pathsCompleted := 2, goalsReached := reached, goalPairs := 5
    stopReason := .frontierExhausted, selector := { offered := 8, polled := 8 } }
  have h : (session.explore 10 [.root ⟨⟨0⟩, 0⟩]).1 = some (.ok report) := by decide
  exact ⟨report, h, rfl, (goalsReached_exact _ _ _ _ _ h).1⟩

end Session

end PathExplorer
