import Mathlib.Data.List.Pairwise
import PathExplorer.Proofs.Exploration.Reached
import PathExplorer.Proofs.Frontier.Ready

namespace PathExplorer

def StopReason.rank : StopReason → Nat
  | goalsSatisfied => 0
  | stepsLimit => 1
  | strategy _ => 2
  | frontierExhausted => 3

namespace Session

variable {φ ι : Type} [PathSelector φ] [Interpreter ι]

inductive StopsFor (s : Session φ ι) (polled : List State) : StopReason → Prop
  | satisfied : s.settings.stopWhenSatisfied → s.goals.isEmpty = false →
      (∀ g ∈ s.goals.goals, ∃ x ∈ polled, g.CompletedBy x) → StopsFor s polled .goalsSatisfied
  | spent {limit : UInt64} : s.settings.stepsLimit = some limit → limit.toNat ≤ polled.length →
      StopsFor s polled .stepsLimit
  | strategy : PathSelector.stops s.frontier →
      StopsFor s polled (.strategy (PathSelector.stopName s.frontier))
  | exhausted : (PathSelector.poll s.frontier).1 = .ok none → StopsFor s polled .frontierExhausted

structure StopsFirst (s : Session φ ι) (polled : List State) (reason : StopReason) : Prop where
  holds : s.StopsFor polled reason
  first : ∀ other, s.StopsFor polled other → reason.rank ≤ other.rank

/-- The exploration takes a turn in each of the first `n` rounds, before which there is no reason to
end, and ends in the next. -/
structure EndsAt (s : Session φ ι) (n : Nat) (reason : StopReason) : Prop where
  passes : ∀ k ≤ n, (s.run k).1 = none ∧ (s.polled k).length = k
  goesOn : ∀ k < n, ∀ other, ¬ (s.run k).2.StopsFor (s.polled k) other
  ends : (s.run n).2.StopsFirst (s.polled n) reason

variable {goals : Registry} {s next final : Session φ ι} {ts : List Turn} {t : Turn}
  {ending : Option Ending} {n rounds : Nat} {reason : StopReason}

section Reasons

omit [Interpreter ι] in
theorem StopsFor.satisfied_inv {states : List State} (h : s.StopsFor states .goalsSatisfied) :
    s.settings.stopWhenSatisfied ∧ s.goals.isEmpty = false ∧
      ∀ g ∈ s.goals.goals, ∃ x ∈ states, g.CompletedBy x := by
  cases h with
  | satisfied hstop hsome hall => exact ⟨hstop, hsome, hall⟩

omit [Interpreter ι] in
theorem StopsFor.spent_inv {states : List State} (h : s.StopsFor states .stepsLimit) :
    ∃ limit, s.settings.stepsLimit = some limit ∧ limit.toNat ≤ states.length := by
  cases h with
  | spent hlimit hle => exact ⟨_, hlimit, hle⟩

omit [Interpreter ι] in
theorem satisfied_iff (hn : s.Notes goals ts) (hg : s.goals = goals) :
    (s.settings.stopWhenSatisfied && !s.goals.isEmpty && s.tracker.pending.isEmpty) = true ↔
      s.StopsFor (ts.map (·.state)) .goalsSatisfied := by
  have hpending : s.tracker.pending.isEmpty ↔
      ∀ g ∈ s.goals.goals, ∃ x ∈ ts.map (·.state), g.CompletedBy x := by
    rw [Ascending.isEmpty, List.isEmpty_iff, List.eq_nil_iff_forall_not_mem, hg]
    simp only [← Ascending.mem_iff, hn.pending, not_and, not_forall, Classical.not_not,
      exists_prop, List.mem_map, exists_exists_and_eq_and]
  rw [Bool.and_eq_true, Bool.and_eq_true, hpending, Bool.not_eq_true']
  constructor
  · rintro ⟨⟨hstop, hsome⟩, hall⟩
    exact .satisfied hstop hsome hall
  · intro h
    obtain ⟨hstop, hsome, hall⟩ := h.satisfied_inv
    exact ⟨⟨hstop, hsome⟩, hall⟩

omit [Interpreter ι] in
theorem spent_iff (hn : s.Notes goals ts) :
    (s.settings.stepsLimit.any fun limit => limit.toNat ≤ s.steps) = true ↔
      s.StopsFor (ts.map (·.state)) .stepsLimit := by
  rw [Option.any_eq_true, hn.steps]
  constructor
  · rintro ⟨limit, hlimit, hle⟩
    exact .spent hlimit (by simpa using hle)
  · intro h
    obtain ⟨limit, hlimit, hle⟩ := h.spent_inv
    exact ⟨limit, hlimit, by simpa using hle⟩

omit [Interpreter ι] in
/-- What is asked for before a round is the first reason, but for one that only the poll tells. -/
theorem stopReason?_spec (hn : s.Notes goals ts) (hg : s.goals = goals) :
    (∀ reason, s.stopReason? = some reason → s.StopsFirst (ts.map (·.state)) reason) ∧
      (s.stopReason? = none →
        ∀ reason, s.StopsFor (ts.map (·.state)) reason → reason = .frontierExhausted) := by
  have hsatisfied := (satisfied_iff hn hg).not
  have hspent := (spent_iff hn).not
  unfold stopReason?
  split
  · rename_i h
    refine ⟨fun reason hr => ?_, fun hr => nomatch hr⟩
    cases hr
    exact ⟨(satisfied_iff hn hg).mp h, fun _ _ => Nat.zero_le _⟩
  rename_i h₁
  split
  · rename_i h
    refine ⟨fun reason hr => ?_, fun hr => nomatch hr⟩
    cases hr
    refine ⟨(spent_iff hn).mp h, fun other ho => ?_⟩
    cases other with
    | goalsSatisfied => exact absurd ho (hsatisfied.mp h₁)
    | stepsLimit | strategy _ | frontierExhausted => simp [StopReason.rank]
  rename_i h₂
  split
  · rename_i h
    refine ⟨fun reason hr => ?_, fun hr => nomatch hr⟩
    cases hr
    refine ⟨.strategy h, fun other ho => ?_⟩
    cases other with
    | goalsSatisfied => exact absurd ho (hsatisfied.mp h₁)
    | stepsLimit => exact absurd ho (hspent.mp h₂)
    | strategy _ | frontierExhausted => simp [StopReason.rank]
  · rename_i h₃
    refine ⟨fun reason hr => (nomatch hr), fun _ reason hreason => ?_⟩
    cases reason with
    | goalsSatisfied => exact absurd hreason (hsatisfied.mp h₁)
    | stepsLimit => exact absurd hreason (hspent.mp h₂)
    | strategy name =>
      cases hreason with
      | strategy hstops => exact absurd hstops h₃
    | frontierExhausted => rfl

end Reasons

theorem Round.stops {t? : Option Turn} (h : s.Round t? ending next) (hn : s.Notes goals ts)
    (hg : s.goals = goals) :
    (∀ reason, ending = some (.ok reason) →
      t? = none ∧ s.StopsFirst (ts.map (·.state)) reason) ∧
      (ending = none → ∀ reason, ¬ s.StopsFor (ts.map (·.state)) reason) := by
  obtain ⟨hsome, hnone⟩ := stopReason?_spec hn hg
  cases h with
  | @stop reason hs =>
    refine ⟨fun other ho => ?_, fun ho => nomatch ho⟩
    cases ho
    exact ⟨rfl, hsome reason hs⟩
  | fault => exact ⟨fun _ ho => (nomatch ho), fun ho => nomatch ho⟩
  | exhausted hs hp =>
    refine ⟨fun other ho => ?_, fun ho => nomatch ho⟩
    cases ho
    refine ⟨rfl, .exhausted hp, fun other ho => ?_⟩
    obtain rfl := hnone hs other ho
    exact Nat.le_refl _
  | @take t _ hs hp _ _ =>
    refine ⟨fun reason ho => ?_, fun _ reason hreason => ?_⟩
    · unfold Turn.ending at ho
      split at ho
      · cases ho
      · cases ho
    · cases hnone hs reason hreason
      cases hreason with
      | exhausted hempty =>
        rw [hp] at hempty
        cases hempty

section Rounds

theorem run_add_one (h : (s.run n).1 = none) : s.run (n + 1) = (s.run n).2.round ∧
    s.turns (n + 1) = s.turns n ++ (s.run n).2.turn?.toList := by
  induction n generalizing s with
  | zero =>
    have hround : s.run 1 = s.round ∧ s.turns 1 = s.turn?.toList := by
      unfold run turns
      cases s.round with
      | mk ending next =>
        cases ending with
        | none => exact ⟨rfl, List.append_nil _⟩
        | some ending => exact ⟨rfl, rfl⟩
    exact hround
  | succ n ih =>
    cases hr : s.round with
    | mk ending next =>
      cases ending with
      | some ending => simp [run, hr] at h
      | none =>
        have hrun : ∀ k, s.run (k + 1) = next.run k := fun k => by rw [run, hr]
        have hturns : ∀ k, s.turns (k + 1) = s.turn?.toList ++ next.turns k :=
          fun k => by rw [turns, hr]
        rw [hrun] at h
        obtain ⟨ih₁, ih₂⟩ := ih h
        rw [hrun, hturns, hrun, hturns, ih₂, List.append_assoc]
        exact ⟨ih₁, rfl⟩

theorem polled_add_one (h : (s.run n).1 = none) :
    s.polled (n + 1) = s.polled n ++ ((s.run n).2.turn?.map (·.state)).toList := by
  rw [polled, (run_add_one h).2, List.map_append, Option.toList_map]
  rfl

theorem exists_last_round {e : Ending} (h : (s.run rounds).1 = some e) :
    ∃ n < rounds, (∀ k ≤ n, (s.run k).1 = none) ∧ (s.run n).2.round = s.run rounds := by
  induction rounds with
  | zero => cases h
  | succ rounds ih =>
    -- The last of the rounds ends it, or one before has, and the others do nothing.
    cases hr : (s.run rounds).1 with
    | none =>
      refine ⟨rounds, Nat.lt_succ_self _, fun k hk => ?_, (run_add_one hr).1.symm⟩
      by_contra hne
      rw [(run_of_le hk hne).1] at hr
      exact hne hr
    | some e' =>
      have hended : (s.run rounds).1 ≠ none := by simp [hr]
      have hsame := (run_of_le (Nat.le_succ rounds) hended).1
      rw [hsame] at h
      obtain ⟨n, hn, hnone, hlast⟩ := ih h
      exact ⟨n, Nat.lt_succ_of_lt hn, hnone, hlast.trans hsame.symm⟩

end Rounds

structure Reaching (goals : Registry) (begun : Session φ ι) (k : Nat) : Prop where
  notes : (begun.run k).2.Notes goals (begun.turns k)
  settings : (begun.run k).2.settings = begun.settings
  goals : (begun.run k).2.goals = goals
  length : (begun.turns k).length = k

theorem reaching {begun : Session φ ι} (hn : begun.Notes goals []) (hg : begun.goals = goals)
    {k : Nat} (hk : (begun.run k).1 = none) : begun.Reaching goals k := by
  have hruns := begun.runs k
  have hcounts := hruns.counts
  rw [hk] at hruns
  exact ⟨hn.runs hruns, hcounts.settings, hcounts.goals.trans hg, hruns.length_eq⟩

/-- An exploration that ends for a reason takes turns until the first round before which one holds,
and ends in that round. -/
theorem endsAt_of_run {begun : Session φ ι} (hn : begun.Notes goals [])
    (hg : begun.goals = goals) (h : (begun.run rounds).1 = some (.ok reason)) :
    ∃ n < rounds, begun.EndsAt n reason ∧
      (begun.run n).2.Round none (some (.ok reason)) (begun.run rounds).2 := by
  obtain ⟨n, hrounds, hnone, hlast⟩ := exists_last_round h
  have hround := (begun.run n).2.round_cases
  have hreaching := fun k hk => reaching hn hg (hnone k hk)
  rw [hlast, h] at hround
  have hlast := hreaching n (Nat.le_refl n)
  obtain ⟨hended, -⟩ := hround.stops hlast.notes hlast.goals
  obtain ⟨hturn, hfirst⟩ := hended reason rfl
  rw [hturn] at hround
  refine ⟨n, hrounds, ⟨fun k hk => ⟨hnone k hk, ?_⟩, fun k hk => ?_, hfirst⟩, hround⟩
  · rw [polled, List.length_map, (hreaching k hk).length]
  · have hk' := Nat.le_of_lt hk
    have hpassed := (begun.run k).2.round_cases
    rw [← (run_add_one (hnone k hk')).1, hnone (k + 1) hk] at hpassed
    exact (hpassed.stops (hreaching k hk').notes (hreaching k hk').goals).2 rfl

namespace EndsAt

variable {begun : Session φ ι}

theorem le_limit (h : begun.EndsAt n reason) (hr : ∀ k ≤ n, begun.Reaching goals k) {limit : UInt64}
    (hl : begun.settings.stepsLimit = some limit) : n ≤ limit.toNat := by
  cases n with
  | zero => exact Nat.zero_le _
  | succ k =>
    have hk := Nat.le_succ k
    by_contra hlt
    refine h.goesOn k (Nat.lt_succ_self k) _ (.spent ((hr k hk).settings ▸ hl) ?_)
    rw [(h.passes k hk).2]
    omega

theorem eq_limit (h : begun.EndsAt n .stepsLimit) (hr : ∀ k ≤ n, begun.Reaching goals k) :
    ∃ limit, begun.settings.stepsLimit = some limit ∧ n = limit.toNat := by
  obtain ⟨limit, hl, hle⟩ := h.ends.holds.spent_inv
  rw [(hr n (Nat.le_refl n)).settings] at hl
  rw [(h.passes n (Nat.le_refl n)).2] at hle
  exact ⟨limit, hl, Nat.le_antisymm (h.le_limit hr hl) hle⟩

/-- Before the last turn there is a goal that is not completed, or the exploration would have ended
there. -/
theorem exists_open_goal {k : Nat} (h : begun.EndsAt (k + 1) .goalsSatisfied)
    (hr : ∀ i ≤ k + 1, begun.Reaching goals i) :
    ∃ g ∈ goals.goals, ∀ x ∈ begun.polled k, ¬ g.CompletedBy x := by
  obtain ⟨hstop, hsome, -⟩ := h.ends.holds.satisfied_inv
  have hlast := hr (k + 1) (Nat.le_refl _)
  have hk := hr k (Nat.le_succ k)
  rw [hlast.settings, ← hk.settings] at hstop
  rw [hlast.goals, ← hk.goals] at hsome
  by_contra hno
  simp only [not_exists, not_and, not_forall, Classical.not_not, exists_prop] at hno
  exact h.goesOn k (Nat.lt_succ_self k) _ (.satisfied hstop hsome (hk.goals.symm ▸ hno))

theorem goal_at_last (h : begun.EndsAt n .goalsSatisfied) (hr : ∀ k ≤ n, begun.Reaching goals k) :
    ∃ g ∈ goals.goals, g.FirstAt (begun.polled n) n := by
  obtain ⟨-, hsome, hall⟩ := h.ends.holds.satisfied_inv
  rw [(hr n (Nat.le_refl n)).goals] at hsome hall
  cases n with
  | zero =>
    have hempty : goals.isEmpty := by
      rw [Registry.isEmpty, Ascending.isEmpty, List.isEmpty_iff, List.eq_nil_iff_forall_not_mem]
      intro g hg
      obtain ⟨x, hx, -⟩ := hall g hg
      exact nomatch hx
    rw [hsome] at hempty
    cases hempty
  | succ k =>
    obtain ⟨hnone, hlength⟩ := h.passes k (Nat.le_succ k)
    obtain ⟨g, hg, hopen⟩ := h.exists_open_goal hr
    obtain ⟨x, hx, hc⟩ := hall g hg
    rw [polled_add_one hnone] at hx ⊢
    obtain hx | hx := List.mem_append.mp hx
    · exact absurd hc (hopen x hx)
    · rw [Option.mem_toList.mp hx]
      exact ⟨g, hg, Goal.firstAt_concat.mpr (.inr ⟨by rw [hlength], hc, hopen⟩)⟩

theorem satisfied (h : begun.EndsAt n .goalsSatisfied) (hr : ∀ k ≤ n, begun.Reaching goals k) :
    goals.isEmpty = false ∧ (∀ g ∈ goals.goals, g ∈ (begun.run n).2.reached.map (·.goal)) ∧
      ∃ last, (begun.run n).2.reached.getLast? = some last ∧ last.step = n := by
  have hn := hr n (Nat.le_refl n)
  obtain ⟨-, hsome, hall⟩ := h.ends.holds.satisfied_inv
  rw [hn.goals] at hsome hall
  refine ⟨hsome, fun g hg => hn.notes.mem_goals.mpr ⟨hg, hall g hg⟩, ?_⟩
  obtain ⟨g, hg, hfirst⟩ := h.goal_at_last hr
  have hmem : ⟨g, n⟩ ∈ (begun.run n).2.reached := (hn.notes.reached _).mpr ⟨hg, hfirst⟩
  have hne := List.ne_nil_of_mem hmem
  have hlast := List.getLast?_eq_some_getLast hne
  have hge := (hn.notes.sorted.imp (·.step_le)).rel_getLast_of_rel_getLast_getLast hmem
    (Nat.le_refl _)
  have hle := ((hn.notes.reached _).mp (List.getLast_mem hne)).2.le_length
  rw [List.length_map, hn.length] at hle
  exact ⟨_, hlast, Nat.le_antisymm hle hge⟩

theorem stops_eq_false (h : begun.EndsAt n reason) {k : Nat} (hk : k < n) :
    PathSelector.stops (begun.run k).2.frontier = false := by
  rw [← Bool.not_eq_true]
  exact fun hstops => h.goesOn k hk _ (.strategy hstops)

theorem poll_eq_none (h : begun.EndsAt n .frontierExhausted) :
    (PathSelector.poll (begun.run n).2.frontier).1 = .ok none := by
  obtain ⟨hholds, -⟩ := h.ends
  cases hholds with
  | exhausted hp => exact hp

end EndsAt

/-- Where an exploration that goes on from `begun` ends with the report: before the first round for
which there is a reason, and for the first of the reasons that there are. -/
structure EndsFirst (settings : ExplorationSettings) (goals : Registry) (begun : Session φ ι)
    (report : Report) : Prop where
  endsAt : begun.EndsAt report.steps report.stopReason
  le_limit : ∀ limit, settings.stepsLimit = some limit → report.steps ≤ limit.toNat
  spent : report.stopReason = .stepsLimit →
    ∃ limit, settings.stepsLimit = some limit ∧ report.steps = limit.toNat
  satisfied : report.stopReason = .goalsSatisfied → goals.isEmpty = false ∧
    (∀ g ∈ goals.goals, g ∈ report.goalsReached.map (·.goal)) ∧
    ∃ r, report.goalsReached.getLast? = some r ∧ r.step = report.steps
  strategy : ∀ name, report.stopReason = .strategy name → ∀ k < report.steps,
    PathSelector.stops (begun.run k).2.frontier = false

theorem exists_round_of_explore (settings : ExplorationSettings) (goals : Registry) (selector : φ)
    (interpreter : ι) (initial : List State) {report : Report}
    (h : ((fresh settings goals selector interpreter).explore rounds initial).1 =
      some (.ok report)) :
    let begun := (fresh settings goals selector interpreter).offerAll initial
    begun.EndsFirst settings goals report ∧
      (begun.run report.steps).2.Round none (some (.ok report.stopReason)) (begun.run rounds).2 ∧
      report = (begun.run rounds).2.close.report report.stopReason := by
  obtain ⟨reason, hrun, rfl⟩ := run_of_explore_ok h
  have hnotes := notes_offerAll settings goals selector interpreter initial
  have hbegun := (fresh settings goals selector interpreter).offerAll_eq initial
  generalize (fresh settings goals selector interpreter).offerAll initial = begun at *
  have hgoals : begun.goals = goals := by rw [hbegun]; rfl
  have hsettings : begun.settings = settings := by rw [hbegun]; rfl
  obtain ⟨n, -, hends, hround⟩ := endsAt_of_run hnotes hgoals hrun
  obtain ⟨_, hidle⟩ := hround.idle
  have hreaching := fun k hk => reaching hnotes hgoals (hends.passes k hk).1
  have hn := hreaching n (Nat.le_refl n)
  have hsteps : ((begun.run rounds).2.close.report reason).steps = n := by
    rw [hidle]
    exact hn.notes.steps.trans hn.length
  have hreached : ((begun.run rounds).2.close.report reason).goalsReached =
      (begun.run n).2.reached := by
    rw [hidle]
    rfl
  intro _
  refine ⟨⟨?endsAt, ?limit, ?spent, ?satisfied, ?strategy⟩, ?round, rfl⟩
  all_goals rw [hsteps]
  case endsAt => exact hends
  case limit => exact fun limit hl => hends.le_limit hreaching (hsettings ▸ hl)
  case spent =>
    rintro rfl
    exact hsettings ▸ hends.eq_limit hreaching
  case satisfied =>
    rintro rfl
    rw [hreached]
    exact hends.satisfied hreaching
  case strategy => exact fun _ _ k hk => hends.stops_eq_false hk
  case round => exact hround

section Closing

variable {ω χ τ : Type} [StopRule τ] [Weighting ω] [rules : ChoiceRule χ]
  {s next final begun : Session (Frontier ω χ τ) ι}

omit [StopRule τ] [Interpreter ι] in
theorem offers_releasedOnClose (f : Frontier ω χ τ) (new : List State) :
    (f.after (new.map .offer)).stats.releasedOnClose = f.stats.releasedOnClose := by
  rw [Frontier.after_offers_stats]

theorem Round.releasedOnClose {t? : Option Turn} (h : s.Round t? ending next) :
    next.frontier.stats.releasedOnClose = s.frontier.stats.releasedOnClose := by
  obtain ⟨n, hstats⟩ := s.frontier.stats_poll
  have hpoll : s.frontier.poll.2.stats.releasedOnClose = s.frontier.stats.releasedOnClose := by
    rw [hstats]
  cases h with
  | stop => rfl
  | fault | exhausted => exact hpoll
  | take _ _ _ ht =>
    obtain ⟨stop, hfrontier⟩ := ht.after
    rw [hfrontier, offers_releasedOnClose]
    exact hpoll

theorem Runs.releasedOnClose (h : Runs n s ts ending final) :
    final.frontier.stats.releasedOnClose = s.frontier.stats.releasedOnClose :=
  h.keeps (I := fun _ x => x.frontier.stats.releasedOnClose = s.frontier.stats.releasedOnClose)
    (fun hx hr => hr.releasedOnClose.trans hx) [] rfl

omit [StopRule τ] [Weighting ω] [Interpreter ι] rules in
theorem close_of_held_nil {f : Frontier ω χ τ} (h : f.held = []) :
    f.close.released = f.released ∧
      f.close.stats.releasedOnClose = f.stats.releasedOnClose := by
  unfold Frontier.close
  split
  · exact ⟨rfl, rfl⟩
  · rw [h]
    exact ⟨rfl, rfl⟩

/-- When nothing can be polled nothing is held, so there is nothing to release after the poll. -/
theorem Round.close_of_exhausted (hrule : BuiltIn χ rules)
    (h : s.Round none (some (.ok .frontierExhausted)) next)
    (hp : (PathSelector.poll s.frontier).1 = .ok none) :
    s.frontier.held = [] ∧ next.frontier.entries = [] ∧
      next.close.frontier.released = s.frontier.released ∧
      next.close.frontier.stats.releasedOnClose = next.frontier.stats.releasedOnClose := by
  obtain ⟨idle, rfl, hkept, hentries⟩ := h.idle_kept
  have hheld := Frontier.held_of_poll_none hrule hp
  have hnothing := hentries.trans (Frontier.entries_eq_nil_iff.mpr hheld)
  obtain ⟨hreleased, hcount⟩ := close_of_held_nil (Frontier.entries_eq_nil_iff.mp hnothing)
  exact ⟨hheld, hnothing, hreleased.trans hkept.released, hcount⟩

theorem states_of_exhausted (hrule : BuiltIn χ rules)
    (hn : begun.Notes goals []) (hg : begun.goals = goals)
    (h : (begun.run rounds).1 = some (.ok .frontierExhausted)) :
    (begun.run rounds).2.frontier.states = [] := by
  obtain ⟨n, -, hends, hround⟩ := endsAt_of_run hn hg h
  obtain ⟨-, hnothing, -⟩ := hround.close_of_exhausted hrule hends.poll_eq_none
  exact Frontier.states_eq_nil_iff.mpr hnothing

end Closing

/-- An exploration with any selector ends before the first round for which there is a reason, and
reports the first of the reasons that there are.  When nothing can be polled from a frontier with a
choice that comes with it, nothing is left to be released. -/
theorem explore_ends_first (settings : ExplorationSettings) (goals : Registry) (interpreter : ι)
    (initial : List State) (rounds : Nat) :
    (∀ (φ : Type) [PathSelector φ] (selector : φ) (report : Report),
      ((fresh settings goals selector interpreter).explore rounds initial).1 = some (.ok report) →
      ((fresh settings goals selector interpreter).offerAll initial).EndsFirst settings goals
        report) ∧
    ∀ (ω χ τ : Type) [Weighting ω] [rules : ChoiceRule χ] [StopRule τ] (frontier : Frontier ω χ τ)
      (report : Report),
      let session := fresh settings goals frontier interpreter
      let last := ((session.offerAll initial).run report.steps).2
      let final := (session.explore rounds initial).2
      (session.explore rounds initial).1 = some (.ok report) → BuiltIn χ rules →
        report.stopReason = .frontierExhausted → last.frontier.held = [] ∧
          final.frontier.released = last.frontier.released ∧
          report.selector.releasedOnClose = frontier.stats.releasedOnClose := by
  refine ⟨fun φ _ selector report h => ?ends, fun ω χ τ _ rules _ frontier report => ?closes⟩
  case ends => exact (exists_round_of_explore settings goals selector interpreter initial h).1
  case closes =>
    intro session last final h hrule hreason
    obtain ⟨hends, hround, hreport⟩ :=
      exists_round_of_explore settings goals frontier interpreter initial h
    have hpoll := (hreason ▸ hends.endsAt).poll_eq_none
    rw [hreason] at hround
    obtain ⟨hheld, -, hreleased, hcount⟩ := hround.close_of_exhausted hrule hpoll
    refine ⟨hheld, hreleased, ?_⟩
    have hbegun : (session.offerAll initial).frontier.stats.releasedOnClose =
        frontier.stats.releasedOnClose := by
      rw [offerAll_after]
      exact offers_releasedOnClose frontier initial
    rw [hreport]
    exact hcount.trans (((session.offerAll initial).runs rounds).releasedOnClose.trans hbegun)

def helperSession : Session (Frontier Uniform Fifo NeverStop) Walker :=
  fresh (.ofPreset .fast) helperGoals FifoFrontier.new ⟨helperTwice.view⟩

theorem explore_ends_first_helperTwice :
    ∃ report, (helperSession.explore 10 [.root ⟨⟨0⟩, 0⟩]).1 = some (.ok report) ∧
      report.steps = 8 ∧ report.stopReason = .frontierExhausted ∧
      (helperSession.offerAll [.root ⟨⟨0⟩, 0⟩]).EndsAt report.steps report.stopReason ∧
      ((helperSession.offerAll [.root ⟨⟨0⟩, 0⟩]).run report.steps).2.frontier.held = [] := by
  obtain ⟨report, h, hsteps, hreason⟩ : ∃ report,
      (helperSession.explore 10 [.root ⟨⟨0⟩, 0⟩]).1 = some (.ok report) ∧ report.steps = 8 ∧
      report.stopReason = .frontierExhausted := by
    refine ⟨{
      steps := 8, statesOffered := 8, pathsCompleted := 2, goalPairs := 5
      goalsReached := [⟨⟨⟨⟨⟨0⟩, 0⟩⟩, ⟨⟨⟨1⟩, 0⟩⟩⟩, 2⟩, ⟨⟨⟨⟨⟨0⟩, 0⟩⟩, ⟨⟨⟨0⟩, 1⟩⟩⟩, 4⟩,
        ⟨⟨⟨⟨⟨1⟩, 0⟩⟩, ⟨⟨⟨0⟩, 1⟩⟩⟩, 4⟩, ⟨⟨⟨⟨⟨1⟩, 0⟩⟩, ⟨⟨⟨1⟩, 0⟩⟩⟩, 5⟩]
      stopReason := .frontierExhausted, selector := { offered := 8, polled := 8 } }, ?_, rfl, rfl⟩
    decide
  obtain ⟨hends, hcloses⟩ := explore_ends_first (.ofPreset .fast) helperGoals
    (Walker.mk helperTwice.view) [.root ⟨⟨0⟩, 0⟩] 10
  exact ⟨report, h, hsteps, hreason, (hends _ FifoFrontier.new report h).endsAt,
    (hcloses _ _ _ FifoFrontier.new report h .fifo hreason).1⟩

end Session

end PathExplorer
