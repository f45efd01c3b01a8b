import PathExplorer.Proofs.Exploration.Ending
import PathExplorer.Proofs.Exploration.Schedule

namespace PathExplorer

namespace Session

variable {φ ι : Type}

def limited (s : Session φ ι) (limit : Option UInt64) : Session φ ι :=
  { s with settings.stepsLimit := limit }

def spent (s : Session φ ι) : Bool :=
  s.settings.stepsLimit.any fun limit => limit.toNat ≤ s.steps

variable {s next : Session φ ι} {n : UInt64} {limit : Option UInt64} {k rounds : Nat}

theorem spent_eq_false (hs : s.settings.stepsLimit = some n) (hn : s.steps < n.toNat) :
    s.spent = false := by
  simpa [spent, hs] using hn

theorem spent_limited_eq_false (hle : ∀ m ∈ limit, n ≤ m) (hn : s.steps < n.toNat) :
    (s.limited limit).spent = false := by
  cases limit with
  | none => rfl
  | some m =>
    have hm : n.toNat ≤ m.toNat := UInt64.le_iff_toNat_le.mp (hle m rfl)
    exact spent_eq_false rfl (Nat.lt_of_lt_of_le hn hm)

section Limited

variable [PathSelector φ]

theorem stopReason?_of_spent (h : s.spent) : ∃ reason, s.stopReason? = some reason := by
  unfold stopReason?
  split
  · exact ⟨_, rfl⟩
  · exact ⟨_, if_pos h⟩

theorem stopReason?_limited (h : (s.limited limit).spent = s.spent) :
    (s.limited limit).stopReason? = s.stopReason? := by
  unfold stopReason?
  have h : ((s.limited limit).settings.stepsLimit.any fun m => m.toNat ≤ (s.limited limit).steps) =
    s.settings.stepsLimit.any fun m => m.toNat ≤ s.steps := h
  rw [h]
  rfl

theorem offerAll_limited (s : Session φ ι) (limit : Option UInt64) (new : List State) :
    (s.limited limit).offerAll new = (s.offerAll new).limited limit := by
  rw [offerAll_eq, offerAll_eq]
  rfl

variable [Interpreter ι]

theorem execute_limited (s : Session φ ι) (limit : Option UInt64) (state : State) :
    (s.limited limit).execute state =
      ((s.execute state).1, (s.execute state).2.limited limit) := by
  cases hstep : Interpreter.step state s.interpreter with
  | mk outcome interpreter =>
    cases outcome with
    | error fault =>
      rw [execute_of_fault hstep, execute_of_fault (s := s.limited limit) hstep]
      rfl
    | ok new =>
      rw [execute_of_ok hstep, execute_of_ok (s := s.limited limit) hstep]
      cases new with
      | nil => rfl
      | cons x new =>
        have hoffers := offerAll_limited ({ s.visit state with interpreter }) limit (x :: new)
        exact congrArg (fun offered : Session φ ι => (none, offered.release state)) hoffers

theorem round_limited (h : (s.limited limit).spent = s.spent) :
    (s.limited limit).round = (s.round.1, s.round.2.limited limit) ∧
      (s.limited limit).turn? = s.turn? := by
  have hstop := stopReason?_limited h
  have hpoll : (s.limited limit).frontier = s.frontier := rfl
  constructor
  · unfold round
    rw [hstop, hpoll]
    cases s.stopReason? with
    | some reason => rfl
    | none =>
      dsimp only
      cases PathSelector.poll s.frontier with
      | mk polled frontier =>
        rcases polled with fault | _ | state
        · rfl
        · rfl
        · exact execute_limited { s with frontier } limit state
  · unfold turn?
    rw [hstop]
    rfl

/-- A limit of so many further steps leaves so many rounds as they are without it. -/
theorem run_limited (hs : s.settings.stepsLimit = some n) (hle : ∀ m ∈ limit, n ≤ m)
    (hk : s.steps + k ≤ n.toNat) :
    (s.limited limit).run k = ((s.run k).1, (s.run k).2.limited limit) ∧
      (s.limited limit).turns k = s.turns k := by
  induction k generalizing s with
  | zero => exact ⟨rfl, rfl⟩
  | succ k ih =>
    have hn : s.steps < n.toNat := by omega
    have hspent : (s.limited limit).spent = s.spent := by
      rw [spent_limited_eq_false hle hn, spent_eq_false hs hn]
    obtain ⟨hround, hturn⟩ := round_limited hspent
    have hcases := s.round_cases
    unfold run turns
    rw [hround, hturn]
    cases hr : s.round with
    | mk ending next =>
      rw [hr] at hcases
      cases ending with
      | some ending => exact ⟨rfl, rfl⟩
      | none =>
        cases ht : s.turn? with
        | none =>
          rw [ht] at hcases
          cases hcases
        | some t =>
          rw [ht] at hcases
          obtain ⟨-, -, htakes⟩ := hcases.takes
          have hnext : next.steps + k ≤ n.toNat := by
            rw [htakes.steps]
            omega
          obtain ⟨hrun, hturns⟩ := ih (htakes.settings ▸ hs) hnext
          exact ⟨hrun, congrArg (t :: ·) hturns⟩

theorem run_of_spent (h : (s.run k).2.spent) (hk : k ≤ rounds) :
    s.turns rounds = s.turns k ∧ (s.run rounds).2 = (s.run k).2 := by
  cases he : (s.run k).1 with
  | some e =>
    obtain ⟨hrun, hturns⟩ := run_of_le (s := s) hk (by simp [he])
    exact ⟨hturns, congrArg Prod.snd hrun⟩
  | none =>
    obtain rfl | hlt := Nat.eq_or_lt_of_le hk
    · exact ⟨rfl, rfl⟩
    -- The round after `k` ends the exploration without a turn, and those behind it do nothing.
    obtain ⟨reason, hreason⟩ := stopReason?_of_spent h
    have hround : (s.run k).2.round = (some (.ok reason), (s.run k).2) := by rw [round, hreason]
    have hturn : (s.run k).2.turn? = none := by rw [turn?, hreason]
    obtain ⟨hrun, hturns⟩ := run_add_one he
    rw [hround] at hrun
    rw [hturn, Option.toList_none, List.append_nil] at hturns
    obtain ⟨hrest, hrest'⟩ := run_of_le hlt (s := s) (by simp [hrun])
    rw [hrest, hrest', hrun, hturns]
    exact ⟨rfl, rfl⟩

end Limited

section Rounds

variable [PathSelector φ] [Interpreter ι]

theorem turns_eq_take (h : k ≤ rounds) : s.turns k = (s.turns rounds).take k := by
  induction k generalizing s rounds with
  | zero => rfl
  | succ k ih =>
    obtain ⟨rounds, rfl⟩ : ∃ r, rounds = r + 1 := ⟨rounds - 1, by omega⟩
    have hcases := s.round_cases
    unfold turns
    cases hr : s.round with
    | mk ending next =>
      rw [hr] at hcases
      cases hturn : s.turn? with
      | none =>
        rw [hturn] at hcases
        cases ending with
        | none => cases hcases
        | some e => rfl
      | some t =>
        cases ending with
        | none => exact congrArg (t :: ·) (ih (Nat.le_of_succ_le_succ h))
        | some e => exact (List.take_of_length_le (Nat.succ_le_succ (Nat.zero_le k))).symm

theorem Round.reached_prefix {t? : Option Turn} {ending : Option Ending}
    (h : s.Round t? ending next) : s.reached <+: next.reached := by
  cases t? with
  | none =>
    obtain ⟨frontier, rfl⟩ := h.idle
    exact List.prefix_refl _
  | some t =>
    obtain ⟨-, -, ht⟩ := h.takes
    rw [ht.reached]
    exact List.prefix_append ..

theorem reached_prefix (h : k ≤ rounds) : (s.run k).2.reached <+: (s.run rounds).2.reached := by
  induction h with
  | refl => exact List.prefix_refl _
  | @step m _ ih =>
    refine ih.trans ?_
    cases he : (s.run m).1 with
    | none =>
      rw [(run_add_one he).1]
      exact (s.run m).2.round_cases.reached_prefix
    | some e => rw [(run_of_le (Nat.le_succ m) (by simp [he])).1]

end Rounds

section Budget

variable [PathSelector φ] [Interpreter ι]

theorem run_min (hs : s.settings.stepsLimit = some n) (hzero : s.steps = 0) (rounds : Nat) :
    s.turns rounds = s.turns (min n.toNat rounds) ∧
      (s.run rounds).2 = (s.run (min n.toNat rounds)).2 := by
  obtain hle | hle := Nat.le_total rounds n.toNat
  · rw [Nat.min_eq_right hle]
    exact ⟨rfl, rfl⟩
  rw [Nat.min_eq_left hle]
  cases he : (s.run n.toNat).1 with
  | some e =>
    obtain ⟨hrun, hturns⟩ := run_of_le (s := s) hle (by simp [he])
    exact ⟨hturns, congrArg Prod.snd hrun⟩
  | none =>
    have hruns := s.runs n.toNat
    have hcounts := hruns.counts
    rw [he] at hruns
    have hspent : (s.run n.toNat).2.spent := by
      simp [spent, hcounts.settings, hs, hcounts.steps, hzero, hruns.length_eq]
    exact run_of_spent hspent hle

/-- Under a limit an exploration takes the first turns of those that it takes under a greater
limit. -/
theorem turns_limited (hs : s.settings.stepsLimit = some n) (hzero : s.steps = 0)
    (hle : ∀ m ∈ limit, n ≤ m) (rounds : Nat) :
    s.turns rounds = ((s.limited limit).turns rounds).take n.toNat ∧
      (s.run rounds).2.reached <+: ((s.limited limit).run rounds).2.reached := by
  obtain ⟨hturns, hrun⟩ := run_min hs hzero rounds
  obtain ⟨hlimited, hlimited'⟩ := run_limited hs hle (k := min n.toNat rounds) (by omega)
  have hmin := Nat.min_le_right n.toNat rounds
  constructor
  · rw [hturns, ← hlimited', turns_eq_take (Nat.le_refl rounds), List.take_take]
    exact turns_eq_take hmin
  · rw [hrun]
    have hreached : (s.run (min n.toNat rounds)).2.reached =
        ((s.limited limit).run (min n.toNat rounds)).2.reached := by rw [hlimited]; rfl
    rw [hreached]
    exact reached_prefix hmin

theorem explore_limited (hs : s.settings.stepsLimit = some n) (hzero : s.steps = 0)
    (hle : ∀ m ∈ limit, n ≤ m) {initial : List State} {r r' : Report}
    (h : (s.explore rounds initial).1 = some (.ok r))
    (h' : ((s.limited limit).explore rounds initial).1 = some (.ok r')) :
    (s.offerAll initial).polled rounds =
        (((s.limited limit).offerAll initial).polled rounds).take n.toNat ∧
      r.goalsReached <+: r'.goalsReached ∧ r.steps = min n.toNat r'.steps := by
  obtain ⟨reason, hrun, rfl⟩ := run_of_explore_ok h
  obtain ⟨reason', hrun', rfl⟩ := run_of_explore_ok h'
  have hbegun := s.offerAll_eq initial
  rw [offerAll_limited]
  generalize s.offerAll initial = begun at *
  have hs : begun.settings.stepsLimit = some n := by rw [hbegun]; exact hs
  have hzero : begun.steps = 0 := by rw [hbegun]; exact hzero
  obtain ⟨hturns, hreached⟩ := turns_limited hs hzero hle rounds
  have hsteps : (begun.run rounds).2.steps = (begun.turns rounds).length := by
    rw [(begun.runs rounds).counts.steps, hzero, Nat.zero_add]
  have hsteps' : ((begun.limited limit).run rounds).2.steps =
      ((begun.limited limit).turns rounds).length := by
    rw [((begun.limited limit).runs rounds).counts.steps]
    exact (congrArg (· + _) hzero).trans (Nat.zero_add _)
  refine ⟨?polled, hreached, ?steps⟩
  case polled => rw [polled, polled, hturns, List.map_take]
  case steps =>
    calc (begun.run rounds).2.steps
      _ = (((begun.limited limit).turns rounds).take n.toNat).length := by rw [hsteps, hturns]
      _ = min n.toNat ((begun.limited limit).turns rounds).length := List.length_take
      _ = min n.toNat ((begun.limited limit).run rounds).2.steps := by rw [hsteps']

end Budget

end Session

inductive BuiltInWeighting (v : View) : (ω : Type) → Weighting ω → ω → Prop
  | taintDistance {goals : Registry} {settings : SelectorSettings} {t : TaintDistance} :
      TaintDistance.ofSettings v goals settings = .ok t →
      BuiltInWeighting v TaintDistance inferInstance t
  | uniform : BuiltInWeighting v Uniform inferInstance Uniform.mk

theorem BuiltInWeighting.tireless {ω : Type} [weights : Weighting ω] {p : Program} {w : ω}
    (h : BuiltInWeighting p.view ω weights w) : Tireless (·.Placed p.view) w := by
  cases h with
  | taintDistance ht => exact TaintDistance.tireless ht
  | uniform => exact tireless_uniform

theorem BuiltIn.decisive {χ : Type} [rules : ChoiceRule χ] (h : BuiltIn χ rules) (rule : χ) :
    Decisive rule :=
  fun _ _ _ hc => h.answers _ hc.some

namespace Session

section Reports

variable {ω χ τ : Type} [StopRule τ] [weights : Weighting ω] [rules : ChoiceRule χ]

theorem exists_report (p : Program) {w : ω} {rule : χ} (hw : Tireless (·.Placed p.view) w)
    (hr : Decisive rule) (settings : ExplorationSettings) (goals : Registry) (stop : τ)
    {initial : List Stmt} (hi : ∀ x ∈ initial, p.view.Locates x) :
    ∃ n report, ∀ rounds ≥ n,
      ((fresh settings goals (Frontier.start w rule stop) (Walker.mk p.view)).explore rounds
        (initial.map State.root)).1 = some (.ok report) := by
  have hroots : ∀ s ∈ initial.map State.root, s.Placed p.view :=
    List.forall_mem_map.mpr fun x hx => State.placed_root (hi x hx)
  obtain ⟨all, hall⟩ := View.exists_unfolds hroots
  have hunrolls := unrolls_offerAll
    (s := fresh settings goals (Frontier.start w rule stop) (Walker.mk p.view)) rfl
    (.start hw hr stop) rfl hroots hall
  obtain ⟨_, he, ⟨reason, rfl, -⟩, -⟩ :=
    hunrolls.run_ends (fun hx hn => hx.next p.flow_lawful hn) (Nat.lt_succ_self _)
  exact ⟨_, _, fun rounds hle => congrArg Prod.fst (explore_of_le hle he)⟩

/-- To raise the limit of an exploration of a program loses nothing.  The states that are polled and
the goals that are reached under the limit are the first of those under the greater one, and the
steps are as many as the limit leaves of those. -/
theorem explore_within_budget (p : Program) (goals : Registry) {w : ω}
    (hw : BuiltInWeighting p.view ω weights w) (hr : BuiltIn χ rules) (rule : χ)
    {initial : List Stmt} (hi : ∀ x ∈ initial, p.view.Locates x) (stopWhenSatisfied : Bool)
    (n : UInt64) (limit : Option UInt64) (hle : ∀ m ∈ limit, n ≤ m) :
    let session (stepsLimit : Option UInt64) : Session (Frontier ω χ NeverStop) Walker :=
      fresh { stepsLimit, stopWhenSatisfied } goals (Frontier.start w rule {}) ⟨p.view⟩
    let a := session (some n)
    let b := session limit
    let roots := initial.map State.root
    ∃ enough r r', ∀ rounds ≥ enough,
      (a.explore rounds roots).1 = some (.ok r) ∧ (b.explore rounds roots).1 = some (.ok r') ∧
      (a.offerAll roots).polled rounds <+: (b.offerAll roots).polled rounds ∧
      r.goalsReached <+: r'.goalsReached ∧ r.steps = min n.toNat r'.steps := by
  intro session a b roots
  obtain ⟨k, r, ha⟩ := exists_report p hw.tireless (hr.decisive rule)
    { stepsLimit := some n, stopWhenSatisfied } goals NeverStop.mk hi
  obtain ⟨k', r', hb⟩ := exists_report p hw.tireless (hr.decisive rule)
    { stepsLimit := limit, stopWhenSatisfied } goals NeverStop.mk hi
  refine ⟨max k k', r, r', fun rounds hrounds => ?_⟩
  have ha := ha rounds (Nat.le_trans (Nat.le_max_left ..) hrounds)
  have hb := hb rounds (Nat.le_trans (Nat.le_max_right ..) hrounds)
  obtain ⟨hpolled, hreached, hsteps⟩ := explore_limited (s := a) rfl rfl hle ha hb
  refine ⟨ha, hb, ?_, hreached, hsteps⟩
  rw [hpolled]
  exact List.take_prefix ..

theorem explore_within_budget_helperTwice :
    ∃ t, TaintDistance.ofSettings helperTwice.view TaintDistance.behindCall {} = .ok t ∧
      let session (stepsLimit : Option UInt64) :
          Session (Frontier TaintDistance HighestWeight NeverStop) Walker :=
        fresh { stepsLimit } TaintDistance.behindCall (Frontier.start t {} {}) ⟨helperTwice.view⟩
      let polled (limit : Option UInt64) : List State :=
        ((session limit).offerAll [.root ⟨⟨0⟩, 0⟩]).polled 4
      (polled (some 2)).length = 2 ∧ (polled none).length = 4 ∧
      ∃ enough r r', ∀ rounds ≥ enough,
        ((session (some 2)).explore rounds [.root ⟨⟨0⟩, 0⟩]).1 = some (.ok r) ∧
        ((session none).explore rounds [.root ⟨⟨0⟩, 0⟩]).1 = some (.ok r') ∧
        r.steps = min 2 r'.steps := by
  have ht : TaintDistance.ofSettings helperTwice.view TaintDistance.behindCall {} = .ok _ := rfl
  have hi : ∀ x ∈ [Stmt.mk ⟨0⟩ 0], helperTwice.view.Locates x :=
    List.forall_mem_singleton.mpr ⟨_, rfl, by decide⟩
  refine ⟨_, ht, by decide +kernel, by decide +kernel, ?_⟩
  obtain ⟨enough, r, r', h⟩ := explore_within_budget helperTwice TaintDistance.behindCall
    (.taintDistance ht) .highestWeight HighestWeight.mk hi true 2 none (fun _ hm => nomatch hm)
  refine ⟨enough, r, r', fun rounds hrounds => ?_⟩
  obtain ⟨ha, hb, -, -, hsteps⟩ := h rounds hrounds
  exact ⟨ha, hb, hsteps⟩

end Reports

end Session

end PathExplorer
