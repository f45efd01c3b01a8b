import PathExplorer.Proofs.Exploration.Spreading
import PathExplorer.Proofs.Frontier.Ready
import PathExplorer.Proofs.Weighting.Tireless

namespace PathExplorer

open scoped List

namespace Session

variable {ω χ τ : Type} [StopRule τ] [Weighting ω] [ChoiceRule χ]

/-- All states are those of the turns and what comes of the held ones. -/
structure Unrolls (v : View) (P : State → Prop) (all : List State) (ts : List Turn)
    (s : Session (Frontier ω χ τ) Walker) : Prop where
  interpreter : s.interpreter = ⟨v⟩
  ready : s.frontier.Ready P
  outcome : ∀ t ∈ ts, t.outcome = v.successors t.state
  left : ∃ left, v.Unfolds s.frontier.states left ∧ all ~ ts.map (·.state) ++ left

variable {v : View} {P : State → Prop} {all : List State} {ts : List Turn} {t : Turn}
  {s next final : Session (Frontier ω χ τ) Walker} {ending : Option Ending} {n : Nat}

omit [StopRule τ] in
theorem Unrolls.spreads (hs : s.Unrolls v P all ts) : s.Spreads v all ts :=
  ⟨hs.interpreter, hs.ready.isOpen, hs.outcome, hs.left⟩

theorem Unrolls.polled (hs : s.Unrolls v P all ts) (h : s.Round (some t) ending next) :
    P t.state ∧ s.frontier.poll.2.Ready P := by
  have hpoll : s.frontier.poll.1 = .ok (some t.state) := h.takes.1
  have hsome : s.frontier.entries ≠ [] := fun hn => by
    rw [Frontier.poll_of_isEmpty hn] at hpoll
    cases hpoll
  obtain ⟨hready, state, hkind, hpoll'⟩ := hs.ready.poll hsome
  rw [hpoll] at hpoll'
  cases hpoll'
  exact ⟨hkind, hready⟩

theorem Unrolls.take (hP : ∀ {x y : State}, P x → v.Next x y → P y) (hs : s.Unrolls v P all ts)
    (h : s.Round (some t) ending next) : next.Unrolls v P all (ts ++ [t]) ∧ ending = none := by
  obtain ⟨hkind, hready⟩ := hs.polled h
  obtain ⟨-, -, ht⟩ := h.takes
  obtain ⟨hspreads, hending⟩ := hs.spreads.take h
  obtain ⟨stop, hfrontier⟩ := ht.after
  have houtcome := hspreads.outcome t (by simp)
  refine ⟨⟨hspreads.interpreter, ?_, hspreads.outcome, hspreads.left⟩, hending⟩
  rw [hfrontier]
  refine (hready.stop stop).offers fun y hy => hP hkind ?_
  unfold Turn.offered at hy
  split at hy
  · rename_i new hnew
    exact ⟨new, houtcome.symm.trans hnew, hy⟩
  · cases hy

def Ends (final : Session (Frontier ω χ τ) Walker) (ending : Ending) : Prop :=
  ∃ reason, ending = .ok reason ∧ (final.stopReason? = some reason ∨
    reason = .frontierExhausted ∧ final.frontier.states = [])

theorem Unrolls.idle (hs : s.Unrolls v P all ts) (h : s.Round none ending next) :
    next.Unrolls v P all ts ∧ ∃ e, ending = some e ∧ next.Ends e := by
  by_cases hn : s.frontier.entries = []
  · have hpoll : PathSelector.poll s.frontier = (.ok none, s.frontier) :=
      Frontier.poll_of_isEmpty hn
    cases h with
    | stop hstop => exact ⟨hs, _, rfl, _, rfl, .inl hstop⟩
    | fault _ hp =>
      rw [hpoll] at hp
      cases hp
    | exhausted _ _ =>
      rw [hpoll]
      exact ⟨hs, _, rfl, _, rfl, .inr ⟨rfl, Frontier.states_eq_nil_iff.mpr hn⟩⟩
  · obtain ⟨-, state, -, hready⟩ := hs.ready.poll hn
    have hpoll : (PathSelector.poll s.frontier).1 = .ok (some state) := hready
    cases h with
    | stop hstop => exact ⟨hs, _, rfl, _, rfl, .inl hstop⟩
    | fault _ hp | exhausted _ hp =>
      rw [hpoll] at hp
      cases hp

theorem Unrolls.runs (hP : ∀ {x y : State}, P x → v.Next x y → P y) {before : List Turn}
    (hs : s.Unrolls v P all before) (h : Runs n s ts ending final) :
    final.Unrolls v P all (before ++ ts) ∧ ∀ e, ending = some e → final.Ends e := by
  induction h generalizing before with
  | here => exact ⟨by simpa using hs, by simp⟩
  | @last _ _ _ t? _ h =>
    cases t? with
    | none =>
      obtain ⟨hnext, e, he, hends⟩ := hs.idle h
      cases he
      refine ⟨by simpa using hnext, fun _ he => ?_⟩
      cases he
      exact hends
    | some t =>
      obtain ⟨-, he⟩ := hs.take hP h
      cases he
  | round h _ ih => simpa using ih (hs.take hP h).1

theorem Unrolls.run_ends (hP : ∀ {x y : State}, P x → v.Next x y → P y)
    (hs : s.Unrolls v P all []) (hn : all.length < n) :
    ∃ e, (s.run n).1 = some e ∧ (s.run n).2.Ends e ∧ (s.run n).2.Unrolls v P all (s.turns n) := by
  have hruns := s.runs n
  obtain ⟨hfinal, hends⟩ := hs.runs hP hruns
  cases he : (s.run n).1 with
  | some e => exact ⟨e, rfl, hends e he, hfinal⟩
  | none =>
    -- A run that has not ended took a turn in every round.
    rw [he] at hruns
    obtain ⟨left, -, hall⟩ := hfinal.left
    have hl := hall.length_eq
    rw [List.nil_append, List.length_append, List.length_map, hruns.length_eq] at hl
    omega

theorem unrolls_offerAll (hi : s.interpreter = ⟨v⟩) (hr : s.frontier.Ready P)
    (hn : s.frontier.entries = []) {initial : List State} (hinitial : ∀ x ∈ initial, P x)
    (hu : v.Unfolds initial all) : (s.offerAll initial).Unrolls v P all [] := by
  have hspreads := spreads_offerAll hi hr.isOpen hn hu
  refine ⟨hspreads.interpreter, ?_, hspreads.outcome, hspreads.left⟩
  rw [offerAll_after]
  exact hr.offers hinitial

end Session

def View.turn (v : View) (s : State) : Turn := ⟨s, v.successors s⟩

structure Report.Covers (v : View) (goals : Registry) (first : Nat) (all : List State)
    (r : Report) : Prop where
  stopReason : r.stopReason = .frontierExhausted
  steps : r.steps = all.length
  offered : r.statesOffered = first + (all.flatMap fun s => (v.turn s).offered).length
  completed : r.pathsCompleted = all.countP fun s => (v.turn s).completes
  reached : ∀ g, g ∈ r.goalsReached.map (·.goal) ↔ g ∈ goals.goals ∧ ∃ s ∈ all, g.reachedBy s

namespace Session

/-- An exploration from a fresh frontier that does not end before nothing is left. -/
def exhaustive {ω χ : Type} (v : View) (goals : Registry) (w : ω) (rule : χ) :
    Session (Frontier ω χ NeverStop) Walker where
  settings := { stepsLimit := none, stopWhenSatisfied := false }
  goals := goals
  frontier := .start w rule {}
  interpreter := ⟨v⟩

variable {ω χ : Type} [Weighting ω] [ChoiceRule χ] {v : View} {goals : Registry} {P : State → Prop}
  {w : ω} {rule : χ} {initial all : List State} {n : Nat}

theorem stopReason?_eq_none {s : Session (Frontier ω χ NeverStop) Walker}
    (hs : s.settings = (exhaustive v goals w rule).settings) : s.stopReason? = none := by
  rw [stopReason?, hs]
  rfl

theorem Unrolls.turns_eq {ts : List Turn} {s : Session (Frontier ω χ NeverStop) Walker}
    (hs : s.Unrolls v P all ts) : ts = (ts.map (·.state)).map v.turn := by
  rw [List.map_map]
  refine (List.map_id ts).symm.trans (List.map_congr_left fun t ht => ?_)
  rw [Function.comp_apply, View.turn, ← hs.outcome t ht]
  rfl

/-- What is reported comes from the turns, in whatever order they were taken. -/
theorem covers_of_turns {ts : List Turn} {ending : Option Ending}
    {final : Session (Frontier ω χ NeverStop) Walker}
    (h : Runs n ((exhaustive v goals w rule).offerAll initial) ts ending final)
    (hts : ts ~ all.map v.turn) :
    (final.close.report .frontierExhausted).Covers v goals initial.length all := by
  have hb := (exhaustive v goals w rule).offerAll_after initial
  generalize (exhaustive v goals w rule).offerAll initial = begun at h hb
  have hcounts := h.counts
  have hsteps : begun.steps = 0 := by rw [hb]; rfl
  have hoffered : begun.statesOffered = initial.length := by rw [hb]; exact Nat.zero_add _
  have hcompleted : begun.pathsCompleted = 0 := by rw [hb]; rfl
  have hreached : begun.reached = [] := by rw [hb]; rfl
  have hpending : begun.tracker.pending = goals.goals := by rw [hb]; rfl
  refine ⟨rfl, ?steps, ?offered, ?completed, fun g => ?reached⟩
  case steps =>
    change final.steps = _
    rw [hcounts.steps, hsteps, Nat.zero_add, hts.length_eq, List.length_map]
  case offered =>
    change final.statesOffered = _
    rw [hcounts.offered, hoffered, (hts.flatMap_right _).length_eq, List.flatMap_map]
  case completed =>
    change final.pathsCompleted = _
    rw [hcounts.completed, hcompleted, Nat.zero_add, hts.countP_eq, List.countP_map]
    rfl
  case reached =>
    change g ∈ final.reached.map _ ↔ _
    rw [h.reached.reached, hreached, hpending]
    simp [hts.mem_iff, View.turn]

theorem exhaustive_run (goals : Registry) (hP : ∀ {x y : State}, P x → v.Next x y → P y)
    (hw : Tireless P w) (hr : Decisive rule) (hinitial : ∀ x ∈ initial, P x)
    (hu : v.Unfolds initial all) (hn : all.length < n) :
    (((exhaustive v goals w rule).offerAll initial).run n).1 = some (.ok .frontierExhausted) ∧
      ((exhaustive v goals w rule).offerAll initial).turns n ~ all.map v.turn := by
  have hb := (exhaustive v goals w rule).offerAll_after initial
  have hs : ((exhaustive v goals w rule).offerAll initial).Unrolls v P all [] :=
    unrolls_offerAll (s := exhaustive v goals w rule) rfl (.start hw hr _) rfl hinitial hu
  generalize (exhaustive v goals w rule).offerAll initial = begun at hs hb ⊢
  obtain ⟨e, he, ⟨reason, rfl, hreason⟩, hfinal⟩ := hs.run_ends hP hn
  have hsettings : (begun.run n).2.settings = (exhaustive v goals w rule).settings :=
    (begun.runs n).counts.settings.trans (by rw [hb])
  rw [stopReason?_eq_none hsettings] at hreason
  obtain hreason | ⟨rfl, hheld⟩ := hreason
  · cases hreason
  · obtain ⟨left, hleft, hall⟩ := hfinal.left
    rw [hheld] at hleft
    cases hleft
    rw [List.append_nil] at hall
    refine ⟨he, ?_⟩
    rw [hfinal.turns_eq]
    exact hall.symm.map v.turn

/-- Any frontier that never fails leads to the same report. -/
theorem exhaustive_covers (goals : Registry) (hP : ∀ {x y : State}, P x → v.Next x y → P y)
    (hw : Tireless P w) (hr : Decisive rule) (hinitial : ∀ x ∈ initial, P x)
    (hu : v.Unfolds initial all) (hn : all.length < n) :
    ∃ r, r.Covers v goals initial.length all ∧ ∀ rounds ≥ n,
      ((exhaustive v goals w rule).explore rounds initial).1 = some (.ok r) ∧
        ((exhaustive v goals w rule).offerAll initial).polled rounds ~ all := by
  obtain ⟨he, hturns⟩ := exhaustive_run goals hP hw hr hinitial hu hn
  refine ⟨_, covers_of_turns (runs n _) hturns, fun rounds hle => ⟨?_, ?_⟩⟩
  · rw [explore_of_le hle he]
    rfl
  · rw [polled, (run_of_le hle (by simp [he])).2]
    have hstates : (all.map v.turn).map (·.state) = all := by
      rw [List.map_map]
      exact List.map_id all
    exact hstates ▸ hturns.map (·.state)

end Session

def View.ComesOf (v : View) (initial : List Stmt) (s : State) : Prop :=
  ∃ x ∈ initial, v.Explored (.root x) s

theorem View.ComesOf.placed {p : Program} {initial : List Stmt} {s : State}
    (hi : ∀ x ∈ initial, p.view.Locates x) (h : p.view.ComesOf initial s) : s.Placed p.view := by
  obtain ⟨x, hx, h⟩ := h
  induction h with
  | refl => exact State.placed_root (hi x hx)
  | tail _ hn ih => exact ih.next p.flow_lawful hn

namespace Session

/-- What an exploration finds that only ends when nothing is left does not depend on the frontier:
whatever is weighed and chosen, if that never fails, the same states are polled, the counts are the
same, and the same goals are reached. -/
theorem exhaustive_schedule_irrelevant (p : Program) (goals : Registry) {initial : List Stmt}
    (hi : ∀ x ∈ initial, p.view.Locates x) {ω χ ω' χ' : Type} [Weighting ω] [ChoiceRule χ]
    [Weighting ω'] [ChoiceRule χ'] {w : ω} {rule : χ} {w' : ω'} {rule' : χ'}
    (hw : Tireless (p.view.ComesOf initial) w) (hr : Decisive rule)
    (hw' : Tireless (p.view.ComesOf initial) w') (hr' : Decisive rule') :
    let a := exhaustive p.view goals w rule
    let b := exhaustive p.view goals w' rule'
    let roots := initial.map State.root
    ∃ n r r', (∀ rounds ≥ n, (a.explore rounds roots).1 = some (.ok r) ∧
        (b.explore rounds roots).1 = some (.ok r') ∧
        (a.offerAll roots).polled rounds ~ (b.offerAll roots).polled rounds) ∧
      r.stopReason = .frontierExhausted ∧ r'.stopReason = .frontierExhausted ∧
      r.steps = r'.steps ∧ r.statesOffered = r'.statesOffered ∧
      r.pathsCompleted = r'.pathsCompleted ∧
      ∀ g, g ∈ r.goalsReached.map (·.goal) ↔ g ∈ r'.goalsReached.map (·.goal) := by
  intro a b roots
  have hroots : ∀ s ∈ roots, p.view.ComesOf initial s :=
    List.forall_mem_map.mpr fun x hx => ⟨x, hx, .refl⟩
  have hclosed : ∀ {x y : State}, p.view.ComesOf initial x → p.view.Next x y →
      p.view.ComesOf initial y := by
    rintro _ _ ⟨x, hx, h⟩ hn
    exact ⟨x, hx, h.tail hn⟩
  obtain ⟨all, hall⟩ := View.exists_unfolds fun s hs => (hroots s hs).placed hi
  obtain ⟨r, hr, hrun⟩ := exhaustive_covers goals hclosed hw hr hroots hall (Nat.lt_succ_self _)
  obtain ⟨r', hr', hrun'⟩ :=
    exhaustive_covers goals hclosed hw' hr' hroots hall (Nat.lt_succ_self _)
  refine ⟨all.length + 1, r, r', fun rounds hle => ?_, hr.stopReason, hr'.stopReason,
    hr.steps.trans hr'.steps.symm, hr.offered.trans hr'.offered.symm,
    hr.completed.trans hr'.completed.symm, fun g => (hr.reached g).trans (hr'.reached g).symm⟩
  obtain ⟨hexplore, hpolled⟩ := hrun rounds hle
  obtain ⟨hexplore', hpolled'⟩ := hrun' rounds hle
  exact ⟨hexplore, hexplore', hpolled.trans hpolled'.symm⟩

theorem exhaustive_schedule_irrelevant_helperTwice :
    ∃ t, TaintDistance.ofSettings helperTwice.view TaintDistance.behindCall {} = .ok t ∧
      let a := (exhaustive helperTwice.view TaintDistance.behindCall t HighestWeight.mk).offerAll
        [.root ⟨⟨0⟩, 0⟩, .root ⟨⟨1⟩, 0⟩]
      let b := (exhaustive helperTwice.view TaintDistance.behindCall Uniform.mk Lifo.mk).offerAll
        [.root ⟨⟨0⟩, 0⟩, .root ⟨⟨1⟩, 0⟩]
      a.polled 1 ≠ b.polled 1 ∧ ∃ n, ∀ rounds ≥ n, a.polled rounds ~ b.polled rounds := by
  have ht : TaintDistance.ofSettings helperTwice.view TaintDistance.behindCall {} = .ok _ := rfl
  have hi : ∀ x ∈ [Stmt.mk ⟨0⟩ 0, ⟨⟨1⟩, 0⟩], helperTwice.view.Locates x := by
    refine List.forall_mem_cons.mpr ⟨⟨_, rfl, by decide⟩, List.forall_mem_cons.mpr ⟨?_, by simp⟩⟩
    exact ⟨_, rfl, by decide⟩
  refine ⟨_, ht, by decide, ?_⟩
  have htireless : Tireless (helperTwice.view.ComesOf _) _ :=
    (TaintDistance.tireless ht).mono fun _ => View.ComesOf.placed hi
  obtain ⟨n, _, _, h, -⟩ := exhaustive_schedule_irrelevant helperTwice TaintDistance.behindCall hi
    htireless decisive_highestWeight tireless_uniform decisive_lifo
  exact ⟨n, fun rounds hle => (h rounds hle).2.2⟩

end Session

end PathExplorer
