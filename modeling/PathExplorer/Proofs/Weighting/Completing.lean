import PathExplorer.Goals.Tracker
import PathExplorer.Proofs.Exploration.Placed
import PathExplorer.Proofs.Frontier.Recovery
import PathExplorer.Proofs.Metric.Rounding
import PathExplorer.Proofs.Weighting.Estimate

namespace PathExplorer

structure State.Completes (v : View) (goals : Registry) (s : State) : Prop where
  located : v.Locates s.stmt
  top : ∀ top, s.stack.top? = some top → top.method = s.method
  reaches : (GoalTracker.ofRegistry goals).fresh s ≠ []

def Estimate.arrived (m : Method) : Estimate := ⟨some ⟨[m]⟩, 0, .zero, .zero⟩

section Weights

/-- Of what weighs nothing or less, what weighs nothing stands first in a sorted list. -/
theorem Weight.exists_split_of_sorted {α : Type} {weight : α → Weight} {l : List α}
    (hs : l.Pairwise fun a b => weight b ≤ weight a) (hl : ∀ a ∈ l, weight a ≤ zero) :
    ∃ first last, l = first ++ last ∧ (∀ a ∈ first, weight a = .zero) ∧
      ∀ a ∈ last, weight a < .zero := by
  induction l with
  | nil => exact ⟨[], [], rfl, by simp, by simp⟩
  | cons a l ih =>
    obtain ⟨hla, hs⟩ := List.pairwise_cons.mp hs
    obtain ⟨ha, hl⟩ := List.forall_mem_cons.mp hl
    obtain hlt | heq := Weight.lt_or_eq_of_le ha
    · refine ⟨[], a :: l, rfl, by simp, List.forall_mem_cons.mpr ⟨hlt, fun b hb => ?_⟩⟩
      have := Weight.le_iff.mp (hla b hb)
      rw [Weight.lt_iff] at hlt ⊢
      omega
    · obtain ⟨first, last, rfl, hfirst, hlast⟩ := ih hs hl
      exact ⟨a :: first, last, rfl, List.forall_mem_cons.mpr ⟨heq, hfirst⟩, hlast⟩

theorem Coefficients.combine_zero (c : Coefficients) :
    TaintDistance.Coefficients.combine c .zero 0 = .zero := by
  have hzero : Distance.zero = .ofNat 0 := rfl
  rw [TaintDistance.Coefficients.combine, hzero, Distance.scale_ofNat, Distance.ofNat_add_ofNat,
    Nat.zero_mul, Nat.zero_mul]

end Weights

namespace State

variable {v : View} {goals : Registry} {s : State}

theorem levels_eq_cons (h : ∀ top, s.stack.top? = some top → top.method = s.method) :
    ∃ outer, s.levels = .ok (⟨s.method, s.stmt⟩ :: outer) := by
  cases ht : s.stack.top? with
  | none => exact ⟨[], by rw [levels, ht]⟩
  | some top =>
    have hm := h top ht
    refine ⟨s.stack.pop.levels (top.site?.getD s.stmt), ?_⟩
    rw [levels, ht]
    refine (if_pos hm).trans ?_
    rw [Stack.levels_eq_cons ht, hm]

theorem mem_targets_of_fresh {g : Goal} (h : g ∈ (GoalTracker.ofRegistry goals).fresh s) :
    g.sink.stmt ∈ goals.targets s ∧ g.sink.stmt = s.stmt := by
  obtain ⟨hg, hreached⟩ := GoalTracker.mem_fresh.mp h
  simp only [Goal.reachedBy, Bool.and_eq_true, decide_eq_true_eq, List.contains_iff_mem] at hreached
  have hsource : g.source ∈ goals.visitedSources s := by
    rw [Registry.visitedSources, Ascending.mem_filter]
    exact ⟨Registry.mem_sources.mpr ⟨g, hg, rfl⟩, by simp [hasVisited, hreached.2]⟩
  refine ⟨?_, hreached.1⟩
  -- A source was visited, so the targets are sinks and no longer sources.
  have hsome : (goals.visitedSources s).isEmpty = false :=
    Bool.eq_false_iff.mpr fun he => List.ne_nil_of_mem hsource (List.isEmpty_iff.mp he)
  simp only [Registry.targets, hsome]
  exact Ascending.mem_map.mpr ⟨g.sink, Registry.mem_sinksFor.mpr ⟨g, hg, hsource, rfl⟩, rfl⟩

theorem Completes.mem_targets (h : s.Completes v goals) : s.stmt ∈ goals.targets s := by
  obtain ⟨g, hg⟩ := List.exists_mem_of_ne_nil _ h.reaches
  obtain ⟨hmem, heq⟩ := mem_targets_of_fresh hg
  exact heq ▸ hmem

end State

namespace View

variable {v : View} {goals : Registry} {s : State}

theorem firstRoute_of_mem {targets : Ascending Method} {m : Method} (hm : m ∈ targets)
    (here : Stmt) (outer : List Level) :
    v.firstRoute targets (⟨m, here⟩ :: outer) = some ([], ⟨m, here⟩, ⟨[m]⟩) := by
  unfold firstRoute
  cases hr : (v.routes m targets).minOn? Route.length with
  | none => exact absurd .here (routes_eq_nil_iff.mp (minOn?_eq_none hr) m hm 0)
  | some route =>
    obtain ⟨t, ht⟩ := isNearest_of_minOn? hr
    -- No route is nearer than the one that stays in the method.
    have hhops := ht.nearest m hm 0 .here
    have hlength : route.methods.length = 1 := by
      have := ht.length
      rw [Route.length] at this
      omega
    obtain ⟨a, ha⟩ := List.length_eq_one_iff.mp hlength
    have hhead := ht.path.head
    rw [ha, List.head?_cons, Option.some.injEq] at hhead
    obtain ⟨methods⟩ := route
    subst hhead
    exact congrArg (fun r => some (([] : List Level), Level.mk a here, Route.mk r)) ha

theorem estimate_of_completes (h : s.Completes v goals) (c : Coefficients) :
    v.estimate goals c s = .ok (.arrived s.method) := by
  obtain ⟨outer, hl⟩ := State.levels_eq_cons h.top
  have hm : s.method ∈ (goals.targets s).map (·.method) :=
    Ascending.mem_map.mpr ⟨s.stmt, h.mem_targets, rfl⟩
  obtain ⟨tree, ht⟩ := searchTree_isOk.mpr h.located
  have hnearest : tree.nearest ((goals.targets s).toList.filter (·.method = s.method)) = .zero :=
    (measures_nearest ht _).eq_zero_iff.mpr
      ⟨s.stmt, by simpa [← Ascending.mem_iff, State.method] using h.mem_targets, .here⟩
  have halong : v.alongRoute (goals.targets s) ⟨s.method, s.stmt⟩ ⟨[s.method]⟩ = .ok .zero :=
    along_nil_eq_ok_iff.mpr ⟨s.stmt, tree, rfl, ht, hnearest.symm⟩
  refine (estimate_eq_ok_iff hl (firstRoute_of_mem hm s.stmt outer)).mpr
    ⟨.zero, .zero, rfl, halong, ?_⟩
  rw [Distance.zero_add]
  exact congrArg (Estimate.mk _ _ _) c.combine_zero.symm

theorem weight_le_zero {c : Coefficients} {w : Weight}
    (h : (v.estimate goals c s).map Estimate.weight = .ok w) : w ≤ .zero := by
  cases he : v.estimate goals c s with
  | error fault =>
    rw [he] at h
    cases h
  | ok e =>
    rw [he] at h
    cases h
    exact Weight.ofDistance_le_zero e.combined

end View

namespace Frontier

variable {ω χ τ : Type} {truth : State → Except Fault Weight}

section Held

variable [Weighting ω] [ChoiceRule χ] {f : Frontier ω χ τ} {e : Ticket × State}

theorem held_before (f : Frontier ω χ τ) (op : Operation) : f.next ≤ (f.act op).next ∧
    ∀ e ∈ (f.act op).entries, e ∈ f.entries ∨ e.1.number = f.next := by
  have hkept : ∀ g : Frontier ω χ τ, f.Kept g → g.entries.Sublist f.entries →
      f.next ≤ g.next ∧ ∀ e ∈ g.entries, e ∈ f.entries ∨ e.1.number = f.next :=
    fun g hk hs => ⟨hk.next.ge, fun e he => .inl (hs.subset he)⟩
  cases op with
  | offer s =>
    by_cases hc : f.closed
    · rw [act, offer_of_closed hc]
      exact ⟨Nat.le_succ _, fun e he => .inl he⟩
    · rw [act, offer_of_open (by simpa using hc)]
      refine ⟨Nat.le_succ _, fun e he => ?_⟩
      rw [entries, List.map_append] at he
      obtain he | he := List.mem_append.mp he
      · exact .inl he
      · cases List.mem_singleton.mp he
        exact .inr rfl
  | poll =>
    refine hkept f.poll.2 f.kept_poll ?_
    obtain ⟨-, he⟩ | ⟨l₁, x, l₂, he, -, hafter⟩ := f.poll_cases
    · rw [he]
    · rw [hafter, he]
      exact (List.sublist_cons_self ..).append_left _
  | peek => exact hkept f.choose.2 f.kept_choose.1 (by rw [f.kept_choose.2.1])
  | weightOf t => exact hkept (f.weightOf t).2 (f.kept_weightOf t) (by rw [weightOf_entries])
  | remove t =>
    obtain ⟨-, hf⟩ | ⟨l₁, x, l₂, hheld, -, hf⟩ := f.remove_cases t
    · rw [act, hf]
      exact hkept f (.refl f) (.refl _)
    · have hs : (l₁ ++ l₂).Sublist f.held := by
        rw [hheld]
        exact (List.sublist_cons_self ..).append_left _
      rw [act, hf]
      exact ⟨Nat.le_refl _, fun e he => .inl ((hs.map _).subset he)⟩
  | close =>
    by_cases hc : f.closed
    · rw [act, close, if_pos hc]
      exact hkept f (.refl f) (.refl _)
    · rw [act, close, if_neg hc]
      exact ⟨Nat.le_refl _, fun e he => absurd he List.not_mem_nil⟩

theorem held_before_after (hn : e.1.number < f.next) (ops : List Operation)
    (he : e ∈ (f.after ops).entries) : e ∈ f.entries := by
  induction ops generalizing f with
  | nil => exact he
  | cons op ops ih =>
    obtain ⟨hnext, hentries⟩ := f.held_before op
    obtain h | h := hentries e (ih (Nat.lt_of_lt_of_le hn hnext) he)
    · exact h
    · exact absurd h (Nat.ne_of_lt hn)

end Held

section Waiting

variable [Weighting ω] {f : Frontier ω HighestWeight τ} {d e : Ticket × State} {w w' : Weight}

/-- While a state is held, one that weighs less stays, unless it is removed. -/
theorem Sound.waits_act (h : f.Sound truth) (he : e ∈ f.entries) (hd : d ∈ f.entries)
    (hw : truth e.2 = .ok w) (hw' : truth d.2 = .ok w') (hlt : w' < w) {op : Operation}
    (hop : op ≠ .remove d.1) (hafter : e ∈ (f.act op).entries) : d ∈ (f.act op).entries := by
  cases op with
  | offer s =>
    by_cases hc : f.closed
    · rw [Frontier.act, offer_of_closed hc]
      exact hd
    · rw [Frontier.act, offer_of_open (by simpa using hc), entries, List.map_append]
      exact List.mem_append_left _ hd
  | poll =>
    change d ∈ f.poll.2.entries
    obtain ⟨-, hp⟩ | ⟨l₁, x, l₂, hl, hpoll, hp⟩ := f.poll_cases
    · rwa [hp]
    · have hx : d ≠ x := by
        rintro rfl
        exact h.poll_spares hpoll hw' he hw hlt
      rw [hl] at hd
      rw [hp]
      simpa [hx] using hd
  | peek =>
    change d ∈ f.choose.2.entries
    rwa [f.kept_choose.2.1]
  | weightOf t =>
    change d ∈ (f.weightOf t).2.entries
    rwa [weightOf_entries]
  | remove t =>
    change d ∈ (f.remove t).2.entries
    have ht : d.1 ≠ t := fun ht => hop (ht ▸ rfl)
    rw [h.entries_remove, List.mem_filter]
    exact ⟨hd, decide_eq_true ht⟩
  | close =>
    by_cases hc : f.closed
    · rwa [Frontier.act, Frontier.close, if_pos hc]
    · rw [Frontier.act, Frontier.close, if_neg hc] at hafter
      exact absurd hafter List.not_mem_nil

theorem Sound.waits (h : f.Sound truth) (he : e ∈ f.entries) (hd : d ∈ f.entries)
    (hw : truth e.2 = .ok w) (hw' : truth d.2 = .ok w') (hlt : w' < w) {ops : List Operation}
    (hops : .remove d.1 ∉ ops) (hafter : e ∈ (f.after ops).entries) :
    d ∈ (f.after ops).entries := by
  induction ops generalizing f with
  | nil => exact hd
  | cons op ops ih =>
    have hop : op ≠ .remove d.1 := fun hop => hops (hop ▸ List.mem_cons_self ..)
    have hnext : e.1.number < (f.act op).next :=
      Nat.lt_of_lt_of_le (h.fresh e he) (f.held_before op).1
    have hact : e ∈ (f.act op).entries := held_before_after hnext ops hafter
    exact ih (h.act op) hact (h.waits_act he hd hw hw' hlt hop hact)
      (fun hm => hops (List.mem_cons_of_mem _ hm)) hafter

/-- Where nothing weighs more than nothing, polling hands over the states without weight first. -/
theorem Sound.polls_zero_first (h : f.Sound truth)
    (hw : ∀ e ∈ f.entries, ∃ w ≤ .zero, truth e.2 = .ok w) :
    ∃ first last : List State, (first ++ last).Perm f.states ∧
      f.polls f.entries.length = (first ++ last).map (fun s => .ok (some s)) ∧
      (∀ s ∈ first, truth s = .ok .zero) ∧ ∀ s ∈ last, ∃ w < .zero, truth s = .ok w := by
  let weight (s : State) : Weight := (truth s).toOption.getD .zero
  have hweight : ∀ s ∈ f.states, truth s = .ok (weight s) ∧ weight s ≤ .zero := by
    intro s hs
    obtain ⟨e, he, rfl⟩ := List.mem_map.mp hs
    obtain ⟨w, hle, hw⟩ := hw e he
    have hwe : weight e.2 = w := by simp [weight, hw, Except.toOption]
    exact ⟨hwe ▸ hw, hwe ▸ hle⟩
  have hpolls := h.polls_eq_mergeSort weight fun e he => (hweight e.2 (List.mem_map_of_mem he)).1
  have hperm : (f.states.mergeSort fun a b => weight b ≤ weight a).Perm f.states :=
    List.mergeSort_perm ..
  have hsorted :=
    List.pairwise_mergeSort (descending_trans weight) (descending_total weight) f.states
  simp only [decide_eq_true_eq] at hsorted
  obtain ⟨first, last, hl, hfirst, hlast⟩ :=
    Weight.exists_split_of_sorted hsorted fun s hs => (hweight s (hperm.subset hs)).2
  rw [hl] at hperm
  refine ⟨first, last, hperm, ?_, fun s hs => ?_, fun s hs => ?_⟩
  · rw [← hl]
    exact hpolls
  · rw [(hweight s (hperm.subset (List.mem_append_left _ hs))).1, hfirst s hs]
  · exact ⟨weight s, hlast s hs, (hweight s (hperm.subset (List.mem_append_right _ hs))).1⟩

end Waiting

end Frontier

namespace TaintDistance

variable {τ : Type} {v : View} {goals : Registry} {settings : SelectorSettings} {t : TaintDistance}

/-- States that reach a goal leave the frontier before all that weigh less than nothing.  One of
these stays as long as one of those is held, unless it is removed.  When all that is held can be
weighed, polling hands over those without weight first, and they are among them. -/
structure PutsGoalsFirst (v : View) (goals : Registry) (t : TaintDistance)
    (f : Frontier TaintDistance HighestWeight τ) : Prop where
  waits : ∀ e ∈ f.entries, e.2.Completes v goals →
    ∀ d ∈ f.entries, ∀ w < .zero, (Weighting.weigh d.2 t).1 = .ok w →
      ∀ more : List Operation, .remove d.1 ∉ more → e ∈ (f.after more).entries →
        d ∈ (f.after more).entries
  polls : (∀ e ∈ f.entries, ∃ w, (Weighting.weigh e.2 t).1 = .ok w) →
    ∃ first last : List State, (first ++ last).Perm f.states ∧
      f.polls f.entries.length = (first ++ last).map (fun s => .ok (some s)) ∧
      (∀ e ∈ f.entries, e.2.Completes v goals → e.2 ∈ first) ∧
      (∀ s ∈ first, (Weighting.weigh s t).1 = .ok .zero) ∧
      ∀ s ∈ last, ∃ w < .zero, (Weighting.weigh s t).1 = .ok w

section Agrees

variable {c : Coefficients} {u : TaintDistance} {s : State}

theorem Agrees.weigh_le_zero (h : t.Agrees v goals c) {w : Weight}
    (hw : (Weighting.weigh s t).1 = .ok w) : w ≤ .zero := by
  rw [(h.weigh s).1] at hw
  exact View.weight_le_zero hw

theorem Agrees.arrived (h : t.Agrees v goals c) (hs : s.Completes v goals) :
    (t.estimate s).1 = .ok (.arrived s.method) ∧ (Weighting.weigh s t).1 = .ok .zero := by
  rw [(h.estimate s).1, (h.weigh s).1, View.estimate_of_completes hs]
  exact ⟨rfl, rfl⟩

theorem Agrees.putsGoalsFirst (h : t.Agrees v goals c) (hu : u.Agrees v goals c) (stop : τ)
    (ops : List Operation) :
    PutsGoalsFirst v goals t ((Frontier.start u HighestWeight.mk stop).after ops) := by
  have hsteady : Steady (fun s => (Weighting.weigh s t).1) u := by
    have htruth : (fun s => (Weighting.weigh s t).1) =
        fun s => (v.estimate goals c s).map Estimate.weight := funext fun s => (h.weigh s).1
    rw [htruth]
    exact hu.steady
  have hf := (Frontier.Sound.start hsteady HighestWeight.mk stop).after ops
  refine ⟨?waits, ?polls⟩
  case waits =>
    intro e he hcompletes d hd w hlt hw more hmore
    exact hf.waits he hd (h.arrived hcompletes).2 hw hlt hmore
  case polls =>
    intro hweighed
    obtain ⟨first, last, hperm, hpolls, hfirst, hlast⟩ := hf.polls_zero_first fun e he => by
      obtain ⟨w, hw⟩ := hweighed e he
      exact ⟨w, h.weigh_le_zero hw, hw⟩
    refine ⟨first, last, hperm, hpolls, fun e he hcompletes => ?_, hfirst, hlast⟩
    obtain hmem | hmem := List.mem_append.mp (hperm.symm.subset (List.mem_map_of_mem he))
    · exact hmem
    · obtain ⟨w, hlt, hw⟩ := hlast e.2 hmem
      rw [(h.arrived hcompletes).2] at hw
      cases hw
      simp [Weight.lt_iff] at hlt

end Agrees

/-- Whatever was asked before, no weight is above zero, and a state that reaches a goal stands on a
target and has arrived.  So it has weight zero, and comes first where the greatest weight does. -/
theorem completing_first (ht : ofSettings v goals settings = .ok t) :
    (∀ (asked : List Question) (s : State) (w : Weight),
      (Weighting.weigh s (t.after asked)).1 = .ok w → w ≤ .zero) ∧
    (∀ s : State, s.Completes v goals →
      (∀ g ∈ (GoalTracker.ofRegistry goals).fresh s, g.sink.stmt ∈ goals.targets s) ∧
      ∀ asked : List Question,
        ((t.after asked).estimate s).1 = .ok (.arrived s.method) ∧
        (Weighting.weigh s (t.after asked)).1 = .ok .zero) ∧
    ∀ (asked : List Question) (stop : τ) (ops : List Operation),
      PutsGoalsFirst v goals t
        ((Frontier.start (t.after asked) HighestWeight.mk stop).after ops) := by
  have ha := Agrees.ofSettings ht
  refine ⟨fun asked s w hw => (ha.after asked).weigh_le_zero hw, fun s hs => ⟨fun g hg => ?_,
    fun asked => (ha.after asked).arrived hs⟩, fun asked stop ops =>
    ha.putsGoalsFirst (ha.after asked) stop ops⟩
  exact (State.mem_targets_of_fresh hg).1

def atSink : State := { insideCall with stmt := ⟨⟨1⟩, 1⟩, earlier := [⟨⟨1⟩, 0⟩, ⟨⟨0⟩, 2⟩] }

theorem completing_first_atSink :
    ∃ t, ofSettings twoMethods.view behindCall {} = .ok t ∧
      atSink.Completes twoMethods.view behindCall ∧
      (t.estimate atSink).1 = .ok (.arrived ⟨1⟩) ∧
      let f := (Frontier.start t HighestWeight.mk NeverStop.mk).after
        [.offer insideCall, .peek, .offer atSink]
      f.poll.1 = .ok (some atSink) ∧ PutsGoalsFirst twoMethods.view behindCall t f := by
  have ht : ofSettings twoMethods.view behindCall {} = .ok _ := rfl
  have hs : atSink.Completes twoMethods.view behindCall := by
    refine ⟨⟨_, rfl, by decide⟩, fun top htop => ?_, by decide⟩
    cases htop
    rfl
  obtain ⟨-, hzero, hfirst⟩ := completing_first (τ := NeverStop) ht
  exact ⟨_, ht, hs, ((hzero atSink hs).2 []).1, by rfl, hfirst [] NeverStop.mk _⟩

end TaintDistance

end PathExplorer
