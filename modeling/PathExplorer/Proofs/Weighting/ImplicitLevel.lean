import Mathlib.Order.WellFounded
import PathExplorer.Proofs.Exploration.Rootless
import PathExplorer.Proofs.Weighting.Tireless

namespace PathExplorer

theorem Stack.eq_root_or_inside {st : Stack} {m : Method} (h : st.base? = some m) :
    st = .root m ∨ 1 < st.depth := by
  cases st with
  | empty => cases h
  | root k =>
    cases h
    exact .inl rfl
  | push below k site =>
    have hbelow : below.depth = below.unrooted.frames.length + 1 := by
      have hb : below.base? = some m := h
      rw [← below.length_frames, frames_unrooted hb, List.length_append, List.length_singleton]
    rw [depth]
    omega

theorem Stack.levels_unrooted {st : Stack} {m : Method} (h : st.base? = some m) (here : Stmt) :
    ∃ stand, st.levels here = st.unrooted.levels here ++ [⟨m, stand⟩] := by
  induction st generalizing here with
  | empty => cases h
  | root k =>
    cases h
    exact ⟨here, rfl⟩
  | push below k site ih =>
    obtain ⟨stand, hl⟩ := ih h site
    refine ⟨stand, ?_⟩
    rw [levels, unrooted, levels, hl]
    rfl

namespace State

variable {v : View} {s : State} {m : Method}

/-- Inside a call the level of the root frame is missing without that frame. -/
theorem levels_unrooted (hs : s.Standing) (hb : s.stack.base? = some m) (hd : 1 < s.stack.depth) :
    s.unrooted.levels = .ok (s.stack.levels s.stmt).dropLast := by
  obtain ⟨stand, hl⟩ := Stack.levels_unrooted hb s.stmt
  obtain ⟨-, top, htop, hm⟩ := hs
  rw [hl, List.dropLast_concat]
  cases hst : s.stack with
  | empty | root k =>
    rw [hst] at hd
    simp [Stack.depth] at hd
  | push below k site =>
    rw [hst] at htop
    cases htop
    have ht : s.unrooted.stack.top? = some ⟨k, some site⟩ := by
      rw [unrooted, hst]
      rfl
    rw [levels, ht]
    simp only [unrooted, hst]
    exact if_pos hm

/-- Outside of calls the level is the same with the root frame and without it. -/
theorem levels_unrooted_of_root (hs : s.Standing) (hst : s.stack = .root m) :
    s.unrooted.levels = s.levels := by
  obtain ⟨-, top, htop, hm⟩ := hs
  rw [hst] at htop
  cases htop
  have hm : m = s.method := hm
  subst hm
  calc s.unrooted.levels
    _ = .ok [⟨s.method, s.stmt⟩] := by rw [levels, unrooted, hst]; rfl
    _ = s.levels := by rw [levels, hst]; exact (if_pos rfl).symm

end State

namespace View

variable (v : View) (goals : Registry)

/-- The state stands inside a call, and no level of it reaches a target but, perhaps, the one of the
root frame. -/
def HopelessInside (s : State) : Prop :=
  1 < s.stack.depth ∧
    v.Hopeless (s.stack.levels s.stmt).dropLast ((goals.targets s).map (·.method))

variable {v goals} {s : State} {m : Method} {c : Coefficients}

theorem firstRoute_append {targets : Ascending Method} {levels : List Level}
    {found : List Level × Level × Route} (h : v.firstRoute targets levels = some found)
    (outer : List Level) : v.firstRoute targets (levels ++ outer) = some found := by
  induction levels generalizing found with
  | nil => cases h
  | cons level levels ih =>
    rw [firstRoute] at h
    rw [List.cons_append, firstRoute]
    cases hr : (v.routes level.method targets).minOn? Route.length with
    | some route =>
      rw [hr] at h
      exact h
    | none =>
      rw [hr] at h
      obtain ⟨rest, hrest, he⟩ := Option.map_eq_some_iff.mp h
      exact Option.map_eq_some_iff.mpr ⟨rest, ih hrest, he⟩

theorem estimate_unrooted_of_hopeless (hs : s.Standing) (hb : s.stack.base? = some m)
    (h : v.HopelessInside goals s) : v.estimate goals c s.unrooted = .ok .unreachable :=
  estimate_of_hopeless (State.levels_unrooted hs hb h.1) h.2

theorem estimate_unrooted (hs : s.Placed v) (hb : s.stack.base? = some m)
    (h : ¬ v.HopelessInside goals s) :
    v.estimate goals c s.unrooted = v.estimate goals c s := by
  have htargets : goals.targets s.unrooted = goals.targets s := rfl
  obtain hst | hd := Stack.eq_root_or_inside hb
  · simp only [estimate, State.levels_unrooted_of_root hs.standing hst, htargets]
  · have hinside := State.levels_unrooted hs.standing hb hd
    obtain ⟨stand, hl⟩ := Stack.levels_unrooted hb s.stmt
    cases hf : v.firstRoute ((goals.targets s).map (·.method))
        (s.stack.levels s.stmt).dropLast with
    | none => exact absurd ⟨hd, firstRoute_eq_none hf⟩ h
    | some found =>
      -- The first level that reaches a target is the same with one more behind it.
      have hfull : v.firstRoute ((goals.targets s).map (·.method)) (s.stack.levels s.stmt) =
          some found := by
        rw [hl, List.dropLast_concat] at hf
        rw [hl]
        exact firstRoute_append hf _
      simp only [estimate, hinside, hs.levels, htargets, bind, Except.bind, hf, hfull]

end View

namespace TaintDistance

/-- Without a root frame the exploration from the entry of a method does what it does with one, and
enters the method again where the other does not, which is once more at most.  Both have the same
paths exactly when nothing explored with the root frame calls the method, and then both end.  A
state explored without it that has the path of one explored with it differs from that in the root
frame only.  It has the same weight, unless no level inside the root frame reaches a target: then it
has the least one. -/
theorem rootless_beside_root {p : Program} {m : Method} {f : Flow} (hf : p.view.flow m = .ok f)
    {goals : Registry} {settings : SelectorSettings} {t : TaintDistance}
    (ht : ofSettings p.view goals settings = .ok t) (asked : List Question) :
    (∀ u, p.view.Explored (.rootless f.entry) u ↔
      ∃ s, p.view.Explored (.root f.entry) s ∧ (u = s.unrooted ∨
        p.view.CallsInto m s ∧ p.view.Explored (s.unrooted.enter f.entry) u)) ∧
    (p.view.paths (.rootless f.entry) = p.view.paths (.root f.entry) ↔
      ∀ s, p.view.Explored (.root f.entry) s → ¬ p.view.CallsInto m s) ∧
    (∀ s u, p.view.Explored (.root f.entry) s → p.view.Explored (.rootless f.entry) u →
      u.path = s.path → u = s.unrooted ∧
        (¬ p.view.HopelessInside goals s →
          (Weighting.weigh u (t.after asked)).1 = (Weighting.weigh s (t.after asked)).1) ∧
        (p.view.HopelessInside goals s →
          (Weighting.weigh u (t.after asked)).1 = .ok .negInfinity)) ∧
    (∀ u, p.view.Explored (.rootless f.entry) u → (u.stack.frames.map (·.method)).Nodup) ∧
    p.view.Halts (.root f.entry) ∧
    (p.view.paths (.rootless f.entry) = p.view.paths (.root f.entry) →
      p.view.Halts (.rootless f.entry)) := by
  have hv := p.flow_lawful
  have hpaths := View.paths_rootless_iff hf
  refine ⟨fun u => View.explored_rootless_iff hf, hpaths, fun s u hs hu hp => ?_, fun u hu => ?_,
    View.halts_root hf, fun h => View.halts_rootless hf (hpaths.mp h)⟩
  · obtain rfl := View.eq_unrooted_of_path_eq hf hs hu hp
    have hplaced := (State.placed_root (View.locates_entry hv hf)).explored hv hs
    have hb := View.base?_of_explored_entry hf hs
    have ha := (Agrees.ofSettings ht).after asked
    rw [(ha.weigh s.unrooted).1, (ha.weigh s).1]
    refine ⟨rfl, fun h => ?_, fun h => ?_⟩
    · rw [View.estimate_unrooted hplaced hb h]
    · rw [View.estimate_unrooted_of_hopeless hplaced.standing hb h]
      rfl
  · have hnone : ((State.rootless f.entry).stack.frames.map (·.method)).Nodup := List.nodup_nil
    exact View.distinct_of_explored hv hnone hu

def secondCall : Registry := ⟨⟨[⟨⟨⟨⟨0⟩, 3⟩⟩, ⟨⟨⟨0⟩, 2⟩⟩⟩], by simp⟩⟩

def onFirstCall : State := (State.root ⟨⟨0⟩, 0⟩).advance ⟨⟨0⟩, 1⟩

def insideHelper : State := onFirstCall.enter ⟨⟨1⟩, 0⟩

theorem explored_onFirstCall : restarts.view.Explored (.root ⟨⟨0⟩, 0⟩) onFirstCall :=
  View.explored_of_chain [] (by decide)

theorem explored_insideHelper : restarts.view.Explored (.root ⟨⟨0⟩, 0⟩) insideHelper :=
  View.explored_of_chain [onFirstCall] (by decide)

theorem callsInto_onFirstCall : restarts.view.CallsInto ⟨0⟩ onFirstCall :=
  ⟨⟨_, rfl, rfl⟩, by decide⟩

theorem rootless_beside_root_restarts :
    ∃ t f, ofSettings restarts.view secondCall {} = .ok t ∧ restarts.view.flow ⟨0⟩ = .ok f ∧
      restarts.view.paths (.rootless f.entry) ≠ restarts.view.paths (.root f.entry) ∧
      restarts.view.Explored (.root f.entry) insideHelper ∧
      restarts.view.Explored (.rootless f.entry) insideHelper.unrooted ∧
      (Weighting.weigh insideHelper.unrooted (t.after [.weigh insideHelper])).1 =
        .ok .negInfinity := by
  obtain ⟨t, ht⟩ : ∃ t, ofSettings restarts.view secondCall {} = .ok t := ⟨_, rfl⟩
  have hf : restarts.view.flow ⟨0⟩ = .ok _ := rfl
  obtain ⟨hiff, hpaths, hsame, -⟩ := rootless_beside_root hf ht [.weigh insideHelper]
  have hrootless := (hiff insideHelper.unrooted).mpr ⟨_, explored_insideHelper, .inl rfl⟩
  have hhopeless : restarts.view.HopelessInside secondCall insideHelper :=
    ⟨by decide, View.firstRoute_eq_none rfl⟩
  refine ⟨t, _, ht, hf, fun h => ?_, explored_insideHelper, hrootless, ?_⟩
  · exact hpaths.mp h onFirstCall explored_onFirstCall callsInto_onFirstCall
  · exact (hsame _ _ explored_insideHelper hrootless rfl).2.2 hhopeless

inductive Restarting : State → Prop
  | start : Restarting (.rootless ⟨⟨0⟩, 0⟩)
  | call (site : Nat) (earlier : List Stmt) : site = 1 ∨ site = 3 →
      Restarting ⟨⟨⟨0⟩, site⟩, .empty, earlier, none⟩
  | again (site : Nat) (earlier : List Stmt) : site = 1 ∨ site = 3 →
      Restarting ⟨⟨⟨0⟩, 0⟩, .push .empty ⟨0⟩ ⟨⟨0⟩, site⟩, ⟨⟨0⟩, site⟩ :: earlier, none⟩
  | back (site : Nat) (earlier : List Stmt) : site = 1 ∨ site = 3 →
      Restarting ⟨⟨⟨0⟩, 2⟩, .push .empty ⟨0⟩ ⟨⟨0⟩, site⟩,
        ⟨⟨0⟩, 0⟩ :: ⟨⟨0⟩, site⟩ :: earlier, none⟩

theorem Restarting.next {s : State} (h : Restarting s) :
    ∃ t, Restarting t ∧ restarts.view.Next s t := by
  cases h with
  | start => exact ⟨_, .call 1 _ (.inl rfl), _, rfl, List.mem_cons_self ..⟩
  | call site earlier hs =>
    refine ⟨_, .again site earlier hs, ?_⟩
    obtain rfl | rfl := hs
    · exact ⟨_, rfl, List.mem_cons_self ..⟩
    · exact ⟨_, rfl, List.mem_cons_self ..⟩
  | again site earlier hs =>
    refine ⟨_, .back site earlier hs, ?_⟩
    obtain rfl | rfl := hs
    · exact ⟨_, rfl, List.mem_cons_of_mem _ (List.mem_cons_self ..)⟩
    · exact ⟨_, rfl, List.mem_cons_of_mem _ (List.mem_cons_self ..)⟩
  | back site earlier hs =>
    obtain rfl | rfl := hs
    · exact ⟨_, .call 3 _ (.inr rfl), _, rfl, List.mem_cons_self ..⟩
    · exact ⟨_, .call 1 _ (.inl rfl), _, rfl, List.mem_cons_self ..⟩

theorem Restarting.not_acc {s : State} (h : Restarting s) :
    ¬ Acc (fun t s => restarts.view.Next s t) s := by
  intro hacc
  induction hacc with
  | intro s _ ih =>
    obtain ⟨t, ht, hn⟩ := h.next
    exact ih t hn ht

/-- Without its root frame the exploration of `restarts` goes on for ever and has further paths, and
inside the other method it does not see what is behind the call. -/
theorem restarts_rootless_never_ends :
    ∃ t f, ofSettings restarts.view secondCall {} = .ok t ∧ restarts.view.flow ⟨0⟩ = .ok f ∧
      (∃ seq : Nat → State, seq 0 = .rootless f.entry ∧
        ∀ n, restarts.view.Next (seq n) (seq (n + 1))) ∧
      (∃ u, restarts.view.Explored (.rootless f.entry) u ∧
        u.path ∉ restarts.view.paths (.root f.entry)) ∧
      ∃ s u, restarts.view.Explored (.root f.entry) s ∧
        restarts.view.Explored (.rootless f.entry) u ∧ u.path = s.path ∧
        (Weighting.weigh s t).1 = .ok (.ofDistance (.finite 1)) ∧
        (Weighting.weigh u t).1 = .ok .negInfinity := by
  obtain ⟨t, ht⟩ : ∃ t, ofSettings restarts.view secondCall {} = .ok t := ⟨_, rfl⟩
  have hf : restarts.view.flow ⟨0⟩ = .ok _ := rfl
  refine ⟨t, _, ht, hf, ?_, ?_, ?_⟩
  · exact not_acc_iff_exists_descending_chain.mp Restarting.start.not_acc
  · have hagain := View.next_recurs hf explored_onFirstCall callsInto_onFirstCall
    refine ⟨_, explored_onFirstCall.unrooted.tail hagain, ?_⟩
    rintro ⟨s, hs, hp⟩
    exact View.not_prefix_of_callsInto hf explored_onFirstCall callsInto_onFirstCall hs
      (hp ▸ List.prefix_rfl)
  · have ha := Agrees.ofSettings ht
    refine ⟨insideHelper, insideHelper.unrooted, explored_insideHelper,
      explored_insideHelper.unrooted, rfl, ?_, ?_⟩
    · rw [(ha.weigh insideHelper).1]
      rfl
    · rw [(ha.weigh insideHelper.unrooted).1]
      rfl

end TaintDistance

end PathExplorer
