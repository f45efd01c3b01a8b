import PathExplorer.Proofs.Weighting.Trip

namespace PathExplorer

namespace View

variable {v : View} {targets : Ascending Stmt}

section Way

variable {reached : Ascending Method} {levels before : List Level} {level : Level} {route : Route}

def Hopeless (v : View) (levels : List Level) (targets : Ascending Method) : Prop :=
  ∀ level ∈ levels, ∀ t ∈ targets, ∀ k, ¬ Walk v.Calls level.method t k

/-- The way to a goal begins at the first level that is not hopeless, by a route to the nearest
target method. -/
structure IsWay (v : View) (targets : Ascending Method) (levels before : List Level)
    (level : Level) (route : Route) : Prop where
  levels : ∃ outer, levels = before ++ level :: outer
  hopeless : v.Hopeless before targets
  nearest : ∃ t, v.IsNearest level.method targets t route

/-- All that has to be looked up on the way can be.  A route that stays in one method is not looked
up but for the statement at which it begins. -/
structure Passable (v : View) (before : List Level) (level : Level) (route : Route) : Prop where
  returning : ∀ inner ∈ before, v.Has inner.method ∧ v.Locates inner.stand
  stand : v.Locates level.stand
  route : route.methods.tail ≠ [] → ∀ m ∈ route.methods, v.Has m

theorem firstRoute_eq_none (h : v.firstRoute reached levels = none) :
    v.Hopeless levels reached := by
  induction levels with
  | nil => simp [Hopeless]
  | cons level levels ih =>
    unfold firstRoute at h
    cases hr : (v.routes level.method reached).minOn? Route.length with
    | some route =>
      rw [hr] at h
      cases h
    | none =>
      rw [hr] at h
      refine List.forall_mem_cons.mpr ⟨?_, ih (Option.map_eq_none_iff.mp h)⟩
      exact routes_eq_nil_iff.mp (minOn?_eq_none hr)

theorem firstRoute_eq_some (h : v.firstRoute reached levels = some (before, level, route)) :
    v.IsWay reached levels before level route := by
  induction levels generalizing before with
  | nil => cases h
  | cons inner levels ih =>
    unfold firstRoute at h
    cases hr : (v.routes inner.method reached).minOn? Route.length with
    | some found =>
      rw [hr] at h
      cases h
      exact ⟨⟨levels, rfl⟩, by simp [Hopeless], isNearest_of_minOn? hr⟩
    | none =>
      rw [hr] at h
      obtain ⟨⟨before, found⟩, hf, he⟩ := Option.map_eq_some_iff.mp h
      cases he
      obtain ⟨⟨outer, rfl⟩, hb, hn⟩ := ih hf
      refine ⟨⟨outer, rfl⟩, List.forall_mem_cons.mpr ⟨?_, hb⟩, hn⟩
      exact routes_eq_nil_iff.mp (minOn?_eq_none hr)

theorem IsWay.not_hopeless (h : v.IsWay reached levels before level route) :
    ¬ v.Hopeless levels reached := by
  obtain ⟨⟨outer, rfl⟩, -, t, hn⟩ := h
  intro hh
  exact hh level (by simp) t hn.mem _ hn.path.walk

theorem IsNearest.methods_eq {m t : Method} (h : v.IsNearest m reached t route) :
    route.methods = m :: route.methods.tail :=
  (List.cons_head?_tail h.path.head).symm

theorem alongRoute_eq {t : Method} (h : v.IsNearest level.method reached t route) :
    v.alongRoute targets level route =
      v.along targets (some level.stand) level.method route.methods.tail := by
  unfold alongRoute
  rw [h.methods_eq]
  rfl

end Way

section Estimate

variable {goals : Registry} {c : Coefficients} {x : State} {levels before : List Level}
  {level : Level} {route : Route} {e : Estimate}

structure IsEstimate (v : View) (c : Coefficients) (targets : Ascending Stmt)
    (before : List Level) (level : Level) (route : Route) (e : Estimate) : Prop where
  framesToReturn : e.framesToReturn = before.length
  inner : e.inner.Measures (v.Trip targets (.start before level route.methods.tail))
  combined : e.combined.Measures fun n =>
    ∃ k, v.Trip targets (.start before level route.methods.tail) k ∧
      n = k * c.inner.toNat + route.hops * c.inter.toNat
  route : e.route = some route

theorem estimate_of_hopeless (hl : x.levels = .ok levels)
    (hh : v.Hopeless levels ((goals.targets x).map (·.method))) :
    v.estimate goals c x = .ok .unreachable := by
  cases hf : v.firstRoute ((goals.targets x).map (·.method)) levels with
  | none =>
    simp only [estimate, bind_eq_ok_iff]
    exact ⟨levels, hl, by rw [hf]; rfl⟩
  | some found => exact absurd hh (firstRoute_eq_some hf).not_hopeless

theorem estimate_eq_ok_iff (hl : x.levels = .ok levels)
    (hf : v.firstRoute ((goals.targets x).map (·.method)) levels = some (before, level, route)) :
    v.estimate goals c x = .ok e ↔
      ∃ d d', v.returning before = .ok d ∧ v.alongRoute (goals.targets x) level route = .ok d' ∧
        e = ⟨some route, before.length, d + d',
          TaintDistance.Coefficients.combine c (d + d') route.hops⟩ := by
  simp only [estimate, bind_eq_ok_iff, hl, Except.ok.injEq, exists_eq_left', hf, pure_eq_ok_iff]
  constructor
  · rintro ⟨d, hd, d', hd', rfl⟩
    exact ⟨d, d', hd, hd', rfl⟩
  · rintro ⟨d, d', hd, hd', rfl⟩
    exact ⟨d, hd, d', hd', rfl⟩

theorem passable_iff (hv : v.Lawful) {reached : Ascending Method} {t : Method}
    (hn : v.IsNearest level.method reached t route) :
    v.Passable before level route ↔ (∃ d, v.returning before = .ok d) ∧
      ∃ d, v.alongRoute targets level route = .ok d := by
  rw [alongRoute_eq hn, returning_isOk, along_isOk hv, ← hn.methods_eq]
  constructor
  · rintro ⟨hr, hl, hm⟩
    exact ⟨hr, ⟨_, rfl, hl⟩, hm⟩
  · rintro ⟨hr, ⟨s, hs, hl⟩, hm⟩
    cases hs
    exact ⟨hr, hl, hm⟩

theorem isEstimate (hv : v.Lawful) {reached : Ascending Method} {t : Method}
    (hn : v.IsNearest level.method reached t route) {d d' : Distance}
    (hd : v.returning before = .ok d) (hd' : v.alongRoute targets level route = .ok d') :
    v.IsEstimate c targets before level route ⟨some route, before.length, d + d',
      TaintDistance.Coefficients.combine c (d + d') route.hops⟩ := by
  rw [alongRoute_eq hn] at hd'
  have hinner := measures_returning hd (measures_along hv rfl hd')
  have hcombined := hinner.scale_add c.inner.toUInt64 (route.hops * c.inter.toNat)
  rw [UInt32.toNat_toUInt64] at hcombined
  exact ⟨rfl, hinner, hcombined, rfl⟩

/-- Unless every level is hopeless there is a way, and all that is looked up is on it. -/
theorem estimate_of_way (hv : v.Lawful) (c : Coefficients) (hl : x.levels = .ok levels)
    (hh : ¬ v.Hopeless levels ((goals.targets x).map (·.method))) :
    ∃ before level route, v.IsWay ((goals.targets x).map (·.method)) levels before level route ∧
      ((∃ e, v.estimate goals c x = .ok e) ↔ v.Passable before level route) ∧
      ∀ e, v.estimate goals c x = .ok e →
        v.IsEstimate c (goals.targets x) before level route e := by
  cases hf : v.firstRoute ((goals.targets x).map (·.method)) levels with
  | none => exact absurd (firstRoute_eq_none hf) hh
  | some found =>
    obtain ⟨before, level, route⟩ := found
    have hway := firstRoute_eq_some hf
    obtain ⟨t, hn⟩ := hway.nearest
    refine ⟨before, level, route, hway, ?_, fun e he => ?_⟩
    · rw [passable_iff hv hn]
      simp only [estimate_eq_ok_iff hl hf]
      constructor
      · rintro ⟨_, d, d', hd, hd', -⟩
        exact ⟨⟨d, hd⟩, d', hd'⟩
      · rintro ⟨⟨d, hd⟩, d', hd'⟩
        exact ⟨_, d, d', hd, hd', rfl⟩
    · obtain ⟨d, d', hd, hd', rfl⟩ := (estimate_eq_ok_iff hl hf).mp he
      exact isEstimate hv hn hd hd'

end Estimate

end View

section Levels

def State.openFrames (s : State) : List Frame :=
  match s.stack.frames with
  | [] => []
  | top :: frames => if top.method = s.method then top :: frames else frames

/-- The levels are those of the open frames, or that of the state's own method without any.  The
innermost stands where the state does, and every other where the next one in resumes it. -/
structure State.Stands (s : State) (levels : List Level) : Prop where
  methods : levels.map (·.method) =
    if s.openFrames = [] then [s.method] else s.openFrames.map (·.method)
  stands : levels.map (·.stand) = s.stmt :: s.openFrames.dropLast.filterMap (·.site?)

theorem Stack.map_method_levels (st : Stack) (here : Stmt) :
    (st.levels here).map (·.method) = st.frames.map (·.method) := by
  induction st generalizing here with
  | empty => rfl
  | root m => rfl
  | push below m site ih => exact congrArg (m :: ·) (ih site)

theorem Stack.map_stand_levels {st : Stack} (h : st.frames ≠ []) (here : Stmt) :
    (st.levels here).map (·.stand) = here :: st.frames.dropLast.filterMap (·.site?) := by
  induction st generalizing here with
  | empty => exact absurd rfl h
  | root m => rfl
  | push below m site ih =>
    by_cases hb : below.frames = []
    · have hl : below.levels site = [] := by
        simpa [hb] using below.map_method_levels site
      simp [levels, frames, hb, hl]
    · simp [levels, frames, ih hb, List.dropLast_cons_of_ne_nil hb]

theorem State.stands_of_stack {s : State} {st : Stack} (ho : s.openFrames = st.frames)
    (hf : st.frames ≠ []) : s.Stands (st.levels s.stmt) where
  methods := by rw [ho, if_neg hf, st.map_method_levels]
  stands := by rw [ho, Stack.map_stand_levels hf]

theorem State.stands_of_not_open {s : State} (ho : s.openFrames = []) :
    s.Stands [⟨s.method, s.stmt⟩] := by
  constructor <;> simp [ho]

theorem State.stands_of_levels {s : State} {levels : List Level} (h : s.levels = .ok levels) :
    s.Stands levels := by
  unfold State.levels at h
  rw [← Stack.head?_frames] at h
  cases hf : s.stack.frames with
  | nil =>
    rw [hf] at h
    cases h
    exact stands_of_not_open (by simp only [openFrames, hf])
  | cons top frames =>
    rw [hf] at h
    by_cases hm : top.method = s.method
    · simp only [List.head?_cons, if_pos hm, Except.ok.injEq] at h
      subst h
      exact stands_of_stack (by simp only [openFrames, hf, if_pos hm]) (by simp [hf])
    · have ho : s.openFrames = s.stack.pop.frames := by
        simp only [openFrames, Stack.frames_pop, hf, if_neg hm, List.tail_cons]
      simp only [List.head?_cons, if_neg hm] at h
      split at h
      · split at h
        · rename_i hp
          cases h
          apply stands_of_not_open
          simpa [hp, ← ho] using s.stack.pop.map_method_levels s.stmt
        · rename_i hp
          cases h
          refine stands_of_stack ho fun hn => hp ?_
          simpa [hn] using s.stack.pop.map_method_levels s.stmt
      · cases h

end Levels

namespace TaintDistance

/-- Whatever was asked before, the estimate of a state is of the way from its levels to the goals:
there is none when all levels are hopeless, and otherwise it is of a shortest trip, unless something
on that way cannot be looked up. -/
theorem estimate_shortest_trip {p : Program} {v : View} (hv : v.Shows p) {goals : Registry}
    {settings : SelectorSettings} {t : TaintDistance} (ht : ofSettings v goals settings = .ok t)
    (asked : List Question) {s : State} {levels : List Level} (hl : s.levels = .ok levels) :
    s.Stands levels ∧
    (v.Hopeless levels ((goals.targets s).map (·.method)) →
      ((t.after asked).estimate s).1 = .ok .unreachable) ∧
    (¬ v.Hopeless levels ((goals.targets s).map (·.method)) →
      ∃ before level route,
        v.IsWay ((goals.targets s).map (·.method)) levels before level route ∧
        ((∃ e, ((t.after asked).estimate s).1 = .ok e) ↔ v.Passable before level route) ∧
        ∀ e, ((t.after asked).estimate s).1 = .ok e →
          v.IsEstimate ⟨settings.inner, settings.inter⟩ (goals.targets s) before level route
            e) := by
  have ha := ((Agrees.ofSettings ht).after asked).estimate s
  rw [ha.1]
  exact ⟨State.stands_of_levels hl, View.estimate_of_hopeless hl,
    View.estimate_of_way hv.lawful _ hl⟩

theorem estimate_shortest_trip_insideCall :
    ∃ t, ofSettings twoMethods.view behindCall {} = .ok t ∧
      insideCall.levels = .ok [⟨⟨1⟩, ⟨⟨1⟩, 0⟩⟩, ⟨⟨0⟩, ⟨⟨0⟩, 1⟩⟩] ∧
      ∃ before level route e,
        ((t.after [.weigh insideCall]).estimate insideCall).1 = .ok e ∧ e.inner = .finite 2 ∧
        twoMethods.view.IsEstimate ⟨1, 3⟩ (behindCall.targets insideCall) before level route e := by
  have ht : ofSettings twoMethods.view behindCall {} = .ok _ := rfl
  have hl : insideCall.levels = .ok _ := rfl
  obtain ⟨-, -, h⟩ := estimate_shortest_trip twoMethods.view_shows ht [.weigh insideCall] hl
  obtain ⟨before, level, route, -, -, he⟩ := h fun hh =>
    hh ⟨⟨0⟩, ⟨⟨0⟩, 1⟩⟩ (by decide) ⟨0⟩ (by decide) 0 .here
  exact ⟨_, ht, hl, before, level, route, _, rfl, rfl, he _ rfl⟩

end TaintDistance

end PathExplorer
