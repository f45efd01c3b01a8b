import PathExplorer.Proofs.Exploration.Placed
import PathExplorer.Proofs.Frontier.Highest
import PathExplorer.Proofs.Frontier.Ready
import PathExplorer.Proofs.Weighting.Estimate

namespace PathExplorer

theorem Stack.Linked.stand_method {st : Stack} (h : st.Linked) {top : Frame}
    (ht : st.top? = some top) {here : Stmt} (hh : here.method = top.method) :
    ∀ level ∈ st.levels here, level.stand.method = level.method := by
  induction h generalizing here top with
  | root m =>
    cases ht
    simpa [levels] using hh
  | push _ hb hs ih =>
    cases ht
    exact List.forall_mem_cons.mpr ⟨hh, ih hb hs⟩

namespace State

variable {v : View} {s : State}

theorem Placed.levels (h : s.Placed v) : s.levels = .ok (s.stack.levels s.stmt) := by
  obtain ⟨-, top, ht, hm⟩ := h.standing
  rw [State.levels, ht]
  exact if_pos hm

theorem Placed.has (h : s.Placed v) {level : Level} (hl : level ∈ s.stack.levels s.stmt) :
    v.Has level.method ∧ v.Locates level.stand := by
  obtain ⟨hlinked, top, ht, hm⟩ := h.standing
  obtain ⟨f, hf, hx⟩ := h.located level hl
  rw [hlinked.stand_method ht hm.symm level hl] at hf
  exact ⟨⟨f, hf⟩, h.located level hl⟩

end State

namespace View

variable {p : Program} {s : State} {targets : Ascending Method} {before : List Level}
  {level : Level} {route : Route}

theorem passable_of_placed (hs : s.Placed p.view)
    (h : p.view.IsWay targets (s.stack.levels s.stmt) before level route) :
    p.view.Passable before level route := by
  obtain ⟨⟨outer, hlevels⟩, -, t, hnearest⟩ := h
  have hmem : level ∈ s.stack.levels s.stmt := by simp [hlevels]
  have hlevel := hs.has hmem
  refine ⟨fun inner hi => hs.has (by simp [hlevels, hi]), hlevel.2, fun _ => ?_⟩
  rw [hnearest.methods_eq]
  have hchain := hnearest.path.chain
  rw [hnearest.methods_eq] at hchain
  refine List.forall_mem_cons.mpr ⟨hlevel.1, hchain.cons_induction _ _ ?_ hlevel.1⟩
  rintro _ _ ⟨c, hc, -, rfl⟩ -
  exact Program.has_callee hc

theorem estimate_isOk (goals : Registry) (c : Coefficients) (hs : s.Placed p.view) :
    ∃ e, p.view.estimate goals c s = .ok e := by
  by_cases hh : p.view.Hopeless (s.stack.levels s.stmt) ((goals.targets s).map (·.method))
  · exact ⟨_, estimate_of_hopeless hs.levels hh⟩
  · obtain ⟨before, level, route, hway, hok, -⟩ := estimate_of_way p.flow_lawful c hs.levels hh
    exact hok.mpr (passable_of_placed hs hway)

end View

/-- It can weigh whatever states an exploration of the program comes by. -/
theorem TaintDistance.tireless {p : Program} {goals : Registry} {settings : SelectorSettings}
    {t : TaintDistance} (ht : ofSettings p.view goals settings = .ok t) :
    Tireless (·.Placed p.view) t := by
  intro weighed _ s hs
  obtain ⟨e, he⟩ := View.estimate_isOk goals ⟨settings.inner, settings.inter⟩ hs
  have hweigh := (Agrees.ofSettings ht).steady weighed s
  exact ⟨e.weight, hweigh.trans (congrArg (Except.map Estimate.weight) he)⟩

end PathExplorer
