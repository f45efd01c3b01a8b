import PathExplorer.Proofs.Exploration.Step
import PathExplorer.Weighting.TaintDistance

namespace PathExplorer

/-- The state stands in its innermost frame, and all its levels stand on statements that can be
found. -/
structure State.Placed (v : View) (s : State) : Prop where
  standing : s.Standing
  located : ∀ level ∈ s.stack.levels s.stmt, v.Locates level.stand

theorem Stack.levels_eq_cons {st : Stack} {top : Frame} (h : st.top? = some top) (here : Stmt) :
    st.levels here = ⟨top.method, here⟩ :: st.pop.levels (top.site?.getD here) := by
  cases st with
  | empty => cases h
  | root m =>
    cases h
    rfl
  | push below m site =>
    cases h
    rfl

namespace State

variable {v : View} {s t r : State} {x : Stmt}

theorem placed_root (h : v.Locates x) : (root x).Placed v where
  standing := ⟨.root _, _, rfl, rfl⟩
  located level hl := by
    cases List.mem_singleton.mp hl
    exact h

theorem Placed.locates (h : s.Placed v) : v.Locates s.stmt := by
  obtain ⟨-, top, ht, -⟩ := h.standing
  apply h.located ⟨top.method, s.stmt⟩
  rw [Stack.levels_eq_cons ht]
  exact List.mem_cons_self ..

theorem Placed.goesOn (hv : v.Lawful) (hs : s.Placed v) (h : v.GoesOn s t) : t.Placed v := by
  refine ⟨hs.standing.goesOn hv h, ?_⟩
  cases h with
  | @advance f n hf _ hn _ =>
    have hl := hs.located
    change ∀ level ∈ s.stack.levels n, v.Locates level.stand
    cases hst : s.stack with
    | empty => exact fun _ h => nomatch h
    | root m =>
      intro level h
      cases List.mem_singleton.mp h
      exact View.locates_of_mem hv hf (Flow.mem_of_mem_next hn)
    | push below m site =>
      rw [hst] at hl
      refine List.forall_mem_cons.mpr ⟨?_, (List.forall_mem_cons.mp hl).2⟩
      exact View.locates_of_mem hv hf (Flow.mem_of_mem_next hn)

theorem Placed.enters (hv : v.Lawful) (hs : s.Placed v) (h : v.Enters s t) : t.Placed v := by
  refine ⟨hs.standing.enters hv h, ?_⟩
  cases h with
  | enter _ _ hf => exact List.forall_mem_cons.mpr ⟨View.locates_entry hv hf, hs.located⟩

theorem Placed.resume (hs : s.Placed v) (h : s.resume? = some r) : r.Placed v := by
  have hr := resumes_of_resume? h
  refine ⟨hs.standing.resumes hr, ?_⟩
  obtain ⟨m, hf⟩ := hr.frame
  have hl := hs.located
  rw [hf] at hl
  exact (List.forall_mem_cons.mp hl).2

theorem Placed.next (hv : v.Lawful) (hs : s.Placed v) (h : v.Next s t) : t.Placed v := by
  obtain h | h | ⟨r, hr, h⟩ := View.next_cases hv h
  · exact hs.goesOn hv h
  · exact hs.enters hv h
  · exact (hs.resume hr).goesOn hv h

theorem Placed.explored (hv : v.Lawful) (hs : s.Placed v) (h : v.Explored s t) : t.Placed v := by
  induction h with
  | refl => exact hs
  | tail _ hn ih => exact ih.next hv hn

end State

namespace View

variable {v : View} {s t : State}

theorem fallThrough_ok (hv : v.Lawful) (hs : v.Locates s.stmt) :
    ∃ ts, v.fallThrough s = .ok ts ∧ ∀ t, v.GoesOn s t → t ∈ ts := by
  obtain ⟨f, hf, hm⟩ := hs
  refine ⟨((f.next s.stmt.index).filter fun n => !s.visitedSince f.entry n).map s.advance, ?_, ?_⟩
  · simp only [fallThrough, bind_eq_ok_iff]
    exact ⟨f, hf, _, Flow.successors_of_mem hm, rfl⟩
  · intro t ht
    cases ht with
    | @advance g n hg _ hn hsince =>
      have hgf : v.flow s.method = .ok f := hf
      rw [hgf] at hg
      cases hg
      refine List.mem_map_of_mem (List.mem_filter.mpr ⟨hn, ?_⟩)
      have hnm : n.method = s.method := mem_of_lawful hv hf (Flow.mem_of_mem_next hn)
      have hem : f.entry.method = s.method := mem_of_lawful hv hf f.entry_mem
      rw [Bool.not_eq_true', ← Bool.not_eq_true, State.visitedSince_iff hem hnm]
      exact hsince

theorem enterAll_ok (hc : ∀ m ∈ v.callees s.stmt, v.Has m) :
    ∃ ts, v.enterAll s (v.callees s.stmt) = .ok ts ∧ ∀ t, v.Enters s t → t ∈ ts := by
  have hok : ∀ m ∈ (v.callees s.stmt).filter fun m => !s.stack.holds m, ∃ t,
      (do let flow ← v.flow m; return s.enter flow.entry : Except Fault State) = .ok t := by
    intro m hm
    obtain ⟨f, hf⟩ := hc m (List.mem_filter.mp hm).1
    exact ⟨_, bind_eq_ok_iff.mpr ⟨f, hf, rfl⟩⟩
  obtain ⟨ts, hts, hmem⟩ := mapM_eq_ok hok
  refine ⟨ts, hts, fun t ht => ?_⟩
  cases ht with
  | @enter m f hm hh hf =>
    refine hmem m (List.mem_filter.mpr ⟨hm, by simpa using hh⟩) _ ?_
    exact bind_eq_ok_iff.mpr ⟨f, hf, rfl⟩

theorem Locates.is {x : Stmt} (h : v.Locates x) : ∃ k, v.Is k x := by
  obtain ⟨f, hf, hx⟩ := h
  exact ⟨_, f, hf, Flow.kind_of_mem hx⟩

theorem successors_eq {k : Kind} (hk : v.Is k s.stmt) :
    v.successors s = match k with
      | .plain => v.fallThrough s
      | .call => if (v.callees s.stmt).isEmpty then v.fallThrough s
          else v.enterAll s (v.callees s.stmt)
      | .ret => match s.resume? with
        | some resumed => v.fallThrough resumed
        | none => .ok []
      | .throw => .ok [] := by
  obtain ⟨f, hf, hk⟩ := hk
  have hf : v.flow s.method = .ok f := hf
  unfold successors
  rw [hf]
  simp only [bind, Except.bind, hk]
  cases k <;> rfl

theorem successors_of_passes (h : v.Passes s.stmt) : v.successors s = v.fallThrough s := by
  obtain hk | ⟨hk, hn⟩ := h
  · exact successors_eq hk
  · rw [successors_eq hk, hn]
    rfl

variable {p : Program}

theorem enterAll_callees_ok (s : State) : ∃ ts, p.view.enterAll s (p.view.callees s.stmt) = .ok ts ∧
    ∀ t, p.view.Enters s t → t ∈ ts :=
  enterAll_ok fun _ hm => Program.has_callee (p := p) (mem_callees.mp hm)

theorem next_of_moves (hs : s.Placed p.view) (h : p.view.Moves s t) : p.view.Next s t := by
  have hv := p.flow_lawful
  cases h with
  | on hp h =>
    obtain ⟨ts, hts, hm⟩ := fallThrough_ok hv hs.locates
    exact ⟨ts, (successors_of_passes hp).trans hts, hm t h⟩
  | enter hk h =>
    have hn : ¬ (p.view.callees s.stmt).isEmpty := by
      cases h with
      | enter hm _ _ => exact fun hn => List.ne_nil_of_mem hm (List.isEmpty_iff.mp hn)
    obtain ⟨ts, hts, hm⟩ := enterAll_callees_ok s
    exact ⟨ts, (successors_eq hk).trans ((if_neg hn).trans hts), hm t h⟩
  | @back r _ hk hr h =>
    obtain ⟨ts, hts, hm⟩ := fallThrough_ok hv (hs.resume hr).locates
    have he : p.view.successors s = p.view.fallThrough r := by rw [successors_eq hk, hr]
    exact ⟨ts, he.trans hts, hm t h⟩

theorem successors_isOk (hs : s.Placed p.view) : ∃ ts, p.view.successors s = .ok ts := by
  have hv := p.flow_lawful
  obtain ⟨k, hk⟩ := hs.locates.is
  obtain ⟨ts, hts, -⟩ := fallThrough_ok hv hs.locates
  rw [successors_eq hk]
  cases k with
  | plain => exact ⟨ts, hts⟩
  | call =>
    dsimp only
    split
    · exact ⟨ts, hts⟩
    · obtain ⟨us, hus, -⟩ := enterAll_callees_ok (p := p) s
      exact ⟨us, hus⟩
  | ret =>
    cases hr : s.resume? with
    | none => exact ⟨[], rfl⟩
    | some r =>
      obtain ⟨us, hus, -⟩ := fallThrough_ok hv (hs.resume hr).locates
      exact ⟨us, hus⟩
  | throw => exact ⟨[], rfl⟩

end View

end PathExplorer
