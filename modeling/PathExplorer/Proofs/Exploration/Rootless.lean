import PathExplorer.Proofs.Exploration.Derivation
import PathExplorer.Proofs.Exploration.Replay
import PathExplorer.Proofs.Exploration.Termination

namespace PathExplorer

namespace Stack

def unrooted : Stack → Stack
  | empty => empty
  | root _ => empty
  | push below m site => push below.unrooted m site

def base? : Stack → Option Method
  | empty => none
  | root m => some m
  | push below _ _ => below.base?

variable {st : Stack} {m n : Method}

theorem frames_unrooted (h : st.base? = some m) :
    st.frames = st.unrooted.frames ++ [⟨m, none⟩] := by
  induction st with
  | empty => cases h
  | root k =>
    cases h
    rfl
  | push below k site ih =>
    rw [frames, unrooted, frames, ih h]
    rfl

theorem holds_unrooted (h : st.base? = some m) : st.holds n ↔ st.unrooted.holds n ∨ n = m := by
  rw [holds_iff, holds_iff, frames_unrooted h, List.map_append, List.mem_append]
  simp

theorem not_holds_unrooted (h : st.base? = some m) (hd : (st.frames.map (·.method)).Nodup) :
    ¬ st.unrooted.holds m := by
  rw [frames_unrooted h, List.map_append] at hd
  intro hm
  exact List.disjoint_of_nodup_append hd (holds_iff.mp hm) (List.mem_singleton_self m)

end Stack

namespace State

def rootless (x : Stmt) : State := { stmt := x, stack := .empty }

def unrooted (s : State) : State := { s with stack := s.stack.unrooted }

variable (s : State)

@[simp] theorem path_unrooted : s.unrooted.path = s.path := rfl

theorem resume?_unrooted : s.unrooted.resume? = s.resume?.map unrooted := by
  obtain ⟨here, stack, earlier, resource⟩ := s
  cases stack <;> rfl

end State

namespace View

variable (v : View)

def CallsInto (m : Method) (s : State) : Prop := v.Is .call s.stmt ∧ m ∈ v.callees s.stmt

/-- Explorations from the state end: there is no infinite sequence of steps, and there are finitely
many finite ones. -/
structure Halts (s : State) : Prop where
  ends : ¬ ∃ seq : Nat → State, seq 0 = s ∧ ∀ n, v.Next (seq n) (seq (n + 1))
  runs : {run : List State | (s :: run).IsChain v.Next}.Finite

def paths (s : State) : Set (List Stmt) := State.path '' {t | v.Explored s t}

variable {v} {s t u : State} {m : Method} {f : Flow} {x : Stmt}

theorem halts_of_acc (h : Acc (fun t s => v.Next s t) s) : v.Halts s :=
  ⟨not_infinite_of_acc h, finite_chains_of_acc (finite_next v) h⟩

section Step

theorem fallThrough_unrooted (s : State) :
    v.fallThrough s.unrooted = (v.fallThrough s).map (·.map State.unrooted) := by
  unfold fallThrough
  refine bind_eq_map_bind fun f _ => ?_
  refine bind_eq_map_bind fun next _ => ?_
  simp only [pure, Except.pure, Except.map, List.map_map]
  rfl

theorem enterAll_unrooted {callees : List Method} (hb : s.stack.base? = some m)
    (hm : m ∉ callees) :
    v.enterAll s.unrooted callees = (v.enterAll s callees).map (·.map State.unrooted) := by
  have hfree : ∀ c ∈ callees, (!s.unrooted.stack.holds c) = !s.stack.holds c := by
    intro c hc
    have hne : c ≠ m := fun he => hm (he ▸ hc)
    have hiff := Stack.holds_unrooted (n := c) hb
    rw [or_iff_left hne] at hiff
    exact congrArg (!·) (Bool.eq_iff_iff.mpr hiff.symm)
  unfold enterAll
  rw [map_mapM, List.filter_congr hfree]
  refine congrArg (List.mapM · _) (funext fun c => ?_)
  rw [map_bind]
  rfl

/-- Without its root frame a state has the same successors, without theirs, unless it calls the
method of that frame. -/
theorem successors_unrooted (hb : s.stack.base? = some m) (hm : ¬ v.CallsInto m s) :
    v.successors s.unrooted = (v.successors s).map (·.map State.unrooted) := by
  unfold successors
  refine bind_eq_map_bind fun f hf => ?_
  refine bind_eq_map_bind fun k hk => ?_
  cases k with
  | plain => exact fallThrough_unrooted s
  | throw => rfl
  | call =>
    have hcallee : m ∉ v.callees s.stmt := fun hc => hm ⟨⟨f, hf, hk⟩, hc⟩
    by_cases hnone : (v.callees s.stmt).isEmpty
    · simp only [State.unrooted, hnone, if_true]
      exact fallThrough_unrooted s
    · simp only [State.unrooted, hnone, if_false, Bool.false_eq_true]
      exact enterAll_unrooted hb hcallee
  | ret =>
    dsimp only
    rw [State.resume?_unrooted]
    cases s.resume? with
    | none => rfl
    | some r => exact fallThrough_unrooted r

theorem Next.base? (hv : v.Lawful) (h : v.Next s t) : t.stack.base? = s.stack.base? := by
  obtain h | h | ⟨r, hr, h⟩ := next_cases hv h
  · rw [(h.frame hv).1]
  · rw [(h.frame hv).1]
    rfl
  · obtain ⟨m, hs⟩ := (State.resumes_of_resume? hr).frame
    rw [(h.frame hv).1, hs]
    rfl

theorem base?_of_explored (hv : v.Lawful) (h : v.Explored (.root x) s) :
    s.stack.base? = some x.method := by
  induction h with
  | refl => rfl
  | tail _ hn ih => rw [hn.base? hv, ih]

theorem Next.distinct (hv : v.Lawful) (hs : (s.stack.frames.map (·.method)).Nodup)
    (h : v.Next s t) : (t.stack.frames.map (·.method)).Nodup := by
  obtain h | h | ⟨r, hr, h⟩ := next_cases hv h
  · rwa [(h.frame hv).1]
  · obtain ⟨hstack, hnew, -⟩ := h.frame hv
    rw [hstack]
    exact List.nodup_cons.mpr ⟨fun hm => hnew (Stack.holds_iff.mpr hm), hs⟩
  · obtain ⟨m, hstack⟩ := (State.resumes_of_resume? hr).frame
    rw [hstack] at hs
    rw [(h.frame hv).1]
    exact (List.nodup_cons.mp hs).2

theorem distinct_of_explored (hv : v.Lawful) (hs : (s.stack.frames.map (·.method)).Nodup)
    (h : v.Explored s t) : (t.stack.frames.map (·.method)).Nodup := by
  induction h with
  | refl => exact hs
  | tail _ hn ih => exact hn.distinct hv ih

end Step

section Program

variable {p : Program}

theorem next_iff_enters (h : p.view.CallsInto m s) : p.view.Next s t ↔ p.view.Enters s t := by
  obtain ⟨hk, hm⟩ := h
  have hsome : ¬ (p.view.callees s.stmt).isEmpty := fun hn =>
    List.ne_nil_of_mem hm (List.isEmpty_iff.mp hn)
  have hs : p.view.successors s = p.view.enterAll s (p.view.callees s.stmt) :=
    (successors_eq hk).trans (if_neg hsome)
  constructor
  · rintro ⟨ts, hts, ht⟩
    exact enters_of_enterAll (hs.symm.trans hts) ht
  · intro h
    obtain ⟨ts, hts, hmem⟩ := enterAll_callees_ok (p := p) s
    exact ⟨ts, hs.trans hts, hmem t h⟩

theorem Next.unrooted (hb : s.stack.base? = some m) (h : p.view.Next s t) :
    p.view.Next s.unrooted t.unrooted := by
  by_cases hc : p.view.CallsInto m s
  · have hc' : p.view.CallsInto m s.unrooted := hc
    refine (next_iff_enters hc').mpr ?_
    cases (next_iff_enters hc).mp h with
    | enter hm hh hf =>
      exact .enter hm (fun hu => hh ((Stack.holds_unrooted hb).mpr (.inl hu))) hf
  · obtain ⟨ts, hts, ht⟩ := h
    refine ⟨ts.map State.unrooted, ?_, List.mem_map_of_mem ht⟩
    have hs : p.view.successors s = .ok ts := hts
    exact (successors_unrooted hb hc).trans (congrArg _ hs)

theorem next_unrooted_cases (hb : s.stack.base? = some m) (hf : p.view.flow m = .ok f)
    (h : p.view.Next s.unrooted u) :
    (∃ t, p.view.Next s t ∧ u = t.unrooted) ∨
      p.view.CallsInto m s ∧ u = s.unrooted.enter f.entry := by
  by_cases hc : p.view.CallsInto m s
  · have hc' : p.view.CallsInto m s.unrooted := hc
    cases (next_iff_enters hc').mp h with
    | @enter c g hm hh hg =>
      by_cases he : c = m
      · subst he
        cases hg.symm.trans hf
        exact .inr ⟨hc, rfl⟩
      · refine .inl ⟨s.enter g.entry, (next_iff_enters hc).mpr (.enter hm (fun hs => ?_) hg), rfl⟩
        exact ((Stack.holds_unrooted hb).mp hs).elim hh he
  · obtain ⟨us, hus, hu⟩ := h
    have hs := (successors_unrooted hb hc).symm.trans hus
    cases hts : p.view.successors s with
    | error fault =>
      rw [hts] at hs
      cases hs
    | ok ts =>
      rw [hts] at hs
      cases hs
      obtain ⟨t, ht, rfl⟩ := List.mem_map.mp hu
      exact .inl ⟨t, ⟨ts, hts, ht⟩, rfl⟩

theorem Explored.unrooted (h : p.view.Explored (.root x) s) :
    p.view.Explored (.rootless x) s.unrooted := by
  induction h with
  | refl => exact .refl
  | tail hs hn ih => exact ih.tail (hn.unrooted (base?_of_explored p.flow_lawful hs))

section Entry

variable (hf : p.view.flow m = .ok f)
include hf

theorem base?_of_explored_entry (hs : p.view.Explored (.root f.entry) s) :
    s.stack.base? = some m := by
  have hm : f.entry.method = m := mem_of_lawful p.flow_lawful hf f.entry_mem
  rw [base?_of_explored p.flow_lawful hs, hm]

/-- Without a frame for it, the method at which the exploration began is entered once more. -/
theorem next_recurs (hs : p.view.Explored (.root f.entry) s) (hc : p.view.CallsInto m s) :
    p.view.Next s.unrooted (s.unrooted.enter f.entry) := by
  have hc' : p.view.CallsInto m s.unrooted := hc
  refine (next_iff_enters hc').mpr (.enter hc.2 ?_ hf)
  exact Stack.not_holds_unrooted (base?_of_explored_entry hf hs)
    (Kept.explored p.flow_lawful hs).stands.distinct

/-- What is explored without a root frame is explored with one, or comes of an entry of the method
at which both began, at a call where that method has but the root frame. -/
theorem explored_rootless_iff : p.view.Explored (.rootless f.entry) u ↔
    ∃ s, p.view.Explored (.root f.entry) s ∧ (u = s.unrooted ∨
      p.view.CallsInto m s ∧ p.view.Explored (s.unrooted.enter f.entry) u) := by
  constructor
  · intro h
    induction h with
    | refl => exact ⟨.root f.entry, .refl, .inl rfl⟩
    | tail _ hn ih =>
      obtain ⟨s, hs, rfl | ⟨hc, hu⟩⟩ := ih
      · obtain ⟨t, ht, rfl⟩ | ⟨hc, rfl⟩ :=
          next_unrooted_cases (base?_of_explored_entry hf hs) hf hn
        · exact ⟨t, hs.tail ht, .inl rfl⟩
        · exact ⟨s, hs, .inr ⟨hc, .refl⟩⟩
      · exact ⟨s, hs, .inr ⟨hc, hu.tail hn⟩⟩
  · rintro ⟨s, hs, rfl | ⟨hc, hu⟩⟩
    · exact Explored.unrooted hs
    · exact ((Explored.unrooted hs).tail (next_recurs hf hs hc)).trans hu

/-- In its root frame the method is not entered again, wherever it is called. -/
theorem not_prefix_of_callsInto (hs : p.view.Explored (.root f.entry) s)
    (hc : p.view.CallsInto m s) (ht : p.view.Explored (.root f.entry) t) :
    ¬ s.path ++ [f.entry] <+: t.path := by
  intro hpre
  have hst := explored_of_extends hs ht ((List.prefix_append ..).trans hpre)
  obtain rfl | ⟨b, hsb, hbt⟩ := hst.cases_head
  · have hle := hpre.length_le
    rw [List.length_append, List.length_singleton] at hle
    omega
  · cases (next_iff_enters hc).mp hsb with
    | @enter c g _ hnew hg =>
      have hb := Explored.path_extends hbt
      rw [State.enter, State.path_follow] at hb
      have he := concat_unique hb hpre
      have hcm : c = m := by
        rw [← mem_of_lawful p.flow_lawful hg g.entry_mem, he,
          mem_of_lawful p.flow_lawful hf f.entry_mem]
      exact hnew ((Stack.holds_unrooted (base?_of_explored_entry hf hs)).mpr (.inr hcm))

theorem eq_unrooted_of_path_eq (hs : p.view.Explored (.root f.entry) s)
    (hu : p.view.Explored (.rootless f.entry) u) (hp : u.path = s.path) : u = s.unrooted := by
  obtain ⟨r, hr, rfl | ⟨hc, hru⟩⟩ := (explored_rootless_iff hf).mp hu
  · rw [eq_of_path_eq hr hs hp]
  · have hpre := Explored.path_extends hru
    rw [State.enter, State.path_follow, State.path_unrooted, hp] at hpre
    exact absurd hpre (not_prefix_of_callsInto hf hr hc hs)

/-- The paths are the same exactly when nothing explored from the root frame calls its method. -/
theorem paths_rootless_iff : p.view.paths (.rootless f.entry) = p.view.paths (.root f.entry) ↔
    ∀ s, p.view.Explored (.root f.entry) s → ¬ p.view.CallsInto m s := by
  constructor
  · intro h s hs hc
    have hu := (Explored.unrooted hs).tail (next_recurs hf hs hc)
    have hpath : s.path ++ [f.entry] ∈ p.view.paths (.rootless f.entry) :=
      ⟨_, hu, State.path_follow ..⟩
    rw [h] at hpath
    obtain ⟨t, ht, htp⟩ := hpath
    exact not_prefix_of_callsInto hf hs hc ht (htp ▸ List.prefix_rfl)
  · intro h
    apply Set.Subset.antisymm
    · rintro _ ⟨u, hu, rfl⟩
      obtain ⟨s, hs, rfl | ⟨hc, -⟩⟩ := (explored_rootless_iff hf).mp hu
      · exact ⟨s, hs, rfl⟩
      · exact absurd hc (h s hs)
    · rintro _ ⟨s, hs, rfl⟩
      exact ⟨s.unrooted, Explored.unrooted hs, rfl⟩

theorem halts_root : p.view.Halts (.root f.entry) :=
  have hplaced := State.placed_root (locates_entry p.flow_lawful hf)
  halts_of_acc (acc_of_standing p.flow_lawful hplaced.standing)

theorem halts_rootless (h : ∀ s, p.view.Explored (.root f.entry) s → ¬ p.view.CallsInto m s) :
    p.view.Halts (.rootless f.entry) := by
  have hplaced := State.placed_root (locates_entry p.flow_lawful hf)
  have hacc := acc_of_standing p.flow_lawful hplaced.standing
  suffices hunrooted : ∀ s, Acc (fun t s => p.view.Next s t) s →
      p.view.Explored (.root f.entry) s → Acc (fun t s => p.view.Next s t) s.unrooted from
    halts_of_acc (hunrooted _ hacc .refl)
  intro s hs
  induction hs with
  | intro s _ ih =>
    intro hexplored
    refine .intro _ fun u hu => ?_
    obtain ⟨t, ht, rfl⟩ | ⟨hc, -⟩ :=
      next_unrooted_cases (base?_of_explored_entry hf hexplored) hf hu
    · exact ih t ht (hexplored.tail ht)
    · exact absurd hc (h s hexplored)

end Entry

end Program

end View

end PathExplorer
