import PathExplorer.Proofs.Exploration.Step

namespace PathExplorer

theorem Stack.holds_iff {st : Stack} {m : Method} : st.holds m ↔ m ∈ st.frames.map (·.method) := by
  simp [Stack.holds]

theorem Stack.holds_push {below : Stack} {m n : Method} {site : Stmt} :
    (Stack.push below m site).holds n ↔ m = n ∨ below.holds n := by
  simp [Stack.holds, Stack.frames]

/-- A state with a record for every frame of its stack, innermost first: the statements that were
entered in the activation, the latest first. -/
structure Recorded where
  state : State
  entered : List (List Stmt)

namespace Recorded

def root (s : Stmt) : Recorded := ⟨.root s, [[s]]⟩

variable (b : Recorded)

def own : List Stmt := b.entered.headD []

def advance (next : Stmt) : Recorded := ⟨b.state.advance next, (next :: b.own) :: b.entered.tail⟩

def enter (entry : Stmt) : Recorded := ⟨b.state.enter entry, [entry] :: b.entered⟩

def resume? : Option Recorded := b.state.resume?.map fun r => ⟨r, b.entered.tail⟩

end Recorded

namespace View

variable (v : View)

/-- The successors of a state that goes on behind its statement, to what the innermost activation
has not entered. -/
def goOnRecorded (b : Recorded) : Except Fault (List Recorded) := do
  let flow ← v.flow b.state.method
  let next ← flow.successors b.state.stmt
  return (next.filter (· ∉ b.own)).map b.advance

def enterRecorded (b : Recorded) (callees : List Method) : Except Fault (List Recorded) :=
  (callees.filter fun m => !b.state.stack.holds m).mapM fun m => do
    let flow ← v.flow m
    return b.enter flow.entry

def successorsRecorded (b : Recorded) : Except Fault (List Recorded) := do
  let flow ← v.flow b.state.method
  match ← flow.kind b.state.stmt with
  | .plain => v.goOnRecorded b
  | .call =>
    let callees := v.callees b.state.stmt
    if callees.isEmpty then v.goOnRecorded b else v.enterRecorded b callees
  | .ret =>
    match b.resume? with
    | some resumed => v.goOnRecorded resumed
    | none => return []
  | .throw => return []

def ExploredRecorded : Recorded → Recorded → Prop :=
  Relation.ReflTransGen fun b c => ∃ cs, v.successorsRecorded b = .ok cs ∧ c ∈ cs

/-- The record of an activation that stands `here` has what the trace of its method has since the
entry. -/
structure Record (entry here : Stmt) (trace own : List Stmt) : Prop where
  mem : ∀ n, n ∈ own ↔ n ∈ since entry trace
  entry_mem : entry ∈ own
  here_mem : here ∈ own
  first : here = entry → own = [entry]
  nodup : own.Nodup

/-- All methods on the stack differ, and their activations have records of their traces.  The
innermost stands on the statement, the others where they were left by a call. -/
inductive Tracks (trace : Method → List Stmt) : Stack → Stmt → List (List Stmt) → Prop
  | root {m : Method} {f : Flow} {here : Stmt} {own : List Stmt} : v.flow m = .ok f →
      here.method = m → Record f.entry here (trace m) own → Tracks trace (.root m) here [own]
  | push {below : Stack} {site : Stmt} {rest : List (List Stmt)} {m : Method} {f : Flow}
      {here : Stmt} {own : List Stmt} : Tracks trace below site rest → ¬ below.holds m →
      v.flow m = .ok f → here.method = m → Record f.entry here (trace m) own →
      Tracks trace (.push below m site) here (own :: rest)

variable {v} {entry here n : Stmt} {trace own : List Stmt}

namespace Record

theorem enter (entry : Stmt) (trace : List Stmt) : Record entry entry (entry :: trace) [entry] where
  mem n := by rw [since, if_pos rfl]
  entry_mem := List.mem_singleton_self entry
  here_mem := List.mem_singleton_self entry
  first _ := rfl
  nodup := by simp

theorem advance (h : Record entry here trace own) (hn : n ∉ own) :
    Record entry n (n :: trace) (n :: own) := by
  have hne : n ≠ entry := fun he => hn (he ▸ h.entry_mem)
  refine ⟨fun x => ?_, ?_, List.mem_cons_self .., fun he => absurd he hne,
    List.nodup_cons.mpr ⟨hn, h.nodup⟩⟩
  · rw [since, if_neg hne, List.mem_cons, List.mem_cons, h.mem]
  · exact List.mem_cons_of_mem _ h.entry_mem

theorem again (h : Record entry here trace own) : Record entry here (here :: trace) own := by
  refine ⟨fun x => ?_, h.entry_mem, h.here_mem, h.first, h.nodup⟩
  by_cases he : here = entry
  · rw [since, if_pos he, h.first he, he]
  · rw [since, if_neg he, List.mem_cons, ← h.mem]
    exact ⟨.inr, fun hx => hx.elim (fun hx => hx ▸ h.here_mem) id⟩

end Record

variable {st : Stack} {entered : List (List Stmt)} {m : Method} {f : Flow}
  {before after : Method → List Stmt}

namespace Tracks

theorem inside (h : v.Tracks before st here entered) : st.holds here.method ∧
    ∃ f, v.flow here.method = .ok f ∧
      Record f.entry here (before here.method) (entered.headD []) := by
  cases h with
  | root hf hm hr | push _ _ hf hm hr =>
    subst hm
    exact ⟨by simp [Stack.holds, Stack.frames], _, hf, hr⟩

theorem congr (h : v.Tracks before st here entered)
    (ht : ∀ m, st.holds m → after m = before m) : v.Tracks after st here entered := by
  induction h with
  | root hf hm hr =>
    refine .root hf hm ?_
    rwa [ht _ (by simp [Stack.holds, Stack.frames])]
  | push _ hh hf hm hr ih =>
    refine .push (ih fun m hm => ht m (Stack.holds_push.mpr (.inr hm))) hh hf hm ?_
    rwa [ht _ (Stack.holds_push.mpr (.inl rfl))]

theorem moves (h : v.Tracks before st here entered) {own : List Stmt}
    (hm : n.method = here.method) (ht : ∀ m, m ≠ here.method → after m = before m)
    (hr : ∀ f, v.flow here.method = .ok f →
      Record f.entry here (before here.method) (entered.headD []) →
      Record f.entry n (after here.method) own) : v.Tracks after st n (own :: entered.tail) := by
  cases h with
  | root hf hhere hrec =>
    subst hhere
    exact .root hf hm (hr _ hf hrec)
  | push hb hh hf hhere hrec =>
    subst hhere
    refine .push (hb.congr fun m hm => ht m fun he => hh (he ▸ hm)) hh hf hm (hr _ hf hrec)

theorem length_entered (h : v.Tracks before st here entered) : entered.length = st.depth := by
  induction h with
  | root _ _ _ => rfl
  | push _ _ _ _ _ ih => rw [List.length_cons, ih, Stack.depth]

theorem nodup (h : v.Tracks before st here entered) : ∀ own ∈ entered, own.Nodup := by
  induction h with
  | root _ _ hr => simpa using hr.nodup
  | push _ _ _ _ hr ih => exact List.forall_mem_cons.mpr ⟨hr.nodup, ih⟩

theorem again (h : v.Tracks before st here entered)
    (ht : ∀ m, m ≠ here.method → after m = before m)
    (hhere : after here.method = here :: before here.method) : v.Tracks after st here entered := by
  have hentered : entered.headD [] :: entered.tail = entered := by
    cases h <;> rfl
  rw [← hentered]
  exact h.moves rfl ht fun f _ hr => hhere ▸ hr.again

end Tracks

end View

namespace Recorded

def Tracked (v : View) (b : Recorded) : Prop :=
  v.Tracks b.state.trace b.state.stack b.state.stmt b.entered

variable {v : View} {b c r : Recorded} {m : Method} {f : Flow} {n : Stmt}

namespace Tracked

theorem root (hv : v.Lawful) (hf : v.flow m = .ok f) : (Recorded.root f.entry).Tracked v := by
  have hm : f.entry.method = m := View.mem_of_lawful hv hf f.entry_mem
  have ht : (State.root f.entry).trace f.entry.method = [f.entry] :=
    (State.root f.entry).trace_method
  refine View.Tracks.root (by rw [hm, hf]) rfl ?_
  change View.Record f.entry f.entry ((State.root f.entry).trace f.entry.method) [f.entry]
  rw [ht]
  exact .enter f.entry []

theorem advance (h : b.Tracked v) (hm : n.method = b.state.method) (hn : n ∉ b.own) :
    (b.advance n).Tracked v := by
  refine View.Tracks.moves h hm (fun m hne => ?_) fun f _ hr => ?_
  · exact (State.trace_follow ..).trans (if_neg fun he => hne (he.symm.trans hm))
  · have ht : (b.advance n).state.trace b.state.method = n :: b.state.trace b.state.method :=
      (State.trace_follow ..).trans (if_pos hm)
    exact ht ▸ hr.advance hn

theorem enter (hv : v.Lawful) (h : b.Tracked v) (hf : v.flow m = .ok f)
    (hh : ¬ b.state.stack.holds m) : (b.enter f.entry).Tracked v := by
  have hm : f.entry.method = m := View.mem_of_lawful hv hf f.entry_mem
  subst hm
  refine View.Tracks.push (h.congr fun m hm => ?_) hh hf rfl ?_
  · exact (State.trace_follow ..).trans (if_neg fun (he : f.entry.method = m) => hh (he ▸ hm))
  · have ht : (b.enter f.entry).state.trace f.entry.method =
        f.entry :: b.state.trace f.entry.method := (State.trace_follow ..).trans (if_pos rfl)
    exact ht ▸ .enter f.entry _

theorem resume (h : b.Tracked v) (hr : b.resume? = some r) : r.Tracked v := by
  unfold resume? State.resume? at hr
  unfold Tracked at h
  cases hs : b.state.stack with
  | empty | root m =>
    rw [hs] at hr
    cases hr
  | push below m site =>
    rw [hs] at hr h
    cases hr
    generalize b.entered = entered at h
    cases h with
    | push hb _ _ _ _ =>
      have ht := b.state.trace_follow site below
      refine hb.again (fun m hne => ?_) ?_
      · exact (ht m).trans (if_neg (Ne.symm hne))
      · exact (ht site.method).trans (if_pos rfl)

theorem visitedSince_iff (hv : v.Lawful) (h : b.Tracked v) (hf : v.flow b.state.method = .ok f)
    (hn : n ∈ f) : b.state.visitedSince f.entry n = true ↔ n ∈ b.own := by
  obtain ⟨-, g, hg, hr⟩ := h.inside
  cases hf.symm.trans hg
  have hem : f.entry.method = b.state.method := View.mem_of_lawful hv hf f.entry_mem
  rw [State.visitedSince_iff hem (View.mem_of_lawful hv hf hn)]
  exact (hr.mem n).symm

theorem fallThrough (hv : v.Lawful) (h : b.Tracked v) :
    v.fallThrough b.state = (v.goOnRecorded b).map (·.map state) := by
  unfold View.fallThrough View.goOnRecorded
  rw [map_bind]
  refine bind_congr fun f hf => ?_
  rw [map_bind]
  refine bind_congr fun next hnext => ?_
  have hnew : ∀ n ∈ next, (!b.state.visitedSince f.entry n) = decide (n ∉ b.own) := by
    intro n hn
    rw [Bool.eq_iff_iff, decide_eq_true_iff,
      ← h.visitedSince_iff hv hf (Flow.mem_of_mem_successors hnext hn)]
    simp
  rw [List.filter_congr hnew]
  simp [pure, Except.pure, Except.map, Recorded.advance]

theorem enterAll (b : Recorded) (callees : List Method) :
    v.enterAll b.state callees = (v.enterRecorded b callees).map (·.map state) := by
  unfold View.enterAll View.enterRecorded
  rw [map_mapM]
  refine congrArg (List.mapM · _) (funext fun m => ?_)
  rw [map_bind]
  rfl

theorem successors (hv : v.Lawful) (h : b.Tracked v) :
    v.successors b.state = (v.successorsRecorded b).map (·.map state) := by
  unfold View.successors View.successorsRecorded
  rw [map_bind]
  refine bind_congr fun f _ => ?_
  rw [map_bind]
  refine bind_congr fun k _ => ?_
  cases k with
  | plain => exact h.fallThrough hv
  | throw => rfl
  | call =>
    dsimp only
    split
    · exact h.fallThrough hv
    · exact enterAll b _
  | ret =>
    dsimp only
    cases hs : b.state.resume? with
    | none =>
      have hr : b.resume? = none := by rw [Recorded.resume?, hs, Option.map_none]
      rw [hr]
      rfl
    | some resumed =>
      have hr : b.resume? = some ⟨resumed, b.entered.tail⟩ := by
        rw [Recorded.resume?, hs, Option.map_some]
      rw [hr]
      exact (h.resume hr).fallThrough hv

theorem goesOn (hv : v.Lawful) (h : b.Tracked v) {cs : List Recorded}
    (hcs : v.goOnRecorded b = .ok cs) (hc : c ∈ cs) : c.Tracked v := by
  obtain ⟨f, hf, hcs⟩ := bind_eq_ok_iff.mp hcs
  obtain ⟨next, hnext, hcs⟩ := bind_eq_ok_iff.mp hcs
  cases hcs
  obtain ⟨n, hn, rfl⟩ := List.mem_map.mp hc
  obtain ⟨hn, hnew⟩ := List.mem_filter.mp hn
  have hnf := Flow.mem_of_mem_successors hnext hn
  exact h.advance (View.mem_of_lawful hv hf hnf) (of_decide_eq_true hnew)

theorem enters (hv : v.Lawful) (h : b.Tracked v) {callees : List Method} {cs : List Recorded}
    (hcs : v.enterRecorded b callees = .ok cs) (hc : c ∈ cs) : c.Tracked v := by
  obtain ⟨m, hm, hcs⟩ := mem_of_mapM_eq_ok hcs hc
  obtain ⟨-, hh⟩ := List.mem_filter.mp hm
  obtain ⟨f, hf, hcs⟩ := bind_eq_ok_iff.mp hcs
  cases hcs
  exact h.enter hv hf (by simpa using hh)

theorem next (hv : v.Lawful) (h : b.Tracked v) {cs : List Recorded}
    (hcs : v.successorsRecorded b = .ok cs) (hc : c ∈ cs) : c.Tracked v := by
  obtain ⟨f, -, hcs⟩ := bind_eq_ok_iff.mp hcs
  obtain ⟨k, -, hcs⟩ := bind_eq_ok_iff.mp hcs
  cases k with
  | plain => exact h.goesOn hv hcs hc
  | throw =>
    cases hcs
    cases hc
  | call =>
    dsimp only at hcs
    split at hcs
    · exact h.goesOn hv hcs hc
    · exact h.enters hv hcs hc
  | ret =>
    dsimp only at hcs
    cases hr : b.resume? with
    | none =>
      rw [hr] at hcs
      cases hcs
      cases hc
    | some r =>
      rw [hr] at hcs
      exact (h.resume hr).goesOn hv hcs hc

theorem explored (hv : v.Lawful) (h : b.Tracked v) (hbc : v.ExploredRecorded b c) :
    c.Tracked v := by
  induction hbc with
  | refl => exact h
  | tail _ hcs ih =>
    obtain ⟨cs, hcs, hc⟩ := hcs
    exact ih.next hv hcs hc

end Tracked

/-- What the interpreter without records reaches, the one with records reaches. -/
theorem explored_state (hv : v.Lawful) (h : b.Tracked v) {s : State} (hs : v.Explored b.state s) :
    ∃ c, v.ExploredRecorded b c ∧ c.state = s := by
  induction hs with
  | refl => exact ⟨b, .refl, rfl⟩
  | tail _ hst ih =>
    obtain ⟨c, hbc, rfl⟩ := ih
    obtain ⟨ts, hts, ht⟩ := hst
    change v.successors c.state = .ok ts at hts
    rw [(h.explored hv hbc).successors hv] at hts
    cases hcs : v.successorsRecorded c with
    | error e =>
      rw [hcs] at hts
      cases hts
    | ok cs =>
      rw [hcs] at hts
      cases hts
      obtain ⟨d, hd, rfl⟩ := List.mem_map.mp ht
      exact ⟨d, hbc.tail ⟨cs, hcs, hd⟩, rfl⟩

end Recorded

/-- The interpreter that follows the graph does at every step what the one with records does, which
has a record for each frame and nothing twice in any of them. -/
theorem View.successors_recorded (p : Program) {m : Method} {f : Flow}
    (hf : p.view.flow m = .ok f) :
    (∀ b, p.view.ExploredRecorded (.root f.entry) b →
      (Interpreter.step b.state (Walker.mk p.view)).1 =
          (p.view.successorsRecorded b).map (·.map Recorded.state) ∧
        b.entered.length = b.state.stack.depth ∧ ∀ own ∈ b.entered, own.Nodup) ∧
      ∀ s, p.view.Explored (.root f.entry) s →
        ∃ b, p.view.ExploredRecorded (.root f.entry) b ∧ b.state = s := by
  have hroot : (Recorded.root f.entry).Tracked p.view := .root p.flow_lawful hf
  constructor
  · intro b hb
    have hb := hroot.explored p.flow_lawful hb
    exact ⟨hb.successors p.flow_lawful, hb.length_entered, hb.nodup⟩
  · exact fun s hs => Recorded.explored_state p.flow_lawful hroot hs

theorem View.successors_recorded_helperTwice :
    let c0 : Stmt := ⟨⟨0⟩, 0⟩; let c1 : Stmt := ⟨⟨0⟩, 1⟩; let h0 : Stmt := ⟨⟨1⟩, 0⟩
    let h1 : Stmt := ⟨⟨1⟩, 1⟩
    ∃ b, helperTwice.view.ExploredRecorded (.root c0) b ∧ b.entered = [[h1, h0], [c1, c0]] ∧
      b.state.path = [c0, h0, h1, c0, c1, h0, h1] ∧
      (Interpreter.step b.state (Walker.mk helperTwice.view)).1 =
        .ok [b.state.follow c1 (.root ⟨0⟩) |>.advance ⟨⟨0⟩, 2⟩,
          b.state.follow c1 (.root ⟨0⟩) |>.advance ⟨⟨0⟩, 3⟩] := by
  intro c0 c1 h0 h1
  let b1 := (Recorded.root c0).enter h0
  let b2 := b1.advance h1
  let b3 := (Recorded.mk (b2.state.follow c0 (.root ⟨0⟩)) [[c0]]).advance c1
  let b4 := b3.enter h0
  let b5 := b4.advance h1
  have hb : helperTwice.view.ExploredRecorded (.root c0) b5 :=
    .tail (.tail (.tail (.tail (.tail .refl ⟨[b1], rfl, List.mem_singleton_self _⟩)
      ⟨[b2], rfl, List.mem_singleton_self _⟩) ⟨[b3], rfl, List.mem_singleton_self _⟩)
      ⟨[b4], rfl, List.mem_singleton_self _⟩) ⟨[b5], rfl, List.mem_singleton_self _⟩
  refine ⟨b5, hb, rfl, rfl, ?_⟩
  rw [((View.successors_recorded helperTwice (m := ⟨0⟩) rfl).1 b5 hb).1]
  rfl

end PathExplorer
