import PathExplorer.Proofs.Exploration.Placed
import PathExplorer.Proofs.Exploration.Reach
import PathExplorer.Proofs.Exploration.Termination

namespace PathExplorer

theorem mem_since_cons {entry x n : Stmt} {l : List Stmt} (h : n ∈ since entry (x :: l)) :
    n = x ∨ n ∈ since entry l := by
  rw [since] at h
  split at h
  · exact .inl (List.mem_singleton.mp h)
  · exact List.mem_cons.mp h

namespace View

variable (v : View)

/-- Every stack level stands on a statement that is reached from the entry of its method, the
outermost method being `a`, and every frame was entered by a call below it. -/
inductive Traces (a : Method) : Stack → Stmt → Prop
  | root {s : Stmt} : v.Reaches a s → s.method = a → Traces a (.root a) s
  | push {below : Stack} {m : Method} {site s : Stmt} : Traces a below site → v.Is .call site →
      m ∈ v.callees site → v.Reaches m s → s.method = m → Traces a (.push below m site) s

/-- `y` comes of `x` in the same activation, in which calls may have been entered and left. -/
inductive Within : State → State → Prop
  | here {x : State} : Within x x
  | on {x y z : State} : Within x y → v.Passes y.stmt → v.GoesOn y z → Within x z
  | past {x y c r b z : State} : Within x y → v.Is .call y.stmt → v.Enters y c → Within c r →
      v.Is .ret r.stmt → r.resume? = some b → v.GoesOn b z → Within x z

structure Fresh (x : State) : Prop where
  placed : x.Placed v
  entry : ∃ f, v.flow x.method = .ok f ∧ x.stmt = f.entry
  below : ∀ m, x.stack.holds m → ∃ k, Walk v.Calls m x.method k

variable {v} {a m : Method} {s t x y z : State}

section Sound

variable {st : Stack} {here next : Stmt}

theorem Traces.pass (hv : v.Lawful) (h : v.Traces a st here) (hp : v.Passes here)
    (hl : v.Leads here next) : v.Traces a st next := by
  cases h with
  | root hr hm => exact .root (hr.pass hp hl) ((hl.method_eq hv).trans hm)
  | push hb hk hc hr hm => exact hb.push hk hc (hr.pass hp hl) ((hl.method_eq hv).trans hm)

theorem Traces.behind (hv : v.Lawful) {r : Stmt} (h : v.Traces a st here) (hk : v.Is .call here)
    (hc : m ∈ v.callees here) (hr : v.Reaches m r) (hrm : r.method = m) (hret : v.Is .ret r)
    (hl : v.Leads here next) : v.Traces a st next := by
  cases h with
  | root hh hm => exact .root (hh.behind hk hc hr hrm hret hl) ((hl.method_eq hv).trans hm)
  | push hb hk' hc' hh hm =>
    exact hb.push hk' hc' (hh.behind hk hc hr hrm hret hl) ((hl.method_eq hv).trans hm)

theorem Traces.reaches (h : v.Traces a st here) : v.Reaches a here := by
  induction h with
  | root hr _ => exact hr
  | push _ hk hc hr _ ih => exact hr.trans fun f hf => ih.enter hk hc hf

theorem GoesOn.trace (hv : v.Lawful) (h : v.GoesOn s t) :
    t.trace t.method = t.stmt :: s.trace s.method := by
  have hm := (h.frame hv).2.1
  cases h with
  | @advance _ n _ _ _ _ =>
    have hn : n.method = s.method := hm
    rw [hm, State.advance, State.trace_follow, if_pos hn]
    rfl

theorem GoesOn.leads (h : v.GoesOn s t) : v.Leads s.stmt t.stmt := by
  cases h with
  | advance hf hs hn _ => exact ⟨_, hf, hs, hn⟩

theorem Traces.moves (hv : v.Lawful) (h : v.Traces a s.stack s.stmt) (hm : v.Moves s t) :
    v.Traces a t.stack t.stmt := by
  cases hm with
  | on hp hg =>
    rw [(hg.frame hv).1]
    exact h.pass hv hp hg.leads
  | enter hk he =>
    cases he with
    | @enter m f hc _ hf =>
      have hem : f.entry.method = m := mem_of_lawful hv hf f.entry_mem
      change v.Traces a (.push s.stack f.entry.method s.stmt) f.entry
      rw [hem]
      exact h.push hk hc (.entry hf) hem
  | @back r _ hk hr hg =>
    obtain ⟨m, hst⟩ := (State.resumes_of_resume? hr).frame
    rw [hst] at h
    rw [(hg.frame hv).1]
    cases h with
    | push hb hcall hc hreach hm => exact hb.behind hv hcall hc hreach hm hk hg.leads

theorem reaches_of_explored (hv : v.Lawful) {f : Flow} (hf : v.flow m = .ok f)
    (h : v.Explored (.root f.entry) s) : v.Reaches m s.stmt := by
  have hm : f.entry.method = m := mem_of_lawful hv hf f.entry_mem
  have htraces : v.Traces m s.stack s.stmt := by
    induction h with
    | refl =>
      change v.Traces m (.root f.entry.method) f.entry
      rw [hm]
      exact .root (.entry hf) hm
    | tail _ hn ih => exact ih.moves hv (moves_of_next hv hn)
  exact htraces.reaches

end Sound

namespace Within

theorem resumes (hv : v.Lawful) (h : v.Within x y) {b : State} (hb : y.Resumes b) :
    x.Resumes b := by
  induction h generalizing b with
  | here => exact hb
  | on _ _ hg ih => exact ih (hg.resumes hv hb)
  | past _ _ he _ _ hr hg ih₁ ih₂ =>
    have ha := again_of_resumes hv he (ih₂ (State.resumes_of_resume? hr))
    exact ih₁ (ha.resumes (hg.resumes hv hb))

theorem again (hv : v.Lawful) {c r b : State} (he : v.Enters y c) (h : v.Within c r)
    (hr : r.resume? = some b) : y.Again b :=
  again_of_resumes hv he (h.resumes hv (State.resumes_of_resume? hr))

theorem frame (hv : v.Lawful) (h : v.Within x y) : y.stack = x.stack ∧ y.method = x.method := by
  induction h with
  | here => exact ⟨rfl, rfl⟩
  | on _ _ hg ih =>
    obtain ⟨hs, hm, -⟩ := hg.frame hv
    exact ⟨hs.trans ih.1, hm.trans ih.2⟩
  | past _ _ he hw _ hr hg ih _ =>
    have ha := hw.again hv he hr
    obtain ⟨hs, hm, -⟩ := hg.frame hv
    exact ⟨hs.trans (ha.stack.trans ih.1),
      hm.trans ((congrArg Stmt.method ha.stmt).trans ih.2)⟩

theorem explored {p : Program} (hx : x.Placed p.view) (h : p.view.Within x y) :
    p.view.Explored x y ∧ y.Placed p.view := by
  have hv := p.flow_lawful
  induction h with
  | here => exact ⟨.refl, hx⟩
  | on _ hp hg ih =>
    obtain ⟨he, hy⟩ := ih hx
    exact ⟨he.tail (next_of_moves hy (.on hp hg)), hy.goesOn hv hg⟩
  | past _ hk he _ hret hr hg ih₁ ih₂ =>
    obtain ⟨hxy, hy⟩ := ih₁ hx
    obtain ⟨hcr, hplaced⟩ := ih₂ (hy.enters hv he)
    have hyc := next_of_moves hy (.enter hk he)
    have hrz := next_of_moves hplaced (.back hret hr hg)
    exact ⟨((hxy.tail hyc).trans hcr).tail hrz, (hplaced.resume hr).goesOn hv hg⟩

theorem standing (hv : v.Lawful) (hx : x.Standing) (h : v.Within x y) : y.Standing :=
  hx.congr (h.frame hv).1 (h.frame hv).2

theorem trace_again (hv : v.Lawful) (hy : y.Standing) {c r b : State} (he : v.Enters y c)
    (h : v.Within c r) (hr : r.resume? = some b) :
    b.trace b.method = y.stmt :: y.trace y.method := by
  have ha := h.again hv he hr
  have hm : b.method = y.method := congrArg Stmt.method ha.stmt
  rw [hm, ha.trace _ hy.holds, if_pos rfl]

/-- Whatever the activation has visited since it began, some state of it stands on. -/
theorem revisit (hv : v.Lawful) (hx : v.Fresh x) (h : v.Within x y) {f : Flow}
    (hf : v.flow y.method = .ok f) {n : Stmt} (hn : n ∈ since f.entry (y.trace y.method)) :
    ∃ z, v.Within x z ∧ z.stmt = n := by
  induction h with
  | here =>
    obtain ⟨g, hg, he⟩ := hx.entry
    rw [hf] at hg
    cases hg
    rw [State.trace_method, since, if_pos he, List.mem_singleton] at hn
    exact ⟨_, .here, hn.symm⟩
  | on hw hp hg ih =>
    have hm := (hg.frame hv).2.1
    rw [hg.trace hv] at hn
    obtain rfl | hn := mem_since_cons hn
    · exact ⟨_, hw.on hp hg, rfl⟩
    · exact ih hx (hm ▸ hf) hn
  | @past x y c r b z hw hk he hw' hret hr hg ih _ =>
    have hb : b.method = y.method := congrArg Stmt.method (hw'.again hv he hr).stmt
    have hm := (hg.frame hv).2.1.trans hb
    rw [hg.trace hv, trace_again hv (hw.standing hv hx.placed.standing) he hw' hr] at hn
    obtain rfl | hn := mem_since_cons hn
    · exact ⟨_, hw.past hk he hw' hret hr hg, rfl⟩
    · obtain rfl | hn := mem_since_cons hn
      · exact ⟨_, hw, rfl⟩
      · exact ih hx (hm ▸ hf) hn

theorem proceed (hv : v.Lawful) (hx : v.Fresh x) (h : v.Within x y) {n : Stmt}
    (hp : v.Passes y.stmt) (hl : v.Leads y.stmt n) : ∃ z, v.Within x z ∧ z.stmt = n := by
  obtain ⟨f, hf, hs, hn⟩ := hl
  by_cases hsince : n ∈ since f.entry (y.trace y.method)
  · exact h.revisit hv hx hf hsince
  · exact ⟨_, h.on hp (.advance hf hs hn hsince), rfl⟩

theorem proceed_past (hv : v.Lawful) (hx : v.Fresh x) (h : v.Within x y) {c r b : State} {n : Stmt}
    (hk : v.Is .call y.stmt) (he : v.Enters y c) (hw : v.Within c r) (hret : v.Is .ret r.stmt)
    (hr : r.resume? = some b) (hl : v.Leads y.stmt n) : ∃ z, v.Within x z ∧ z.stmt = n := by
  obtain ⟨f, hf, hs, hn⟩ := hl
  have hb := (hw.again hv he hr).stmt
  by_cases hsince : n ∈ since f.entry (b.trace b.method)
  · rw [trace_again hv (h.standing hv hx.placed.standing) he hw hr] at hsince
    obtain rfl | hsince := mem_since_cons hsince
    · exact ⟨y, h, rfl⟩
    · exact h.revisit hv hx hf hsince
  · rw [← hb] at hf hs hn
    exact ⟨_, h.past hk he hw hret hr (.advance hf hs hn hsince), rfl⟩

end Within

/-- Without cycles of calls no callee is on the stack. -/
theorem Within.enters (hv : v.Lawful) (hacyclic : v.Acyclic) (hx : v.Fresh x) (h : v.Within x y)
    (hm : m ∈ v.callees y.stmt) {f : Flow} (hf : v.flow m = .ok f) :
    v.Enters y (y.enter f.entry) := by
  obtain ⟨hstack, hmethod⟩ := h.frame hv
  have hcall : v.Calls y.method m := calls_of_mem_callees hm
  refine .enter hm (fun hh => ?_) hf
  rw [hstack] at hh
  obtain ⟨k, hk⟩ := hx.below m hh
  rw [← hmethod] at hk
  exact hacyclic m k (hk.step hcall)

theorem Fresh.enters (hv : v.Lawful) (hx : v.Fresh x) (h : v.Within x y) (hy : y.Placed v)
    (he : v.Enters y z) : v.Fresh z := by
  obtain ⟨hstack, hmethod⟩ := h.frame hv
  refine ⟨hy.enters hv he, ?_, fun m hm => ?_⟩
  · cases he with
    | @enter m f _ _ hf =>
      have hem : f.entry.method = m := mem_of_lawful hv hf f.entry_mem
      refine ⟨f, ?_, rfl⟩
      change v.flow f.entry.method = .ok f
      rw [hem, hf]
  · obtain ⟨hz, -, hcallee, -⟩ := he.frame hv
    have hcall : v.Calls y.method z.method := calls_of_mem_callees hcallee
    rw [hz] at hm
    simp only [Stack.holds, Stack.frames, List.any_cons, Bool.or_eq_true, decide_eq_true_eq] at hm
    obtain rfl | hm := hm
    · exact ⟨0, .here⟩
    · rw [hstack] at hm
      obtain ⟨k, hk⟩ := hx.below m hm
      rw [← hmethod] at hk
      exact ⟨k + 1, hk.step hcall⟩

/-- Where the calls make no cycle, some state comes of a fresh one for every statement that can be
reached from there.  If the statement lies in the same method, it is visited in the same
activation. -/
theorem explored_of_reaches {p : Program} (hacyclic : p.view.Acyclic) {s : Stmt}
    (h : p.view.Reaches a s) {x : State} (hx : p.view.Fresh x) (hm : x.method = a) :
    ∃ x' y, p.view.Explored x x' ∧ p.view.Fresh x' ∧ p.view.Within x' y ∧ y.stmt = s ∧
      (s.method = a → x' = x) := by
  have hv := p.flow_lawful
  induction h generalizing x with
  | entry hf =>
    obtain ⟨g, hg, he⟩ := hx.entry
    rw [hm, hf] at hg
    cases hg
    exact ⟨x, x, .refl, hx, .here, he, fun _ => rfl⟩
  | pass _ hp hl ih =>
    obtain ⟨x', y, hxx', hx', hy, rfl, hsame⟩ := ih hx hm
    obtain ⟨z, hz, rfl⟩ := hy.proceed hv hx' hp hl
    exact ⟨x', z, hxx', hx', hz, rfl, fun ha => hsame ((hl.method_eq hv).symm.trans ha)⟩
  | enter hr hk hc hf ih =>
    obtain ⟨x', y, hxx', hx', hy, rfl, -⟩ := ih hx hm
    obtain ⟨he, hplaced⟩ := hy.explored hx'.placed
    have henter := hy.enters hv hacyclic hx' hc hf
    have hn := next_of_moves hplaced (.enter hk henter)
    refine ⟨_, _, (hxx'.trans he).tail hn, hx'.enters hv hy hplaced henter, .here, rfl, ?_⟩
    -- The entered method is the first one only if the calls make a cycle.
    intro ha
    obtain ⟨k, hw⟩ := hr.walk hv
    rw [mem_of_lawful hv hf (Flow.entry_mem _)] at ha
    subst ha
    exact absurd (hw.step (calls_of_mem_callees hc)) (hacyclic _ k)
  | behind _ hk hc hreach hrm hret hl ih₁ ih₂ =>
    obtain ⟨x', y, hxx', hx', hy, rfl, hsame⟩ := ih₁ hx hm
    obtain ⟨he, hplaced⟩ := hy.explored hx'.placed
    obtain ⟨f, hf⟩ := hreach.has
    have henter := hy.enters hv hacyclic hx' hc hf
    obtain ⟨c, r, -, -, hcr, rfl, hfirst⟩ :=
      ih₂ (hx'.enters hv hy hplaced henter) (mem_of_lawful hv hf f.entry_mem)
    -- The return lies in the activation that the call begins, so it comes back to the call.
    cases hfirst hrm
    obtain ⟨b, hb⟩ : ∃ b, r.resume? = some b := by
      have hstack := (hcr.frame hv).1
      rw [(henter.frame hv).1] at hstack
      exact ⟨_, by rw [State.resume?, hstack]⟩
    obtain ⟨z, hz, rfl⟩ := hy.proceed_past hv hx' hk henter hcr hret hb hl
    exact ⟨x', z, hxx', hx', hz, rfl, fun ha => hsame ((hl.method_eq hv).symm.trans ha)⟩

theorem fresh_root (hv : v.Lawful) {f : Flow} (hf : v.flow m = .ok f) :
    v.Fresh (.root f.entry) where
  placed := State.placed_root (locates_entry hv hf)
  entry := by
    have hm : (State.root f.entry).method = m := mem_of_lawful hv hf f.entry_mem
    exact ⟨f, by rw [hm, hf], rfl⟩
  below b hb := by
    have hm : f.entry.method = b := by simpa [State.root, Stack.holds, Stack.frames] using hb
    exact ⟨0, hm ▸ .here⟩

/-- An exploration from the entry of a method stands on nothing but what can be reached from there,
and without cycles of calls on all of it. -/
theorem exploration_covers (p : Program) {m : Method} {f : Flow} (hf : p.view.flow m = .ok f) :
    (∀ s, p.view.Explored (.root f.entry) s → p.view.Reaches m s.stmt) ∧
      (p.view.Acyclic →
        ∀ x, (∃ s, p.view.Explored (.root f.entry) s ∧ s.stmt = x) ↔ p.view.Reaches m x) := by
  have hv := p.flow_lawful
  refine ⟨fun s hs => reaches_of_explored hv hf hs, fun hacyclic x => ⟨?_, fun hx => ?_⟩⟩
  · rintro ⟨s, hs, rfl⟩
    exact reaches_of_explored hv hf hs
  · obtain ⟨x', y, hx', hfresh, hy, hyx, -⟩ :=
      explored_of_reaches hacyclic hx (fresh_root hv hf) (mem_of_lawful hv hf f.entry_mem)
    exact ⟨y, hx'.trans (hy.explored hfresh.placed).1, hyx⟩

end View

theorem View.exploration_covers_helperTwice :
    ∃ s, helperTwice.view.Explored (.root ⟨⟨0⟩, 0⟩) s ∧ s.stmt = ⟨⟨0⟩, 3⟩ := by
  have hcalls : ∀ i < 2, helperTwice.view.Is .call ⟨⟨0⟩, i⟩ ∧
      ⟨1⟩ ∈ helperTwice.view.callees ⟨⟨0⟩, i⟩ := by
    intro i hi
    match i, hi with
    | 0, _ => exact ⟨⟨_, rfl, rfl⟩, by decide⟩
    | 1, _ => exact ⟨⟨_, rfl, rfl⟩, by decide⟩
  have hret : helperTwice.view.Reaches ⟨1⟩ ⟨⟨1⟩, 1⟩ :=
    (Reaches.entry rfl).pass (.inl ⟨_, rfl, rfl⟩) ⟨_, rfl, by decide, by decide⟩
  have hbehind : ∀ {i j : Nat}, i < 2 → helperTwice.view.Leads ⟨⟨0⟩, i⟩ ⟨⟨0⟩, j⟩ →
      helperTwice.view.Reaches ⟨0⟩ ⟨⟨0⟩, i⟩ → helperTwice.view.Reaches ⟨0⟩ ⟨⟨0⟩, j⟩ :=
    fun hi hl h => h.behind (hcalls _ hi).1 (hcalls _ hi).2 hret rfl ⟨_, rfl, rfl⟩ hl
  have hentry := Reaches.entry (v := helperTwice.view) (a := ⟨0⟩) rfl
  have hsecond : helperTwice.view.Reaches ⟨0⟩ ⟨⟨0⟩, 1⟩ :=
    hbehind (by decide) ⟨_, rfl, by decide, by decide⟩ hentry
  have hlast : helperTwice.view.Reaches ⟨0⟩ ⟨⟨0⟩, 3⟩ :=
    hbehind (by decide) ⟨_, rfl, by decide, by decide⟩ hsecond
  exact ((exploration_covers helperTwice rfl).2 (acyclic_of_ascending (by decide)) _).mpr hlast

end PathExplorer
