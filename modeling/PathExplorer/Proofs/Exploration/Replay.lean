import PathExplorer.Proofs.Exploration.Activation
import PathExplorer.Proofs.Exploration.Coverage

namespace PathExplorer

/-- What a further statement does to the stack.  Within a method it does nothing; at the call of the
innermost frame it takes that frame off; anywhere else a method has been entered. -/
def Stack.along (st : Stack) (here next : Stmt) : Stack :=
  if next.method = here.method then st
  else if st.top?.bind (·.site?) = some next then st.pop
  else st.push next.method here

def Stack.replay : List Stmt → Stack
  | [] => .empty
  | [x] => .root x.method
  | next :: here :: before => (replay (here :: before)).along here next

theorem Stack.along_same {st : Stack} {here next : Stmt} (h : next.method = here.method) :
    st.along here next = st := if_pos h

namespace View

variable (v : View)

/-- Every frame but the outermost was entered from a call in the method of the frame below it, which
calls its method; no method is entered twice, and `here` lies in the innermost one. -/
inductive Stands : Stack → Stmt → Prop
  | root {here : Stmt} : Stands (.root here.method) here
  | push {below : Stack} {site here : Stmt} : Stands below site → v.Is .call site →
      here.method ∈ v.callees site → ¬ below.holds here.method →
      Stands (.push below here.method site) here

/-- A walk of the program from `x`, the latest statement first, that comes back from every call
behind that call, and the stack of the calls from which it has not come back. -/
inductive Matched (x : Stmt) : List Stmt → Stack → Prop
  | start : Matched x [x] (.root x.method)
  | on {here next : Stmt} {before : List Stmt} {st : Stack} : Matched x (here :: before) st →
      v.Passes here → v.Leads here next → Matched x (next :: here :: before) st
  | enter {here : Stmt} {before : List Stmt} {st : Stack} {m : Method} {f : Flow} :
      Matched x (here :: before) st → v.Is .call here → m ∈ v.callees here → v.flow m = .ok f →
      Matched x (f.entry :: here :: before) (.push st m here)
  | back {here site next : Stmt} {before : List Stmt} {st : Stack} {m : Method} :
      Matched x (here :: before) (.push st m site) → v.Is .ret here → v.Leads site next →
      Matched x (next :: site :: here :: before) st

def CalledFrom (a b : Frame) : Prop :=
  ∃ site, a.site? = some site ∧ site.method = b.method ∧ v.Is .call site ∧
    a.method ∈ v.callees site

structure WellFormed (x : Stmt) (s : State) : Prop where
  inside : ∃ top, s.stack.top? = some top ∧ top.method = s.method
  distinct : (s.stack.frames.map (·.method)).Nodup
  called : s.stack.frames.IsChain v.CalledFrom
  outermost : ∃ last, s.stack.frames.getLast? = some last ∧ last.site? = none
  matched : v.Matched x s.path.reverse s.stack
  replayed : Stack.replay s.path.reverse = s.stack

structure Kept (x : Stmt) (s : State) : Prop where
  stands : v.Stands s.stack s.stmt
  matched : v.Matched x (s.stmt :: s.earlier) s.stack
  replayed : Stack.replay (s.stmt :: s.earlier) = s.stack

variable {v} {x here n : Stmt} {st : Stack} {m : Method} {s t : State}

namespace Stands

theorem top (h : v.Stands st here) : ∃ site?, st.top? = some ⟨here.method, site?⟩ := by
  cases h with
  | root => exact ⟨none, rfl⟩
  | push _ _ _ _ => exact ⟨some _, rfl⟩

theorem holds (h : v.Stands st here) : st.holds here.method := by
  cases h with
  | root => simp [Stack.holds, Stack.frames]
  | push _ _ _ _ => exact Stack.holds_push.mpr (.inl rfl)

theorem move (h : v.Stands st here) (hm : n.method = here.method) : v.Stands st n := by
  cases h with
  | root =>
    rw [← hm]
    exact .root
  | push hb hk hc hn =>
    rw [← hm] at hc hn ⊢
    exact hb.push hk hc hn

theorem distinct (h : v.Stands st here) : (st.frames.map (·.method)).Nodup := by
  induction h with
  | root => exact List.nodup_singleton _
  | push _ _ _ hn ih => exact List.nodup_cons.mpr ⟨fun hm => hn (Stack.holds_iff.mpr hm), ih⟩

theorem called (h : v.Stands st here) : st.frames.IsChain v.CalledFrom := by
  induction h with
  | root => exact .singleton _
  | @push below site here hb hk hc _ ih =>
    obtain ⟨site?, ht⟩ := hb.top
    refine List.isChain_cons.mpr ⟨fun b hbelow => ?_, ih⟩
    rw [Stack.head?_frames, ht] at hbelow
    cases hbelow
    exact ⟨site, rfl, rfl, hk, hc⟩

theorem outermost (h : v.Stands st here) :
    ∃ last, st.frames.getLast? = some last ∧ last.site? = none := by
  induction h with
  | root => exact ⟨_, rfl, rfl⟩
  | push _ _ _ _ ih =>
    obtain ⟨last, hl, hnone⟩ := ih
    exact ⟨last, by rw [Stack.frames, List.getLast?_cons, hl]; rfl, hnone⟩

section Push

variable {below : Stack} {site : Stmt}

theorem of_push (h : v.Stands (.push below m site) here) : v.Stands below site := by
  cases h with
  | push hb _ _ _ => exact hb

/-- The innermost frame resumes in another method than the one it is in. -/
theorem site_method_ne (h : v.Stands (.push below m site) here) : site.method ≠ here.method := by
  cases h with
  | push hb _ _ hn =>
    intro hm
    rw [← hm] at hn
    exact hn hb.holds

theorem holds_site (h : v.Stands st here) (hs : st.top?.bind (·.site?) = some site) :
    st.holds site.method := by
  cases h with
  | root => cases hs
  | push hb _ _ _ =>
    cases hs
    exact Stack.holds_push.mpr (.inr hb.holds)

theorem along_enter (h : v.Stands st here) (hn : ¬ st.holds n.method) :
    st.along here n = .push st n.method here := by
  -- What is entered is not on the stack, so it is neither the method here nor that of the call.
  have hother : n.method ≠ here.method := fun hm => hn (hm ▸ h.holds)
  have hnew : st.top?.bind (·.site?) ≠ some n := fun hs => hn (h.holds_site hs)
  rw [Stack.along, if_neg hother, if_neg hnew]

theorem along_back (h : v.Stands (.push below m site) here) :
    Stack.along (.push below m site) here site = below :=
  (if_neg h.site_method_ne).trans (if_pos rfl)

end Push

end Stands

namespace Kept

theorem root (x : Stmt) : v.Kept x (.root x) := ⟨.root, .start, rfl⟩

theorem on (hv : v.Lawful) (h : v.Kept x s) (hp : v.Passes s.stmt) (hg : v.GoesOn s t) :
    v.Kept x t := by
  have hm : t.stmt.method = s.stmt.method := (hg.frame hv).2.1
  have hl := hg.leads
  cases hg with
  | @advance f n _ _ _ _ =>
    refine ⟨h.stands.move hm, h.matched.on hp hl, ?_⟩
    calc Stack.replay (n :: s.stmt :: s.earlier)
      _ = (Stack.replay (s.stmt :: s.earlier)).along s.stmt n := rfl
      _ = s.stack.along s.stmt n := by rw [h.replayed]
      _ = s.stack := Stack.along_same hm

theorem enter (hv : v.Lawful) (h : v.Kept x s) (hk : v.Is .call s.stmt) (he : v.Enters s t) :
    v.Kept x t := by
  obtain ⟨-, hnew, hcallee, -⟩ := he.frame hv
  cases he with
  | @enter m f _ _ hf =>
    have hem : f.entry.method = m := mem_of_lawful hv hf f.entry_mem
    subst hem
    refine ⟨h.stands.push hk hcallee hnew, h.matched.enter hk hcallee hf, ?_⟩
    calc Stack.replay (f.entry :: s.stmt :: s.earlier)
      _ = (Stack.replay (s.stmt :: s.earlier)).along s.stmt f.entry := rfl
      _ = s.stack.along s.stmt f.entry := by rw [h.replayed]
      _ = .push s.stack f.entry.method s.stmt := h.stands.along_enter hnew

theorem back (hv : v.Lawful) (h : v.Kept x s) {r : State} (hk : v.Is .ret s.stmt)
    (hr : s.resume? = some r) (hg : v.GoesOn r t) : v.Kept x t := by
  obtain ⟨here, stack, earlier, resource⟩ := s
  cases stack with
  | empty | root => cases hr
  | push below m site =>
    cases hr
    have hm : t.stmt.method = site.method := (hg.frame hv).2.1
    have hl := hg.leads
    cases hg with
    | @advance f n _ _ _ _ =>
      refine ⟨h.stands.of_push.move hm, h.matched.back hk hl, ?_⟩
      calc Stack.replay (n :: site :: here :: earlier)
        _ = ((Stack.replay (here :: earlier)).along here site).along site n := rfl
        _ = (Stack.along (.push below m site) here site).along site n := by rw [h.replayed]
        _ = below.along site n := by rw [h.stands.along_back]
        _ = below := Stack.along_same hm

theorem next (hv : v.Lawful) (h : v.Kept x s) (hn : v.Next s t) : v.Kept x t := by
  cases moves_of_next hv hn with
  | on hp hg => exact h.on hv hp hg
  | enter hk he => exact h.enter hv hk he
  | back hk hr hg => exact h.back hv hk hr hg

theorem explored (hv : v.Lawful) (h : v.Explored (.root x) s) : v.Kept x s := by
  induction h with
  | refl => exact root x
  | tail _ hn ih => exact ih.next hv hn

theorem wellFormed (h : v.Kept x s) : v.WellFormed x s := by
  have hpath : s.path.reverse = s.stmt :: s.earlier := List.reverse_reverse _
  obtain ⟨site?, htop⟩ := h.stands.top
  constructor
  · exact ⟨_, htop, rfl⟩
  · exact h.stands.distinct
  · exact h.stands.called
  · exact h.stands.outermost
  · rw [hpath]
    exact h.matched
  · rw [hpath]
    exact h.replayed

end Kept

/-- Whatever comes of a root state in a program is well formed. -/
theorem explored_wellFormed (p : Program) (x : Stmt) {s : State}
    (h : p.view.Explored (.root x) s) : p.view.WellFormed x s :=
  (Kept.explored p.flow_lawful h).wellFormed

end View

theorem View.explored_wellFormed_helperTwice :
    let c0 : Stmt := ⟨⟨0⟩, 0⟩; let c1 : Stmt := ⟨⟨0⟩, 1⟩; let h0 : Stmt := ⟨⟨1⟩, 0⟩
    let h1 : Stmt := ⟨⟨1⟩, 1⟩
    ∃ s, helperTwice.view.Explored (.root c0) s ∧ s.path = [c0, h0, h1, c0, c1, h0] ∧
      s.stack = .push (.root ⟨0⟩) ⟨1⟩ c1 ∧ helperTwice.view.WellFormed c0 s := by
  intro c0 c1 h0 h1
  let s1 := (State.root c0).enter h0
  let s2 := s1.advance h1
  let s3 := (s2.follow c0 (.root ⟨0⟩)).advance c1
  let s4 := s3.enter h0
  have hs : helperTwice.view.Explored (.root c0) s4 :=
    View.explored_of_chain [s1, s2, s3] (by decide)
  exact ⟨s4, hs, rfl, rfl, View.explored_wellFormed helperTwice c0 hs⟩

end PathExplorer
