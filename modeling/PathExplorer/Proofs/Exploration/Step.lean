import Mathlib.Data.List.Chain
import Mathlib.Logic.Relation
import PathExplorer.Exploration.Walker
import PathExplorer.Proofs.Program.Graph
import PathExplorer.Proofs.Result

namespace PathExplorer

/-- Every frame was called from the method of the frame below it, and the outermost is a root. -/
inductive Stack.Linked : Stack → Prop
  | root (m : Method) : Linked (.root m)
  | push {below : Stack} {top : Frame} {m : Method} {site : Stmt} :
      Linked below → below.top? = some top → site.method = top.method → Linked (.push below m site)

structure State.Standing (s : State) : Prop where
  linked : s.stack.Linked
  inside : ∃ top, s.stack.top? = some top ∧ top.method = s.method

/-- Statements visited since the entry was, the latest first, and the entry itself. -/
def since (entry : Stmt) : List Stmt → List Stmt
  | [] => []
  | x :: xs => if x = entry then [x] else x :: since entry xs

def State.trace (s : State) (m : Method) : List Stmt :=
  (s.stmt :: s.earlier).filter (·.method = m)

/-- `r` stands at the call behind which the innermost frame of `s` resumes.  Of the methods that are
still on its stack it has visited what `s` has, and the call again. -/
structure State.Resumes (s r : State) : Prop where
  frame : ∃ m, s.stack = .push r.stack m r.stmt
  trace : ∀ m, r.stack.holds m → m ≠ s.method →
    r.trace m = if r.stmt.method = m then r.stmt :: s.trace m else s.trace m

namespace View

variable (v : View)

def Next (s t : State) : Prop :=
  ∃ ts, (Interpreter.step s (Walker.mk v)).1 = .ok ts ∧ t ∈ ts

def Explored : State → State → Prop := Relation.ReflTransGen v.Next

/-- The state goes on behind its statement, to one that its activation has not visited. -/
inductive GoesOn (s : State) : State → Prop
  | advance {f : Flow} {n : Stmt} : v.flow s.method = .ok f → s.stmt ∈ f →
      n ∈ f.next s.stmt.index → n ∉ since f.entry (s.trace s.method) → GoesOn s (s.advance n)

inductive Enters (s : State) : State → Prop
  | enter {m : Method} {f : Flow} : m ∈ v.callees s.stmt → ¬ s.stack.holds m →
      v.flow m = .ok f → Enters s (s.enter f.entry)

def Is (k : Kind) (s : Stmt) : Prop := ∃ f, v.flow s.method = .ok f ∧ f.kind s = .ok k

/-- The method goes on behind the statement, which is plain or a call that enters nothing. -/
def Passes (s : Stmt) : Prop := v.Is .plain s ∨ v.Is .call s ∧ v.callees s = []

inductive Moves (s : State) : State → Prop
  | on {t : State} : v.Passes s.stmt → v.GoesOn s t → Moves s t
  | enter {t : State} : v.Is .call s.stmt → v.Enters s t → Moves s t
  | back {r t : State} : v.Is .ret s.stmt → s.resume? = some r → v.GoesOn r t → Moves s t

end View

instance View.decidableNext (v : View) : DecidableRel v.Next := fun s t =>
  match h : v.successors s with
  | .ok ts => decidable_of_iff (t ∈ ts)
      ⟨fun ht => ⟨ts, h, ht⟩, fun ⟨_, hus, ht⟩ => Except.ok.inj (h.symm.trans hus) ▸ ht⟩
  | .error _ => .isFalse fun ⟨_, hus, _⟩ => nomatch h.symm.trans hus

theorem View.explored_of_chain {v : View} {s t : State} (l : List State)
    (hl : (s :: (l ++ [t])).IsChain v.Next) : v.Explored s t :=
  List.relationReflTransGen_of_exists_isChain_cons _ hl (by simp)

section Since

variable {entry n x : Stmt} {l : List Stmt} {m : Method}

theorem scan_eq_true_iff : State.visitedSince.scan entry n l = true ↔ n ∈ since entry l := by
  induction l with
  | nil => simp [State.visitedSince.scan, since]
  | cons x l ih =>
    rw [State.visitedSince.scan, Bool.or_eq_true, Bool.and_eq_true, ih, since]
    by_cases hx : x = entry
    · simp [hx, eq_comm]
    · simp [hx, eq_comm]

theorem mem_since_filter (he : entry.method = m) (hn : n.method = m) :
    n ∈ since entry (l.filter (·.method = m)) ↔ n ∈ since entry l := by
  induction l with
  | nil => rfl
  | cons x l ih =>
    by_cases hx : x.method = m
    · rw [List.filter_cons, if_pos (decide_eq_true hx), since, since]
      by_cases hxe : x = entry
      · rw [if_pos hxe, if_pos hxe]
      · rw [if_neg hxe, if_neg hxe, List.mem_cons, List.mem_cons, ih]
    · have hxe : x ≠ entry := fun h => hx (h ▸ he)
      have hnx : n ≠ x := fun h => hx (h ▸ hn)
      rw [List.filter_cons, if_neg (by simpa using hx), since, if_neg hxe, List.mem_cons, ih]
      simp [hnx]

end Since

namespace State

variable {s : State} {entry n : Stmt} {m : Method}

theorem visitedSince_iff (he : entry.method = m) (hn : n.method = m) :
    s.visitedSince entry n = true ↔ n ∈ since entry (s.trace m) := by
  rw [trace, mem_since_filter he hn]
  exact scan_eq_true_iff

theorem trace_follow (s : State) (next : Stmt) (stack : Stack) (m : Method) :
    (s.follow next stack).trace m = if next.method = m then next :: s.trace m else s.trace m := by
  simp [trace, follow, List.filter_cons]

theorem trace_method (s : State) :
    s.trace s.method = s.stmt :: s.earlier.filter (·.method = s.method) :=
  List.filter_cons_of_pos (decide_eq_true rfl)

theorem resumes_of_resume? {r : State} (h : s.resume? = some r) : s.Resumes r := by
  unfold resume? at h
  cases hs : s.stack with
  | push below m site =>
    rw [hs] at h
    cases h
    exact ⟨⟨m, hs⟩, fun m _ _ => s.trace_follow site below m⟩
  | empty | root m =>
    rw [hs] at h
    cases h

theorem Standing.resumes (hs : s.Standing) {r : State} (h : s.Resumes r) : r.Standing := by
  obtain ⟨m, hf⟩ := h.frame
  have hl := hs.linked
  rw [hf] at hl
  cases hl with
  | push hb ht hm => exact ⟨hb, _, ht, hm.symm⟩

end State

namespace View

variable {v : View} {s t : State}

theorem goesOn_of_fallThrough (hv : v.Lawful) {ts : List State} (h : v.fallThrough s = .ok ts)
    (ht : t ∈ ts) : v.GoesOn s t := by
  obtain ⟨f, hf, h⟩ := bind_eq_ok_iff.mp h
  obtain ⟨next, hn, h⟩ := bind_eq_ok_iff.mp h
  cases h
  obtain ⟨n, hm, rfl⟩ := List.mem_map.mp ht
  obtain ⟨hm, hvisited⟩ := List.mem_filter.mp hm
  by_cases hs : s.stmt ∈ f
  · rw [Flow.successors_of_mem hs] at hn
    cases hn
    have hnm : n.method = s.method := mem_of_lawful hv hf (Flow.mem_of_mem_next hm)
    have hem : f.entry.method = s.method := mem_of_lawful hv hf f.entry_mem
    refine .advance hf hs hm fun hsince => ?_
    rw [(State.visitedSince_iff hem hnm).mpr hsince] at hvisited
    cases hvisited
  · rw [Flow.successors, Flow.locate_of_not_mem hs] at hn
    cases hn

theorem enters_of_enterAll {ts : List State} (h : v.enterAll s (v.callees s.stmt) = .ok ts)
    (ht : t ∈ ts) : v.Enters s t := by
  obtain ⟨m, hm, h⟩ := mem_of_mapM_eq_ok h ht
  obtain ⟨hm, hh⟩ := List.mem_filter.mp hm
  obtain ⟨f, hf, h⟩ := bind_eq_ok_iff.mp h
  cases h
  exact .enter hm (by simpa using hh) hf

theorem moves_of_next (hv : v.Lawful) (h : v.Next s t) : v.Moves s t := by
  obtain ⟨ts, h, ht⟩ := h
  change v.successors s = .ok ts at h
  obtain ⟨f, hf, h⟩ := bind_eq_ok_iff.mp h
  obtain ⟨k, hk, h⟩ := bind_eq_ok_iff.mp h
  have hkind : v.Is k s.stmt := ⟨f, hf, hk⟩
  cases k with
  | plain => exact .on (.inl hkind) (goesOn_of_fallThrough hv h ht)
  | call =>
    dsimp only at h
    split at h
    · rename_i hnone
      exact .on (.inr ⟨hkind, List.isEmpty_iff.mp hnone⟩) (goesOn_of_fallThrough hv h ht)
    · exact .enter hkind (enters_of_enterAll h ht)
  | ret =>
    dsimp only at h
    cases hr : s.resume? with
    | none =>
      rw [hr] at h
      cases h
      cases ht
    | some r =>
      rw [hr] at h
      exact .back hkind hr (goesOn_of_fallThrough hv h ht)
  | throw =>
    cases h
    cases ht

theorem next_cases (hv : v.Lawful) (h : v.Next s t) :
    v.GoesOn s t ∨ v.Enters s t ∨ ∃ r, s.resume? = some r ∧ v.GoesOn r t := by
  cases moves_of_next hv h with
  | on _ h => exact .inl h
  | enter _ h => exact .inr (.inl h)
  | back _ hr h => exact .inr (.inr ⟨_, hr, h⟩)

theorem GoesOn.frame (hv : v.Lawful) (h : v.GoesOn s t) :
    t.stack = s.stack ∧ t.method = s.method ∧ ∀ m, m ≠ s.method → t.trace m = s.trace m := by
  cases h with
  | @advance f n hf _ hn _ =>
    have hnm : n.method = s.method := mem_of_lawful hv hf (Flow.mem_of_mem_next hn)
    refine ⟨rfl, hnm, fun m hm => ?_⟩
    rw [State.advance, State.trace_follow, if_neg fun h => hm (h.symm.trans hnm)]

theorem Enters.frame (hv : v.Lawful) (h : v.Enters s t) :
    t.stack = .push s.stack t.method s.stmt ∧ ¬ s.stack.holds t.method ∧
      t.method ∈ v.callees s.stmt ∧ ∀ m, m ≠ t.method → t.trace m = s.trace m := by
  cases h with
  | @enter m f hm hh hf =>
    have he : f.entry.method = m := mem_of_lawful hv hf f.entry_mem
    have ht : (s.enter f.entry).method = m := he
    rw [ht]
    refine ⟨by rw [State.enter, he]; rfl, hh, hm, fun m' hm' => ?_⟩
    rw [State.enter, State.trace_follow, if_neg fun h => hm' (h.symm.trans he)]

end View

namespace State

variable {v : View} {s t : State}

theorem Standing.congr (hs : s.Standing) (hstack : t.stack = s.stack)
    (hm : t.method = s.method) : t.Standing := by
  obtain ⟨hl, top, ht, hts⟩ := hs
  exact ⟨hstack ▸ hl, top, hstack ▸ ht, hts.trans hm.symm⟩

theorem Standing.goesOn (hv : v.Lawful) (hs : s.Standing) (h : v.GoesOn s t) : t.Standing := by
  obtain ⟨hstack, hm, -⟩ := h.frame hv
  exact hs.congr hstack hm

theorem Standing.enters (hv : v.Lawful) (hs : s.Standing) (h : v.Enters s t) : t.Standing := by
  obtain ⟨hstack, -⟩ := h.frame hv
  obtain ⟨hl, top, ht, hm⟩ := hs
  constructor
  · rw [hstack]
    exact hl.push ht hm.symm
  · rw [hstack]
    exact ⟨_, rfl, rfl⟩

theorem Standing.next (hv : v.Lawful) (hs : s.Standing) (h : v.Next s t) : t.Standing := by
  obtain h | h | ⟨r, hr, h⟩ := View.next_cases hv h
  · exact hs.goesOn hv h
  · exact hs.enters hv h
  · exact (hs.resumes (resumes_of_resume? hr)).goesOn hv h

end State

end PathExplorer
