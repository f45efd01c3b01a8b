import Mathlib.Data.Set.Finite.Lattice
import PathExplorer.Proofs.Exploration.Step

namespace PathExplorer

section Count

variable {α : Type} {l : List α} {p q : α → Bool}

theorem countP_lt_countP (h : ∀ x ∈ l, p x → q x) {a : α} (ha : a ∈ l) (hp : ¬ p a) (hq : q a) :
    l.countP p < l.countP q := by
  obtain ⟨l₁, l₂, rfl⟩ := List.append_of_mem ha
  have h₁ := List.countP_mono_left (l := l₁) fun x hx => h x (by simp [hx])
  have h₂ := List.countP_mono_left (l := l₂) fun x hx => h x (by simp [hx])
  rw [List.countP_append, List.countP_append, List.countP_cons_of_neg hp,
    List.countP_cons_of_pos hq]
  omega

end Count

section Acc

variable {α : Type} {r : α → α → Prop} {a : α}

theorem not_infinite_of_acc (h : Acc (fun b a => r a b) a) :
    ¬ ∃ seq : Nat → α, seq 0 = a ∧ ∀ n, r (seq n) (seq (n + 1)) := by
  induction h with
  | intro a _ ih =>
    rintro ⟨seq, rfl, hr⟩
    exact ih (seq 1) (hr 0) ⟨fun n => seq (n + 1), rfl, fun n => hr (n + 1)⟩

/-- Where every way ends and every node has finitely many next ones, there are finitely many
ways. -/
theorem finite_chains_of_acc (hb : ∀ a, {b | r a b}.Finite) (h : Acc (fun b a => r a b) a) :
    {l | (a :: l).IsChain r}.Finite := by
  induction h with
  | intro a _ ih =>
    have hu : (⋃ b ∈ {b | r a b}, (b :: ·) '' {l | (b :: l).IsChain r}).Finite :=
      (hb a).biUnion fun b hab => (ih b hab).image _
    apply ((Set.finite_singleton []).union hu).subset
    intro l hl
    cases l with
    | nil => exact .inl rfl
    | cons b l =>
      obtain ⟨hab, hl⟩ := List.isChain_cons_cons.mp hl
      exact .inr (Set.mem_biUnion hab ⟨l, hl, rfl⟩)

end Acc

section Since

variable {entry n x : Stmt} {l : List Stmt}

theorem entry_mem_since (h : entry ∈ l) : entry ∈ since entry l := by
  induction l with
  | nil => exact h
  | cons x l ih =>
    rw [since]
    split
    · rename_i hx
      simp [hx]
    · rename_i hx
      obtain rfl | h := List.mem_cons.mp h
      · exact absurd rfl hx
      · exact List.mem_cons_of_mem _ (ih h)

end Since

/-- How many statements an activation with this trace may yet visit.  One that has not come by the
entry may also begin anew there. -/
def Flow.budget (f : Flow) (trace : List Stmt) : Nat :=
  f.stmts.countP (· ∉ since f.entry trace) + if f.entry ∈ trace then 0 else f.size

namespace Flow

variable {f : Flow} {n x : Stmt} {trace : List Stmt}

theorem budget_cons_lt (hn : n ∈ f) (h : n ∉ since f.entry trace) :
    f.budget (n :: trace) < f.budget trace := by
  have hns := mem_stmts.mpr hn
  by_cases he : n = f.entry
  · -- The activation begins anew, which it can do once.
    have ht : f.entry ∉ trace := fun ht => by
      rw [he] at h
      exact h (entry_mem_since ht)
    have hlt : f.stmts.countP (· ∉ since f.entry (n :: trace)) < f.size := by
      rw [since, if_pos he]
      have := countP_lt_countP (l := f.stmts) (p := (· ∉ [n])) (q := fun _ => true)
        (fun _ _ _ => rfl) hns (by simp) rfl
      simpa [stmts] using this
    rw [budget, budget, if_neg ht, if_pos (by simp [he])]
    omega
  · have hlt : f.stmts.countP (· ∉ since f.entry (n :: trace)) <
        f.stmts.countP (· ∉ since f.entry trace) := by
      rw [since, if_neg he]
      refine countP_lt_countP (fun x _ hx => ?_) hns (by simp) (decide_eq_true h)
      simp only [List.mem_cons, not_or, decide_eq_true_eq] at hx ⊢
      exact hx.2
    have hentry : f.entry ∈ n :: trace ↔ f.entry ∈ trace := by
      rw [List.mem_cons, or_iff_right (Ne.symm he)]
    rw [budget, budget]
    simp only [hentry]
    omega

/-- A call that is visited again on return costs nothing. -/
theorem budget_cons_cons : f.budget (x :: x :: trace) = f.budget (x :: trace) := by
  have hs : ∀ n, n ∈ since f.entry (x :: x :: trace) ↔ n ∈ since f.entry (x :: trace) := by
    intro n
    rw [since, since]
    by_cases hx : x = f.entry
    · simp [hx]
    · simp [hx]
  rw [budget, budget]
  simp only [hs, List.mem_cons, or_self_left]

end Flow

/-- `r` is `s` once more, when a call from there has returned. -/
structure State.Again (s r : State) : Prop where
  stack : r.stack = s.stack
  stmt : r.stmt = s.stmt
  trace : ∀ m, s.stack.holds m →
    r.trace m = if s.method = m then s.stmt :: s.trace m else s.trace m

namespace State

variable {s r : State}

theorem Again.standing (h : s.Again r) (hs : s.Standing) : r.Standing :=
  hs.congr h.stack (congrArg Stmt.method h.stmt)

theorem Again.resumes {x : State} (h : s.Again r) (hx : r.Resumes x) : s.Resumes x := by
  obtain ⟨m, hf⟩ := hx.frame
  refine ⟨⟨m, h.stack ▸ hf⟩, fun m' hm' hne => ?_⟩
  have hm : r.method = s.method := congrArg Stmt.method h.stmt
  have hheld : s.stack.holds m' := by
    rw [← h.stack, hf]
    simp [Stack.holds, Stack.frames] at hm' ⊢
    exact .inr hm'
  rw [hx.trace m' hm' (hm ▸ hne), h.trace m' hheld, if_neg (Ne.symm hne)]

theorem Standing.holds (hs : s.Standing) : s.stack.holds s.method := by
  obtain ⟨-, top, ht, hm⟩ := hs
  rw [← Stack.head?_frames] at ht
  exact List.any_eq_true.mpr ⟨top, List.mem_of_mem_head? ht, decide_eq_true hm⟩

end State

namespace View

variable (v : View)

def idle (st : Stack) : Nat := v.calls.countP fun c => !st.holds c.callee

def budget (s : State) : Nat :=
  match v.flow s.method with
  | .ok f => f.budget (s.trace s.method)
  | .error _ => 0

/-- Wherever the innermost frame of the state returns, the exploration ends. -/
def Returns (s : State) : Prop :=
  ∀ r, s.Resumes r → ∀ t, v.GoesOn r t → Acc (fun t s => v.Next s t) t

variable {v} {s t r : State}

theorem budget_lt (hv : v.Lawful) (h : v.GoesOn s t) : v.budget t < v.budget s := by
  cases h with
  | @advance f n hf hs hn hsince =>
    have hnf := Flow.mem_of_mem_next hn
    have hnm : n.method = s.method := mem_of_lawful hv hf hnf
    have hm : (s.advance n).method = s.method := hnm
    rw [budget, budget, hm, hf, State.advance, State.trace_follow, if_pos hnm]
    exact Flow.budget_cons_lt hnf hsince

theorem idle_lt (hv : v.Lawful) (h : v.Enters s t) : v.idle t.stack < v.idle s.stack := by
  obtain ⟨hstack, hh, hm, -⟩ := h.frame hv
  rw [hstack]
  have hc := mem_callees.mp hm
  refine countP_lt_countP (fun c _ hc => ?_) hc ?_ ?_
  · simp [Stack.holds, Stack.frames] at hc ⊢
    exact hc.2
  · simp [Stack.holds, Stack.frames]
  · simpa using hh

/-- Going on in a frame does not change where it resumes. -/
theorem GoesOn.resumes (hv : v.Lawful) (h : v.GoesOn s t) (hr : t.Resumes r) : s.Resumes r := by
  obtain ⟨hstack, hm, ht⟩ := h.frame hv
  refine ⟨?_, fun m hmr hms => ?_⟩
  · rw [← hstack]
    exact hr.frame
  · rw [hr.trace m hmr (hm ▸ hms), ht m hms]

theorem Returns.goesOn (hv : v.Lawful) (hs : v.Returns s) (h : v.GoesOn s t) : v.Returns t :=
  fun r hr => hs r (h.resumes hv hr)

theorem again_of_resumes (hv : v.Lawful) (h : v.Enters s t) (hr : t.Resumes r) : s.Again r := by
  obtain ⟨hstack, hh, -, ht⟩ := h.frame hv
  obtain ⟨m, hf⟩ := hr.frame
  rw [hstack, Stack.push.injEq] at hf
  obtain ⟨hrs, -, hrt⟩ := hf
  refine ⟨hrs.symm, hrt.symm, fun m' hm' => ?_⟩
  have hne : m' ≠ t.method := fun he => hh (he ▸ hm')
  rw [hr.trace m' (hrs ▸ hm') hne, ht m' hne, State.method, hrt]

theorem Returns.again (hs : v.Returns s) (h : s.Again r) : v.Returns r :=
  fun x hx => hs x (h.resumes hx)

theorem budget_again (hs : s.stack.holds s.method) (h : s.Again r) : v.budget r = v.budget s := by
  have hm : r.method = s.method := congrArg Stmt.method h.stmt
  rw [budget, budget, hm, h.trace _ hs, if_pos rfl, State.trace_method]
  simp only [Flow.budget_cons_cons]

/-- With each step there is less to enter or less to visit, until the innermost frame returns. -/
theorem acc_of_returns (hv : v.Lawful) {s : State} (hs : s.Standing) (hret : v.Returns s) :
    Acc (fun t s => v.Next s t) s := by
  apply Acc.intro s
  intro t ht
  obtain h | h | ⟨r, hr, h⟩ := next_cases hv ht
  · exact acc_of_returns hv (hs.goesOn hv h) (hret.goesOn hv h)
  · apply acc_of_returns hv (hs.enters hv h)
    intro r hr u hu
    have ha := again_of_resumes hv h hr
    exact acc_of_returns hv ((ha.standing hs).goesOn hv hu) ((hret.again ha).goesOn hv hu)
  · exact hret r (State.resumes_of_resume? hr) t h
termination_by (v.idle s.stack, v.budget s)
decreasing_by
  · rw [(h.frame hv).1]
    exact Prod.Lex.right _ (budget_lt hv h)
  · rw [(hu.frame hv).1, ha.stack]
    exact Prod.Lex.right _ (budget_again hs.holds ha ▸ budget_lt hv hu)
  · exact Prod.Lex.left _ _ (idle_lt hv h)

/-- A frame that was there before may return with any history, so it is left to the stack below. -/
theorem acc_of_standing (hv : v.Lawful) (hs : s.Standing) : Acc (fun t s => v.Next s t) s := by
  have hl := hs.linked
  generalize hst : s.stack = st at hl
  induction hl generalizing s with
  | root m =>
    apply acc_of_returns hv hs
    intro r hr
    obtain ⟨_, hf⟩ := hr.frame
    rw [hst] at hf
    cases hf
  | push _ _ _ ih =>
    refine acc_of_returns hv hs fun r hr t ht => ih ((hs.resumes hr).goesOn hv ht) ?_
    obtain ⟨_, hf⟩ := hr.frame
    rw [hst, Stack.push.injEq] at hf
    exact (ht.frame hv).1.trans hf.1.symm

theorem finite_next (v : View) (s : State) : {t | v.Next s t}.Finite := by
  cases h : (Interpreter.step s (Walker.mk v)).1 with
  | error fault =>
    apply Set.finite_empty.subset
    intro t ht
    obtain ⟨ts, hts, -⟩ := ht
    rw [h] at hts
    cases hts
  | ok ts =>
    apply ts.finite_toSet.subset
    intro t ht
    obtain ⟨us, hus, hm⟩ := ht
    rw [h] at hus
    cases hus
    exact hm

/-- Explorations of a program end: from a state that stands on a linked stack, whatever its path,
there is no infinite sequence of steps, and there are finitely many finite ones. -/
theorem exploration_finite (p : Program) {s : State} (hs : s.Standing) :
    (¬ ∃ seq : Nat → State, seq 0 = s ∧ ∀ n, p.view.Next (seq n) (seq (n + 1))) ∧
      {run : List State | (s :: run).IsChain p.view.Next}.Finite := by
  have hacc := acc_of_standing p.flow_lawful hs
  exact ⟨not_infinite_of_acc hacc, finite_chains_of_acc (finite_next p.view) hacc⟩

theorem exploration_finite_repeated :
    let s : State := {
      stmt := ⟨⟨1⟩, 0⟩
      stack := .push (.push (.root ⟨0⟩) ⟨0⟩ ⟨⟨0⟩, 0⟩) ⟨1⟩ ⟨⟨0⟩, 1⟩
      earlier := [⟨⟨0⟩, 1⟩, ⟨⟨1⟩, 1⟩] }
    s.Standing ∧ {run : List State | (s :: run).IsChain twoMethods.view.Next}.Finite := by
  intro s
  have hs : s.Standing := ⟨.push (.push (.root _) rfl rfl) rfl rfl, _, rfl, rfl⟩
  exact ⟨hs, (exploration_finite twoMethods hs).2⟩

end View

end PathExplorer
