import PathExplorer.Proofs.Exploration.Placed
import PathExplorer.Proofs.Program.Building
import PathExplorer.Proofs.Weighting.Trip

namespace PathExplorer

namespace View

variable (v : View)

/-- Wherever an execution stands on the site of the call, it enters the callee, unless that is on
the stack already. -/
def Walkable (c : Call) : Prop :=
  ∃ f, v.flow c.callee = .ok f ∧ ∀ s : State, s.stmt = c.site →
    (v.Next s (s.enter f.entry) ↔ ¬ s.stack.holds c.callee)

def Barred (site : Stmt) : Prop :=
  ∀ s t : State, s.stmt = site → v.Next s t → t.stack.depth ≤ s.stack.depth

variable {v} {s t : State} {c : Call} {m : Method}

theorem Is.unique {x : Stmt} {k l : Kind} (hk : v.Is k x) (hl : v.Is l x) : k = l := by
  obtain ⟨f, hf, hk⟩ := hk
  obtain ⟨g, hg, hl⟩ := hl
  rw [hf] at hg
  cases hg
  rw [hk] at hl
  cases hl
  rfl

theorem depth_resume {r : State} (h : s.resume? = some r) : r.stack.depth ≤ s.stack.depth := by
  obtain ⟨m, hframe⟩ := (State.resumes_of_resume? h).frame
  rw [hframe]
  exact Nat.le_succ _

/-- Only a call statement leads deeper. -/
theorem barred_of_not_is (hv : v.Lawful) {site : Stmt} (h : ¬ v.Is .call site) :
    v.Barred site := by
  rintro s t rfl hn
  cases moves_of_next hv hn with
  | on _ hgo =>
    obtain ⟨hstack, -⟩ := hgo.frame hv
    rw [hstack]
  | enter hk => exact absurd hk h
  | back _ hr hgo =>
    obtain ⟨hstack, -⟩ := hgo.frame hv
    rw [hstack]
    exact depth_resume hr

/-- On the site of a walkable call an execution with nothing on its stack gets deeper. -/
theorem Walkable.not_barred (h : v.Walkable c) : ¬ v.Barred c.site := by
  intro hb
  obtain ⟨f, -, hnext⟩ := h
  let s : State := { stmt := c.site, stack := .empty }
  have hn : v.Next s (s.enter f.entry) := (hnext s rfl).mpr (by simp [s, Stack.holds, Stack.frames])
  exact absurd (hb s _ rfl hn) (Nat.not_succ_le_zero _)

theorem explored_of_no_site (hv : v.Lawful) (hc : ∀ c ∈ v.calls, ¬ v.Is .call c.site)
    (hs : s.stack = .root m) (h : v.Explored s t) : t.stack = .root m ∧ t.method = s.method := by
  induction h with
  | refl => exact ⟨hs, rfl⟩
  | tail _ hn ih =>
    obtain ⟨hstack, hmethod⟩ := ih
    cases moves_of_next hv hn with
    | on _ hgo =>
      obtain ⟨hk, hm, -⟩ := hgo.frame hv
      exact ⟨hk.trans hstack, hm.trans hmethod⟩
    | enter hk he =>
      obtain ⟨-, -, hm, -⟩ := he.frame hv
      exact absurd hk (hc _ (mem_callees.mp hm))
    | back _ hr _ =>
      obtain ⟨_, hframe⟩ := (State.resumes_of_resume? hr).frame
      rw [hstack] at hframe
      cases hframe

end View

namespace Program

variable {p : Program} {c : Call}

theorem locates_site (hc : c ∈ p.calls) :
    ∃ f, p.view.flow c.caller = .ok f ∧ c.site ∈ f := by
  obtain ⟨f, hf, hs⟩ := p.site_mem c hc
  exact ⟨f, flow_eq_ok_iff.mpr hf, hs⟩

theorem walkable_of_is (hc : c ∈ p.calls) (hk : p.view.Is .call c.site) : p.view.Walkable c := by
  have hv := p.flow_lawful
  obtain ⟨f, hf⟩ := has_callee hc
  have hentry : f.entry.method = c.callee := View.mem_of_lawful hv hf f.entry_mem
  refine ⟨f, hf, fun s hs => ⟨fun hn => ?taken, fun hh => ?free⟩⟩
  case taken =>
    have hk : p.view.Is .call s.stmt := hs ▸ hk
    have hdeep : ¬ (s.enter f.entry).stack.depth ≤ s.stack.depth := Nat.not_succ_le_self _
    cases View.moves_of_next hv hn with
    | on _ hgo => exact absurd (Nat.le_of_eq (congrArg Stack.depth (hgo.frame hv).1)) hdeep
    | enter _ he =>
      rw [← hentry]
      exact (he.frame hv).2.1
    | back hret => cases hk.unique hret
  case free =>
    have hk : p.view.Is .call s.stmt := hs ▸ hk
    have hcallee : c.callee ∈ p.view.callees s.stmt := View.mem_callees.mpr (hs ▸ hc)
    have hsome : ¬ (p.view.callees s.stmt).isEmpty := fun hn =>
      List.ne_nil_of_mem hcallee (List.isEmpty_iff.mp hn)
    obtain ⟨ts, hts, hmem⟩ := View.enterAll_callees_ok (p := p) s
    refine ⟨ts, ?_, hmem _ (.enter hcallee hh hf)⟩
    exact (View.successors_eq hk).trans ((if_neg hsome).trans hts)

/-- A call is taken exactly where it was given for a call statement. -/
theorem walkable_iff (hc : c ∈ p.calls) : p.view.Walkable c ↔ p.view.Is .call c.site := by
  refine ⟨fun hw => ?_, walkable_of_is hc⟩
  by_contra hk
  exact hw.not_barred (View.barred_of_not_is p.flow_lawful hk)

end Program

namespace Draft

variable {d : Draft} {p : Program}

/-- The call graph of a program is what was given for it, whatever the kinds of the statements.  An
execution takes those of its edges that leave from call statements and no others, so that all other
statements have no callees exactly when every call was given for a call statement. -/
theorem build_calls (h : d.build = .ok p) :
    (∀ s m, m ∈ p.view.callees s ↔ ⟨s, m⟩ ∈ d.calls) ∧
      (∀ a b, p.view.Calls a b ↔ ∃ c ∈ d.calls, c.caller = a ∧ c.callee = b) ∧
      (∀ a b sites, p.view.sitesInto a b = .ok sites →
        ∀ s, s ∈ sites ↔ s.method = a ∧ ⟨s, b⟩ ∈ d.calls) ∧
      (∀ c ∈ d.calls, p.view.Walkable c ↔ p.view.Is .call c.site) ∧
      (∀ c ∈ d.calls, ¬ p.view.Is .call c.site → p.view.Barred c.site) ∧
      ((∀ s, ¬ p.view.Is .call s → p.view.callees s = []) ↔
        ∀ c ∈ d.calls, p.view.Is .call c.site) := by
  have hcalls : ∀ c, c ∈ p.view.calls ↔ c ∈ d.calls := fun c => mem_calls h
  have hcallees : ∀ s m, m ∈ p.view.callees s ↔ ⟨s, m⟩ ∈ d.calls := fun s m => by
    rw [View.mem_callees, hcalls]
  refine ⟨hcallees, ?edges, ?sites, ?walkable, ?barred, ?silent⟩
  case edges =>
    intro a b
    simp only [View.Calls, hcalls]
  case sites =>
    intro a b sites hsites s
    obtain ⟨f, hf, rfl⟩ := View.sitesInto_eq_ok_iff.mp hsites
    rw [View.mem_sites_iff, hcalls]
    refine and_congr_left fun hc => ⟨fun hs => View.mem_of_lawful p.flow_lawful hf hs, ?_⟩
    rintro rfl
    obtain ⟨g, hg, hs⟩ := Program.locates_site ((mem_calls h).mpr hc)
    have hgf : p.view.flow s.method = .ok g := hg
    rw [hf] at hgf
    cases hgf
    exact hs
  case walkable => exact fun c hc => Program.walkable_iff ((mem_calls h).mpr hc)
  case barred => exact fun c _ hk => View.barred_of_not_is p.flow_lawful hk
  case silent =>
    constructor
    · intro hsilent c hc
      by_contra hk
      have hm : c.callee ∈ p.view.callees c.site := (hcallees _ _).mpr hc
      rw [hsilent c.site hk] at hm
      cases hm
    · intro hall s hk
      refine List.eq_nil_iff_forall_not_mem.mpr fun m hm => hk ?_
      exact hall ⟨s, m⟩ ((hcallees s m).mp hm)

def callAtPlain : Draft :=
  ((({} : Draft).method "main" (.linear [.plain, .ret])).method "helper" (.linear [.ret])).call
    ⟨⟨0⟩, 0⟩ ⟨1⟩

theorem not_is_call_site : ¬ calledAtPlain.view.Is .call ⟨⟨0⟩, 0⟩ := by
  intro hk
  have hplain : calledAtPlain.view.Is .plain ⟨⟨0⟩, 0⟩ := ⟨_, rfl, rfl⟩
  cases hk.unique hplain

theorem build_callAtPlain : callAtPlain.build = .ok calledAtPlain := by
  have hcalls : arrange callAtPlain.calls = [⟨⟨⟨0⟩, 0⟩, ⟨1⟩⟩] := List.mergeSort_singleton _
  exact build_eq_ok_iff.mpr ⟨rfl, rfl, rfl, rfl, hcalls.symm⟩

theorem build_calls_callAtPlain : callAtPlain.build = .ok calledAtPlain ∧
    ¬ calledAtPlain.view.Walkable ⟨⟨⟨0⟩, 0⟩, ⟨1⟩⟩ ∧ calledAtPlain.view.Barred ⟨⟨0⟩, 0⟩ := by
  obtain ⟨-, -, -, hwalkable, hbarred, -⟩ := build_calls build_callAtPlain
  have hc : ⟨⟨⟨0⟩, 0⟩, ⟨1⟩⟩ ∈ callAtPlain.calls := List.mem_singleton.mpr rfl
  exact ⟨build_callAtPlain, fun hw => not_is_call_site ((hwalkable _ hc).mp hw),
    hbarred _ hc not_is_call_site⟩

def inHelper : Registry := ⟨⟨[⟨⟨⟨⟨1⟩, 0⟩⟩, ⟨⟨⟨1⟩, 0⟩⟩⟩], by simp⟩⟩

/-- The helper is a callee of a statement that is no call, so that the way to it has a finite
weight, and it is never entered. -/
theorem callAtPlain_never_taken : callAtPlain.build = .ok calledAtPlain ∧
    ¬ calledAtPlain.view.Is .call ⟨⟨0⟩, 0⟩ ∧ calledAtPlain.view.callees ⟨⟨0⟩, 0⟩ = [⟨1⟩] ∧
    calledAtPlain.view.callsFrom ⟨0⟩ = [⟨⟨⟨0⟩, 0⟩, ⟨1⟩⟩] ∧
    (∃ t, TaintDistance.ofSettings calledAtPlain.view inHelper {} = .ok t ∧
      (Weighting.weigh (.root ⟨⟨0⟩, 0⟩) t).1 = .ok ⟨-3⟩) ∧
    ∀ t, calledAtPlain.view.Explored (.root ⟨⟨0⟩, 0⟩) t → t.method ≠ ⟨1⟩ := by
  refine ⟨build_callAtPlain, not_is_call_site, rfl, rfl, ⟨_, rfl, by rfl⟩, fun t ht hm => ?_⟩
  have hsites : ∀ c ∈ calledAtPlain.view.calls, ¬ calledAtPlain.view.Is .call c.site := by
    intro c hc
    cases List.mem_singleton.mp hc
    exact not_is_call_site
  obtain ⟨-, hmethod⟩ := View.explored_of_no_site calledAtPlain.flow_lawful hsites rfl ht
  rw [hm] at hmethod
  cases hmethod

end Draft

end PathExplorer
