import PathExplorer.Proofs.Exploration.Step
import PathExplorer.Proofs.Weighting.Trip

namespace PathExplorer

namespace View

variable (v : View)

/-- The least set of statements with the entry of the method that is closed under going on, entering
and coming back. -/
inductive Reaches : Method → Stmt → Prop
  | entry {a : Method} {f : Flow} : v.flow a = .ok f → Reaches a f.entry
  | pass {a : Method} {s t : Stmt} : Reaches a s → v.Passes s → v.Leads s t → Reaches a t
  | enter {a m : Method} {s : Stmt} {f : Flow} : Reaches a s → v.Is .call s → m ∈ v.callees s →
      v.flow m = .ok f → Reaches a f.entry
  | behind {a m : Method} {s r t : Stmt} : Reaches a s → v.Is .call s → m ∈ v.callees s →
      Reaches m r → r.method = m → v.Is .ret r → v.Leads s t → Reaches a t

def Acyclic : Prop := ∀ m k, ¬ Walk v.Calls m m (k + 1)

variable {v} {a m : Method} {s t : Stmt}

theorem Leads.method_eq (hv : v.Lawful) (h : v.Leads s t) : t.method = s.method := by
  obtain ⟨f, hf, hl⟩ := h
  exact mem_of_lawful hv hf hl.mem

theorem calls_of_mem_callees (h : m ∈ v.callees s) : v.Calls s.method m :=
  ⟨_, mem_callees.mp h, rfl, rfl⟩

theorem Reaches.walk (hv : v.Lawful) (h : v.Reaches a s) : ∃ k, Walk v.Calls a s.method k := by
  induction h with
  | entry hf => exact ⟨0, (mem_of_lawful hv hf (Flow.entry_mem _)) ▸ .here⟩
  | pass _ _ hl ih => exact (hl.method_eq hv) ▸ ih
  | enter _ _ hm hf ih =>
    obtain ⟨k, hk⟩ := ih
    rw [mem_of_lawful hv hf (Flow.entry_mem _)]
    exact ⟨k + 1, hk.step (calls_of_mem_callees hm)⟩
  | behind _ _ _ _ _ _ hl ih _ => exact (hl.method_eq hv) ▸ ih

/-- What is reached from a method is reached from wherever its entry is. -/
theorem Reaches.trans (h : v.Reaches m s) (hm : ∀ f, v.flow m = .ok f → v.Reaches a f.entry) :
    v.Reaches a s := by
  induction h with
  | entry hf => exact hm _ hf
  | pass _ hp hl ih => exact (ih hm).pass hp hl
  | enter _ hk hc hf ih => exact (ih hm).enter hk hc hf
  | behind _ hk hc hr hrm hret hl ih _ => exact (ih hm).behind hk hc hr hrm hret hl

theorem Reaches.has (h : v.Reaches a s) : v.Has a := by
  induction h with
  | entry hf => exact ⟨_, hf⟩
  | pass _ _ _ ih | enter _ _ _ _ ih | behind _ _ _ _ _ _ _ ih _ => exact ih

theorem acyclic_of_ascending (h : ∀ c ∈ v.calls, c.caller.index < c.callee.index) : v.Acyclic := by
  have hle : ∀ {a b : Method} {k : Nat}, Walk v.Calls a b k → a.index + k ≤ b.index := by
    intro a b k hw
    induction hw with
    | here => exact Nat.le_refl _
    | step _ hc ih =>
      obtain ⟨c, hc, rfl, rfl⟩ := hc
      have := h c hc
      omega
  intro m k hw
  have := hle hw
  omega

end View

end PathExplorer
