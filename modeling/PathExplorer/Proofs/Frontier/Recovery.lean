import PathExplorer.Proofs.Frontier.Observing

namespace PathExplorer

variable {ω χ τ : Type} {truth : State → Except Fault Weight}

structure Blocks (truth : State → Except Fault Weight) (es : List (Ticket × State))
    (e : Ticket × State) (fault : Fault) : Prop where
  mem : e ∈ es
  fault : truth e.2 = .error fault
  first : ∀ d ∈ es, d.1.number < e.1.number → ∃ weight, truth d.2 = .ok weight

def Operation.tries : Operation → Bool
  | .poll => true
  | op => op.observes

theorem firstFault?_eq_some_iff {es : List (Ticket × State)} {fault : Fault}
    (hs : es.Pairwise fun a b => a.1.number < b.1.number) :
    firstFault? truth es = some fault ↔ ∃ e, Blocks truth es e fault := by
  constructor
  · intro h
    obtain ⟨l₁, e, l₂, rfl, he, hbefore⟩ := List.findSome?_eq_some_iff.mp h
    have hfault : truth e.2 = .error fault := by
      cases ht : truth e.2 with
      | error x => simpa [ht] using he
      | ok weight => simp [ht] at he
    have hl₁ : ∀ d ∈ l₁, ∃ weight, truth d.2 = .ok weight :=
      firstFault?_eq_none_iff.mp (List.findSome?_eq_none_iff.mpr hbefore)
    refine ⟨e, by simp, hfault, fun d hd hlt => ?_⟩
    obtain hd | hd := List.mem_append.mp hd
    · exact hl₁ d hd
    · obtain rfl | hd := List.mem_cons.mp hd
      · exact absurd hlt (Nat.lt_irrefl _)
      · have := List.rel_of_pairwise_cons (List.pairwise_append.mp hs).2.1 hd
        omega
  · rintro ⟨e, he⟩
    obtain ⟨l₁, l₂, rfl⟩ := List.append_of_mem he.mem
    have hl₁ : firstFault? truth l₁ = none := firstFault?_eq_none_iff.mpr fun d hd =>
      he.first d (by simp [hd]) ((List.pairwise_append.mp hs).2.2 d hd e (by simp))
    unfold firstFault? at hl₁ ⊢
    simp [List.findSome?_append, hl₁, he.fault]

namespace Frontier

variable [Weighting ω] {f : Frontier ω χ τ}

theorem Sound.entries_remove (h : f.Sound truth) (t : Ticket) :
    (f.remove t).2.entries = f.entries.filter (·.1 ≠ t) := by
  obtain ⟨ht, hf⟩ | ⟨l₁, x, l₂, hheld, rfl, hf⟩ := f.remove_cases t
  · rw [hf]
    rw [tickets_eq] at ht
    refine (List.filter_eq_self.mpr fun e he => ?_).symm
    simpa using fun het => ht (List.mem_map.mpr ⟨e, he, het⟩)
  · have hentries : f.entries = l₁.map Held.entry ++ x.entry :: l₂.map Held.entry := by
      rw [entries, hheld, List.map_append, List.map_cons]
    have hs := h.ascending
    rw [hentries] at hs
    obtain ⟨-, hbehind, hbefore⟩ := List.pairwise_append.mp hs
    -- Tickets ascend, so that no other entry has the one that is removed.
    have hl₁ : ∀ e ∈ l₁.map Held.entry, e.1 ≠ x.ticket := fun e he het => by
      have hlt : e.1.number < x.ticket.number := hbefore e he x.entry (by simp)
      exact absurd (congrArg Ticket.number het) (Nat.ne_of_lt hlt)
    have hl₂ : ∀ e ∈ l₂.map Held.entry, e.1 ≠ x.ticket := fun e he het => by
      have hlt : x.ticket.number < e.1.number := List.rel_of_pairwise_cons hbehind he
      exact absurd (congrArg Ticket.number het) (Nat.ne_of_gt hlt)
    rw [hf, hentries, List.filter_append, List.filter_cons_of_neg (by simp [Held.entry]),
      List.filter_eq_self.mpr (by simpa using hl₁), List.filter_eq_self.mpr (by simpa using hl₂),
      ← List.map_append]
    rfl

section Blocked

variable [ChoiceRule χ]

/-- A choice by weight among states some of which cannot be weighed fails for the first of these,
and leaves the frontier alike. -/
theorem Sound.blocked (h : f.Sound truth) (hr : Forgetful f.choice)
    (hu : ChoiceRule.usesWeights f.choice) {e : Ticket × State} {fault : Fault}
    (he : Blocks truth f.entries e fault) :
    f.poll.1 = .error fault ∧ f.peek.1 = .error fault ∧ f.Alike f.poll.2 := by
  have hfault := (firstFault?_eq_some_iff h.ascending).mpr ⟨e, he⟩
  obtain ⟨⟨hpoll, -⟩, hpeek, -⟩ := (h.consults hu).fault fault hfault
  refine ⟨hpoll, hpeek, ?_⟩
  rw [poll_of_fault (h.choose_fault hu hfault).1]
  exact alike_choose hr

theorem Sound.alike_after (h : f.Sound truth) (hr : Forgetful f.choice)
    (hu : ChoiceRule.usesWeights f.choice) {e : Ticket × State} {fault : Fault}
    (he : Blocks truth f.entries e fault) {tried : List Operation}
    (ht : ∀ op ∈ tried, op.tries) : f.Alike (f.after tried) := by
  induction tried generalizing f with
  | nil => exact .refl f
  | cons op tried ih =>
    obtain ⟨hop, ht⟩ := List.forall_mem_cons.mp ht
    have hact : f.Alike (f.act op) := by
      cases op with
      | poll => exact (h.blocked hr hu he).2.2
      | peek | weightOf => exact alike_act hr rfl
      | offer | remove | close => cases hop
    exact hact.trans
      (ih (h.act op) (hact.choice ▸ hr) (hact.choice ▸ hu) (hact.entries ▸ he) ht)

theorem Sound.entries_removeAll (h : f.Sound truth) (ts : List Ticket) :
    (f.after (ts.map .remove)).entries = f.entries.filter (·.1 ∉ ts) := by
  induction ts generalizing f with
  | nil => exact (List.filter_eq_self.mpr fun _ _ => rfl).symm
  | cons t ts ih =>
    have hrest : ((f.remove t).2.after (ts.map .remove)).entries =
      (f.remove t).2.entries.filter (·.1 ∉ ts) := ih (h.remove t)
    rw [h.entries_remove, List.filter_filter] at hrest
    refine hrest.trans (List.filter_congr fun e _ => ?_)
    simp [Bool.and_comm]

end Blocked

/-- A frontier that a fault stands in the way of.  However often a choice is tried it fails with the
fault and changes nothing that can be seen, and once the states that cannot be weighed are removed
the best of the others is handed over. -/
structure Recovers [ChoiceRule χ] (truth : State → Except Fault Weight) (fault : Fault)
    (f : Frontier ω χ τ) : Prop where
  alike : ∀ tried : List Operation, (∀ op ∈ tried, op.tries) → f.Alike (f.after tried)
  poll : ∀ tried : List Operation, (∀ op ∈ tried, op.tries) → (f.after tried).poll.1 = .error fault
  peek : ∀ tried : List Operation, (∀ op ∈ tried, op.tries) → (f.after tried).peek.1 = .error fault
  removed : ∀ (tried : List Operation) (ts : List Ticket), (∀ op ∈ tried, op.tries) →
    (∀ d ∈ f.entries, ∀ x, truth d.2 = .error x → d.1 ∈ ts) →
    let g := (f.after tried).after (ts.map .remove)
    g.entries = f.entries.filter (·.1 ∉ ts) ∧
      (g.entries = [] → g.poll.1 = .ok none) ∧
      (g.entries ≠ [] → ∃ d, IsBest truth g.entries d ∧ g.poll.1 = .ok (some d.2) ∧
        g.poll.2.entries = g.entries.erase d)

theorem Sound.recovers {f : Frontier ω HighestWeight τ} (h : f.Sound truth) {e : Ticket × State}
    {fault : Fault} (he : Blocks truth f.entries e fault) : f.Recovers truth fault := by
  have hr : ∀ rule : HighestWeight, Forgetful rule := BuiltIn.highestWeight.forgetful
  have halike : ∀ tried : List Operation, (∀ op ∈ tried, op.tries) → f.Alike (f.after tried) :=
    fun tried ht => h.alike_after (hr _) rfl he ht
  have hblocked : ∀ tried : List Operation, (∀ op ∈ tried, op.tries) →
      (f.after tried).poll.1 = .error fault ∧ (f.after tried).peek.1 = .error fault ∧
        (f.after tried).Alike (f.after tried).poll.2 :=
    fun tried ht => (h.after tried).blocked (hr _) rfl ((halike tried ht).entries ▸ he)
  refine ⟨halike, fun tried ht => (hblocked tried ht).1,
    fun tried ht => (hblocked tried ht).2.1, ?_⟩
  intro tried ts ht hts g
  have hg : g.Sound truth := (h.after tried).after _
  have hentries : g.entries = f.entries.filter (·.1 ∉ ts) := by
    rw [(h.after tried).entries_removeAll, (halike tried ht).entries]
  have hnone : firstFault? truth g.entries = none := firstFault?_eq_none_iff.mpr fun d hd => by
    rw [hentries, List.mem_filter, decide_eq_true_eq] at hd
    cases hw : truth d.2 with
    | ok weight => exact ⟨weight, rfl⟩
    | error x => exact absurd (hts d hd.1 x hw) hd.2
  refine ⟨hentries, fun hn => by rw [poll_of_isEmpty hn], fun hn => ?_⟩
  obtain ⟨d, hd, hpoll, hafter, -⟩ := hg.poll_best hn hnone
  exact ⟨d, hd, hpoll, hafter⟩

/-- Whatever was done with a frontier that is led by weight: if it holds states that cannot be
weighed, it fails for the first of them and can recover from that. -/
theorem poll_recovers [rules : ChoiceRule χ] {w : ω} (hw : Steady truth w) (hr : BuiltIn χ rules)
    (rule : χ) (hu : ChoiceRule.usesWeights rule) (stop : τ) (ops : List Operation) :
    let f := (start w rule stop).after ops
    (∃ d ∈ f.entries, ∃ x, truth d.2 = .error x) →
      ∃ e fault, Blocks truth f.entries e fault ∧ f.Recovers truth fault := by
  intro f hd
  cases hr with
  | fifo | lifo => cases hu
  | highestWeight =>
    have hf : f.Sound truth := (Sound.start hw rule stop).after ops
    obtain ⟨d, hmem, x, hx⟩ := hd
    cases hfirst : firstFault? truth f.entries with
    | none =>
      obtain ⟨weight, hweight⟩ := firstFault?_eq_none_iff.mp hfirst d hmem
      rw [hx] at hweight
      cases hweight
    | some fault =>
      obtain ⟨e, he⟩ := (firstFault?_eq_some_iff hf.ascending).mp hfirst
      exact ⟨e, fault, he, hf.recovers he⟩

def strayed : State := { stmt := ⟨⟨1⟩, 0⟩, stack := .root ⟨0⟩ }

/-- Two of the states cannot be weighed, and one of the others is weighed before they come.  The
state that strayed blocks the frontier until it is removed with the one at an unknown statement. -/
theorem poll_recovers_strayed :
    ∃ t, TaintDistance.ofSettings twoMethods.view TaintDistance.behindCall {} = .ok t ∧
      let truth s :=
        (twoMethods.view.estimate TaintDistance.behindCall ⟨1, 3⟩ s).map Estimate.weight
      let f := (start t HighestWeight.mk NeverStop.mk).after
        [.offer (.root ⟨⟨0⟩, 0⟩), .peek, .offer strayed, .poll, .offer (.root ⟨⟨0⟩, 9⟩),
          .weightOf ⟨2⟩, .offer (.root ⟨⟨0⟩, 1⟩)]
      (∃ e fault, Blocks truth f.entries e fault ∧ f.Recovers truth fault) ∧
        f.poll.1 = .error (.inconsistentStack ⟨⟨1⟩, 0⟩ ⟨0⟩) ∧
        ((f.after [.poll, .peek]).after [.remove ⟨2⟩, .remove ⟨1⟩]).poll.1 =
          .ok (some (.root ⟨⟨0⟩, 1⟩)) := by
  have ht : TaintDistance.ofSettings twoMethods.view TaintDistance.behindCall {} = .ok _ := rfl
  refine ⟨_, ht, ?_, by rfl, by rfl⟩
  exact poll_recovers (TaintDistance.Agrees.ofSettings ht).steady .highestWeight HighestWeight.mk
    rfl NeverStop.mk _ ⟨(⟨1⟩, strayed), .tail _ (.head _), _, rfl⟩

end Frontier

end PathExplorer
