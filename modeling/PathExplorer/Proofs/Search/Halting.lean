import Mathlib.Data.Set.Card
import PathExplorer.Proofs.Search.Breadth

namespace PathExplorer

variable {N ε : Type} {next : N → Except ε (List N)} {start : N} {done queue : List (Visit N)}

def reachable (next : N → Except ε (List N)) (start : N) : Set N :=
  {n | ∃ k, Walk (Follows next) start n k}

theorem start_mem_reachable (next : N → Except ε (List N)) (start : N) :
    start ∈ reachable next start := ⟨0, .here⟩

theorem reachable_closed {a b : N} (ha : a ∈ reachable next start) (hab : Follows next a b) :
    b ∈ reachable next start := by
  obtain ⟨k, hk⟩ := ha
  exact ⟨k + 1, hk.step hab⟩

/-- Where the search goes on from a node; from one that fails, nowhere. -/
def opened (next : N → Except ε (List N)) (n : N) : List N := (next n).toOption.getD []

theorem mem_opened {a b : N} : b ∈ opened next a ↔ Follows next a b := by
  unfold opened Follows
  cases next a <;> simp [Except.toOption]

theorem reachable_bounded {nodes : Finset N} (hs : start ∈ nodes)
    (hc : ∀ a ∈ nodes, ∀ b ∈ opened next a, b ∈ nodes) :
    (reachable next start).Finite ∧ (reachable next start).ncard ≤ nodes.card := by
  have hsub : reachable next start ⊆ nodes := by
    rintro n ⟨k, hk⟩
    exact hk.mem (p := (· ∈ nodes)) hs fun a b ha hab => hc a ha b (mem_opened.mpr hab)
  exact ⟨nodes.finite_toSet.subset hsub,
    (Set.ncard_le_ncard hsub).trans_eq (Set.ncard_coe_finset nodes)⟩

theorem reachable_subset {other : N → Except ε (List N)}
    (hsame : ∀ n ∈ reachable next start, other n = next n) :
    reachable other start ⊆ reachable next start := by
  rintro n ⟨k, hk⟩
  refine hk.mem (start_mem_reachable next start) fun a b ha hab => reachable_closed ha ?_
  obtain ⟨ns, hns, hb⟩ := hab
  exact ⟨ns, hsame a ha ▸ hns, hb⟩

variable [DecidableEq N]

/-- The search that has expanded the visits in `done` and has a queue ends with this outcome. -/
inductive Ends (next : N → Except ε (List N)) :
    List (Visit N) → List (Visit N) → Except ε (List (Visit N)) → Prop
  | exhausted {done : List (Visit N)} : Ends next done [] (.ok done)
  | failed {done queue : List (Visit N)} {v : Visit N} {e : ε} : next v.node = .error e →
      Ends next done (v :: queue) (.error e)
  | expanded {done queue : List (Visit N)} {v : Visit N} {ns : List N}
      {outcome : Except ε (List (Visit N))} : next v.node = .ok ns →
      Ends next (done ++ [v]) (queue ++ discover (done ++ v :: queue) v ns) outcome →
      Ends next done (v :: queue) outcome

namespace Ends

variable {outcome other : Except ε (List (Visit N))} {found : List (Visit N)}

theorem unique (h : Ends next done queue outcome) (ho : Ends next done queue other) :
    outcome = other := by
  induction h with
  | exhausted =>
    cases ho
    rfl
  | failed he =>
    cases ho with
    | failed he' =>
      rw [he] at he'
      cases he'
      rfl
    | expanded hn _ =>
      rw [he] at hn
      cases hn
  | expanded hn _ ih =>
    cases ho with
    | failed he =>
      rw [hn] at he
      cases he
    | expanded hn' ho =>
      rw [hn] at hn'
      cases hn'
      exact ih ho

/-- What one expansion keeps, a search keeps. -/
theorem invariant {P : List (Visit N) → List (Visit N) → Prop}
    (hstep : ∀ done v queue ns, P done (v :: queue) → next v.node = .ok ns →
      P (done ++ [v]) (queue ++ discover (done ++ v :: queue) v ns))
    (h : Ends next done queue (.ok found)) (hp : P done queue) : P found [] := by
  generalize ho : (Except.ok found : Except ε _) = outcome at h
  induction h with
  | exhausted =>
    cases ho
    exact hp
  | failed _ => cases ho
  | expanded hn _ ih => exact ih (hstep _ _ _ _ hp hn) ho

theorem progress (h : Ends next done queue (.ok found)) (hp : Progress next start done queue) :
    Progress next start found [] :=
  h.invariant (fun _ _ _ _ hp hn => hp.expand hn) hp

end Ends

theorem ends_expand {nodes : List N} (hs : start ∈ nodes)
    (hc : ∀ a b, a ∈ nodes → Follows next a b → b ∈ nodes) (limit : Nat)
    (h : Progress next start done queue) (hl : nodes.length ≤ done.length + limit) :
    Ends next done queue (expand next limit done queue) := by
  induction limit generalizing done queue with
  | zero =>
    cases queue with
    | nil => exact .exhausted
    | cons v queue =>
      have := h.length_le hs hc
      simp only [List.length_append, List.length_cons] at this
      omega
  | succ limit ih =>
    cases queue with
    | nil => exact .exhausted
    | cons v queue =>
      cases hn : next v.node with
      | error e =>
        have he : PathExplorer.expand next (limit + 1) done (v :: queue) = .error e := by
          simp [PathExplorer.expand, hn, bind, Except.bind]
        exact he ▸ .failed hn
      | ok ns =>
        have he : PathExplorer.expand next (limit + 1) done (v :: queue) =
            PathExplorer.expand next limit (done ++ [v])
              (queue ++ discover (done ++ v :: queue) v ns) := by
          simp [PathExplorer.expand, hn, bind, Except.bind]
        rw [he]
        refine .expanded hn (ih (h.expand hn) ?_)
        simp only [List.length_append, List.length_singleton]
        omega

/-- A search with room for the nodes that can be reached ends, and not because of its bound. -/
theorem ends_explore (hfin : (reachable next start).Finite) {limit : Nat}
    (hl : (reachable next start).ncard ≤ limit) :
    Ends next [] [⟨start, []⟩] ((explore limit next start).map SearchTree.visits) := by
  have hmem : ∀ {n}, n ∈ hfin.toFinset.toList ↔ n ∈ reachable next start := by simp
  have hends : Ends next [] [⟨start, []⟩] (expand next limit [] [⟨start, []⟩]) := by
    have hclosed : ∀ a b, a ∈ hfin.toFinset.toList → Follows next a b →
        b ∈ hfin.toFinset.toList := fun a b ha hab =>
      hmem.mpr (reachable_closed (hmem.mp ha) hab)
    refine ends_expand (hmem.mpr (start_mem_reachable next start)) hclosed limit
      (.initial next start) ?_
    rw [Finset.length_toList, ← Set.ncard_eq_toFinset_card _ hfin]
    simpa using hl
  exact map_visits_explore limit next start ▸ hends

end PathExplorer
