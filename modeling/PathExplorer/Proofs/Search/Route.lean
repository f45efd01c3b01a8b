import Mathlib.Data.List.Perm.Subperm
import PathExplorer.Proofs.Search.Breadth
import PathExplorer.Search.Route

namespace PathExplorer

def View.Calls (v : View) (a b : Method) : Prop := ∃ c ∈ v.calls, c.caller = a ∧ c.callee = b

def Flow.Leads (f : Flow) (s t : Stmt) : Prop := s ∈ f ∧ t ∈ f.next s.index

/-- A route from `a` to the nearest of the targets, and of several nearest ones to the least. -/
structure View.IsNearest (v : View) (a : Method) (targets : Ascending Method) (t : Method)
    (route : Route) : Prop where
  mem : t ∈ targets
  path : IsPath v.Calls a t route.methods
  length : route.length = route.hops + 1
  nearest : ∀ u ∈ targets, ∀ k, Walk v.Calls a u k → route.hops ≤ k
  least : ∀ u ∈ targets, Walk v.Calls a u route.hops → t.index ≤ u.index

theorem minOn?_eq_some {α : Type} {f : α → Nat} {l : List α} {a : α} (h : l.minOn? f = some a) :
    ∃ l₁ l₂, l = l₁ ++ a :: l₂ ∧ (∀ b ∈ l₁, f a < f b) ∧ ∀ b ∈ l₂, f a ≤ f b := by
  induction l generalizing a with
  | nil => simp at h
  | cons x l ih =>
    rw [List.minOn?_cons, Option.some.injEq] at h
    cases hm : l.minOn? f with
    | none =>
      have hl : l = [] := by
        by_contra hl
        have := List.isSome_minOn?_iff (f := f) |>.mpr hl
        simp [hm] at this
      subst hl
      rw [hm] at h
      cases h
      exact ⟨[], [], rfl, by simp, by simp⟩
    | some b =>
      obtain ⟨l₁, l₂, rfl, h₁, h₂⟩ := ih hm
      rw [hm, Option.elim_some, minOn] at h
      split at h
      · rename_i hxb
        subst h
        refine ⟨[], _, rfl, by simp, fun c hc => ?_⟩
        obtain hc | hc := List.mem_append.mp hc
        · exact hxb.trans (Nat.le_of_lt (h₁ c hc))
        · obtain rfl | hc := List.mem_cons.mp hc
          · exact hxb
          · exact hxb.trans (h₂ c hc)
      · rename_i hxb
        subst h
        refine ⟨x :: l₁, l₂, rfl, fun c hc => ?_, h₂⟩
        obtain rfl | hc := List.mem_cons.mp hc
        · exact Nat.lt_of_not_le hxb
        · exact h₁ c hc

theorem minOn?_eq_none {α : Type} {f : α → Nat} {l : List α} (h : l.minOn? f = none) : l = [] := by
  cases l with
  | nil => rfl
  | cons x l => simp [List.minOn?_cons] at h

namespace Flow

variable {f : Flow} {s t : Stmt}

theorem follows_successors : Follows f.successors s t ↔ f.Leads s t := by
  constructor
  · rintro ⟨ns, hs, ht⟩
    by_cases hm : s ∈ f
    · rw [successors_of_mem hm] at hs
      cases hs
      exact ⟨hm, ht⟩
    · rw [successors, locate_of_not_mem hm] at hs
      cases hs
  · rintro ⟨hm, ht⟩
    exact ⟨_, successors_of_mem hm, ht⟩

theorem Leads.mem (h : f.Leads s t) : t ∈ f := mem_of_mem_next h.2

theorem tree_of_mem (hs : s ∈ f) : ∃ tree, f.tree s = .ok tree := by
  have hok : ∀ n k, Walk (Follows f.successors) s n k → ∃ ns, f.successors n = .ok ns := by
    intro n k hk
    have hn := hk.mem hs fun x y _ hxy => (follows_successors.mp hxy).mem
    exact ⟨_, successors_of_mem hn⟩
  obtain ⟨tree, ht⟩ := explore_ok f.size hok
  exact ⟨tree, by rw [Flow.tree, if_pos hs, ht]⟩

theorem tree_of_not_mem (hs : s ∉ f) : f.tree s = .error (.stmtNotFound s) := if_neg hs

theorem tree_spans {tree : SearchTree Stmt} (h : f.tree s = .ok tree) :
    s ∈ f ∧ tree.Spans f.Leads s := by
  by_cases hs : s ∈ f
  · rw [Flow.tree, if_pos hs] at h
    have hr : Follows f.successors = f.Leads :=
      funext fun _ => funext fun _ => propext follows_successors
    have hc : ∀ a b, a ∈ f.stmts → Follows f.successors a b → b ∈ f.stmts :=
      fun a b _ hab => mem_stmts.mpr (follows_successors.mp hab).mem
    exact ⟨hs, hr ▸ explore_spans h (mem_stmts.mpr hs) hc (by simp [stmts])⟩
  · rw [tree_of_not_mem hs] at h
    cases h

end Flow

namespace View

variable {v : View} {a b : Method}

theorem mem_calleesOf : b ∈ v.calleesOf a ↔ v.Calls a b := by
  simp only [calleesOf, callsFrom, List.mem_map, List.mem_filter, decide_eq_true_eq, Calls]
  constructor
  · rintro ⟨c, ⟨hc, ha⟩, hb⟩
    exact ⟨c, hc, ha, hb⟩
  · rintro ⟨c, hc, ha, hb⟩
    exact ⟨c, ⟨hc, ha⟩, hb⟩

theorem callTree_spans (v : View) (a : Method) : (v.callTree a).Spans v.Calls a := by
  let next : Method → Except Empty (List Method) := fun m => .ok (v.calleesOf m)
  have hr : Follows next = v.Calls := by
    funext x y
    apply propext
    constructor
    · rintro ⟨ns, hn, hy⟩
      cases hn
      exact mem_calleesOf.mp hy
    · intro h
      exact ⟨_, rfl, mem_calleesOf.mpr h⟩
  have ht : explore (v.calls.length + 1) next a = .ok (v.callTree a) := by
    unfold callTree
    cases h : explore (v.calls.length + 1) next a with
    | ok tree => rfl
    | error e => exact e.elim
  have hc : ∀ x y, x ∈ a :: v.calls.map (·.callee) → Follows next x y →
      y ∈ a :: v.calls.map (·.callee) := by
    intro x y _ hxy
    rw [hr] at hxy
    obtain ⟨c, hc, -, rfl⟩ := hxy
    exact List.mem_cons_of_mem _ (List.mem_map_of_mem hc)
  exact hr ▸ explore_spans ht (List.mem_cons_self ..) hc (by simp)

theorem routes_eq (v : View) (a : Method) (targets : Ascending Method) :
    v.routes a targets =
      targets.toList.filterMap fun m => ((v.callTree a).pathTo? m).map Route.mk := by
  unfold routes
  split
  · rename_i h
    have hn : targets.toList = [] := List.isEmpty_iff.mp h
    rw [hn, List.filterMap_nil]
  · rfl

theorem routes_eq_nil_iff {targets : Ascending Method} :
    v.routes a targets = [] ↔ ∀ u ∈ targets, ∀ k, ¬ Walk v.Calls a u k := by
  rw [routes_eq, List.filterMap_eq_nil_iff]
  constructor
  · intro h u hu k hk
    obtain ⟨p, hp⟩ := (v.callTree_spans a).pathTo?_isSome hk
    simpa [hp] using h u hu
  · intro h u hu
    cases hp : (v.callTree a).pathTo? u with
    | none => rfl
    | some p => exact absurd ((v.callTree_spans a).pathTo?_eq_some hp).walk (h u hu _)

/-- Targets before the one of the first shortest route are farther, those behind it not nearer. -/
theorem routes_minOn?_eq_some {targets : Ascending Method} {route : Route}
    (h : (v.routes a targets).minOn? Route.length = some route) :
    ∃ l t rest, targets.toList = l ++ t :: rest ∧
      (v.callTree a).pathTo? t = some route.methods ∧
      (∀ u ∈ l, ∀ q, (v.callTree a).pathTo? u = some q → route.length < q.length) ∧
      ∀ u ∈ rest, ∀ q, (v.callTree a).pathTo? u = some q → route.length ≤ q.length := by
  obtain ⟨before, behind, hl, hbefore, hbehind⟩ := minOn?_eq_some h
  rw [routes_eq] at hl
  obtain ⟨l, m, hlm, rfl, hm⟩ := List.filterMap_eq_append_iff.mp hl
  obtain ⟨skipped, t, rest, rfl, hskip, hroute, rfl⟩ := List.filterMap_eq_cons_iff.mp hm
  obtain ⟨p, hp, rfl⟩ := Option.map_eq_some_iff.mp hroute
  have hmem : ∀ {us : List Method} {u q}, u ∈ us → (v.callTree a).pathTo? u = some q →
      ⟨q⟩ ∈ us.filterMap fun m => ((v.callTree a).pathTo? m).map Route.mk :=
    fun hu hq => List.mem_filterMap.mpr ⟨_, hu, by rw [hq]; rfl⟩
  refine ⟨l ++ skipped, t, rest, by rw [hlm, List.append_assoc], hp, fun u hu q hq => ?_,
    fun u hu q hq => hbehind ⟨q⟩ (hmem hu hq)⟩
  obtain hu | hu := List.mem_append.mp hu
  · exact hbefore ⟨q⟩ (hmem hu hq)
  · have hnone := hskip u hu
    rw [hq] at hnone
    cases hnone

theorem isNearest_of_minOn? {targets : Ascending Method} {route : Route}
    (h : (v.routes a targets).minOn? Route.length = some route) :
    ∃ t, v.IsNearest a targets t route := by
  obtain ⟨l, t, rest, hsplit, hp, hbefore, hbehind⟩ := routes_minOn?_eq_some h
  have hspans := v.callTree_spans a
  have hshort := hspans.pathTo?_eq_some hp
  have hsorted := targets.sorted
  rw [hsplit] at hsorted
  have hless : ∀ u ∈ rest, t.index < u.index := fun u hu =>
    Nat.compare_eq_lt.mp ((List.pairwise_cons.mp (List.pairwise_append.mp hsorted).2.1).1 u hu)
  -- A target that is reached is farther than `t`, or it is `t` or comes behind it.
  have hwhere : ∀ u ∈ targets, ∀ k, Walk v.Calls a u k →
      route.length < k + 1 ∨ (route.length ≤ k + 1 ∧ t.index ≤ u.index) := by
    intro u hu k hk
    obtain ⟨q, hq⟩ := hspans.pathTo?_isSome hk
    have hqk := (hspans.pathTo?_eq_some hq).le k hk
    rw [Ascending.mem_iff, hsplit] at hu
    obtain hu | hu := List.mem_append.mp hu
    · exact .inl (Nat.lt_of_lt_of_le (hbefore u hu q hq) hqk)
    · obtain rfl | hu := List.mem_cons.mp hu
      · exact .inr ⟨hshort.le k hk, Nat.le_refl _⟩
      · exact .inr ⟨Nat.le_trans (hbehind u hu q hq) hqk, Nat.le_of_lt (hless u hu)⟩
  have hpos : 0 < route.length := hshort.length_pos
  have hhops : route.length = route.hops + 1 := (Nat.sub_add_cancel hpos).symm
  refine ⟨t, ?_, hshort.toIsPath, hhops, fun u hu k hk => ?_, fun u hu hk => ?_⟩
  · rw [Ascending.mem_iff, hsplit]
    simp
  · have := hwhere u hu k hk
    omega
  · have := hwhere u hu _ hk
    omega

end View

end PathExplorer
