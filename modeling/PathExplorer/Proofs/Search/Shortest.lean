import PathExplorer.Proofs.Program.Graph
import PathExplorer.Proofs.Search.Halting
import PathExplorer.Proofs.Search.Route

namespace PathExplorer

variable {N ε : Type} [DecidableEq N] {next : N → Except ε (List N)} {start : N}
  {done queue : List (Visit N)}

def SearchTree.parent? (t : SearchTree N) (n : N) : Option N :=
  (t.visit? n).bind fun u => u.behind.head?

inductive SearchTree.Back (t : SearchTree N) : N → List N → Prop
  | stop {n : N} : t.parent? n = none → Back t n [n]
  | go {n m : N} {l : List N} : t.parent? n = some m → Back t m l → Back t n (n :: l)

/-- The tree answers by shortest walks along `r` from `a`.  Distances are rounded, which is no
matter when the nodes can be counted in 64 bits. -/
structure SearchTree.Exact (t : SearchTree N) (r : N → N → Prop) (a : N) : Prop where
  start : t.start = a
  distance : ∀ n d, t.distanceTo n = .finite d ↔
    ∃ k, IsLeast {k | Walk r a n k} k ∧ d = UInt64.ofNatClamp k
  unrounded : t.size < UInt64.size → ∀ n d, t.distanceTo n = .finite d ↔
    IsLeast {k | Walk r a n k} d.toNat
  unreachable : ∀ n, t.distanceTo n = .unreachable ↔ ∀ k, ¬ Walk r a n k
  reaches : ∀ n, t.reaches n = true ↔ ∃ k, Walk r a n k
  size : t.size = {n | ∃ k, Walk r a n k}.ncard
  noPath : ∀ n, t.pathTo? n = none ↔ ∀ k, ¬ Walk r a n k
  path : ∀ n k, IsLeast {k | Walk r a n k} k → ∃ p, t.pathTo? n = some p ∧ IsPath r a n p ∧
    p.Nodup ∧ p.length = k + 1
  back : ∀ n p, t.pathTo? n = some p → t.Back n p.reverse

def Continues (done queue : List (Visit N)) : Prop :=
  ∀ u ∈ done ++ queue, u.behind = [] ∨ ∃ w ∈ done, u.behind = w.node :: w.behind

omit [DecidableEq N] in
theorem continues_initial (start : N) : Continues [] [(⟨start, []⟩ : Visit N)] := by
  intro u hu
  cases List.mem_singleton.mp hu
  exact .inl rfl

theorem Continues.expand {v : Visit N} {ns : List N} (h : Continues done (v :: queue)) :
    Continues (done ++ [v]) (queue ++ discover (done ++ v :: queue) v ns) := by
  intro u hu
  have hu : u ∈ done ++ v :: queue ∨ u ∈ discover (done ++ v :: queue) v ns := by
    simpa [or_assoc] using hu
  obtain hu | hu := hu
  · obtain hnil | ⟨w, hw, hb⟩ := h u hu
    · exact .inl hnil
    · exact .inr ⟨w, by simp [hw], hb⟩
  · exact .inr ⟨v, by simp, (mem_discover.mp hu).2.2⟩

namespace SearchTree

variable {t : SearchTree N} {r : N → N → Prop} {a n : N}

theorem visit?_of_mem (hnodup : (t.visits.map Visit.node).Nodup) {u : Visit N}
    (hu : u ∈ t.visits) : t.visit? u.node = some u := by
  cases hw : t.visit? u.node with
  | none => simpa using List.find?_eq_none.mp hw u hu
  | some w =>
    have hwn : w.node = u.node := by simpa using List.find?_some hw
    rw [List.inj_on_of_nodup_map hnodup (List.mem_of_find?_eq_some hw) hu hwn]

/-- Going back over parents comes to an end at the start, since each was met in fewer steps. -/
theorem back_of_mem (hnodup : (t.visits.map Visit.node).Nodup) (hc : Continues t.visits [])
    {u : Visit N} (hu : u ∈ t.visits) : t.Back u.node (u.node :: u.behind) := by
  generalize hd : u.distance = d
  induction d using Nat.strong_induction_on generalizing u with
  | _ d ih =>
    have hparent : t.parent? u.node = u.behind.head? := by
      rw [parent?, visit?_of_mem hnodup hu, Option.bind_some]
    obtain hnil | ⟨w, hw, hb⟩ := hc u (by simpa using hu)
    · rw [hnil] at hparent ⊢
      exact .stop hparent
    · have hless : w.distance < d := by
        rw [← hd, Visit.distance, Visit.distance, hb]
        exact Nat.lt_succ_self _
      rw [hb] at hparent ⊢
      exact .go hparent (ih _ hless hw rfl)

namespace Spans

variable (h : t.Spans r a)
include h

theorem visit?_isSome_iff : (t.visit? n).isSome ↔ ∃ k, Walk r a n k := by
  constructor
  · intro hs
    obtain ⟨u, hu⟩ := Option.isSome_iff_exists.mp hs
    exact ⟨_, (h.visit?_eq_some hu).2.walk⟩
  · rintro ⟨k, hk⟩
    by_contra hs
    exact h.visit?_eq_none (by simpa using hs) k hk

theorem pathTo?_eq_none_iff : t.pathTo? n = none ↔ ∀ k, ¬ Walk r a n k := by
  rw [pathTo?, Option.map_eq_none_iff, ← Option.not_isSome_iff_eq_none, h.visit?_isSome_iff,
    not_exists]

theorem distanceTo_eq_finite_iff {d : UInt64} :
    t.distanceTo n = .finite d ↔ ∃ k, IsLeast {k | Walk r a n k} k ∧ d = .ofNatClamp k := by
  obtain ⟨k, hk, hd⟩ | ⟨hnone, hd⟩ := h.measures_distanceTo n
  · rw [hd]
    constructor
    · intro he
      cases he
      exact ⟨k, hk, rfl⟩
    · rintro ⟨j, hj, rfl⟩
      rw [hk.unique hj]
      rfl
  · rw [hd]
    constructor
    · exact (nomatch ·)
    · exact fun ⟨k, hk, _⟩ => absurd hk.1 (hnone k)

theorem distanceTo_eq_unreachable_iff :
    t.distanceTo n = .unreachable ↔ ∀ k, ¬ Walk r a n k := by
  obtain ⟨k, hk, hd⟩ | ⟨hnone, hd⟩ := h.measures_distanceTo n
  · rw [hd]
    constructor
    · exact (nomatch ·)
    · exact fun hnone => absurd hk.1 (hnone k)
  · exact iff_of_true hd hnone

theorem exists_path {k : Nat} (hk : IsLeast {k | Walk r a n k} k) :
    ∃ p, t.pathTo? n = some p ∧ IsShortest r a n p ∧ p.length = k + 1 := by
  obtain ⟨p, hp⟩ := h.pathTo?_isSome hk.1
  have hs := h.pathTo?_eq_some hp
  have hpos := hs.length_pos
  have hlen := hs.isLeast.unique hk
  exact ⟨p, hp, hs, by omega⟩

/-- A path to a node comes by nodes that were all met, each once. -/
theorem lt_size {k : Nat} (hk : IsLeast {k | Walk r a n k} k) : k < t.size := by
  obtain ⟨p, -, hs, hlen⟩ := h.exists_path hk
  have hsub : p ⊆ t.visits.map Visit.node := by
    intro x hx
    obtain ⟨before, behind, rfl⟩ := List.append_of_mem hx
    obtain ⟨u, hu, rfl⟩ := h.complete x _ hs.split.1.walk
    exact List.mem_map_of_mem hu
  have hle := (List.subperm_of_subset hs.nodup hsub).length_le
  rw [List.length_map] at hle
  rw [size]
  omega

theorem size_eq (hnodup : (t.visits.map Visit.node).Nodup) :
    t.size = {n | ∃ k, Walk r a n k}.ncard := by
  have hset : {n | ∃ k, Walk r a n k} = ((t.visits.map Visit.node).toFinset : Set N) := by
    ext x
    simp only [Set.mem_ofPred_eq, List.coe_toFinset, List.mem_map]
    constructor
    · rintro ⟨k, hk⟩
      exact h.complete x k hk
    · rintro ⟨u, hu, rfl⟩
      exact ⟨_, (h.sound u hu).walk⟩
  rw [hset, Set.ncard_coe_finset, List.toFinset_card_of_nodup hnodup, List.length_map, size]

theorem exact (hnodup : (t.visits.map Visit.node).Nodup) (hc : Continues t.visits []) :
    t.Exact r a := by
  refine ⟨h.start, fun n d => h.distanceTo_eq_finite_iff, fun hsmall n d => ?_,
    fun n => h.distanceTo_eq_unreachable_iff, fun n => h.visit?_isSome_iff, h.size_eq hnodup,
    fun n => h.pathTo?_eq_none_iff, fun n k hk => ?_, fun n p hp => ?_⟩
  · rw [h.distanceTo_eq_finite_iff]
    have hround : ∀ {k}, IsLeast {k | Walk r a n k} k → (UInt64.ofNatClamp k).toNat = k := by
      intro k hk
      have := h.lt_size hk
      rw [Distance.toNat_ofNatClamp]
      omega
    constructor
    · rintro ⟨k, hk, rfl⟩
      exact (hround hk).symm ▸ hk
    · exact fun hd => ⟨d.toNat, hd, UInt64.toNat_inj.mp (hround hd).symm⟩
  · obtain ⟨p, hp, hs, hlen⟩ := h.exists_path hk
    exact ⟨p, hp, hs.toIsPath, hs.nodup, hlen⟩
  · obtain ⟨u, hu, rfl⟩ := Option.map_eq_some_iff.mp hp
    obtain ⟨rfl, -⟩ := h.visit?_eq_some hu
    have hback := back_of_mem hnodup hc (List.mem_of_find?_eq_some hu)
    rwa [Visit.path, List.reverse_reverse]

end Spans

end SearchTree

theorem Ends.exact {found : List (Visit N)} (h : Ends next [] [⟨start, []⟩] (.ok found)) :
    (SearchTree.mk start found).Exact (Follows next) start := by
  have hp := h.progress (.initial next start)
  have hc : Continues found [] := h.invariant (fun _ _ _ _ hc _ => hc.expand) (continues_initial _)
  exact hp.spans.exact (by simpa using hp.nodup) hc

namespace View

variable {v : View} {a : Method} {targets : Ascending Method}

/-- The routes are one shortest route to each target that calls reach from `a`, in the order of the
targets.  The one to `a` stays in it. -/
structure Serves (v : View) (a : Method) (targets : Ascending Method) (routes : List Route) :
    Prop where
  each : ∃ ts : List Method, ts.Pairwise (·.index < ·.index) ∧
    (∀ t, t ∈ ts ↔ t ∈ targets ∧ ∃ k, Walk v.Calls a t k) ∧
    List.Forall₂ (fun t route => IsShortest v.Calls a t route.methods) ts routes
  own : a ∈ targets ↔ ⟨[a]⟩ ∈ routes

theorem forall₂_filterMap {α β : Type} (f : α → Option β) (l : List α) :
    List.Forall₂ (fun a b => f a = some b) (l.filter fun a => (f a).isSome) (l.filterMap f) := by
  induction l with
  | nil => exact .nil
  | cons a l ih =>
    cases hf : f a with
    | none => simpa [hf] using ih
    | some b => simpa [hf] using ih

theorem routes_serve (v : View) (a : Method) (targets : Ascending Method) :
    v.Serves a targets (v.routes a targets) := by
  have hspans := v.callTree_spans a
  constructor
  · rw [routes_eq]
    refine ⟨targets.toList.filter _, ?ascending, fun t => ?reached,
      (forall₂_filterMap _ targets.toList).imp fun t route hroute => ?shortest⟩
    case ascending =>
      exact (targets.sorted.imp fun h => Nat.compare_eq_lt.mp h).filter _
    case reached =>
      rw [List.mem_filter, ← Ascending.mem_iff, Option.isSome_map, SearchTree.pathTo?,
        Option.isSome_map, hspans.visit?_isSome_iff]
    case shortest =>
      obtain ⟨p, hp, rfl⟩ := Option.map_eq_some_iff.mp hroute
      exact hspans.pathTo?_eq_some hp
  · rw [routes_eq, List.mem_filterMap]
    constructor
    · intro ha
      obtain ⟨p, hp⟩ := hspans.pathTo?_isSome (.here (r := v.Calls))
      have hone := (hspans.pathTo?_eq_some hp).eq_singleton
      exact ⟨a, ha, by rw [hp, hone]; rfl⟩
    · rintro ⟨t, ht, hroute⟩
      obtain ⟨p, hp, he⟩ := Option.map_eq_some_iff.mp hroute
      cases he
      have hlast := (hspans.pathTo?_eq_some hp).last
      cases hlast
      exact ht

end View

/-- A search whose nodes never fail and of which finitely many can be reached ends with a tree that
answers by shortest walks, and so does every bounded one with room for them.  The routes along calls
are one shortest route to each target that can be reached. -/
theorem explore_shortest (hok : ∀ n, ∃ ns, next n = .ok ns)
    (hfin : (reachable next start).Finite) (v : View) (m : Method) (targets : Ascending Method) :
    (∃ t : SearchTree N, Ends next [] [⟨start, []⟩] (.ok t.visits) ∧
      (∀ limit, t.size ≤ limit → explore limit next start = .ok t) ∧
      t.Exact (Follows next) start) ∧
      v.Serves m targets (v.routes m targets) := by
  refine ⟨?_, v.routes_serve m targets⟩
  have hends : ∀ {limit}, (reachable next start).ncard ≤ limit →
      ∃ t, explore limit next start = .ok t ∧ Ends next [] [⟨start, []⟩] (.ok t.visits) := by
    intro limit hl
    obtain ⟨t, ht⟩ := explore_ok limit fun n _ _ => hok n
    have hends := ends_explore hfin hl
    rw [ht] at hends
    exact ⟨t, ht, hends⟩
  obtain ⟨t, ht, he⟩ := hends (Nat.le_refl _)
  have hexact : t.Exact (Follows next) start := by
    rw [tree_eq ht]
    exact he.exact
  refine ⟨t, he, fun limit hl => ?_, hexact⟩
  obtain ⟨u, hu, hue⟩ := hends (hexact.size ▸ hl)
  rw [hu, tree_eq hu, tree_eq ht, Except.ok.inj (he.unique hue)]

def circle : Nat → Except Empty (List Nat)
  | 0 => .ok [0, 1, 4, 1]
  | 1 => .ok [2]
  | 2 => .ok [3]
  | 3 => .ok [0]
  | 4 => .ok [3]
  | _ => .ok []

theorem explore_shortest_circle : (∀ n, ∃ ns, circle n = .ok ns) ∧ (reachable circle 0).Finite ∧
    ∃ t : SearchTree Nat, Ends circle [] [⟨0, []⟩] (.ok t.visits) ∧
      t.Exact (Follows circle) 0 ∧ t.pathTo? 3 = some [0, 4, 3] ∧ t.distanceTo 5 = .unreachable ∧
      helperTwice.view.Serves ⟨0⟩ (.ofList [⟨1⟩, ⟨0⟩]) [⟨[⟨0⟩]⟩, ⟨[⟨0⟩, ⟨1⟩]⟩] := by
  have hok : ∀ n, ∃ ns, circle n = .ok ns := by
    intro n
    unfold circle
    split <;> exact ⟨_, rfl⟩
  obtain ⟨hfin, hcard⟩ : (reachable circle 0).Finite ∧ (reachable circle 0).ncard ≤ 5 :=
    have hclosed : ∀ a ∈ ({0, 1, 2, 3, 4} : Finset Nat), ∀ b ∈ opened circle a,
        b ∈ ({0, 1, 2, 3, 4} : Finset Nat) := by decide
    reachable_bounded (by decide) hclosed
  obtain ⟨⟨t, hends, hexplore, hexact⟩, hroutes⟩ :=
    explore_shortest hok hfin helperTwice.view ⟨0⟩ (.ofList [⟨1⟩, ⟨0⟩])
  have ht : explore 5 circle 0 = .ok t := hexplore 5 (hexact.size ▸ hcard)
  have hcircle : explore 5 circle 0 = .ok ⟨0, _⟩ := rfl
  obtain rfl := Except.ok.inj (ht.symm.trans hcircle)
  exact ⟨hok, hfin, _, hends, hexact, rfl, rfl, hroutes⟩

end PathExplorer
