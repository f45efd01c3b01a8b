import Mathlib.Data.List.Nodup
import Mathlib.Data.List.Perm.Subperm
import PathExplorer.Distinct
import PathExplorer.Proofs.Metric.Measure
import PathExplorer.Proofs.Search.Walk
import PathExplorer.Search.Breadth

namespace PathExplorer

variable {N ε : Type} {next : N → Except ε (List N)} {start : N} {done queue : List (Visit N)}
  {v : Visit N} {ns : List N}

def Follows (next : N → Except ε (List N)) (a b : N) : Prop := ∃ ns, next a = .ok ns ∧ b ∈ ns

/-- What holds of a search between two expansions.  The queue spans two distances at most, so
whatever an expansion meets again is not farther than it would be from there. -/
structure Progress (next : N → Except ε (List N)) (start : N) (done queue : List (Visit N)) :
    Prop where
  nodup : ((done ++ queue).map Visit.node).Nodup
  path : ∀ u ∈ done ++ queue, IsPath (Follows next) start u.node u.path
  root : ∃ u ∈ done ++ queue, u.node = start ∧ u.distance = 0
  closed : ∀ v ∈ done, ∃ ns, next v.node = .ok ns ∧
    ∀ n ∈ ns, ∃ u ∈ done ++ queue, u.node = n ∧ u.distance ≤ v.distance + 1
  ordered : queue.Pairwise fun u v => u.distance ≤ v.distance
  near : ∀ v ∈ queue, ∀ u ∈ done ++ queue, u.distance ≤ v.distance + 1

structure SearchTree.Spans [DecidableEq N] (t : SearchTree N) (r : N → N → Prop) (a : N) :
    Prop where
  start : t.start = a
  sound : ∀ u ∈ t.visits, IsShortest r a u.node u.path
  complete : ∀ n k, Walk r a n k → ∃ u ∈ t.visits, u.node = n

theorem Visit.length_path (v : Visit N) : v.path.length = v.distance + 1 := by
  simp [Visit.path, Visit.distance]

section Discover

variable [DecidableEq N] {seen : List (Visit N)} {u : Visit N}

theorem map_node_discover (seen : List (Visit N)) (v : Visit N) (ns : List N) :
    (discover seen v ns).map Visit.node =
      (ns.filter fun n => seen.all (·.node ≠ n)).eraseDups := by
  simp [discover, Function.comp_def]

theorem mem_discover :
    u ∈ discover seen v ns ↔
      u.node ∈ ns ∧ (∀ w ∈ seen, w.node ≠ u.node) ∧ u.behind = v.node :: v.behind := by
  simp only [discover, List.mem_map, List.mem_eraseDups, List.mem_filter, List.all_eq_true,
    decide_eq_true_eq]
  constructor
  · rintro ⟨n, ⟨hn, hs⟩, rfl⟩
    exact ⟨hn, hs, rfl⟩
  · rintro ⟨hn, hs, hb⟩
    exact ⟨u.node, ⟨hn, hs⟩, by cases u; cases hb; rfl⟩

theorem path_of_mem_discover (h : u ∈ discover seen v ns) : u.path = v.path ++ [u.node] := by
  simp [Visit.path, (mem_discover.mp h).2.2]

theorem distance_of_mem_discover (h : u ∈ discover seen v ns) : u.distance = v.distance + 1 := by
  simp [Visit.distance, (mem_discover.mp h).2.2]

theorem nodup_append_discover (h : (seen.map Visit.node).Nodup) :
    ((seen ++ discover seen v ns).map Visit.node).Nodup := by
  rw [List.map_append]
  refine List.nodup_append.mpr ⟨h, ?_, ?_⟩
  · rw [map_node_discover]
    exact nodup_eraseDups _
  · intro n hn m hm
    obtain ⟨w, hw, rfl⟩ := List.mem_map.mp hn
    obtain ⟨u, hu, rfl⟩ := List.mem_map.mp hm
    exact (mem_discover.mp hu).2.1 w hw

theorem near_append_discover (h : ∀ u ∈ seen, u.distance ≤ v.distance + 1) :
    ∀ u ∈ seen ++ discover seen v ns, u.distance ≤ v.distance + 1 := by
  intro u hu
  obtain hu | hu := List.mem_append.mp hu
  · exact h u hu
  · exact Nat.le_of_eq (distance_of_mem_discover hu)

theorem exists_visit_of_mem {n : N} (hn : n ∈ ns) :
    ∃ u ∈ seen ++ discover seen v ns, u.node = n := by
  by_cases hs : ∃ u ∈ seen, u.node = n
  · obtain ⟨u, hu, rfl⟩ := hs
    exact ⟨u, List.mem_append_left _ hu, rfl⟩
  · have hu : (⟨n, v.node :: v.behind⟩ : Visit N) ∈ discover seen v ns :=
      mem_discover.mpr ⟨hn, fun u hu hun => hs ⟨u, hu, hun⟩, rfl⟩
    exact ⟨_, List.mem_append_right _ hu, rfl⟩

end Discover

namespace Progress

theorem initial (next : N → Except ε (List N)) (start : N) :
    Progress next start [] [⟨start, []⟩] where
  nodup := by simp
  path := by simpa [Visit.path] using IsPath.singleton (Follows next) start
  root := ⟨⟨start, []⟩, by simp, rfl, rfl⟩
  closed := by simp
  ordered := by simp
  near := by simp

theorem expand [DecidableEq N] (h : Progress next start done (v :: queue))
    (hn : next v.node = .ok ns) :
    Progress next start (done ++ [v]) (queue ++ discover (done ++ v :: queue) v ns) := by
  have he : (done ++ [v]) ++ (queue ++ discover (done ++ v :: queue) v ns) =
      (done ++ v :: queue) ++ discover (done ++ v :: queue) v ns := by simp
  have hq : ∀ u ∈ queue, v.distance ≤ u.distance := (List.pairwise_cons.mp h.ordered).1
  have hd : ∀ u ∈ discover (done ++ v :: queue) v ns, u.distance = v.distance + 1 :=
    fun u hu => distance_of_mem_discover hu
  have hnear : ∀ u ∈ (done ++ v :: queue) ++ discover (done ++ v :: queue) v ns,
      u.distance ≤ v.distance + 1 :=
    near_append_discover (h.near v (List.mem_cons_self ..))
  refine ⟨?nodup, ?path, ?root, ?closed, ?ordered, ?near⟩
  case nodup =>
    rw [he]
    exact nodup_append_discover h.nodup
  case path =>
    rw [he]
    intro u hu
    obtain hu | hu := List.mem_append.mp hu
    · exact h.path u hu
    · rw [path_of_mem_discover hu]
      exact (h.path v (by simp)).snoc ⟨ns, hn, (mem_discover.mp hu).1⟩
  case root =>
    rw [he]
    obtain ⟨u, hu, hs⟩ := h.root
    exact ⟨u, List.mem_append_left _ hu, hs⟩
  case closed =>
    rw [he]
    intro w hw
    obtain hw | hw := List.mem_append.mp hw
    · obtain ⟨ms, hms, hc⟩ := h.closed w hw
      refine ⟨ms, hms, fun n hn => ?_⟩
      obtain ⟨u, hu, hun⟩ := hc n hn
      exact ⟨u, List.mem_append_left _ hu, hun⟩
    · cases List.mem_singleton.mp hw
      refine ⟨ns, hn, fun n hnn => ?_⟩
      obtain ⟨u, hu, hun⟩ := exists_visit_of_mem hnn
      exact ⟨u, hu, hun, hnear u hu⟩
  case ordered =>
    refine List.pairwise_append.mpr ⟨(List.pairwise_cons.mp h.ordered).2, ?_, ?_⟩
    · apply List.pairwise_of_forall_mem_list
      intro u hu w hw
      rw [hd u hu, hd w hw]
    · intro u hu w hw
      rw [hd w hw]
      exact h.near v (List.mem_cons_self ..) u (by simp [hu])
  case near =>
    rw [he]
    intro w hw u hu
    have := hnear u hu
    obtain hw | hw := List.mem_append.mp hw
    · have := hq w hw
      omega
    · have := hd w hw
      omega

/-- No more nodes are met than there are, if the ways from `start` stay in `nodes`. -/
theorem length_le (h : Progress next start done queue) {nodes : List N} (hs : start ∈ nodes)
    (hc : ∀ a b, a ∈ nodes → Follows next a b → b ∈ nodes) :
    (done ++ queue).length ≤ nodes.length := by
  have hsub : (done ++ queue).map Visit.node ⊆ nodes := by
    intro n hn
    obtain ⟨u, hu, rfl⟩ := List.mem_map.mp hn
    exact (h.path u hu).walk.mem hs hc
  simpa using (List.subperm_of_subset h.nodup hsub).length_le

end Progress

theorem expand_progress [DecidableEq N] {nodes : List N} (hs : start ∈ nodes)
    (hc : ∀ a b, a ∈ nodes → Follows next a b → b ∈ nodes) (limit : Nat)
    (h : Progress next start done queue) (hl : nodes.length ≤ done.length + limit)
    {found : List (Visit N)} (hf : expand next limit done queue = .ok found) :
    Progress next start found [] := by
  induction limit generalizing done queue with
  | zero =>
    cases queue with
    | nil =>
      cases hf
      exact h
    | cons v queue =>
      have := h.length_le hs hc
      simp only [List.length_append, List.length_cons] at this
      omega
  | succ limit ih =>
    cases queue with
    | nil =>
      cases hf
      exact h
    | cons v queue =>
      cases hn : next v.node with
      | error e => simp [expand, hn, bind, Except.bind] at hf
      | ok ns =>
        refine ih (h.expand hn) ?_ ?_
        · simp only [List.length_append, List.length_singleton]
          omega
        · simpa [expand, hn, bind, Except.bind] using hf

theorem expand_ok [DecidableEq N]
    (hok : ∀ n k, Walk (Follows next) start n k → ∃ ns, next n = .ok ns)
    (limit : Nat) (h : Progress next start done queue) :
    ∃ found, expand next limit done queue = .ok found := by
  induction limit generalizing done queue with
  | zero => cases queue <;> exact ⟨_, rfl⟩
  | succ limit ih =>
    cases queue with
    | nil => exact ⟨_, rfl⟩
    | cons v queue =>
      obtain ⟨ns, hn⟩ := hok _ _ (h.path v (by simp)).walk
      obtain ⟨found, hf⟩ := ih (h.expand hn)
      exact ⟨found, by simpa [expand, hn, bind, Except.bind] using hf⟩

/-- A search that has nothing left to expand met every node at its distance at most. -/
theorem Progress.reaches (h : Progress next start done []) {n : N} {k : Nat}
    (hw : Walk (Follows next) start n k) : ∃ u ∈ done, u.node = n ∧ u.distance ≤ k := by
  induction hw with
  | here =>
    obtain ⟨u, hu, hs, hz⟩ := h.root
    exact ⟨u, by simpa using hu, hs, Nat.le_of_eq hz⟩
  | step _ hr ih =>
    obtain ⟨u, hu, rfl, hk⟩ := ih
    obtain ⟨ns, hn, hc⟩ := h.closed u hu
    obtain ⟨ms, hm, hb⟩ := hr
    rw [hn] at hm
    cases hm
    obtain ⟨w, hw, hwn, hd⟩ := hc _ hb
    exact ⟨w, by simpa using hw, hwn, by omega⟩

section Explore

variable [DecidableEq N] {limit : Nat} {t : SearchTree N}

/-- A search that has nothing left to expand met each node that can be reached by a shortest
path. -/
theorem Progress.spans (h : Progress next start done []) :
    (SearchTree.mk start done).Spans (Follows next) start := by
  refine ⟨rfl, fun u hu => ⟨h.path u (by simpa using hu), fun k hk => ?_⟩, fun n k hk => ?_⟩
  · obtain ⟨w, hw, hwn, hd⟩ := h.reaches hk
    have huw : w = u := List.inj_on_of_nodup_map h.nodup (by simpa using hw) (by simpa using hu) hwn
    rw [Visit.length_path, ← huw]
    omega
  · obtain ⟨u, hu, hn, -⟩ := h.reaches hk
    exact ⟨u, hu, hn⟩

theorem explore_eq (limit : Nat) (next : N → Except ε (List N)) (start : N) :
    explore limit next start = (expand next limit [] [⟨start, []⟩]).map (SearchTree.mk start) := by
  unfold explore
  cases expand next limit [] [⟨start, []⟩] <;> rfl

theorem tree_eq (h : explore limit next start = .ok t) : t = ⟨start, t.visits⟩ := by
  rw [explore_eq] at h
  cases hf : expand next limit [] [⟨start, []⟩] with
  | error e =>
    rw [hf] at h
    cases h
  | ok found =>
    rw [hf] at h
    cases h
    rfl

theorem map_visits_explore (limit : Nat) (next : N → Except ε (List N)) (start : N) :
    (explore limit next start).map SearchTree.visits = expand next limit [] [⟨start, []⟩] := by
  rw [explore_eq]
  cases expand next limit [] [⟨start, []⟩] <;> rfl

theorem explore_ok (limit : Nat)
    (hok : ∀ n k, Walk (Follows next) start n k → ∃ ns, next n = .ok ns) :
    ∃ t, explore limit next start = .ok t := by
  obtain ⟨found, hf⟩ := expand_ok hok limit (.initial next start)
  exact ⟨⟨start, found⟩, by rw [explore_eq, hf]; rfl⟩

/-- A search with room for all that can be reached from `start` finds it by shortest paths. -/
theorem explore_spans (h : explore limit next start = .ok t) {nodes : List N}
    (hs : start ∈ nodes) (hc : ∀ a b, a ∈ nodes → Follows next a b → b ∈ nodes)
    (hl : nodes.length ≤ limit) : t.Spans (Follows next) start := by
  rw [explore_eq] at h
  cases hf : expand next limit [] [⟨start, []⟩] with
  | error e =>
    rw [hf] at h
    cases h
  | ok found =>
    rw [hf] at h
    cases h
    exact (expand_progress hs hc limit (.initial next start) (by simpa using hl) hf).spans

end Explore

namespace SearchTree.Spans

variable [DecidableEq N] {t : SearchTree N} {r : N → N → Prop} {a n : N}

theorem visit?_eq_some (h : t.Spans r a) {u : Visit N} (hu : t.visit? n = some u) :
    u.node = n ∧ IsShortest r a n u.path := by
  have hn : u.node = n := by simpa using List.find?_some hu
  exact ⟨hn, hn ▸ h.sound u (List.mem_of_find?_eq_some hu)⟩

theorem visit?_eq_none (h : t.Spans r a) (hu : t.visit? n = none) (k : Nat) : ¬ Walk r a n k := by
  intro hk
  obtain ⟨u, hm, hn⟩ := h.complete n k hk
  exact List.find?_eq_none.mp hu u hm (by simpa using hn)

theorem measures_distanceTo (h : t.Spans r a) (n : N) : (t.distanceTo n).Measures (Walk r a n) := by
  unfold distanceTo
  cases hu : t.visit? n with
  | none => exact .of_none (h.visit?_eq_none hu)
  | some u =>
    have hs := (h.visit?_eq_some hu).2.isLeast
    rw [Visit.length_path, Nat.add_sub_cancel] at hs
    exact .of_isLeast hs

theorem pathTo?_eq_some (h : t.Spans r a) {p : List N} (hp : t.pathTo? n = some p) :
    IsShortest r a n p := by
  obtain ⟨u, hu, rfl⟩ := Option.map_eq_some_iff.mp hp
  exact (h.visit?_eq_some hu).2

theorem pathTo?_isSome (h : t.Spans r a) {k : Nat} (hk : Walk r a n k) :
    ∃ p, t.pathTo? n = some p := by
  cases hu : t.visit? n with
  | none => exact absurd hk (h.visit?_eq_none hu k)
  | some u => exact ⟨u.path, by rw [pathTo?, hu]; rfl⟩

end SearchTree.Spans

end PathExplorer
