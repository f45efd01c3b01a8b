import PathExplorer.Proofs.Search.Halting

namespace PathExplorer

variable {N ε : Type} {next : N → Except ε (List N)} {start n : N} {d : Nat}

namespace Discovery

variable [DecidableEq N]

def fresh (next : N → Except ε (List N)) (known nodes : List N) : List N :=
  ((nodes.flatMap (opened next)).filter (· ∉ known)).eraseDups

/-- The nodes nearer than `d`, and those at the distance `d`, in the order of discovery. -/
def rings (next : N → Except ε (List N)) (start : N) : Nat → List N × List N
  | 0 => ([], [start])
  | d + 1 =>
    let (inside, ring) := rings next start d
    (inside ++ ring, fresh next (inside ++ ring) ring)

def inside (next : N → Except ε (List N)) (start : N) (d : Nat) : List N := (rings next start d).1

def ring (next : N → Except ε (List N)) (start : N) (d : Nat) : List N := (rings next start d).2

theorem inside_succ (next : N → Except ε (List N)) (start : N) (d : Nat) :
    inside next start (d + 1) = inside next start d ++ ring next start d := rfl

theorem ring_succ (next : N → Except ε (List N)) (start : N) (d : Nat) :
    ring next start (d + 1) = fresh next (inside next start (d + 1)) (ring next start d) := rfl

section Fresh

variable {known nodes ns : List N}

theorem mem_fresh_iff :
    n ∈ fresh next known nodes ↔ (∃ m ∈ nodes, Follows next m n) ∧ n ∉ known := by
  simp [fresh, mem_opened]

theorem fresh_concat {m : N} (hm : next m = .ok ns) :
    fresh next known (nodes ++ [m]) = fresh next known nodes ++
      (ns.filter (· ∉ known ++ fresh next known nodes)).eraseDups := by
  have hns : opened next m = ns := by
    rw [opened, hm]
    rfl
  have hnew : ∀ old, (ns.filter (· ∉ known)).removeAll old =
      ns.filter (· ∉ known ++ old.eraseDups) := by
    intro old
    rw [List.removeAll, List.filter_filter]
    apply List.filter_congr
    intro x _
    simp [Bool.and_comm]
  rw [fresh, List.flatMap_append, List.filter_append, List.eraseDups_append, List.flatMap_singleton,
    hns, hnew]
  rfl

end Fresh

theorem mem_inside_iff_of_ring
    (h : ∀ n, n ∈ ring next start d ↔ IsLeast {k | Walk (Follows next) start n k} d)
    (hi : n ∈ inside next start d ↔ ∃ k < d, Walk (Follows next) start n k) :
    n ∈ inside next start (d + 1) ↔ ∃ k < d + 1, Walk (Follows next) start n k := by
  rw [inside_succ, List.mem_append, hi, h]
  constructor
  · rintro (⟨k, hk, hw⟩ | hd)
    · exact ⟨k, Nat.lt_succ_of_lt hk, hw⟩
    · exact ⟨d, Nat.lt_succ_self d, hd.1⟩
  · rintro ⟨k, hk, hw⟩
    by_cases hnear : ∃ j < d, Walk (Follows next) start n j
    · exact .inl hnear
    · have hleast : ∀ j, Walk (Follows next) start n j → d ≤ j := by
        intro j hj
        by_contra hlt
        exact hnear ⟨j, Nat.lt_of_not_le hlt, hj⟩
      have hkd : k = d := Nat.le_antisymm (Nat.le_of_lt_succ hk) (hleast k hw)
      exact .inr ⟨hkd ▸ hw, fun j hj => hleast j hj⟩

/-- A ring holds exactly the nodes at its distance. -/
theorem mem_inside_and_ring (next : N → Except ε (List N)) (start : N) (d : Nat) :
    (∀ n, n ∈ inside next start d ↔ ∃ k < d, Walk (Follows next) start n k) ∧
      ∀ n, n ∈ ring next start d ↔ IsLeast {k | Walk (Follows next) start n k} d := by
  induction d with
  | zero =>
    refine ⟨fun n => ?_, fun n => ?_⟩
    · simp [inside, rings]
    · change n ∈ [start] ↔ _
      rw [List.mem_singleton]
      constructor
      · rintro rfl
        exact ⟨.here, fun _ _ => Nat.zero_le _⟩
      · rintro ⟨hw, -⟩
        cases hw
        rfl
  | succ d ih =>
    have hinside : ∀ n, n ∈ inside next start (d + 1) ↔
        ∃ k < d + 1, Walk (Follows next) start n k :=
      fun n => mem_inside_iff_of_ring ih.2 (ih.1 n)
    refine ⟨hinside, fun n => ?_⟩
    rw [ring_succ, mem_fresh_iff, hinside]
    constructor
    · rintro ⟨⟨m, hm, hmn⟩, hfar⟩
      have hwm : Walk (Follows next) start m d := ((ih.2 m).mp hm).1
      refine ⟨hwm.step hmn, fun k hk => ?_⟩
      by_contra hlt
      exact hfar ⟨k, Nat.lt_of_not_le hlt, hk⟩
    · rintro ⟨hw, hleast⟩
      have hfar : ¬ ∃ k < d + 1, Walk (Follows next) start n k :=
        fun ⟨k, hlt, hk⟩ => Nat.not_lt_of_le (hleast hk) hlt
      refine ⟨?_, hfar⟩
      cases hw with
      | @step m _ _ hm hmn =>
        refine ⟨m, (ih.2 m).mpr ⟨hm, fun k (hk : Walk (Follows next) start m k) => ?_⟩, hmn⟩
        by_contra hlt
        exact hfar ⟨k + 1, Nat.succ_lt_succ (Nat.lt_of_not_le hlt), hk.step hmn⟩

theorem mem_inside_iff : n ∈ inside next start d ↔ ∃ k < d, Walk (Follows next) start n k :=
  (mem_inside_and_ring next start d).1 n

theorem mem_ring_iff : n ∈ ring next start d ↔ IsLeast {k | Walk (Follows next) start n k} d :=
  (mem_inside_and_ring next start d).2 n

end Discovery

open Discovery

variable [DecidableEq N] {done queue : List (Visit N)} {e : ε}

/-- The node fails so, at the least distance at which any does, and before all others at this
distance in the order of discovery. -/
structure FailsFirst (next : N → Except ε (List N)) (start n : N) (e : ε) : Prop where
  fails : next n = .error e
  foremost : ∃ d, IsLeast {k | Walk (Follows next) start n k} d ∧
    (∀ m k f, Walk (Follows next) start m k → next m = .error f → d ≤ k) ∧
    (ring next start d).find? (fun m => !(next m).isOk) = some n

theorem FailsFirst.unique {m : N} {f : ε} (h : FailsFirst next start n e)
    (hm : FailsFirst next start m f) : n = m ∧ e = f := by
  obtain ⟨hn, d, hd, hnear, hfirst⟩ := h
  obtain ⟨hm, k, hk, hnear', hfirst'⟩ := hm
  have hdk : d = k := Nat.le_antisymm (hnear _ _ _ hk.1 hm) (hnear' _ _ _ hd.1 hn)
  subst hdk
  rw [hfirst] at hfirst'
  cases hfirst'
  rw [hn] at hm
  cases hm
  exact ⟨rfl, rfl⟩

/-- A search in a ring: what is inside has been expanded and the first nodes of the ring too, and
the rest of it waits before what these led to. -/
structure InRing (next : N → Except ε (List N)) (start : N) (d : Nat) (past rest : List N)
    (done queue : List (Visit N)) : Prop where
  ring : ring next start d = past ++ rest
  done : done.map Visit.node = inside next start d ++ past
  queue : queue.map Visit.node = rest ++ fresh next (inside next start (d + 1)) past
  ok : ∀ m ∈ inside next start d ++ past, ∃ ns, next m = .ok ns

namespace InRing

variable {past rest ns : List N} {v : Visit N}

theorem initial (next : N → Except ε (List N)) (start : N) :
    InRing next start 0 [] [start] [] [⟨start, []⟩] where
  ring := rfl
  done := rfl
  queue := rfl
  ok _ hm := by cases hm

/-- At the end of a ring the next one begins. -/
theorem turn (h : InRing next start d past [] done queue) :
    InRing next start (d + 1) [] (Discovery.ring next start (d + 1)) done queue := by
  have hring : Discovery.ring next start d = past := by rw [h.ring, List.append_nil]
  refine ⟨rfl, ?_, ?_, ?_⟩
  · rw [h.done, List.append_nil, inside_succ, hring]
  · rw [h.queue, ring_succ, hring]
    simp [fresh]
  · rw [List.append_nil, inside_succ, hring]
    exact h.ok

theorem expand (h : InRing next start d past (n :: rest) done (v :: queue))
    (hn : next v.node = .ok ns) :
    InRing next start d (past ++ [n]) rest (done ++ [v])
      (queue ++ discover (done ++ v :: queue) v ns) := by
  obtain ⟨hv, hq⟩ := List.cons.inj h.queue
  have hv : v.node = n := hv
  have hq : queue.map Visit.node = rest ++ fresh next (inside next start (d + 1)) past := hq
  have hknown : (done ++ v :: queue).map Visit.node =
      inside next start (d + 1) ++ fresh next (inside next start (d + 1)) past := by
    rw [List.map_append, h.done, List.map_cons, hv, hq, inside_succ, h.ring]
    simp
  refine ⟨?_, ?_, ?_, ?_⟩
  · rw [h.ring, List.append_assoc, List.singleton_append]
  · rw [List.map_append, h.done, List.map_singleton, hv, List.append_assoc]
  · have hseen : ∀ x, ((done ++ v :: queue).all fun w => decide (w.node ≠ x)) =
        decide (x ∉ (done ++ v :: queue).map Visit.node) := by
      intro x
      rw [Bool.eq_iff_iff]
      simp only [List.all_eq_true, decide_eq_true_eq, List.mem_map, not_exists, not_and]
    rw [List.map_append, hq, map_node_discover, fresh_concat (hv ▸ hn), List.append_assoc]
    simp only [hseen, hknown]
  · rw [← List.append_assoc]
    intro m hm
    obtain hm | hm := List.mem_append.mp hm
    · exact h.ok m hm
    · cases List.mem_singleton.mp hm
      exact ⟨ns, hv ▸ hn⟩

theorem failsFirst (h : InRing next start d past (n :: rest) done queue) (hn : next n = .error e) :
    FailsFirst next start n e := by
  have hmem : n ∈ Discovery.ring next start d := by
    rw [h.ring]
    simp
  refine ⟨hn, d, mem_ring_iff.mp hmem, fun m k f hk hm => ?_, ?_⟩
  · by_contra hlt
    have hin : m ∈ inside next start d := mem_inside_iff.mpr ⟨k, Nat.lt_of_not_le hlt, hk⟩
    obtain ⟨ns, hns⟩ := h.ok m (List.mem_append_left _ hin)
    rw [hm] at hns
    cases hns
  · rw [h.ring]
    refine List.find?_eq_some_iff_append.mpr ⟨by rw [hn]; rfl, past, rest, rfl, fun m hm => ?_⟩
    obtain ⟨ns, hns⟩ := h.ok m (List.mem_append_right _ hm)
    rw [hns]
    rfl

theorem exists_cons (h : InRing next start d past rest done (v :: queue)) :
    ∃ d past rest, InRing next start d past (v.node :: rest) done (v :: queue) := by
  cases rest with
  | cons n rest =>
    have hv : v.node = n := (List.cons.inj h.queue).1
    exact ⟨d, past, rest, hv ▸ h⟩
  | nil =>
    have ht := h.turn
    have hq := ht.queue
    cases hr : Discovery.ring next start (d + 1) with
    | nil =>
      rw [hr] at hq
      simp [fresh] at hq
    | cons n rest =>
      rw [hr] at ht hq
      have hv : v.node = n := (List.cons.inj hq).1
      exact ⟨d + 1, [], rest, hv ▸ ht⟩

end InRing

/-- A search fails with the fault of the node that fails first. -/
theorem Ends.failsFirst {past rest : List N} (h : Ends next done queue (.error e))
    (hr : InRing next start d past rest done queue) : ∃ n, FailsFirst next start n e := by
  generalize ho : (Except.error e : Except ε (List (Visit N))) = outcome at h
  induction h generalizing d past rest with
  | exhausted => cases ho
  | failed he =>
    cases ho
    obtain ⟨_, _, _, hr⟩ := hr.exists_cons
    exact ⟨_, hr.failsFirst he⟩
  | expanded hn _ ih =>
    obtain ⟨_, _, _, hr⟩ := hr.exists_cons
    exact ih (hr.expand hn) ho

theorem Ends.reachable_ok {found : List (Visit N)} (h : Ends next [] [⟨start, []⟩] (.ok found))
    (hn : n ∈ reachable next start) : ∃ ns, next n = .ok ns := by
  have hp := h.progress (.initial next start)
  obtain ⟨k, hk⟩ := hn
  obtain ⟨u, hu, rfl, -⟩ := hp.reaches hk
  obtain ⟨ns, hns, -⟩ := hp.closed u hu
  exact ⟨ns, hns⟩

/-- Searches that are told the same of every node they can get to end in the same way. -/
theorem Ends.congr {other : N → Except ε (List N)} {outcome : Except ε (List (Visit N))}
    (h : Ends next done queue outcome) (hp : Progress next start done queue)
    (hsame : ∀ n ∈ reachable next start, other n = next n) : Ends other done queue outcome := by
  have hqueue : ∀ {done queue v}, Progress next start done (v :: queue) →
      other v.node = next v.node :=
    fun hp => hsame _ ⟨_, (hp.path _ (by simp)).walk⟩
  induction h with
  | exhausted => exact .exhausted
  | failed he => exact .failed ((hqueue hp).trans he)
  | expanded hn _ ih => exact .expanded ((hqueue hp).trans hn) (ih (hp.expand hn))

theorem explore_congr (hfin : (reachable next start).Finite) {limit : Nat}
    (hl : (reachable next start).ncard ≤ limit) {other : N → Except ε (List N)}
    (hsame : ∀ n ∈ reachable next start, other n = next n) :
    explore limit other start = explore limit next start := by
  have hsub := reachable_subset hsame
  have hother : Ends other [] [⟨start, []⟩] ((explore limit other start).map SearchTree.visits) :=
    ends_explore (hfin.subset hsub) ((Set.ncard_le_ncard hsub hfin).trans hl)
  have hnext := (ends_explore hfin hl).congr (.initial next start) hsame
  have hvisits := hother.unique hnext
  rw [map_visits_explore, map_visits_explore] at hvisits
  rw [explore_eq, explore_eq, hvisits]

/-- Of a search with room for what it can get to: it fails exactly if it can get to a node that
does, with the fault of the one that fails first in the order of discovery.  If it can get to no
such node, it finds what a search finds that fails nowhere and is told the same of what it can get
to. -/
theorem explore_fails_first (hfin : (reachable next start).Finite) {limit : Nat}
    (hl : (reachable next start).ncard ≤ limit) :
    Ends next [] [⟨start, []⟩] ((explore limit next start).map SearchTree.visits) ∧
      ((∃ e, explore limit next start = .error e) ↔
        ∃ n ∈ reachable next start, ∃ e, next n = .error e) ∧
      (∀ e, explore limit next start = .error e ↔ ∃ n, FailsFirst next start n e) ∧
      ∀ succ : N → List N, (∀ n ∈ reachable next start, next n = .ok (succ n)) →
        ∃ t, explore limit next start = .ok t ∧
          explore limit (fun n => (.ok (succ n) : Except ε (List N))) start = .ok t := by
  have hends := ends_explore hfin hl
  have hfails : ∀ e, explore limit next start = .error e → ∃ n, FailsFirst next start n e := by
    intro e he
    rw [he] at hends
    exact hends.failsFirst (.initial next start)
  have hmeets : ∀ n ∈ reachable next start, ∀ f, next n = .error f →
      ∃ e, explore limit next start = .error e := by
    intro n hn f hf
    cases he : explore limit next start with
    | error e => exact ⟨e, rfl⟩
    | ok t =>
      rw [he] at hends
      obtain ⟨ns, hns⟩ := hends.reachable_ok hn
      rw [hf] at hns
      cases hns
  have hreach : ∀ {n e}, FailsFirst next start n e → n ∈ reachable next start := by
    rintro n e ⟨-, d, hd, -⟩
    exact ⟨d, hd.1⟩
  refine ⟨hends, ⟨?_, ?_⟩, fun e => ⟨hfails e, ?_⟩, fun succ hsucc => ?_⟩
  · rintro ⟨e, he⟩
    obtain ⟨n, hn⟩ := hfails e he
    exact ⟨n, hreach hn, e, hn.fails⟩
  · rintro ⟨n, hn, f, hf⟩
    exact hmeets n hn f hf
  · rintro ⟨n, hn⟩
    obtain ⟨f, hf⟩ := hmeets n (hreach hn) e hn.fails
    obtain ⟨m, hm⟩ := hfails f hf
    rw [hf, (hn.unique hm).2]
  · obtain ⟨t, ht⟩ := explore_ok limit fun n k hk => ⟨_, hsucc n ⟨k, hk⟩⟩
    exact ⟨t, ht, (explore_congr hfin hl fun n hn => (hsucc n hn).symm).trans ht⟩

def rocks : Nat → Except Nat (List Nat)
  | 0 => .ok [2, 1]
  | 1 => .ok [3]
  | 2 => .ok [4, 0]
  | 3 => .error 3
  | 4 => .error 4
  | n => .ok [n + 1]

/-- The search fails at the one of the two that was discovered first. -/
theorem explore_fails_first_rocks : (reachable rocks 0).Finite ∧ (reachable rocks 0).ncard ≤ 5 ∧
    explore 5 rocks 0 = .error 4 ∧ (∃ n ∈ reachable rocks 0, rocks n = .error 3) ∧
    FailsFirst rocks 0 4 4 := by
  obtain ⟨hfin, hcard⟩ : (reachable rocks 0).Finite ∧ (reachable rocks 0).ncard ≤ 5 :=
    have hclosed : ∀ a ∈ ({0, 1, 2, 3, 4} : Finset Nat), ∀ b ∈ opened rocks a,
        b ∈ ({0, 1, 2, 3, 4} : Finset Nat) := by decide
    reachable_bounded (by decide) hclosed
  obtain ⟨-, -, hfirst, -⟩ := explore_fails_first hfin hcard
  have hfails : explore 5 rocks 0 = .error 4 := rfl
  obtain ⟨n, hn⟩ := (hfirst 4).mp hfails
  have hthree : Walk (Follows rocks) 0 3 2 :=
    .step (b := 1) (.step .here ⟨[2, 1], rfl, by simp⟩) ⟨[3], rfl, by simp⟩
  refine ⟨hfin, hcard, hfails, ⟨3, ⟨2, hthree⟩, rfl⟩, ?_⟩
  have hfour : n = 4 := by
    have hf := hn.fails
    unfold rocks at hf
    split at hf <;> cases hf
    rfl
  exact hfour ▸ hn

end PathExplorer
