import PathExplorer.Proofs.Exploration.Derivation
import PathExplorer.Proofs.Exploration.Reached
import PathExplorer.Proofs.Exploration.Spreading
import PathExplorer.Proofs.Weighting.Direct

namespace PathExplorer

open scoped List

theorem Flow.nodup_next (f : Flow) (i : Nat) : (f.next i).Nodup := by
  refine (f.edges_nodup.filter _).map_on fun a ha b hb h => ?_
  have ha := of_decide_eq_true (List.mem_filter.mp ha).2
  have hb := of_decide_eq_true (List.mem_filter.mp hb).2
  exact Prod.ext (ha.trans hb.symm) (congrArg Stmt.index h)

namespace View

variable {v : View} {a r s t u : State} {c d : List Nat} {l all : List State}

theorem nodup_callees (h : v.calls.Nodup) (x : Stmt) : (v.callees x).Nodup := by
  refine (h.filter _).map_on fun b hb c hc he => ?_
  have hb := of_decide_eq_true (List.mem_filter.mp hb).2
  have hc := of_decide_eq_true (List.mem_filter.mp hc).2
  cases b
  cases c
  simp_all

theorem nodup_of_fallThrough {ts : List State} (h : v.fallThrough s = .ok ts) : ts.Nodup := by
  obtain ⟨f, -, h⟩ := bind_eq_ok_iff.mp h
  obtain ⟨next, hnext, h⟩ := bind_eq_ok_iff.mp h
  cases h
  have hn : next.Nodup := by
    by_cases hs : s.stmt ∈ f
    · rw [Flow.successors_of_mem hs] at hnext
      cases hnext
      exact f.nodup_next _
    · rw [Flow.successors, Flow.locate_of_not_mem hs] at hnext
      cases hnext
  exact (hn.filter _).map fun _ _ he => congrArg State.stmt he

theorem nodup_of_enterAll (hv : v.Lawful) {callees : List Method} (hc : callees.Nodup)
    {ts : List State} (h : v.enterAll s callees = .ok ts) : ts.Nodup := by
  refine nodup_of_mapM_eq_ok (hc.filter _) (fun m n x hm hn => ?_) h
  obtain ⟨f, hf, hm⟩ := bind_eq_ok_iff.mp hm
  obtain ⟨g, hg, hn⟩ := bind_eq_ok_iff.mp hn
  have hentry : s.enter f.entry = s.enter g.entry :=
    (pure_eq_ok_iff.mp hm).symm.trans (pure_eq_ok_iff.mp hn)
  -- A state that entered a method stands in it.
  calc m
    _ = f.entry.method := (hv m f hf).symm
    _ = g.entry.method := congrArg State.method hentry
    _ = n := hv n g hg

theorem nodup_of_successors (hv : v.Lawful) (hc : v.calls.Nodup) {ts : List State}
    (h : v.successors s = .ok ts) : ts.Nodup := by
  obtain ⟨f, -, h⟩ := bind_eq_ok_iff.mp h
  obtain ⟨k, -, h⟩ := bind_eq_ok_iff.mp h
  cases k with
  | plain => exact nodup_of_fallThrough h
  | call =>
    dsimp only at h
    split at h
    · exact nodup_of_fallThrough h
    · exact nodup_of_enterAll hv (nodup_callees hc _) h
  | ret =>
    dsimp only at h
    cases hr : s.resume? with
    | none =>
      rw [hr] at h
      cases h
      exact List.nodup_nil
    | some r =>
      rw [hr] at h
      exact nodup_of_fallThrough h
  | throw =>
    cases h
    exact List.nodup_nil

/-- A derivation of a state: for each step on the way, the place of the state that is taken among
the successors of the one before. -/
inductive Derives (v : View) (a : State) : List Nat → State → Prop
  | here : Derives v a [] a
  | step {choices : List Nat} {s t : State} {ts : List State} {i : Nat} : Derives v a choices s →
      v.successors s = .ok ts → ts[i]? = some t → Derives v a (choices ++ [i]) t

/-- The states are on different branches: neither path begins with the other. -/
def Apart (s t : State) : Prop := ¬ s.path <+: t.path ∧ ¬ t.path <+: s.path

theorem explored_iff_derives : v.Explored a s ↔ ∃ c, v.Derives a c s := by
  constructor
  · intro h
    induction h with
    | refl => exact ⟨[], .here⟩
    | tail _ hn ih =>
      obtain ⟨c, hc⟩ := ih
      obtain ⟨ts, hts, ht⟩ := hn
      obtain ⟨i, hi⟩ := List.mem_iff_getElem?.mp ht
      exact ⟨c ++ [i], hc.step hts hi⟩
  · rintro ⟨c, h⟩
    induction h with
    | here => exact .refl
    | step _ hts hi ih => exact ih.tail ⟨_, hts, List.mem_of_getElem? hi⟩

/-- The states before the last step of ways to one path are the same. -/
theorem eq_of_next (hs : v.Explored a s) (ht : v.Explored a t) (hr : v.Next s r) (hu : v.Next t u)
    (h : r.path = u.path) : s = t := by
  have hrs := hr.path_extends
  have hut := hu.path_extends
  rw [← State.length_path, ← State.length_path] at hrs hut
  -- One of the two comes of the other, and if it took a step its path would be too long.
  have hone : ∀ {x y z w : State}, v.Explored a x → v.Explored a y → v.Next x z → v.Next y w →
      z.path = w.path → x.path <+: y.path → x = y := by
    intro x y z w hx hy hz hw hzw hxy
    obtain rfl | ⟨b, hxb, hby⟩ := (explored_of_extends hx hy hxy).cases_head
    · rfl
    · have hyz := hzw ▸ hw.path_extends.1
      have hb := Explored.path_extends hby
      obtain rfl := hxb.unique hz (hb.trans hyz) List.prefix_rfl
      have hle := hb.length_le
      have hlt := hw.path_extends.2
      rw [← State.length_path, ← State.length_path, ← hzw] at hlt
      omega
  obtain hst | hts := List.prefix_or_prefix_of_prefix hrs.1 (h ▸ hut.1)
  · exact hone hs ht hr hu h hst
  · exact (hone ht hs hu hr h.symm hts).symm

theorem path_ne_of_next (hs : v.Explored a s) (hn : v.Next s t) : a.path ≠ t.path := by
  intro h
  have hle := (Explored.path_extends hs).length_le
  have hlt := hn.path_extends.2
  rw [← State.length_path, ← State.length_path, ← h] at hlt
  omega

/-- A path is that of one state, and of one derivation. -/
theorem Derives.unique (hv : v.Lawful) (hc : v.calls.Nodup) (hs : v.Derives a c s)
    (ht : v.Derives a d t) (h : s.path = t.path) : c = d ∧ s = t := by
  induction hs generalizing d t with
  | here =>
    cases ht with
    | here => exact ⟨rfl, rfl⟩
    | step hb hts hi =>
      have hn : v.Next _ t := ⟨_, hts, List.mem_of_getElem? hi⟩
      exact absurd h (path_ne_of_next (explored_iff_derives.mpr ⟨_, hb⟩) hn)
  | @step c s r ts i hs hts hi ih =>
    have hr : v.Next s r := ⟨ts, hts, List.mem_of_getElem? hi⟩
    have hes : v.Explored a s := explored_iff_derives.mpr ⟨c, hs⟩
    cases ht with
    | here => exact absurd h.symm (path_ne_of_next hes hr)
    | @step d s' _ ts' j hs' hts' hj =>
      have hu : v.Next s' t := ⟨ts', hts', List.mem_of_getElem? hj⟩
      obtain rfl := eq_of_next hes (explored_iff_derives.mpr ⟨d, hs'⟩) hr hu h
      obtain rfl := hr.unique hu (h ▸ List.prefix_rfl) List.prefix_rfl
      obtain ⟨rfl, -⟩ := ih hs' rfl
      cases hts.symm.trans hts'
      have hlt := (List.getElem?_eq_some_iff.mp hi).1
      obtain rfl := (List.getElem?_inj hlt (nodup_of_successors hv hc hts)).mp (hi.trans hj.symm)
      exact ⟨rfl, rfl⟩

section Branches

theorem pairwise_apart_of_successors (hv : v.Lawful) (hc : v.calls.Nodup) {ts : List State}
    (h : v.successors s = .ok ts) : ts.Pairwise Apart := by
  refine (nodup_of_successors hv hc h).imp_of_mem
    fun {t u} ht hu hne => ⟨fun hp => ?_, fun hp => ?_⟩
  · exact hne (Next.unique ⟨ts, h, ht⟩ ⟨ts, h, hu⟩ hp List.prefix_rfl)
  · exact hne (Next.unique ⟨ts, h, ht⟩ ⟨ts, h, hu⟩ List.prefix_rfl hp)

theorem Apart.path_ne (h : Apart s t) {y z : State} (hy : s.path <+: y.path)
    (hz : t.path <+: z.path) : y.path ≠ z.path := fun he =>
  (List.prefix_or_prefix_of_prefix hy (he ▸ hz)).elim h.1 h.2

theorem Unfolds.extends (h : v.Unfolds l all) : ∀ y ∈ all, ∃ s ∈ l, s.path <+: y.path := by
  induction h with
  | nil => simp
  | @cons s rest next below beside hs _ _ ihbelow ihbeside =>
    refine List.forall_mem_cons.mpr ⟨⟨s, by simp, List.prefix_rfl⟩, List.forall_mem_append.mpr
      ⟨fun y hy => ?_, fun y hy => ?_⟩⟩
    · obtain ⟨t, ht, hty⟩ := ihbelow y hy
      have hst : v.Next s t := ⟨next, hs, ht⟩
      exact ⟨s, by simp, hst.path_extends.1.trans hty⟩
    · obtain ⟨t, ht, hty⟩ := ihbeside y hy
      exact ⟨t, by simp [ht], hty⟩

/-- All states that come of states on different branches have different paths. -/
theorem Unfolds.nodup (hv : v.Lawful) (hc : v.calls.Nodup) (h : v.Unfolds l all)
    (hl : l.Pairwise Apart) : (all.map State.path).Nodup := by
  induction h with
  | nil => exact List.nodup_nil
  | @cons s rest next below beside hs hbelow hbeside ihbelow ihbeside =>
    obtain ⟨hsrest, hrest⟩ := List.pairwise_cons.mp hl
    have hunder : ∀ y ∈ below, s.path <+: y.path ∧ s.path ≠ y.path := by
      intro y hy
      obtain ⟨t, ht, hty⟩ := hbelow.extends y hy
      have hst : v.Next s t := ⟨next, hs, ht⟩
      refine ⟨hst.path_extends.1.trans hty, fun he => ?_⟩
      have hle := hty.length_le
      have hlt := hst.path_extends.2
      rw [← State.length_path, ← State.length_path, he] at hlt
      omega
    have haside : ∀ y ∈ beside, ∀ x : State, s.path <+: x.path → x.path ≠ y.path := by
      intro y hy x hx
      obtain ⟨t, ht, hty⟩ := hbeside.extends y hy
      exact (hsrest t ht).path_ne hx hty
    rw [List.map_cons, List.map_append]
    refine List.nodup_cons.mpr ⟨?first, List.nodup_append.mpr
      ⟨ihbelow (pairwise_apart_of_successors hv hc hs), ihbeside hrest, ?apart⟩⟩
    case first =>
      rw [List.mem_append, List.mem_map, List.mem_map]
      rintro (⟨y, hy, he⟩ | ⟨y, hy, he⟩)
      · exact (hunder y hy).2 he.symm
      · exact haside y hy s List.prefix_rfl he.symm
    case apart =>
      refine List.forall_mem_map.mpr fun x hx => List.forall_mem_map.mpr fun y hy => ?_
      exact haside y hy x (hunder x hx).1

end Branches

/-- No state is explored twice.  Of all states that come of one at a statement of a program, each is
derived in one way and no two have the same path, and no exploration polls two with the same. -/
theorem paths_distinct (p : Program) {x : Stmt} (hx : p.view.Locates x) :
    (∀ s, p.view.Explored (.root x) s ↔ ∃ c, p.view.Derives (.root x) c s) ∧
    (∀ c d s t, p.view.Derives (.root x) c s → p.view.Derives (.root x) d t → s.path = t.path →
      c = d ∧ s = t) ∧
    (∃ all, p.view.Unfolds [.root x] all ∧ (all.map State.path).Nodup) ∧
    ∀ (ω χ τ : Type) [Weighting ω] [ChoiceRule χ] [StopRule τ] (settings : ExplorationSettings)
      (goals : Registry) (w : ω) (rule : χ) (stop : τ) (rounds : Nat),
      let session := Session.fresh settings goals (Frontier.start w rule stop) (Walker.mk p.view)
      (((session.offerAll [.root x]).polled rounds).map State.path).Nodup := by
  have hc : p.view.calls.Nodup := p.calls_nodup
  obtain ⟨all, hall⟩ := exists_unfolds_one (State.placed_root hx)
  have hnodup := hall.nodup p.flow_lawful hc (List.pairwise_singleton ..)
  refine ⟨fun s => explored_iff_derives, fun c d s t => Derives.unique p.flow_lawful hc,
    ⟨all, hall, hnodup⟩, ?_⟩
  intro ω χ τ _ _ _ settings goals w rule stop rounds session
  have hspreads : (session.offerAll [.root x]).Spreads p.view all [] :=
    Session.spreads_offerAll (s := session) (v := p.view) rfl rfl rfl hall
  obtain ⟨left, -, hperm⟩ := (hspreads.runs (Session.runs rounds _)).left
  have hpaths := (hperm.map State.path).nodup_iff.mp hnodup
  rw [List.map_append] at hpaths
  exact hpaths.of_append_left

theorem paths_distinct_helperTwice :
    let session := Session.fresh { stepsLimit := none } TaintDistance.behindCall
      (Frontier.start Uniform.mk Lifo.mk NeverStop.mk) (Walker.mk helperTwice.view)
    let polled := (session.offerAll [.root ⟨⟨0⟩, 0⟩]).polled 20
    polled.length = 8 ∧ ¬ (polled.map State.stmt).Nodup ∧ (polled.map State.path).Nodup := by
  have hx : helperTwice.view.Locates ⟨⟨0⟩, 0⟩ := ⟨_, rfl, by decide⟩
  obtain ⟨-, -, -, hpolled⟩ := paths_distinct helperTwice hx
  exact ⟨by decide, by decide, hpolled _ _ _ _ _ _ _ _ _⟩

end View

end PathExplorer
