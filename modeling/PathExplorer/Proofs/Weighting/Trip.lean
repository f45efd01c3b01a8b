import PathExplorer.Proofs.Metric.Measure
import PathExplorer.Proofs.Program.Graph
import PathExplorer.Proofs.Result
import PathExplorer.Proofs.Search.Route
import PathExplorer.Proofs.Weighting.Direct

namespace PathExplorer

/-- Where a trip is: on a statement of a level, before the levels that it has yet to come back to
and the methods that it has yet to enter. -/
structure Spot where
  level : Level
  outer : List Level
  ahead : List Method

def Spot.start : List Level → Level → List Method → Spot
  | [], level, ahead => ⟨level, [], ahead⟩
  | inner :: before, level, ahead => ⟨inner, before ++ [level], ahead⟩

theorem Spot.start_cons (inner : Level) (before : List Level) (level : Level)
    (ahead : List Method) :
    start (inner :: before) level ahead =
      ⟨inner, (start before level ahead).level :: (start before level ahead).outer,
        (start before level ahead).ahead⟩ := by
  cases before <;> rfl

namespace View

variable (v : View)

def Leads (s t : Stmt) : Prop := ∃ f, v.flow s.method = .ok f ∧ f.Leads s t

inductive Departs : Spot → Spot → Prop
  | back {m : Method} {f : Flow} {r : Stmt} {level : Level} {outer : List Level}
      {ahead : List Method} : v.flow m = .ok f → r ∈ f.returns →
      Departs ⟨⟨m, r⟩, level :: outer, ahead⟩ ⟨level, outer, ahead⟩
  | enter {site : Stmt} {next : Method} {f : Flow} {ahead : List Method} :
      ⟨site, next⟩ ∈ v.calls → v.flow next = .ok f →
      Departs ⟨⟨site.method, site⟩, [], next :: ahead⟩ ⟨⟨next, f.entry⟩, [], ahead⟩

/-- A trip that takes so many steps inside methods and ends on a target. -/
inductive Trip (targets : Ascending Stmt) : Spot → Nat → Prop
  | arrive {t : Stmt} : t ∈ targets → Trip targets ⟨⟨t.method, t⟩, [], []⟩ 0
  | step {m : Method} {s t : Stmt} {outer : List Level} {ahead : List Method} {n : Nat} :
      v.Leads s t → Trip targets ⟨⟨m, t⟩, outer, ahead⟩ n →
      Trip targets ⟨⟨m, s⟩, outer, ahead⟩ (n + 1)
  | depart {a b : Spot} {n : Nat} : v.Departs a b → Trip targets b n → Trip targets a n

variable {v} {targets : Ascending Stmt} {m : Method} {s u : Stmt} {outer : List Level}
  {ahead : List Method} {n : Nat}

theorem Trip.walk {j : Nat} (hw : Walk v.Leads s u j)
    (h : v.Trip targets ⟨⟨m, u⟩, outer, ahead⟩ n) :
    v.Trip targets ⟨⟨m, s⟩, outer, ahead⟩ (j + n) := by
  induction hw generalizing n with
  | here => simpa using h
  | step _ hl ih =>
    have ht := ih (h.step hl)
    have hn : ∀ k, k + (n + 1) = k + 1 + n := by omega
    rwa [hn] at ht

/-- A trip walks inside its first method, and then arrives or departs. -/
theorem trip_iff : v.Trip targets ⟨⟨m, s⟩, outer, ahead⟩ n ↔
    (outer = [] ∧ ahead = [] ∧ ∃ t ∈ targets, t.method = m ∧ Walk v.Leads s t n) ∨
    ∃ u b i j, Walk v.Leads s u i ∧ v.Departs ⟨⟨m, u⟩, outer, ahead⟩ b ∧ v.Trip targets b j ∧
      n = i + j := by
  constructor
  · intro h
    generalize ha : (⟨⟨m, s⟩, outer, ahead⟩ : Spot) = a at h
    induction h generalizing s with
    | arrive ht =>
      cases ha
      exact .inl ⟨rfl, rfl, _, ht, rfl, .here⟩
    | step hl _ ih =>
      cases ha
      obtain ⟨ho, hn, t, ht, hm, hw⟩ | ⟨u, b, i, j, hw, hd, hb, rfl⟩ := ih rfl
      · exact .inl ⟨ho, hn, t, ht, hm, hw.cons hl⟩
      · exact .inr ⟨u, b, i + 1, j, hw.cons hl, hd, hb, by omega⟩
    | @depart a b n hd hb _ =>
      subst ha
      exact .inr ⟨s, b, 0, n, .here, hd, hb, by omega⟩
  · rintro (⟨rfl, rfl, t, ht, rfl, hw⟩ | ⟨u, b, i, j, hw, hd, hb, rfl⟩)
    · exact Trip.walk hw (.arrive ht)
    · exact Trip.walk hw (.depart hd hb)

theorem trip_arrive_iff :
    v.Trip targets ⟨⟨m, s⟩, [], []⟩ n ↔ ∃ t ∈ targets, t.method = m ∧ Walk v.Leads s t n := by
  rw [trip_iff]
  constructor
  · rintro (⟨-, -, ht⟩ | ⟨u, b, i, j, -, hd, -⟩)
    · exact ht
    · cases hd
  · intro ht
    exact .inl ⟨rfl, rfl, ht⟩

theorem trip_back_iff {level : Level} :
    v.Trip targets ⟨⟨m, s⟩, level :: outer, ahead⟩ n ↔
      ∃ f r i j, v.flow m = .ok f ∧ r ∈ f.returns ∧ Walk v.Leads s r i ∧
        v.Trip targets ⟨level, outer, ahead⟩ j ∧ n = i + j := by
  rw [trip_iff]
  constructor
  · rintro (⟨ho, -⟩ | ⟨u, b, i, j, hw, hd, hb, hn⟩)
    · cases ho
    · cases hd with
      | back hf hr => exact ⟨_, u, i, j, hf, hr, hw, hb, hn⟩
  · rintro ⟨f, r, i, j, hf, hr, hw, hb, hn⟩
    exact .inr ⟨r, _, i, j, hw, .back hf hr, hb, hn⟩

theorem trip_enter_iff {next : Method} :
    v.Trip targets ⟨⟨m, s⟩, [], next :: ahead⟩ n ↔
      ∃ site f i j, site.method = m ∧ ⟨site, next⟩ ∈ v.calls ∧ v.flow next = .ok f ∧
        Walk v.Leads s site i ∧ v.Trip targets ⟨⟨next, f.entry⟩, [], ahead⟩ j ∧ n = i + j := by
  rw [trip_iff]
  constructor
  · rintro (⟨-, ha, -⟩ | ⟨u, b, i, j, hw, hd, hb, hn⟩)
    · cases ha
    · cases hd with
      | enter hc hf => exact ⟨u, _, i, j, rfl, hc, hf, hw, hb, hn⟩
  · rintro ⟨site, f, i, j, rfl, hc, hf, hw, hb, hn⟩
    exact .inr ⟨site, _, i, j, hw, .enter hc hf, hb, hn⟩

theorem walk_leads_iff {f : Flow} (hf : v.flow s.method = .ok f) (hs : s ∈ f) :
    Walk f.Leads s u n ↔ Walk v.Leads s u n := by
  have hmem : ∀ {t k}, Walk f.Leads s t k → t ∈ f := fun h => h.mem hs fun _ _ _ hxy => hxy.mem
  have hflow : ∀ {t}, t ∈ f → v.flow t.method = .ok f := fun ht => by rw [ht.1, ← hs.1, hf]
  constructor
  · intro h
    induction h with
    | here => exact .here
    | step hw hl ih => exact ih.step ⟨f, hflow (hmem hw), hl⟩
  · intro h
    induction h with
    | here => exact .here
    | step _ hl ih =>
      obtain ⟨g, hg, hl⟩ := hl
      rw [hflow (hmem ih)] at hg
      cases hg
      exact ih.step hl

theorem mem_of_walk {f : Flow} (hf : v.flow s.method = .ok f) (hs : s ∈ f)
    (hw : Walk v.Leads s u n) : u ∈ f :=
  ((walk_leads_iff hf hs).mpr hw).mem hs fun _ _ _ hxy => hxy.mem

section Search

variable {tree : SearchTree Stmt}

theorem searchTree_eq_ok (h : v.searchTree s = .ok tree) :
    ∃ f, v.flow s.method = .ok f ∧ s ∈ f ∧ tree.Spans f.Leads s := by
  obtain ⟨f, hf, ht⟩ := bind_eq_ok_iff.mp h
  obtain ⟨hs, ht⟩ := Flow.tree_spans ht
  exact ⟨f, hf, hs, ht⟩

theorem searchTree_isOk : (∃ tree, v.searchTree s = .ok tree) ↔ v.Locates s := by
  constructor
  · rintro ⟨tree, h⟩
    obtain ⟨f, hf, hs, -⟩ := searchTree_eq_ok h
    exact ⟨f, hf, hs⟩
  · rintro ⟨f, hf, hs⟩
    obtain ⟨tree, ht⟩ := Flow.tree_of_mem hs
    exact ⟨tree, bind_eq_ok_iff.mpr ⟨f, hf, ht⟩⟩

theorem measures_nearest (h : v.searchTree s = .ok tree) (stmts : List Stmt) :
    (tree.nearest stmts).Measures fun n => ∃ t ∈ stmts, Walk v.Leads s t n := by
  obtain ⟨f, hf, hs, ht⟩ := searchTree_eq_ok h
  exact Distance.measures_least stmts tree.distanceTo _ fun t _ =>
    (ht.measures_distanceTo t).congr fun _ => walk_leads_iff hf hs

end Search

section Returning

variable {before : List Level} {inner level : Level} {ahead : List Method} {d e : Distance}

theorem returning_cons_eq_ok_iff :
    v.returning (inner :: before) = .ok d ↔
      ∃ f tree e, v.flow inner.method = .ok f ∧ v.searchTree inner.stand = .ok tree ∧
        v.returning before = .ok e ∧ d = tree.nearest f.returns + e := by
  simp only [returning, bind_eq_ok_iff, pure_eq_ok_iff]
  constructor
  · rintro ⟨f, hf, tree, ht, e, he, rfl⟩
    exact ⟨f, tree, e, hf, ht, he, rfl⟩
  · rintro ⟨f, tree, e, hf, ht, he, rfl⟩
    exact ⟨f, hf, tree, ht, e, he, rfl⟩

theorem returning_isOk : (∃ d, v.returning before = .ok d) ↔
    ∀ level ∈ before, v.Has level.method ∧ v.Locates level.stand := by
  induction before with
  | nil => simpa using ⟨_, rfl⟩
  | cons inner before ih =>
    rw [List.forall_mem_cons, ← ih, ← searchTree_isOk]
    constructor
    · rintro ⟨d, h⟩
      obtain ⟨f, tree, e, hf, ht, he, -⟩ := returning_cons_eq_ok_iff.mp h
      exact ⟨⟨⟨f, hf⟩, tree, ht⟩, e, he⟩
    · rintro ⟨⟨⟨f, hf⟩, tree, ht⟩, e, he⟩
      exact ⟨_, returning_cons_eq_ok_iff.mpr ⟨f, tree, e, hf, ht, he, rfl⟩⟩

theorem measures_returning (h : v.returning before = .ok d)
    (he : e.Measures (v.Trip targets ⟨level, [], ahead⟩)) :
    (d + e).Measures (v.Trip targets (.start before level ahead)) := by
  induction before generalizing d with
  | nil =>
    cases h
    rwa [Distance.zero_add]
  | cons inner before ih =>
    obtain ⟨f, tree, c, hf, ht, hc, rfl⟩ := returning_cons_eq_ok_iff.mp h
    have hsum := (measures_nearest ht f.returns).add (ih hc)
    rw [Distance.add_assoc]
    apply hsum.congr
    intro n
    rw [Spot.start_cons, trip_back_iff]
    constructor
    · rintro ⟨i, j, ⟨r, hr, hw⟩, hj, hn⟩
      exact ⟨f, r, i, j, hf, hr, hw, hj, hn⟩
    · rintro ⟨g, r, i, j, hg, hr, hw, hj, hn⟩
      rw [hf] at hg
      cases hg
      exact ⟨i, j, ⟨r, hr, hw⟩, hj, hn⟩

end Returning

section Along

variable {m next : Method} {rest : List Method} {stand : Option Stmt} {d : Distance}

theorem sitesInto_eq_ok_iff {sites : List Stmt} :
    v.sitesInto m next = .ok sites ↔
      ∃ f, v.flow m = .ok f ∧ sites = f.stmts.filter fun s => next ∈ v.callees s := by
  simp only [sitesInto, bind_eq_ok_iff, pure_eq_ok_iff]

theorem mem_sites_iff {f : Flow} {site : Stmt} :
    site ∈ f.stmts.filter (fun s => next ∈ v.callees s) ↔ site ∈ f ∧ ⟨site, next⟩ ∈ v.calls := by
  rw [List.mem_filter, Flow.mem_stmts, decide_eq_true_eq, mem_callees]

theorem startIn_none_eq_ok_iff :
    v.startIn m none = .ok s ↔ ∃ f, v.flow m = .ok f ∧ s = f.entry := by
  simp only [startIn, bind_eq_ok_iff, pure_eq_ok_iff]

theorem joinable_of_mem {f : Flow} {site : Stmt} (hv : v.Lawful) (hf : v.flow m = .ok f)
    (hn : v.Has next) (hs : site ∈ f) : v.joinable ⟨site, next⟩ = .ok () := by
  obtain ⟨g, hg⟩ := hn
  have hc : v.flow (Call.mk site next).caller = .ok f := by
    rw [Call.caller, mem_of_lawful hv hf hs, hf]
  simp only [joinable, bind_eq_ok_iff]
  exact ⟨g, hg, f, hc, _, Flow.successors_of_mem hs, rfl⟩

theorem along_nil_eq_ok_iff :
    v.along targets stand m [] = .ok d ↔
      ∃ s tree, v.startIn m stand = .ok s ∧ v.searchTree s = .ok tree ∧
        d = tree.nearest (targets.toList.filter (·.method = m)) := by
  simp only [along, bind_eq_ok_iff, pure_eq_ok_iff]
  constructor
  · rintro ⟨s, hs, tree, ht, rfl⟩
    exact ⟨s, tree, hs, ht, rfl⟩
  · rintro ⟨s, tree, hs, ht, rfl⟩
    exact ⟨s, hs, tree, ht, rfl⟩

theorem along_none_has (h : v.along targets none m rest = .ok d) : v.Has m := by
  cases rest with
  | nil =>
    obtain ⟨s, tree, hs, -⟩ := along_nil_eq_ok_iff.mp h
    obtain ⟨f, hf, -⟩ := startIn_none_eq_ok_iff.mp hs
    exact ⟨f, hf⟩
  | cons next rest =>
    obtain ⟨sites, hs, -⟩ := bind_eq_ok_iff.mp h
    obtain ⟨f, hf, -⟩ := sitesInto_eq_ok_iff.mp hs
    exact ⟨f, hf⟩

/-- Joining the call sites fails in no program in which the rest of the way can be found. -/
theorem along_cons_eq_ok_iff (hv : v.Lawful) :
    v.along targets stand m (next :: rest) = .ok d ↔
      ∃ f s tree e, v.flow m = .ok f ∧ v.startIn m stand = .ok s ∧ v.searchTree s = .ok tree ∧
        v.along targets none next rest = .ok e ∧
        d = tree.nearest (f.stmts.filter fun s => next ∈ v.callees s) + e := by
  simp only [along, bind_eq_ok_iff, pure_eq_ok_iff, sitesInto_eq_ok_iff]
  constructor
  · rintro ⟨_, ⟨f, hf, rfl⟩, _, -, s, hs, tree, ht, e, he, rfl⟩
    exact ⟨f, s, tree, e, hf, hs, ht, he, rfl⟩
  · rintro ⟨f, s, tree, e, hf, hs, ht, he, rfl⟩
    refine ⟨_, ⟨f, hf, rfl⟩, (), ?_, s, hs, tree, ht, e, he, rfl⟩
    exact forM_eq_ok_iff.mpr fun site hsite =>
      joinable_of_mem hv hf (along_none_has he) (mem_sites_iff.mp hsite).1

theorem startIn_none_isOk (hv : v.Lawful) :
    (∃ s, v.startIn m none = .ok s ∧ v.Locates s) ↔ v.Has m := by
  constructor
  · rintro ⟨s, hs, -⟩
    obtain ⟨f, hf, -⟩ := startIn_none_eq_ok_iff.mp hs
    exact ⟨f, hf⟩
  · rintro ⟨f, hf⟩
    exact ⟨f.entry, startIn_none_eq_ok_iff.mpr ⟨f, hf, rfl⟩, locates_entry hv hf⟩

theorem along_isOk (hv : v.Lawful) :
    (∃ d, v.along targets stand m rest = .ok d) ↔
      (∃ s, v.startIn m stand = .ok s ∧ v.Locates s) ∧ (rest ≠ [] → ∀ n ∈ m :: rest, v.Has n) := by
  induction rest generalizing stand m with
  | nil =>
    simp only [along_nil_eq_ok_iff, ← searchTree_isOk]
    constructor
    · rintro ⟨_, s, tree, hs, ht, -⟩
      exact ⟨⟨s, hs, tree, ht⟩, fun h => absurd rfl h⟩
    · rintro ⟨⟨s, hs, tree, ht⟩, -⟩
      exact ⟨_, s, tree, hs, ht, rfl⟩
  | cons next rest ih =>
    have hnext : (∃ e, v.along targets none next rest = .ok e) ↔ ∀ n ∈ next :: rest, v.Has n := by
      rw [ih, startIn_none_isOk hv]
      constructor
      · rintro ⟨hn, hr⟩
        by_cases h : rest = []
        · simpa [h] using hn
        · exact hr h
      · exact fun h => ⟨h next (List.mem_cons_self ..), fun _ => h⟩
    simp only [along_cons_eq_ok_iff hv]
    constructor
    · rintro ⟨_, f, s, tree, e, hf, hs, ht, he, -⟩
      refine ⟨⟨s, hs, searchTree_isOk.mp ⟨tree, ht⟩⟩, fun _ => ?_⟩
      exact List.forall_mem_cons.mpr ⟨⟨f, hf⟩, hnext.mp ⟨e, he⟩⟩
    · rintro ⟨⟨s, hs, hl⟩, hr⟩
      obtain ⟨tree, ht⟩ := searchTree_isOk.mpr hl
      obtain ⟨⟨f, hf⟩, hr⟩ := List.forall_mem_cons.mp (hr (List.cons_ne_nil _ _))
      obtain ⟨e, he⟩ := hnext.mpr hr
      exact ⟨_, f, s, tree, e, hf, hs, ht, he, rfl⟩

/-- The call sites to which a trip walks are those that are searched for. -/
theorem mem_sites_of_walk {f : Flow} {site : Stmt} (hf : v.flow m = .ok f) (hs : v.Locates s)
    (hw : Walk v.Leads s site n) (hm : site.method = m) (hc : ⟨site, next⟩ ∈ v.calls) :
    site ∈ f.stmts.filter fun s => next ∈ v.callees s := by
  obtain ⟨g, hg, hsg⟩ := hs
  have hsite := mem_of_walk hg hsg hw
  have hsm : s.method = m := hsg.1.trans (hsite.1.symm.trans hm)
  rw [hsm, hf] at hg
  cases hg
  exact mem_sites_iff.mpr ⟨hsite, hc⟩

/-- A way along a route is a trip that comes back nowhere. -/
theorem measures_along (hv : v.Lawful) (hs : v.startIn m stand = .ok s)
    (h : v.along targets stand m rest = .ok d) :
    d.Measures (v.Trip targets ⟨⟨m, s⟩, [], rest⟩) := by
  induction rest generalizing stand m s d with
  | nil =>
    obtain ⟨s', tree, hs', ht, rfl⟩ := along_nil_eq_ok_iff.mp h
    rw [hs] at hs'
    cases hs'
    apply (measures_nearest ht _).congr
    intro n
    rw [trip_arrive_iff]
    simp only [List.mem_filter, decide_eq_true_eq, and_assoc, Ascending.mem_iff]
  | cons next rest ih =>
    obtain ⟨f, s', tree, e, hf, hs', ht, he, rfl⟩ := (along_cons_eq_ok_iff hv).mp h
    rw [hs] at hs'
    cases hs'
    obtain ⟨g, hg⟩ := along_none_has he
    have hrest := ih (startIn_none_eq_ok_iff.mpr ⟨g, hg, rfl⟩) he
    apply ((measures_nearest ht _).add hrest).congr
    intro n
    rw [trip_enter_iff]
    constructor
    · rintro ⟨i, j, ⟨site, hsite, hw⟩, hj, hn⟩
      obtain ⟨hsf, hc⟩ := mem_sites_iff.mp hsite
      exact ⟨site, g, i, j, mem_of_lawful hv hf hsf, hc, hg, hw, hj, hn⟩
    · rintro ⟨site, g', i, j, hm, hc, hg', hw, hj, hn⟩
      rw [hg] at hg'
      cases hg'
      have hsite := mem_sites_of_walk hf (searchTree_isOk.mp ⟨tree, ht⟩) hw hm hc
      exact ⟨i, j, ⟨site, hsite, hw⟩, hj, hn⟩

end Along

end View

end PathExplorer
