import Mathlib.Algebra.GroupWithZero.Nat
import Mathlib.Data.List.Flatten
import Mathlib.Logic.Function.Basic
import PathExplorer.Goals.Registry

namespace PathExplorer

/-- The sinks of every source that occurs, as entries come in one after the other. -/
structure SinkSets where
  sources : Ascending Source := .empty
  sinks : Source → Ascending Sink := fun _ => .empty

namespace SinkSets

def merge (m : SinkSets) (e : Source × List Sink) : SinkSets where
  sources := m.sources.insert e.1
  sinks := Function.update m.sinks e.1 (e.2.foldl (fun sinks k => sinks.insert k) (m.sinks e.1))

def ofEntries (entries : List (Source × List Sink)) : SinkSets := entries.foldl merge {}

def barren? (m : SinkSets) : Option Source := m.sources.toList.find? fun s => (m.sinks s).isEmpty

def build (entries : List (Source × List Sink)) : Except Fault SinkSets :=
  match (ofEntries entries).barren? with
  | some source => .error (.emptySinkSet source)
  | none => .ok (ofEntries entries)

def get? (m : SinkSets) (s : Source) : Option (Ascending Sink) :=
  if s ∈ m.sources then some (m.sinks s) else none

def pairs (m : SinkSets) : List Goal :=
  m.sources.toList.flatMap fun s => (m.sinks s).toList.map (Goal.mk s)

def sinksFor (m : SinkSets) (visited : List Source) : Ascending Sink :=
  .ofList ((visited.filterMap m.get?).flatMap (·.toList))

def isGoal (m : SinkSets) (s : Source) (k : Sink) : Bool := (m.get? s).any (k ∈ ·)

structure Holds (m : SinkSets) (entries : List (Source × List Sink)) : Prop where
  sources : ∀ s, s ∈ m.sources ↔ ∃ e ∈ entries, e.1 = s
  sinks : ∀ s k, k ∈ m.sinks s ↔ ∃ e ∈ entries, e.1 = s ∧ k ∈ e.2

variable {m : SinkSets} {entries : List (Source × List Sink)} {s : Source} {k : Sink} {g : Goal}

theorem mem_extend {sinks : Ascending Sink} {new : List Sink} :
    k ∈ new.foldl (fun sinks k => sinks.insert k) sinks ↔ k ∈ sinks ∨ k ∈ new := by
  induction new generalizing sinks with
  | nil => simp
  | cons x new ih =>
    rw [List.foldl_cons, ih, Ascending.mem_insert, List.mem_cons, or_assoc, or_left_comm]

theorem Holds.merge (h : m.Holds entries) (e : Source × List Sink) :
    (m.merge e).Holds (entries ++ [e]) where
  sources s := by
    change s ∈ m.sources.insert e.1 ↔ _
    rw [Ascending.mem_insert, h.sources]
    simp only [List.mem_append, List.mem_singleton, or_and_right, exists_or, exists_eq_left]
    rw [or_comm, eq_comm]
  sinks s k := by
    simp only [List.mem_append, List.mem_singleton, or_and_right, exists_or, exists_eq_left]
    rw [← h.sinks]
    by_cases hs : s = e.1
    · subst hs
      simp [SinkSets.merge, mem_extend]
    · simp [SinkSets.merge, Function.update_of_ne hs, Ne.symm hs]

theorem holds_ofEntries (entries : List (Source × List Sink)) :
    (ofEntries entries).Holds entries := by
  have hall : ∀ (before : List (Source × List Sink)) (m : SinkSets), m.Holds before →
      (entries.foldl SinkSets.merge m).Holds (before ++ entries) := by
    induction entries with
    | nil => simp
    | cons e entries ih => exact fun before m h => by simpa using ih _ _ (h.merge e)
  exact hall [] {} ⟨by simp, by simp⟩

theorem sorted_pairs (m : SinkSets) : m.pairs.Pairwise fun a b => compare a b = .lt := by
  refine List.pairwise_flatMap.mpr ⟨fun s _ => ?_, m.sources.sorted.imp fun {s t} hst => ?_⟩
  · refine List.pairwise_map.mpr ((m.sinks s).sorted.imp fun hk => ?_)
    exact Ordering.then_eq_lt.mpr (.inr ⟨Std.ReflCmp.compare_self, hk⟩)
  · rintro a ha b hb
    obtain ⟨_, -, rfl⟩ := List.mem_map.mp ha
    obtain ⟨_, -, rfl⟩ := List.mem_map.mp hb
    exact Ordering.then_eq_lt.mpr (.inl hst)

def registry (m : SinkSets) : Registry := ⟨⟨m.pairs, m.sorted_pairs⟩⟩

theorem mem_pairs : g ∈ m.pairs ↔ g.source ∈ m.sources ∧ g.sink ∈ m.sinks g.source := by
  simp only [pairs, List.mem_flatMap, List.mem_map, ← Ascending.mem_iff]
  constructor
  · rintro ⟨s, hs, k, hk, rfl⟩
    exact ⟨hs, hk⟩
  · rintro ⟨hs, hk⟩
    exact ⟨_, hs, _, hk, rfl⟩

namespace Holds

theorem mem_sources (h : m.Holds entries) (hk : k ∈ m.sinks s) : s ∈ m.sources := by
  obtain ⟨e, he, hs, -⟩ := (h.sinks s k).mp hk
  exact (h.sources s).mpr ⟨e, he, hs⟩

theorem mem_pairs (h : m.Holds entries) : g ∈ m.pairs ↔ g ∈ Registry.listed entries := by
  rw [SinkSets.mem_pairs, Registry.mem_listed, ← h.sinks]
  exact and_iff_right_of_imp h.mem_sources

/-- The first source without a sink is the least one. -/
theorem barren?_eq (h : m.Holds entries) :
    m.barren? = (Registry.barren entries).toList.head? := by
  have hsources : m.sources = .ofList (entries.map (·.1)) :=
    Ascending.ext_mem fun s => by rw [h.sources, Ascending.mem_ofList, List.mem_map]
  have hempty : ∀ s, (m.sinks s).isEmpty = (Registry.listed entries).all (·.source ≠ s) := by
    intro s
    rw [Bool.eq_iff_iff, Ascending.isEmpty, List.isEmpty_iff, List.eq_nil_iff_forall_not_mem,
      List.all_eq_true]
    simp only [← Ascending.mem_iff, h.sinks, decide_eq_true_eq]
    constructor
    · rintro hnone ⟨_, k⟩ hg rfl
      exact hnone k (Registry.mem_listed.mp hg)
    · exact fun hnone k hk => hnone ⟨s, k⟩ (Registry.mem_listed.mpr hk) rfl
  rw [barren?, Registry.barren, Ascending.filter, List.head?_filter, hsources]
  exact congrArg (List.find? · _) (funext hempty)

end Holds

structure Answers (m : SinkSets) (r : Registry) : Prop where
  goals : r.goals.toList = m.pairs
  sources : r.sources = m.sources
  size : r.size = (m.sources.toList.map fun s => (m.sinks s).size).sum
  isEmpty : r.isEmpty = m.sources.isEmpty
  sinksFor : ∀ visited, r.sinksFor visited = m.sinksFor visited
  isGoal : ∀ s k, r.isGoal s k = m.isGoal s k

theorem mem_get?_iff {sinks : Ascending Sink} :
    m.get? s = some sinks ↔ s ∈ m.sources ∧ m.sinks s = sinks := by
  unfold get?
  split <;> simp [*]

theorem sinks_ne_nil (hfull : m.barren? = none) (hs : s ∈ m.sources) :
    (m.sinks s).toList ≠ [] := by
  simpa [Ascending.isEmpty] using List.find?_eq_none.mp hfull s hs

theorem registry_answers (m : SinkSets) (hfull : m.barren? = none) : m.Answers m.registry where
  goals := rfl
  sources := by
    apply Ascending.ext_mem
    intro s
    rw [Registry.mem_sources]
    constructor
    · rintro ⟨g, hg, rfl⟩
      exact (mem_pairs.mp hg).1
    · intro hs
      obtain ⟨k, hk⟩ := List.exists_mem_of_ne_nil _ (sinks_ne_nil hfull hs)
      exact ⟨⟨s, k⟩, mem_pairs.mpr ⟨hs, hk⟩, rfl⟩
  size := by
    change m.pairs.length = _
    rw [pairs, List.length_flatMap]
    simp only [List.length_map]
    rfl
  isEmpty := by
    change m.pairs.isEmpty = m.sources.toList.isEmpty
    rw [Bool.eq_iff_iff, List.isEmpty_iff, List.isEmpty_iff, pairs, List.flatMap_eq_nil_iff]
    constructor
    · intro hnone
      refine List.eq_nil_iff_forall_not_mem.mpr fun s hs => ?_
      exact sinks_ne_nil hfull hs (List.map_eq_nil_iff.mp (hnone s hs))
    · intro hnone s hs
      rw [hnone] at hs
      cases hs
  sinksFor visited := by
    apply Ascending.ext_mem
    intro k
    rw [Registry.mem_sinksFor, sinksFor, Ascending.mem_ofList, List.mem_flatMap]
    simp only [List.mem_filterMap, mem_get?_iff]
    constructor
    · rintro ⟨g, hg, hs, rfl⟩
      obtain ⟨hsource, hsink⟩ := mem_pairs.mp hg
      exact ⟨_, ⟨_, hs, hsource, rfl⟩, hsink⟩
    · rintro ⟨_, ⟨s, hs, hsource, rfl⟩, hk⟩
      exact ⟨⟨s, k⟩, mem_pairs.mpr ⟨hsource, hk⟩, hs, rfl⟩
  isGoal s k := by
    have hmem : (⟨s, k⟩ : Goal) ∈ m.registry.goals ↔ s ∈ m.sources ∧ k ∈ m.sinks s := mem_pairs
    rw [Bool.eq_iff_iff, Registry.isGoal, decide_eq_true_iff, hmem, isGoal, get?]
    split <;> simp [*]

theorem answers_of_build (h : build entries = .ok m) : m.Answers m.registry := by
  unfold build at h
  split at h
  · cases h
  · cases h
    exact registry_answers _ ‹_›

end SinkSets

/-- The registry of some entries is that of the sets that they merge to, and they are refused for
the first source whose set stays empty. -/
theorem Registry.ofEntries_eq_build (entries : List (Source × List Sink)) :
    ofEntries entries = (SinkSets.build entries).map SinkSets.registry := by
  have h := SinkSets.holds_ofEntries entries
  unfold ofEntries SinkSets.build
  rw [h.barren?_eq]
  cases (barren entries).toList with
  | cons source rest => rfl
  | nil =>
    have hgoals : Ascending.ofList (listed entries) = (SinkSets.ofEntries entries).registry.goals :=
      Ascending.ext_mem fun g => Ascending.mem_ofList.trans h.mem_pairs.symm
    exact congrArg (fun goals => Except.ok (Registry.mk goals)) hgoals

end PathExplorer
