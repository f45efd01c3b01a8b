import PathExplorer.Ascending
import PathExplorer.Fault

namespace PathExplorer

structure Registry where
  goals : Ascending Goal
deriving DecidableEq

namespace Registry

def listed (entries : List (Source × List Sink)) : List Goal :=
  entries.flatMap fun e => e.2.map (Goal.mk e.1)

def barren (entries : List (Source × List Sink)) : Ascending Source :=
  (Ascending.ofList (entries.map (·.1))).filter fun s => (listed entries).all (·.source ≠ s)

/-- A registry in which every source has a sink; otherwise the least barren source is at fault. -/
def ofEntries (entries : List (Source × List Sink)) : Except Fault Registry :=
  match (barren entries).toList with
  | source :: _ => .error (.emptySinkSet source)
  | [] => .ok ⟨.ofList (listed entries)⟩

variable (r : Registry)

def size : Nat := r.goals.size

def isEmpty : Bool := r.goals.isEmpty

def sources : Ascending Source := r.goals.map (·.source)

def sinksFor (visited : List Source) : Ascending Sink :=
  (r.goals.filter (·.source ∈ visited)).map (·.sink)

def isGoal (source : Source) (sink : Sink) : Bool := ⟨source, sink⟩ ∈ r.goals

variable {r}

@[simp] theorem mem_listed {entries : List (Source × List Sink)} {g : Goal} :
    g ∈ listed entries ↔ ∃ e ∈ entries, e.1 = g.source ∧ g.sink ∈ e.2 := by
  simp only [listed, List.mem_flatMap, List.mem_map]
  constructor
  · rintro ⟨e, he, k, hk, rfl⟩
    exact ⟨e, he, rfl, hk⟩
  · rintro ⟨e, he, hs, hk⟩
    exact ⟨e, he, g.sink, hk, by cases g; cases hs; rfl⟩

theorem mem_of_ofEntries {entries : List (Source × List Sink)} (h : ofEntries entries = .ok r)
    {g : Goal} : g ∈ r.goals ↔ ∃ e ∈ entries, e.1 = g.source ∧ g.sink ∈ e.2 := by
  unfold ofEntries at h
  split at h
  · simp at h
  · injection h with h
    subst h
    simp

@[simp] theorem mem_sources {s : Source} : s ∈ r.sources ↔ ∃ g, g ∈ r.goals ∧ g.source = s :=
  Ascending.mem_map

@[simp] theorem mem_sinksFor {visited : List Source} {k : Sink} :
    k ∈ r.sinksFor visited ↔ ∃ g, g ∈ r.goals ∧ g.source ∈ visited ∧ g.sink = k := by
  simp [sinksFor, and_assoc]

end Registry

end PathExplorer
