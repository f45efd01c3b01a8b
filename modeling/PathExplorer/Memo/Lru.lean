import PathExplorer.Memo.Cache

namespace PathExplorer

/-- A store that lists its entries, the one that was used last in front. -/
structure Lru (κ α : Type) where
  capacity : Nat
  entries : List (κ × α) := []
  capacity_pos : 0 < capacity
  length_le : entries.length ≤ capacity := by simp

namespace Lru

variable {κ α : Type}

def push (s : Lru κ α) (k : κ) (a : α) : Option (κ × α) × Lru κ α :=
  if h : s.entries.length < s.capacity then
    (none, { s with entries := (k, a) :: s.entries, length_le := h })
  else
    (s.entries.getLast?, { s with
      entries := (k, a) :: s.entries.dropLast
      length_le := by
        have := s.capacity_pos
        have := s.length_le
        simp only [List.length_cons, List.length_dropLast]
        omega })

theorem push_of_lt {s : Lru κ α} {k : κ} (a : α) (h : s.entries.length < s.capacity) :
    (s.push k a).1 = none ∧ (s.push k a).2.entries = (k, a) :: s.entries := by
  rw [push, dif_pos h]
  exact ⟨rfl, rfl⟩

theorem push_of_le {s : Lru κ α} {k : κ} (a : α) (h : s.capacity ≤ s.entries.length) :
    (s.push k a).1 = s.entries.getLast? ∧
      (s.push k a).2.entries = (k, a) :: s.entries.dropLast := by
  rw [push, dif_neg (Nat.not_lt.mpr h)]
  exact ⟨rfl, rfl⟩

theorem capacity_push (s : Lru κ α) (k : κ) (a : α) : (s.push k a).2.capacity = s.capacity := by
  unfold push
  split <;> rfl

variable [DecidableEq κ]

theorem length_use {entries : List (κ × α)} {k : κ} {a : α} (h : entries.lookup k = some a) :
    ((k, a) :: entries.filter (·.1 ≠ k)).length ≤ entries.length := by
  obtain ⟨before, after, rfl, -⟩ := List.lookup_eq_some_iff.mp h
  exact List.length_filter_lt_length_iff_exists.mpr ⟨(k, a), by simp, by simp⟩

def get? (s : Lru κ α) (k : κ) : Option α × Lru κ α :=
  match h : s.entries.lookup k with
  | none => (none, s)
  | some a =>
    (some a, { s with
      entries := (k, a) :: s.entries.filter (·.1 ≠ k)
      length_le := Nat.le_trans (length_use h) s.length_le })

theorem get?_of_none {s : Lru κ α} {k : κ} (h : s.entries.lookup k = none) :
    s.get? k = (none, s) := by
  unfold get?
  split
  · rfl
  · rename_i hsome
    rw [h] at hsome
    cases hsome

theorem get?_of_some {s : Lru κ α} {k : κ} {a : α} (h : s.entries.lookup k = some a) :
    (s.get? k).1 = some a ∧ (s.get? k).2.entries = (k, a) :: s.entries.filter (·.1 ≠ k) := by
  unfold get?
  split
  · rename_i hnone
    rw [h] at hnone
    cases hnone
  · rename_i hsome
    cases h.symm.trans hsome
    exact ⟨rfl, rfl⟩

theorem capacity_get? (s : Lru κ α) (k : κ) : (s.get? k).2.capacity = s.capacity := by
  unfold get?
  split <;> rfl

instance : Cache (Lru κ α) κ α where
  withRoom n h := { capacity := n, capacity_pos := h }
  room := capacity
  entries := entries
  size s := s.entries.length
  get? := get?
  push := push
  clear s := { s with entries := [], length_le := by simp }

instance : LawfulCache (Lru κ α) where
  room_withRoom _ _ := rfl
  entries_withRoom _ _ := rfl
  size_eq _ := rfl
  get?_miss := get?_of_none
  get?_hit h := (get?_of_some h).1
  entries_hit h := (get?_of_some h).2
  room_get? := capacity_get?
  push_room a _ := push_of_lt a
  push_full a _ := push_of_le a
  room_push := capacity_push
  room_clear _ := rfl
  entries_clear _ := rfl

end Lru

end PathExplorer
