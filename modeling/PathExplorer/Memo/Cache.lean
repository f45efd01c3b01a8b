namespace PathExplorer

/-- A store of entries by their keys with room for a fixed number of them. -/
class Cache (σ : Type) (κ α : outParam Type) where
  withRoom (n : Nat) (h : 0 < n) : σ
  room : σ → Nat
  /-- The entries in the order of their last uses, the latest first. -/
  entries : σ → List (κ × α)
  size : σ → Nat
  get? : σ → κ → Option α × σ
  push : σ → κ → α → Option (κ × α) × σ
  clear : σ → σ

/-- A use puts an entry in front, and a store without room for a new one gives up the last. -/
class LawfulCache (σ : Type) {κ α : outParam Type} [DecidableEq κ] [Cache σ κ α] : Prop where
  room_withRoom (n : Nat) (h : 0 < n) : Cache.room (Cache.withRoom n h : σ) = n
  entries_withRoom (n : Nat) (h : 0 < n) : Cache.entries (Cache.withRoom n h : σ) = []
  size_eq (s : σ) : Cache.size s = (Cache.entries s).length
  get?_miss {s : σ} {k : κ} : (Cache.entries s).lookup k = none → Cache.get? s k = (none, s)
  get?_hit {s : σ} {k : κ} {a : α} : (Cache.entries s).lookup k = some a →
    (Cache.get? s k).1 = some a
  entries_hit {s : σ} {k : κ} {a : α} : (Cache.entries s).lookup k = some a →
    Cache.entries (Cache.get? s k).2 = (k, a) :: (Cache.entries s).filter (·.1 ≠ k)
  room_get? (s : σ) (k : κ) : Cache.room (Cache.get? s k).2 = Cache.room s
  push_room {s : σ} {k : κ} (a : α) : (Cache.entries s).lookup k = none →
    Cache.size s < Cache.room s → (Cache.push s k a).1 = none ∧
      Cache.entries (Cache.push s k a).2 = (k, a) :: Cache.entries s
  push_full {s : σ} {k : κ} (a : α) : (Cache.entries s).lookup k = none →
    Cache.room s ≤ Cache.size s → (Cache.push s k a).1 = (Cache.entries s).getLast? ∧
      Cache.entries (Cache.push s k a).2 = (k, a) :: (Cache.entries s).dropLast
  room_push (s : σ) (k : κ) (a : α) : Cache.room (Cache.push s k a).2 = Cache.room s
  room_clear (s : σ) : Cache.room (Cache.clear s) = Cache.room s
  entries_clear (s : σ) : Cache.entries (Cache.clear s) = []

namespace LawfulCache

variable {σ κ α : Type} [DecidableEq κ] [Cache σ κ α] [LawfulCache σ] {s : σ} {k : κ} {a : α}
  {e : κ × α}

theorem mem_of_mem_get? (h : e ∈ Cache.entries (Cache.get? s k).2) : e ∈ Cache.entries s := by
  cases hk : (Cache.entries s).lookup k with
  | none =>
    rw [get?_miss hk] at h
    exact h
  | some a =>
    rw [entries_hit hk] at h
    obtain rfl | h := List.mem_cons.mp h
    · obtain ⟨before, after, hentries, -⟩ := List.lookup_eq_some_iff.mp hk
      simp [hentries]
    · exact (List.mem_filter.mp h).1

theorem mem_of_mem_push (hk : (Cache.entries s).lookup k = none)
    (h : e ∈ Cache.entries (Cache.push s k a).2) : e = (k, a) ∨ e ∈ Cache.entries s := by
  by_cases hroom : Cache.size s < Cache.room s
  · rw [(push_room a hk hroom).2] at h
    exact List.mem_cons.mp h
  · rw [(push_full a hk (Nat.not_lt.mp hroom)).2] at h
    exact (List.mem_cons.mp h).imp_right (List.dropLast_subset _ ·)

end LawfulCache

end PathExplorer
