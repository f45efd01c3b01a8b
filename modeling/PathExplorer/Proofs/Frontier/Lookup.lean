import PathExplorer.Proofs.Frontier.Stock

namespace PathExplorer

/-- The place of a number among those at the places from `lo` and before `hi`, by halves. -/
def bisect (numbers : List Nat) (n lo hi : Nat) : Option Nat :=
  if lo < hi then
    match numbers[(lo + hi) / 2]? with
    | none => none
    | some middle =>
      if middle < n then bisect numbers n ((lo + hi) / 2 + 1) hi
      else if n < middle then bisect numbers n lo ((lo + hi) / 2)
      else some ((lo + hi) / 2)
  else none
termination_by hi - lo

section Bisect

variable {numbers : List Nat} {i j m n lo hi : Nat}

theorem place_lt_iff (hs : numbers.Pairwise (· < ·)) (hm : numbers[i]? = some m)
    (hn : numbers[j]? = some n) : i < j ↔ m < n := by
  obtain ⟨hi, rfl⟩ := List.getElem?_eq_some_iff.mp hm
  obtain ⟨hj, rfl⟩ := List.getElem?_eq_some_iff.mp hn
  have hlt := List.pairwise_iff_getElem.mp hs
  constructor
  · exact hlt i j hi hj
  · intro h
    by_contra hij
    obtain hji | rfl := Nat.lt_or_eq_of_le (Nat.le_of_not_lt hij)
    · have := hlt j i hj hi hji
      omega
    · omega

theorem bisect_eq_some_iff (hs : numbers.Pairwise (· < ·)) (hhi : hi ≤ numbers.length) :
    bisect numbers n lo hi = some i ↔ lo ≤ i ∧ i < hi ∧ numbers[i]? = some n := by
  fun_induction bisect numbers n lo hi with
  | case1 lo hi hlt hnone =>
    rw [List.getElem?_eq_none_iff] at hnone
    omega
  | case2 lo hi hlt middle hmiddle hless ih =>
    have hright : numbers[i]? = some n → (lo + hi) / 2 < i := fun h =>
      (place_lt_iff hs hmiddle h).mpr hless
    rw [ih hhi]
    constructor
    · rintro ⟨hle, hih, h⟩
      exact ⟨by omega, hih, h⟩
    · rintro ⟨hle, hih, h⟩
      exact ⟨hright h, hih, h⟩
  | case3 lo hi hlt middle hmiddle hless hgreater ih =>
    have hleft : numbers[i]? = some n → i < (lo + hi) / 2 := fun h =>
      (place_lt_iff hs h hmiddle).mpr hgreater
    rw [ih (by omega)]
    constructor
    · rintro ⟨hle, hih, h⟩
      exact ⟨hle, by omega, h⟩
    · rintro ⟨hle, hih, h⟩
      exact ⟨hle, hleft h, h⟩
  | case4 lo hi hlt middle hmiddle hless hgreater =>
    obtain rfl : middle = n := by omega
    rw [Option.some.injEq]
    constructor
    · rintro rfl
      exact ⟨by omega, by omega, hmiddle⟩
    · rintro ⟨-, -, h⟩
      have := place_lt_iff hs hmiddle h
      have := place_lt_iff hs h hmiddle
      omega
  | case5 lo hi hge =>
    constructor
    · intro h
      cases h
    · omega

end Bisect

namespace Frontier

variable {ω χ τ : Type} (f : Frontier ω χ τ)

def Ascending : Prop := f.entries.Pairwise fun a b => a.1.number < b.1.number

def position? (t : Ticket) : Option Nat :=
  bisect (f.tickets.map (·.number)) t.number 0 f.size

variable {f} {t : Ticket} {i : Nat}

theorem numbers_ascend (h : f.Ascending) : (f.tickets.map (·.number)).Pairwise (· < ·) := by
  have he : f.tickets.map (·.number) = f.entries.map (·.1.number) := by
    simp [tickets, entries, Held.entry]
  rw [he]
  exact List.pairwise_map.mpr h

theorem position?_eq_some_iff (h : f.Ascending) :
    f.position? t = some i ↔ f.tickets[i]? = some t := by
  have hsize : f.size = f.tickets.length := by simp [size, tickets]
  rw [position?, bisect_eq_some_iff (numbers_ascend h) (by simp [hsize]), List.getElem?_map,
    Option.map_eq_some_iff]
  constructor
  · rintro ⟨-, -, x, hx, hn⟩
    obtain rfl : x = t := by
      cases x
      cases t
      cases hn
      rfl
    exact hx
  · intro ht
    have := (List.getElem?_eq_some_iff.mp ht).1
    exact ⟨Nat.zero_le _, by omega, t, ht, rfl⟩

theorem find?_eq_of_ascending (h : f.Ascending) :
    f.find? t = (f.position? t).bind fun i => f.held[i]? := by
  cases hp : f.position? t with
  | none =>
    by_contra hf
    obtain ⟨i, hi⟩ := List.mem_iff_getElem?.mp (mem_tickets_iff.mpr hf)
    rw [(position?_eq_some_iff h).mpr hi] at hp
    cases hp
  | some i =>
    have hfound := (position?_eq_some_iff h).mp hp
    rw [tickets, List.getElem?_map, Option.map_eq_some_iff] at hfound
    obtain ⟨x, hx, rfl⟩ := hfound
    obtain ⟨hi, hxi⟩ := List.getElem?_eq_some_iff.mp hx
    rw [Option.bind_some, hx, find?, List.find?_eq_some_iff_getElem]
    refine ⟨decide_eq_true rfl, i, hi, hxi, fun j hj => ?_⟩
    -- A held state with the same ticket would be at the same place.
    have hne : f.held[j].ticket ≠ x.ticket := by
      intro he
      have hother : f.tickets[j]? = some x.ticket := by
        rw [tickets, List.getElem?_map, List.getElem?_eq_getElem (by omega), Option.map_some, he]
      have := (position?_eq_some_iff h).mpr hother
      rw [hp, Option.some.injEq] at this
      omega
    simpa using hne

end Frontier

end PathExplorer
