import Mathlib.Order.Bounds.Basic
import PathExplorer.Metric.Distance

namespace PathExplorer.Distance

variable {p q : Nat → Prop} {d e : Distance}

/-- The distance is the least count with the property, rounded, and `unreachable` without one. -/
def Measures (d : Distance) (p : Nat → Prop) : Prop :=
  (∃ n, IsLeast {k | p k} n ∧ d = ofNat n) ∨ ((∀ k, ¬ p k) ∧ d = unreachable)

theorem rank_ofNat (n : Nat) : (ofNat n).rank = min n (UInt64.size - 1) := by
  by_cases h : n < UInt64.size
  · have hn : (UInt64.ofNatClamp n).toNat = n := by
      rw [UInt64.ofNatClamp_eq_ofNat n h]
      exact UInt64.toNat_ofNat_of_lt' h
    simp only [ofNat, rank, hn]
    omega
  · have hn : (UInt64.ofNatClamp n).toNat = UInt64.size - 1 := by
      simp only [UInt64.ofNatClamp, dif_neg h]
      rfl
    simp only [ofNat, rank, hn]
    omega

theorem toNat_ofNatClamp (n : Nat) :
    (UInt64.ofNatClamp n).toNat = min n (UInt64.size - 1) := rank_ofNat n

theorem ofNat_eq_ofNat {m n : Nat} (h : min m (UInt64.size - 1) = min n (UInt64.size - 1)) :
    ofNat m = ofNat n := by
  apply rank_injective
  rw [rank_ofNat, rank_ofNat, h]

theorem ofNat_add_ofNat (m n : Nat) : ofNat m + ofNat n = ofNat (m + n) := by
  have h := finite_add_finite (UInt64.ofNatClamp m) (UInt64.ofNatClamp n)
  rw [toNat_ofNatClamp, toNat_ofNatClamp] at h
  exact h.trans (ofNat_eq_ofNat (by omega))

theorem ofNat_toNat (a : UInt64) : ofNat a.toNat = finite a := by
  apply rank_injective
  rw [rank_ofNat, rank]
  have := a.toNat_lt
  simp only [UInt64.size]
  omega

protected theorem zero_add (d : Distance) : zero + d = d := by
  cases d with
  | finite a => exact (congrArg ofNat (Nat.zero_add _)).trans (ofNat_toNat a)
  | unreachable => rfl

protected theorem add_assoc (d e f : Distance) : d + e + f = d + (e + f) := by
  cases d with
  | unreachable => rfl
  | finite a =>
    cases e with
    | unreachable => rfl
    | finite b =>
      cases f with
      | unreachable => simp
      | finite c =>
        rw [← ofNat_toNat a, ← ofNat_toNat b, ← ofNat_toNat c]
        simp only [ofNat_add_ofNat, Nat.add_assoc]

theorem scale_ofNat (c : UInt64) (n : Nat) : (ofNat n).scale c = ofNat (n * c.toNat) := by
  have h : (ofNat n).scale c = ofNat ((UInt64.ofNatClamp n).toNat * c.toNat) := rfl
  rw [h, toNat_ofNatClamp]
  apply ofNat_eq_ofNat
  obtain hc | hc := Nat.eq_zero_or_pos c.toNat
  · rw [hc]
    simp
  · by_cases hn : n < UInt64.size
    · have hm : min n (UInt64.size - 1) = n := Nat.min_eq_left (by omega)
      rw [hm]
    · have h₁ := Nat.le_mul_of_pos_right (min n (UInt64.size - 1)) hc
      have h₂ := Nat.le_mul_of_pos_right n hc
      omega

theorem ofNat_le_ofNat {m n : Nat} (h : m ≤ n) : ofNat m ≤ ofNat n := by
  change (ofNat m).rank ≤ (ofNat n).rank
  rw [rank_ofNat, rank_ofNat]
  omega

theorem le_unreachable (d : Distance) : d ≤ unreachable := by
  cases d with
  | finite a => exact Nat.le_of_lt a.toNat_lt
  | unreachable => exact Nat.le_refl _

theorem min_eq_left_of_le (h : d ≤ e) : min d e = d := if_pos h

theorem min_eq_right_of_le (h : e ≤ d) : min d e = e := by
  by_cases hd : d ≤ e
  · exact (if_pos hd).trans (rank_injective (Nat.le_antisymm hd h))
  · exact if_neg hd

namespace Measures

theorem unique (hd : d.Measures p) (he : e.Measures p) : d = e := by
  obtain ⟨m, hm, rfl⟩ | ⟨hp, rfl⟩ := hd <;> obtain ⟨n, hn, rfl⟩ | ⟨hq, rfl⟩ := he
  · rw [hm.unique hn]
  · exact absurd hm.1 (hq m)
  · exact absurd hn.1 (hp n)
  · rfl

theorem congr (hd : d.Measures p) (h : ∀ k, p k ↔ q k) : d.Measures q := by
  have hpq : p = q := funext fun k => propext (h k)
  exact hpq ▸ hd

theorem of_isLeast {n : Nat} (h : IsLeast {k | p k} n) : (ofNat n).Measures p := .inl ⟨n, h, rfl⟩

theorem of_none (h : ∀ k, ¬ p k) : unreachable.Measures p := .inr ⟨h, rfl⟩

theorem zero : Distance.zero.Measures (· = 0) := .inl ⟨0, ⟨rfl, fun _ _ => Nat.zero_le _⟩, rfl⟩

theorem eq_zero_iff (hd : d.Measures p) : d = Distance.zero ↔ p 0 := by
  constructor
  · rintro rfl
    obtain ⟨n, hn, he⟩ | ⟨-, he⟩ := hd
    · have hrank : min n (UInt64.size - 1) = 0 := by
        rw [← rank_ofNat, ← he]
        rfl
      have hzero : n = 0 := by
        simp only [UInt64.size] at hrank
        omega
      exact hzero ▸ hn.1
    · cases he
  · exact fun h => hd.unique (.inl ⟨0, ⟨h, fun _ _ => Nat.zero_le _⟩, rfl⟩)

/-- The sum of two distances measures the ways that are made of two parts. -/
theorem add (hd : d.Measures p) (he : e.Measures q) :
    (d + e).Measures fun k => ∃ i j, p i ∧ q j ∧ k = i + j := by
  obtain ⟨m, hm, rfl⟩ | ⟨hp, rfl⟩ := hd
  · obtain ⟨n, hn, rfl⟩ | ⟨hq, rfl⟩ := he
    · rw [ofNat_add_ofNat]
      refine of_isLeast ⟨⟨m, n, hm.1, hn.1, rfl⟩, ?_⟩
      rintro _ ⟨i, j, hi, hj, rfl⟩
      exact Nat.add_le_add (hm.2 hi) (hn.2 hj)
    · rw [add_unreachable]
      exact of_none fun _ ⟨_, j, _, hj, _⟩ => hq j hj
  · rw [unreachable_add]
    exact of_none fun _ ⟨i, _, hi, _, _⟩ => hp i hi

theorem scale_add (hd : d.Measures p) (c : UInt64) (b : Nat) :
    (d.scale c + ofNat b).Measures fun k => ∃ i, p i ∧ k = i * c.toNat + b := by
  obtain ⟨m, hm, rfl⟩ | ⟨hp, rfl⟩ := hd
  · rw [scale_ofNat, ofNat_add_ofNat]
    refine of_isLeast ⟨⟨m, hm.1, rfl⟩, ?_⟩
    rintro _ ⟨i, hi, rfl⟩
    exact Nat.add_le_add_right (Nat.mul_le_mul_right _ (hm.2 hi)) _
  · exact of_none fun _ ⟨i, hi, _⟩ => hp i hi

theorem min (hd : d.Measures p) (he : e.Measures q) :
    (Min.min d e).Measures fun k => p k ∨ q k := by
  obtain ⟨m, hm, rfl⟩ | ⟨hp, rfl⟩ := hd
  · obtain ⟨n, hn, rfl⟩ | ⟨hq, rfl⟩ := he
    · obtain h | h := Nat.le_total m n
      · rw [min_eq_left_of_le (ofNat_le_ofNat h)]
        refine of_isLeast ⟨.inl hm.1, ?_⟩
        rintro k (hk | hk)
        · exact hm.2 hk
        · exact h.trans (hn.2 hk)
      · rw [min_eq_right_of_le (ofNat_le_ofNat h)]
        refine of_isLeast ⟨.inr hn.1, ?_⟩
        rintro k (hk | hk)
        · exact h.trans (hm.2 hk)
        · exact hn.2 hk
    · rw [min_eq_left_of_le (le_unreachable _)]
      exact (of_isLeast hm).congr fun k => (or_iff_left (hq k)).symm
  · rw [min_eq_right_of_le (le_unreachable _)]
    exact he.congr fun k => (or_iff_right (hp k)).symm

end Measures

theorem measures_least {α : Type} (l : List α) (f : α → Distance) (p : α → Nat → Prop)
    (h : ∀ a ∈ l, (f a).Measures (p a)) :
    (least (l.map f)).Measures fun k => ∃ a ∈ l, p a k := by
  induction l with
  | nil => exact .of_none fun k ⟨a, ha, _⟩ => by simp at ha
  | cons a l ih =>
    rw [List.map_cons, least_cons]
    have ha := h a (List.mem_cons_self ..)
    have hl := ih fun b hb => h b (List.mem_cons_of_mem _ hb)
    exact (ha.min hl).congr fun k => by simp

end PathExplorer.Distance
