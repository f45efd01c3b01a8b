import Mathlib.Data.ENat.Lattice
import PathExplorer.Metric.Weight
import PathExplorer.Proofs.Metric.Measure

namespace PathExplorer

namespace Distance

/-- The distance of an exact count of steps, which may be without end. -/
def clamp : ℕ∞ → Distance
  | ⊤ => unreachable
  | (n : ℕ) => ofNat n

@[simp] theorem clamp_top : clamp ⊤ = unreachable := rfl

@[simp] theorem clamp_coe (n : ℕ) : clamp n = ofNat n := rfl

/-- Reckoning with rounded counts gives the rounded exact result, in the order of the counts. -/
structure Reckons (round : ℕ∞ → Distance) : Prop where
  add : ∀ a b, round a + round b = round (a + b)
  scale : ∀ a, ∀ c : UInt64, 1 ≤ c → (round a).scale c = round (a * c.toNat)
  sum : ∀ l : List ℕ∞, sum (l.map round) = round l.sum
  least : ∀ l : List ℕ∞, least (l.map round) = round (⨅ a ∈ l, a)
  mono : ∀ a b, a ≤ b → round a ≤ round b

theorem clamp_add (a b : ℕ∞) : clamp a + clamp b = clamp (a + b) := by
  induction a using ENat.recTopCoe with
  | top => rw [top_add, clamp_top, unreachable_add]
  | coe m =>
    induction b using ENat.recTopCoe with
    | top => rw [add_top, clamp_top, add_unreachable]
    | coe n => exact ofNat_add_ofNat m n

/-- Scaling by nothing would bring what is unreachable into reach. -/
theorem clamp_scale (a : ℕ∞) {c : UInt64} (hc : 1 ≤ c) :
    (clamp a).scale c = clamp (a * c.toNat) := by
  induction a using ENat.recTopCoe with
  | top =>
    have hpos : (c.toNat : ℕ∞) ≠ 0 := by
      rw [UInt64.le_iff_toNat_le] at hc
      exact Nat.cast_ne_zero.mpr (Nat.ne_of_gt hc)
    rw [ENat.top_mul hpos]
    rfl
  | coe n => exact scale_ofNat c n

theorem clamp_le_clamp {a b : ℕ∞} (h : a ≤ b) : clamp a ≤ clamp b := by
  induction b using ENat.recTopCoe with
  | top => exact le_unreachable _
  | coe n =>
    obtain ⟨m, rfl, hm⟩ := ENat.le_natCast_iff.mp h
    exact ofNat_le_ofNat hm

theorem clamp_min (a b : ℕ∞) : min (clamp a) (clamp b) = clamp (min a b) := by
  obtain h | h := le_total a b
  · rw [min_eq_left_of_le (clamp_le_clamp h), min_eq_left h]
  · rw [min_eq_right_of_le (clamp_le_clamp h), min_eq_right h]

theorem sum_map_clamp (l : List ℕ∞) : sum (l.map clamp) = clamp l.sum := by
  -- the fold starts anywhere, for the induction
  have hfold : ∀ a, (l.map clamp).foldl (· + ·) (clamp a) = clamp (a + l.sum) := by
    induction l with
    | nil => simp
    | cons b l ih =>
      intro a
      rw [List.map_cons, List.foldl_cons, clamp_add, ih, List.sum_cons, add_assoc]
  rw [← zero_add l.sum]
  exact hfold 0

theorem least_map_clamp {α : Type} (l : List α) (f : α → ℕ∞) :
    least (l.map fun a => clamp (f a)) = clamp (⨅ a ∈ l, f a) := by
  induction l with
  | nil => simp
  | cons a l ih =>
    have hcons : ⨅ b ∈ a :: l, f b = min (f a) (⨅ b ∈ l, f b) := by
      simp [iInf_or, iInf_inf_eq]
    rw [List.map_cons, least_cons, ih, clamp_min, hcons]

theorem rank_clamp {n : ℕ} (h : n < UInt64.size) : (clamp n).rank = n := by
  rw [clamp_coe, rank_ofNat]
  omega

theorem clamp_reckons : Reckons clamp where
  add := clamp_add
  scale a _ hc := clamp_scale a hc
  sum := sum_map_clamp
  least l := least_map_clamp l id
  mono _ _ := clamp_le_clamp

end Distance

namespace Weight

open Distance

theorem toInt_ofDistance (d : Distance) : (ofDistance d).value.toInt =
    if d.rank < bound then -(d.rank : ℤ) else Int64.minValue.toInt := by
  cases d with
  | unreachable =>
    have hrank : ¬ rank unreachable < bound := by decide
    rw [if_neg hrank]
    rfl
  | finite n =>
    by_cases hn : n.toNat < bound
    · have hlt : n.toNat < 2 ^ 63 := hn
      rw [ofDistance, if_pos hn, rank, if_pos hn]
      simp only [Int64.toInt_neg, Int64.toInt_ofNat_of_lt hlt, Int.bmod_def]
      omega
    · rw [ofDistance, if_neg hn, rank, if_neg hn]
      rfl

theorem bound_eq : bound = 2 ^ 63 := rfl

theorem toInt_negInfinity : negInfinity.value.toInt = -2 ^ 63 := by decide

theorem toInt_of_lt {d : Distance} (h : d.rank < bound) :
    (ofDistance d).value.toInt = -(d.rank : ℤ) := by
  rw [toInt_ofDistance, if_pos h]

theorem toInt_finite {n : UInt64} (h : n.toNat < bound) :
    (ofDistance (.finite n)).value.toInt = -(n.toNat : ℤ) :=
  toInt_of_lt h

theorem ofDistance_eq_negInfinity_iff {d : Distance} :
    ofDistance d = negInfinity ↔ bound ≤ d.rank := by
  rw [eq_iff, toInt_ofDistance]
  by_cases h : d.rank < bound
  · have hbound := bound_eq
    rw [if_pos h, toInt_negInfinity]
    omega
  · rw [if_neg h]
    exact iff_of_true rfl (Nat.le_of_not_lt h)

theorem toInt_clamp {n : ℕ} (h : n < bound) :
    (ofDistance (clamp n)).value.toInt = -(n : ℤ) := by
  have hrank : (clamp n).rank = n := rank_clamp (h.trans (by decide))
  rw [toInt_of_lt (hrank.symm ▸ h), hrank]

theorem ofDistance_clamp_of_le {a : ℕ∞} (h : bound ≤ a) : ofDistance (clamp a) = negInfinity := by
  have hrank : (clamp bound).rank = bound := rank_clamp (by decide)
  have hle : (clamp bound).rank ≤ (clamp a).rank := clamp_le_clamp h
  exact ofDistance_eq_negInfinity_iff.mpr (hrank ▸ hle)

/-- The weights of distances are in the reversed order, and different below `bound`. -/
structure Reverses (weight : Distance → Weight) : Prop where
  antitone : ∀ d e, d ≤ e → weight e ≤ weight d
  strict : ∀ m n : UInt64, m < n → n.toNat < bound → weight (.finite n) < weight (.finite m)
  injective : ∀ m n : UInt64, m.toNat < bound → n.toNat < bound →
    weight (.finite m) = weight (.finite n) → m = n
  negInfinity_iff : ∀ d,
    weight d = negInfinity ↔ d = .unreachable ∨ ∃ n, d = .finite n ∧ bound ≤ n.toNat

theorem ofDistance_reverses : Reverses ofDistance where
  antitone d e h := by
    have hrank : d.rank ≤ e.rank := h
    by_cases he : e.rank < bound
    · rw [le_iff, toInt_of_lt he, toInt_of_lt (Nat.lt_of_le_of_lt hrank he)]
      omega
    · rw [ofDistance_eq_negInfinity_iff.mpr (Nat.le_of_not_lt he)]
      exact Int64.minValue_le _
  strict m n h hn := by
    have hmn := UInt64.lt_iff_toNat_lt.mp h
    rw [lt_iff, toInt_finite hn, toInt_finite (hmn.trans hn)]
    omega
  injective m n hm hn h := by
    rw [eq_iff, toInt_finite hm, toInt_finite hn] at h
    exact UInt64.toNat_inj.mp (by omega)
  negInfinity_iff d := by
    rw [ofDistance_eq_negInfinity_iff]
    cases d with
    | unreachable => simp [rank, bound, UInt64.size]
    | finite n => simp [rank]

theorem ofDistance_le_zero (d : Distance) : ofDistance d ≤ zero :=
  ofDistance_reverses.antitone .zero d (Nat.zero_le d.rank)

end Weight

end PathExplorer
