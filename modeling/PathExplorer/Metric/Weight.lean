import PathExplorer.Metric.Distance

namespace PathExplorer

structure Weight where
  value : Int64
deriving DecidableEq

namespace Weight

def zero : Weight := ⟨0⟩

def negInfinity : Weight := ⟨Int64.minValue⟩

def isNegInfinity (w : Weight) : Bool := w == negInfinity

/-- 2 to the power of 63.  The distances below it have a negation above the least weight. -/
def bound : Nat := 0x8000000000000000

/-- The negated distance.  A distance from `bound` on counts as unreachable. -/
def ofDistance : Distance → Weight
  | .finite d => if d.toNat < bound then ⟨-Int64.ofNat d.toNat⟩ else negInfinity
  | .unreachable => negInfinity

instance : Ord Weight := ⟨compareOn Weight.value⟩

instance : LE Weight := ⟨fun a b => a.value ≤ b.value⟩

instance : LT Weight := ⟨fun a b => a.value < b.value⟩

instance : DecidableLE Weight := fun a b => inferInstanceAs (Decidable (a.value ≤ b.value))

instance : DecidableLT Weight := fun a b => inferInstanceAs (Decidable (a.value < b.value))

instance : ToString Weight := ⟨fun w => if w.isNegInfinity then "-inf" else toString w.value⟩

instance : Std.TransOrd Weight := inferInstanceAs (Std.TransCmp (compareOn Weight.value))

instance : Std.LawfulEqOrd Weight where
  eq_of_compare {a b} h := by
    have : a.value = b.value := Std.LawfulEqOrd.eq_of_compare h
    cases a; cases b; simp_all

theorem lt_iff {a b : Weight} : a < b ↔ a.value.toInt < b.value.toInt :=
  Int64.lt_iff_toInt_lt

theorem le_iff {a b : Weight} : a ≤ b ↔ a.value.toInt ≤ b.value.toInt :=
  Int64.le_iff_toInt_le

theorem eq_iff {a b : Weight} : a = b ↔ a.value.toInt = b.value.toInt := by
  rw [Int64.toInt_inj, mk.injEq]

theorem lt_or_eq_of_le {a b : Weight} (h : a ≤ b) : a < b ∨ a = b := by
  rw [lt_iff, eq_iff]
  exact Int.lt_or_eq_of_le (le_iff.mp h)

end Weight

end PathExplorer
