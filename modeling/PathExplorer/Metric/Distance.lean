namespace PathExplorer

inductive Distance where
  | finite (steps : UInt64)
  | unreachable
deriving DecidableEq

namespace Distance

/-- The exact count `n`, or the largest one when `n` has no 64-bit form. -/
def ofNat (n : Nat) : Distance := .finite (UInt64.ofNatClamp n)

def zero : Distance := .finite 0

def finite? : Distance → Option UInt64
  | .finite n => some n
  | .unreachable => none

def isFinite (d : Distance) : Bool := d.finite?.isSome

def isUnreachable (d : Distance) : Bool := d.finite?.isNone

instance : Add Distance where
  add
    | .finite a, .finite b => ofNat (a.toNat + b.toNat)
    | _, _ => .unreachable

def scale (c : UInt64) : Distance → Distance
  | .finite a => ofNat (a.toNat * c.toNat)
  | .unreachable => .unreachable

def sum (ds : List Distance) : Distance := ds.foldl (· + ·) zero

/-- The place of a distance in their order: the count itself, and for `unreachable` the first
number that is no count. -/
def rank : Distance → Nat
  | .finite a => a.toNat
  | .unreachable => UInt64.size

instance : LE Distance := ⟨fun a b => a.rank ≤ b.rank⟩

instance : DecidableLE Distance := fun a b => inferInstanceAs (Decidable (a.rank ≤ b.rank))

instance : Ord Distance := ⟨compareOn rank⟩

instance : Min Distance := minOfLe

def least (ds : List Distance) : Distance := ds.foldr min .unreachable

instance : ToString Distance where
  toString
    | .finite a => toString a
    | .unreachable => "inf"

theorem rank_injective {a b : Distance} (h : a.rank = b.rank) : a = b := by
  cases a with
  | finite a =>
    cases b with
    | finite b => exact congrArg _ (UInt64.toNat_inj.mp h)
    | unreachable => exact absurd h (Nat.ne_of_lt a.toNat_lt)
  | unreachable =>
    cases b with
    | finite b => exact absurd h.symm (Nat.ne_of_lt b.toNat_lt)
    | unreachable => rfl

instance : Std.TransOrd Distance := inferInstanceAs (Std.TransCmp (compareOn rank))

instance : Std.LawfulEqOrd Distance where
  eq_of_compare h := rank_injective (Std.LawfulEqOrd.eq_of_compare (α := Nat) h)

@[simp] theorem unreachable_add (d : Distance) : unreachable + d = unreachable := rfl

@[simp] theorem add_unreachable (d : Distance) : d + unreachable = unreachable := by
  cases d <;> rfl

theorem finite_add_finite (a b : UInt64) : finite a + finite b = ofNat (a.toNat + b.toNat) := rfl

@[simp] theorem least_nil : least [] = unreachable := rfl

@[simp] theorem least_cons (d : Distance) (ds : List Distance) :
    least (d :: ds) = min d (least ds) := rfl

end Distance

end PathExplorer
