import PathExplorer.Metric.Weight

namespace PathExplorer

structure Ticket where
  number : Nat
deriving DecidableEq

instance : ToString Ticket := ⟨fun t => s!"f{t.number}"⟩

structure Candidate where
  ticket : Ticket
  weight : Weight
deriving DecidableEq

class ChoiceRule (χ : Type) where
  name : χ → String
  /-- Whether `choose` reads weights.  If not, candidates are not weighed for it. -/
  usesWeights : χ → Bool
  choose : List Candidate → χ → Option Nat × χ

/-- The position of the candidate left over when each in turn replaces the one before it that it
`beats`. -/
def lastStanding (beats : Candidate → Candidate → Bool) (cs : List Candidate) : Option Nat :=
  let keep (best : Option (Candidate × Nat)) (c : Candidate × Nat) : Option (Candidate × Nat) :=
    match best with
    | some b => if beats c.1 b.1 then some c else some b
    | none => some c
  (cs.zipIdx.foldl keep none).map (·.2)

def Candidate.isEarlier (a b : Candidate) : Bool := a.ticket.number < b.ticket.number

def Candidate.isBetter (a b : Candidate) : Bool :=
  b.weight < a.weight || (a.weight = b.weight && a.isEarlier b)

structure HighestWeight where

instance : ChoiceRule HighestWeight where
  name _ := "highest-weight"
  usesWeights _ := true
  choose cs rule := (lastStanding Candidate.isBetter cs, rule)

structure Fifo where

instance : ChoiceRule Fifo where
  name _ := "fifo"
  usesWeights _ := false
  choose cs rule := (lastStanding Candidate.isEarlier cs, rule)

structure Lifo where

instance : ChoiceRule Lifo where
  name _ := "lifo"
  usesWeights _ := false
  choose cs rule := (lastStanding (fun a b => !a.isEarlier b) cs, rule)

end PathExplorer
