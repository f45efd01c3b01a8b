import PathExplorer.State.Basic

namespace PathExplorer

class StopRule (τ : Type) where
  name : τ → String
  onVisit : State → τ → τ
  onTraversed : State → τ → τ
  stops : τ → Bool

structure NeverStop where

instance : StopRule NeverStop where
  name _ := "never"
  onVisit _ rule := rule
  onTraversed _ rule := rule
  stops _ := false

structure StepsLimit where
  limit : Nat
  steps : Nat := 0

instance : StopRule StepsLimit where
  name _ := "steps-limit"
  onVisit _ rule := { rule with steps := rule.steps + 1 }
  onTraversed _ rule := rule
  stops rule := rule.limit ≤ rule.steps

/-- Rules joined so that any one of them stops; joined rules may be joined again. -/
inductive AnyOf (τ : Type) where
  | one (rule : τ)
  | any (rules : List (AnyOf τ))

namespace AnyOf

variable {τ : Type}

mutual

def map (f : τ → τ) : AnyOf τ → AnyOf τ
  | one rule => one (f rule)
  | any rules => any (mapAll f rules)

def mapAll (f : τ → τ) : List (AnyOf τ) → List (AnyOf τ)
  | [] => []
  | r :: rs => map f r :: mapAll f rs

end

mutual

def leaves : AnyOf τ → List τ
  | one rule => [rule]
  | any rules => leavesAll rules

def leavesAll : List (AnyOf τ) → List τ
  | [] => []
  | r :: rs => leaves r ++ leavesAll rs

end

variable [StopRule τ]

mutual

def stops : AnyOf τ → Bool
  | one rule => StopRule.stops rule
  | any rules => stopsAny rules

def stopsAny : List (AnyOf τ) → Bool
  | [] => false
  | r :: rs => stops r || stopsAny rs

end

def name : AnyOf τ → String
  | one rule => StopRule.name rule
  | any _ => "any-of"

def parts : AnyOf τ → List (AnyOf τ)
  | one _ => []
  | any rules => rules

def stoppedBy? (r : AnyOf τ) : Option String := (r.parts.find? stops).map name

instance : StopRule (AnyOf τ) where
  name := name
  onVisit s := map (StopRule.onVisit s)
  onTraversed s := map (StopRule.onTraversed s)
  stops := stops

end AnyOf

end PathExplorer
