namespace PathExplorer

/-- The value of a field, which may be missing; there is no answer when it is given twice. -/
def field? {α : Type} (fields : List (String × α)) (name : String) : Option (Option α) :=
  match fields.filter (·.1 = name) with
  | [] => some none
  | [(_, value)] => some (some value)
  | _ => none

def required {α β : Type} (read : α → Option β) (value : Option α) : Option β := value.bind read

def defaulted {α β : Type} (fallback : β) (read : α → Option β) : Option α → Option β
  | some value => read value
  | none => some fallback

def atMost (greatest n : Nat) : Option Nat := if n ≤ greatest then some n else none

end PathExplorer
