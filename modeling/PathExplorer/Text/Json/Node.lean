import PathExplorer.Text.Field

namespace PathExplorer

inductive Json where
  | null
  | bool (value : Bool)
  | natural (value : Nat)
  | number (literal : String)
  | string (text : Option String)
  | list (items : List Json)
  | record (fields : List (Option String × Json))

namespace Json

def text (s : String) : Json := .string (some s)

def ofFields (fields : List (String × Json)) : Json :=
  .record (fields.map fun f => (some f.1, f.2))

def bool? : Json → Option Bool
  | .bool b => some b
  | _ => none

def text? : Json → Option String
  | .string text => text
  | _ => none

def nat? (greatest : Nat) : Json → Option Nat
  | .natural n => atMost greatest n
  | _ => none

def nullable {α : Type} (read : Json → Option α) : Json → Option (Option α)
  | .null => some none
  | j => (read j).map some

def items? {α : Type} (read : Json → Option α) : Json → Option (List α)
  | .list items => items.mapM read
  | _ => none

/-- The values of the named fields.  A record has them by name, among others or in any order; a list
has them by place, and no others. -/
def slots? (names : List String) : Json → Option (List (Option Json))
  | .record fields => do
    let fields ← fields.mapM fun f => f.1.map (·, f.2)
    names.mapM (field? fields)
  | .list items =>
    if items.length ≤ names.length then some ((List.range names.length).map (items[·]?)) else none
  | _ => none

/-- A choice with its value: a text alone, or a record with one field. -/
def choice? : Json → Option (String × Option Json)
  | .string text => text.map (·, none)
  | .record [(name, value)] => name.map (·, some value)
  | _ => none

def isBare : Option Json → Bool
  | none => true
  | some .null => true
  | _ => false

end Json

end PathExplorer
