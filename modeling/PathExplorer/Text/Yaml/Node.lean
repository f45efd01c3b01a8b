import PathExplorer.Text.Yaml.Token

namespace PathExplorer

inductive Yaml where
  | scalar (text : String) (plain : Bool)
  | sequence (items : List Yaml)
  | mapping (entries : List (Yaml × Yaml))

namespace Yaml

def empty : Yaml := .scalar "" true

def beginsNothing (ends : List Token) : List Token → Bool
  | [] => true
  | t :: _ => ends.contains t

mutual

/-- A node; block collections only where `block` holds, and entries without an indentation of their
own only where `loose` holds. -/
def node (block loose : Bool) : Nat → List Token → Option (Yaml × List Token)
  | 0, _ => none
  | n + 1, ts =>
    match ts with
    | .scalar text plain :: ts => some (.scalar text plain, ts)
    | .flowSequence :: ts => do
      let (items, ts) ← flowItems true n ts
      return (.sequence items, ts)
    | .flowMapping :: ts => do
      let (entries, ts) ← flowEntries true n ts
      return (.mapping entries, ts)
    | .entry :: _ =>
      if loose then do
        let (items, ts) ← looseItems n ts
        return (.sequence items, ts)
      else none
    | .blockSequence :: ts =>
      if block then do
        let (items, ts) ← blockItems n ts
        return (.sequence items, ts)
      else none
    | .blockMapping :: ts =>
      if block then do
        let (entries, ts) ← blockEntries n ts
        return (.mapping entries, ts)
      else none
    | _ => none

def optional (block loose : Bool) (ends : List Token) :
    Nat → List Token → Option (Yaml × List Token)
  | 0, _ => none
  | n + 1, ts => if beginsNothing ends ts then some (empty, ts) else node block loose n ts

def blockItems : Nat → List Token → Option (List Yaml × List Token)
  | 0, _ => none
  | n + 1, ts =>
    match ts with
    | .entry :: ts => do
      let (item, ts) ← optional true false [.entry, .blockEnd] n ts
      let (items, ts) ← blockItems n ts
      return (item :: items, ts)
    | .blockEnd :: ts => some ([], ts)
    | _ => none

/-- The items of a sequence as far indented as the key it belongs to. -/
def looseItems : Nat → List Token → Option (List Yaml × List Token)
  | 0, _ => none
  | n + 1, ts =>
    match ts with
    | .entry :: ts => do
      let (item, ts) ← optional true false [.entry, .key, .value, .blockEnd] n ts
      let (items, ts) ← looseItems n ts
      return (item :: items, ts)
    | ts => some ([], ts)

def blockEntries : Nat → List Token → Option (List (Yaml × Yaml) × List Token)
  | 0, _ => none
  | n + 1, ts =>
    match ts with
    | .key :: ts => do
      let (key, ts) ← optional true true [.key, .value, .blockEnd] n ts
      let (value, ts) ← match ts with
        | .value :: ts => optional true true [.key, .value, .blockEnd] n ts
        | ts => some (empty, ts)
      let (entries, ts) ← blockEntries n ts
      return ((key, value) :: entries, ts)
    | .blockEnd :: ts => some ([], ts)
    | _ => none

def flowItems (first : Bool) : Nat → List Token → Option (List Yaml × List Token)
  | 0, _ => none
  | n + 1, ts =>
    match first, ts with
    | _, .flowSequenceEnd :: ts => some ([], ts)
    | true, ts => flowItem n ts
    | false, .comma :: .flowSequenceEnd :: ts => some ([], ts)
    | false, .comma :: ts => flowItem n ts
    | false, _ => none

/-- An item of a flow sequence and those after it.  A key makes an item that is a mapping; where an
announced key is missing, the token in its place is left out. -/
def flowItem : Nat → List Token → Option (List Yaml × List Token)
  | 0, _ => none
  | n + 1, ts => do
    let (item, ts) ← match ts with
      | .key :: ts => do
        let (key, ts) ← match ts with
          | .value :: ts | .comma :: ts | .flowSequenceEnd :: ts => some (empty, ts)
          | ts => node false false n ts
        let (value, ts) ← match ts with
          | .value :: ts => optional false false [.comma, .flowSequenceEnd] n ts
          | ts => some (empty, ts)
        some (Yaml.mapping [(key, value)], ts)
      | ts => node false false n ts
    let (items, ts) ← flowItems false n ts
    return (item :: items, ts)

def flowEntries (first : Bool) : Nat → List Token → Option (List (Yaml × Yaml) × List Token)
  | 0, _ => none
  | n + 1, ts =>
    match first, ts with
    | _, .flowMappingEnd :: ts => some ([], ts)
    | true, ts => flowEntry n ts
    | false, .comma :: .flowMappingEnd :: ts => some ([], ts)
    | false, .comma :: ts => flowEntry n ts
    | false, _ => none

/-- An entry of a flow mapping and those after it.  A node that is no key has no value. -/
def flowEntry : Nat → List Token → Option (List (Yaml × Yaml) × List Token)
  | 0, _ => none
  | n + 1, ts => do
    let (entry, ts) ← match ts with
      | .key :: ts => do
        let (key, ts) ← optional false false [.value, .comma, .flowMappingEnd] n ts
        let (value, ts) ← match ts with
          | .value :: ts => optional false false [.comma, .flowMappingEnd] n ts
          | ts => some (empty, ts)
        some ((key, value), ts)
      | ts => do
        let (key, ts) ← node false false n ts
        some ((key, empty), ts)
    let (entries, ts) ← flowEntries false n ts
    return (entry :: entries, ts)

end

/-- The document that the tokens make up.  A stream without a document counts as an empty one; more
than one document is refused. -/
def ofTokens? (ts : List Token) : Option Yaml := do
  let bound := 3 * ts.length + 3
  let (root, ts) ← match ts with
    | [] => some (empty, [])
    | .documentStart :: ts => optional true false [.documentStart, .documentEnd] bound ts
    | ts => node true false bound ts
  if ts.all (· = .documentEnd) then some root else none

def read? (text : String) : Option Yaml := do ofTokens? (← tokens? text)

end Yaml

end PathExplorer
