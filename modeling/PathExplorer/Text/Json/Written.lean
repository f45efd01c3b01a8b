import PathExplorer.Text.Json.Node

namespace PathExplorer.Json

def hexChar (n : Nat) : Char := if n < 10 then Char.ofNat (48 + n) else Char.ofNat (87 + n)

def escaped (c : Char) : List Char :=
  if c = '"' || c = '\\' then ['\\', c]
  else if c = '\x08' then ['\\', 'b']
  else if c = '\t' then ['\\', 't']
  else if c = '\n' then ['\\', 'n']
  else if c = '\x0c' then ['\\', 'f']
  else if c = '\r' then ['\\', 'r']
  else if c < ' ' then ['\\', 'u', '0', '0', hexChar (c.toNat / 16), hexChar (c.toNat % 16)]
  else [c]

/-- A string in quotes; what is no text is written as an empty one. -/
def quoted (text : Option String) : String :=
  "\"" ++ String.ofList ((text.getD "").toList.flatMap escaped) ++ "\""

def enclosed (opening closing margin : String) (parts : List String) : String :=
  if parts.isEmpty then opening ++ closing
  else
    let inner := (",\n" ++ margin ++ "  ").intercalate parts
    opening ++ "\n" ++ margin ++ "  " ++ inner ++ "\n" ++ margin ++ closing

mutual

def pretty (margin : String) : Json → String
  | .null => "null"
  | .bool b => if b then "true" else "false"
  | .natural n => toString n
  | .number literal => literal
  | .string text => quoted text
  | .list items => enclosed "[" "]" margin (prettyItems (margin ++ "  ") items)
  | .record fields => enclosed "\x7b" "\x7d" margin (prettyFields (margin ++ "  ") fields)

def prettyItems (margin : String) : List Json → List String
  | [] => []
  | item :: items => pretty margin item :: prettyItems margin items

def prettyFields (margin : String) : List (Option String × Json) → List String
  | [] => []
  | (name, value) :: fields =>
    (quoted name ++ ": " ++ pretty margin value) :: prettyFields margin fields

end

def write (j : Json) : String := pretty "" j

end PathExplorer.Json
