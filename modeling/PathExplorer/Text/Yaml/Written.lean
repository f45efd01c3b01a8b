import PathExplorer.Text.Yaml.Node

namespace PathExplorer.Yaml

mutual

def inline : Yaml → String
  | .scalar text true => text
  | .scalar text false => "'" ++ text.replace "'" "''" ++ "'"
  | .sequence items => "[" ++ ", ".intercalate (inlineItems items) ++ "]"
  | .mapping entries => "\x7b" ++ ", ".intercalate (inlineEntries entries) ++ "\x7d"

def inlineItems : List Yaml → List String
  | [] => []
  | item :: items => inline item :: inlineItems items

def inlineEntries : List (Yaml × Yaml) → List String
  | [] => []
  | (key, value) :: entries => (inline key ++ ": " ++ inline value) :: inlineEntries entries

end

mutual

def entryLines (margin key : String) : Yaml → List String
  | .mapping (entry :: entries) =>
    (margin ++ key ++ ":") :: lines (margin ++ "  ") (entry :: entries)
  | value => [margin ++ key ++ ": " ++ inline value]

def lines (margin : String) : List (Yaml × Yaml) → List String
  | [] => []
  | (key, value) :: entries => entryLines margin (inline key) value ++ lines margin entries

end

def write : Yaml → String
  | .mapping (entry :: entries) => String.join ((lines "" (entry :: entries)).map (· ++ "\n"))
  | root => inline root ++ "\n"

end PathExplorer.Yaml
