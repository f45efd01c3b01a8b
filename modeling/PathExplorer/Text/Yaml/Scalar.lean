import PathExplorer.Text.Field
import PathExplorer.Text.Yaml.Node

namespace PathExplorer.Yaml

def isNull : Yaml → Bool
  | .scalar text true => ["", "~", "null", "Null", "NULL"].contains text
  | _ => false

def bool? : Yaml → Option Bool
  | .scalar text true =>
    if ["true", "True", "TRUE"].contains text then some true
    else if ["false", "False", "FALSE"].contains text then some false
    else none
  | _ => none

def text? : Yaml → Option String
  | .scalar text _ => some text
  | _ => none

def ofDigits? (base : Nat) (digits : List Char) : Option Nat :=
  if digits.isEmpty then none
  else digits.foldlM (fun n c => do
    let d ← Lexer.hexValue? c
    if d < base then some (base * n + d) else none) 0

def natural? (text : String) : Option Nat :=
  let unsigned := match text.toList with
    | '+' :: cs => cs
    | cs => cs
  match unsigned with
  | '0' :: 'x' :: cs => ofDigits? 16 cs
  | '0' :: 'o' :: cs => ofDigits? 8 cs
  | '0' :: 'b' :: cs => ofDigits? 2 cs
  | '0' :: _ :: _ => none
  | cs => ofDigits? 10 cs

def nat? (greatest : Nat) : Yaml → Option Nat
  | .scalar text true => do atMost greatest (← natural? text)
  | _ => none

def nullable {α : Type} (read : Yaml → Option α) (y : Yaml) : Option (Option α) :=
  if y.isNull then some none else (read y).map some

/-- The fields of a mapping, all of whose keys are scalars.  Nothing at all counts as a mapping
without fields. -/
def fields? : Yaml → Option (List (String × Yaml))
  | .mapping entries => entries.mapM fun e => (text? e.1).map (·, e.2)
  | .scalar "" true => some []
  | _ => none

end PathExplorer.Yaml
