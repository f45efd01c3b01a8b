import PathExplorer.Text.Json.Node

namespace PathExplorer.Json

def isBlank (c : Char) : Bool := c = ' ' || c = '\n' || c = '\t' || c = '\r'

def blanks (cs : List Char) : List Char := cs.dropWhile isBlank

def after? (expected : String) (cs : List Char) : Option (List Char) :=
  if expected.toList.isPrefixOf cs then some (cs.drop expected.length) else none

def isDigit (c : Char) : Bool := '0' ≤ c && c ≤ '9'

def hexDigit? (c : Char) : Option Nat :=
  if isDigit c then some (c.toNat - '0'.toNat)
  else if 'a' ≤ c && c ≤ 'f' then some (c.toNat - 'a'.toNat + 10)
  else if 'A' ≤ c && c ≤ 'F' then some (c.toNat - 'A'.toNat + 10)
  else none

def unit? (cs : List Char) : Option (Nat × List Char) := do
  let digits ← (cs.take 4).mapM hexDigit?
  if digits.length = 4 then some (digits.foldl (fun a d => 16 * a + d) 0, cs.drop 4) else none

def escapes : List (Char × Char) :=
  [('"', '"'), ('\\', '\\'), ('/', '/'), ('b', '\x08'), ('f', '\x0c'), ('n', '\n'), ('r', '\r'),
   ('t', '\t')]

def isHighSurrogate (u : Nat) : Bool := 0xd800 ≤ u && u < 0xdc00

def isLowSurrogate (u : Nat) : Bool := 0xdc00 ≤ u && u < 0xe000

def lowHalf? : List Char → Option (Nat × List Char)
  | '\\' :: 'u' :: cs => do
    let (u, cs) ← unit? cs
    if isLowSurrogate u then some (u, cs) else none
  | _ => none

/-- The character that code units stand for, none for half a surrogate pair, and what follows. -/
def unicode? (cs : List Char) : Option (Option Char × List Char) := do
  let (u, cs) ← unit? cs
  if isHighSurrogate u then
    match lowHalf? cs with
    | some (v, cs) => some (some (Char.ofNat (0x10000 + (u - 0xd800) * 0x400 + (v - 0xdc00))), cs)
    | none => some (none, cs)
  else if isLowSurrogate u then some (none, cs)
  else some (some (Char.ofNat u), cs)

/-- The rest of a string up to its quote; `text` holds its characters so far, the last first, unless
they are no text. -/
def string? : Nat → Option (List Char) → List Char → Option (Option String × List Char)
  | 0, _, _ => none
  | n + 1, text, cs =>
    match cs with
    | [] => none
    | '"' :: cs => some (text.map fun t => String.ofList t.reverse, cs)
    | '\\' :: 'u' :: cs => do
      let (c, cs) ← unicode? cs
      string? n (do return (← c) :: (← text)) cs
    | '\\' :: c :: cs => do
      let e ← escapes.lookup c
      string? n (text.map (e :: ·)) cs
    | c :: cs => if c < ' ' || c = '\\' then none else string? n (text.map (c :: ·)) cs

def digits? (cs : List Char) : Option (List Char × List Char) :=
  let (digits, rest) := cs.span isDigit
  if digits.isEmpty then none else some (digits, rest)

def integer? : List Char → Option (List Char × List Char)
  | '0' :: cs => if cs.head?.any isDigit then none else some (['0'], cs)
  | cs => digits? cs

def fraction? : List Char → Option (List Char × List Char)
  | '.' :: cs => (digits? cs).map fun (ds, cs) => ('.' :: ds, cs)
  | cs => some ([], cs)

def exponent? : List Char → Option (List Char × List Char)
  | c :: cs =>
    if c = 'e' || c = 'E' then
      let (sign, cs) := match cs with
        | '+' :: cs => (['+'], cs)
        | '-' :: cs => (['-'], cs)
        | cs => ([], cs)
      (digits? cs).map fun (ds, cs) => (c :: sign ++ ds, cs)
    else some ([], c :: cs)
  | [] => some ([], [])

def valueOf (digits : List Char) : Nat := digits.foldl (fun a c => 10 * a + (c.toNat - '0'.toNat)) 0

def number? (cs : List Char) : Option (Json × List Char) := do
  let (sign, cs) := match cs with
    | '-' :: cs => (['-'], cs)
    | cs => ([], cs)
  let (whole, cs) ← integer? cs
  let (fraction, cs) ← fraction? cs
  let (exponent, cs) ← exponent? cs
  if sign.isEmpty && fraction.isEmpty && exponent.isEmpty then some (.natural (valueOf whole), cs)
  else some (.number (String.ofList (sign ++ whole ++ fraction ++ exponent)), cs)

mutual

def value? : Nat → List Char → Option (Json × List Char)
  | 0, _ => none
  | n + 1, cs =>
    match blanks cs with
    | '"' :: cs => do
      let (text, cs) ← string? n (some []) cs
      return (.string text, cs)
    | '[' :: cs =>
      match blanks cs with
      | ']' :: cs => some (.list [], cs)
      | cs => do
        let (items, cs) ← items n cs
        return (.list items, cs)
    | '\x7b' :: cs =>
      match blanks cs with
      | '\x7d' :: cs => some (.record [], cs)
      | cs => do
        let (fields, cs) ← fields n cs
        return (.record fields, cs)
    | 'n' :: cs => (after? "ull" cs).map (.null, ·)
    | 't' :: cs => (after? "rue" cs).map (.bool true, ·)
    | 'f' :: cs => (after? "alse" cs).map (.bool false, ·)
    | cs => number? cs

def items : Nat → List Char → Option (List Json × List Char)
  | 0, _ => none
  | n + 1, cs => do
    let (item, cs) ← value? n cs
    match blanks cs with
    | ']' :: cs => return ([item], cs)
    | ',' :: cs => do
      let (rest, cs) ← items n cs
      return (item :: rest, cs)
    | _ => none

def fields : Nat → List Char → Option (List (Option String × Json) × List Char)
  | 0, _ => none
  | n + 1, cs => do
    let cs ← after? "\"" (blanks cs)
    let (name, cs) ← string? n (some []) cs
    let cs ← after? ":" (blanks cs)
    let (value, cs) ← value? n cs
    match blanks cs with
    | '\x7d' :: cs => return ([(name, value)], cs)
    | ',' :: cs => do
      let (rest, cs) ← fields n cs
      return ((name, value) :: rest, cs)
    | _ => none

end

def read? (text : String) : Option Json := do
  let cs := text.toList
  let (value, rest) ← value? (2 * cs.length + 2) cs
  if (blanks rest).isEmpty then some value else none

end PathExplorer.Json
