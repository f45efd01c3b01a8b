namespace PathExplorer.Yaml

inductive Token where
  | documentStart
  | documentEnd
  | blockSequence
  | blockMapping
  | blockEnd
  | flowSequence
  | flowSequenceEnd
  | flowMapping
  | flowMappingEnd
  | entry
  | comma
  | key
  | value
  | scalar (text : String) (plain : Bool)
deriving DecidableEq

/-- A place where a key may turn out to stand. -/
structure KeySpot where
  position : Nat
  required : Bool
  offset : Nat
  line : Nat
  column : Nat

structure Lexer where
  rest : List Char
  offset : Nat := 0
  line : Nat := 0
  column : Nat := 0
  tokens : List Token := []
  count : Nat := 0
  /-- Columns of the open block collections, the innermost first. -/
  indents : List Nat := []
  /-- For each open flow collection, innermost first, and for the block context, where its next key
  may stand. -/
  spots : List (Option KeySpot) := [none]
  keyAllowed : Bool := true

def isBreak (c : Char) : Bool :=
  c = '\n' || c = '\r' || c = '\u0085' || c = '\u2028' || c = '\u2029'

def isBlank (c : Char) : Bool := c = ' ' || c = '\t'

def endsToken : Option Char → Bool
  | none => true
  | some c => isBlank c || isBreak c

def isAllowed (c : Char) : Bool :=
  c = '\t' || c = '\n' || c = '\r' || (' ' ≤ c && c ≤ '~') || c = '\u0085'
    || ('\u00a0' ≤ c && c ≠ '\ufffe' && c ≠ '\uffff')

/-- A line break as it is read: the ends of a line are one character, the separators stay. -/
def breakChar (c : Char) : Char := if c = '\u2028' || c = '\u2029' then c else '\n'

/-- A text folded over lines: one line end becomes a space, and of more all but the first stay.
Within a line the blanks stay; an escaped line end leaves nothing. -/
def folded (lead : Option (List Char)) (blanks breaks : List Char) : List Char :=
  match lead with
  | none => blanks
  | some ['\n'] => if breaks.isEmpty then [' '] else breaks
  | some cs => cs ++ breaks

/-- How many bytes a key and what follows it may take before its colon. -/
def keyReach : Nat := 1024

namespace Lexer

variable (l : Lexer)

def inFlow : Bool := !l.spots.tail.isEmpty

def peek (n : Nat) : Option Char := l.rest[n]?

def skip (n : Nat) : Lexer :=
  { l with
    rest := l.rest.drop n
    offset := (l.rest.take n).foldl (fun bytes c => bytes + c.utf8Size) l.offset
    column := l.column + n }

def skipBreak : Lexer :=
  { l.skip (if l.rest.take 2 = ['\r', '\n'] then 2 else 1) with line := l.line + 1, column := 0 }

def skipLine : Lexer := l.skip (l.rest.takeWhile fun c => !isBreak c).length

def push (t : Token) : Lexer := { l with tokens := t :: l.tokens, count := l.count + 1 }

def insert (position : Nat) (t : Token) : Lexer :=
  let later := l.count - position
  { l with tokens := l.tokens.take later ++ t :: l.tokens.drop later, count := l.count + 1 }

/-- Leave out blanks, comments, line ends and the byte order mark that a line may begin with.  On a
new line a key may stand again. -/
def gap : Nat → Lexer → Lexer
  | 0, l => l
  | n + 1, l =>
    match l.rest with
    | [] => l
    | c :: _ =>
      if c = ' ' || (c = '\t' && (l.inFlow || !l.keyAllowed)) then gap n (l.skip 1)
      else if c = '\ufeff' && l.column = 0 then gap n (l.skip 1)
      else if c = '#' then gap n l.skipLine
      else if isBreak c then
        let l := l.skipBreak
        gap n { l with keyAllowed := l.keyAllowed || !l.inFlow }
      else l

def dropSpot : Option Lexer :=
  match l.spots with
  | some spot :: spots => if spot.required then none else some { l with spots := none :: spots }
  | _ => some l

/-- Give up the place for a key in the innermost collection if it lies too far back.  Places further
out are not in use before that collection ends. -/
def dropStale : Option Lexer :=
  match l.spots with
  | some spot :: _ =>
    if spot.line < l.line || spot.offset + keyReach < l.offset then l.dropSpot else some l
  | _ => some l

def markSpot : Option Lexer := do
  if !l.keyAllowed then return l
  let l ← l.dropSpot
  let spot : KeySpot := {
    position := l.count
    required := !l.inFlow && l.indents.head? = some l.column
    offset := l.offset
    line := l.line
    column := l.column }
  return { l with spots := some spot :: l.spots.tail }

/-- End the block collections that are indented further than `column`. -/
def unroll (column : Option Nat) : Lexer :=
  if l.inFlow then l else
    let ended := l.indents.takeWhile fun i => column.all (· < i)
    { l with
      indents := l.indents.drop ended.length
      tokens := List.replicate ended.length .blockEnd ++ l.tokens
      count := l.count + ended.length }

/-- Begin a block collection at a column that is indented further than the innermost one. -/
def roll (column position : Nat) (t : Token) : Lexer :=
  if l.inFlow || l.indents.head?.any (column ≤ ·) then l
  else { l.insert position t with indents := column :: l.indents }

def isMarker (c : Char) : Bool :=
  l.column = 0 && l.rest.take 3 = [c, c, c] && endsToken (l.peek 3)

def atMarker : Bool := l.isMarker '-' || l.isMarker '.'

def endsPlain : Bool :=
  match l.rest with
  | [] => true
  | c :: _ =>
    endsToken (some c) || (c = ':' && endsToken (l.peek 1))
      || (l.inFlow && (c = ',' || c = '[' || c = ']' || c = '\x7b' || c = '\x7d'))

def badColon : Bool :=
  l.inFlow && l.peek 0 = some ':' &&
    (l.peek 1).any fun c => c = ',' || c = '?' || c = '[' || c = ']' || c = '\x7b' || c = '\x7d'

def word : Nat → List Char → Lexer → Option (List Char × Lexer)
  | 0, _, _ => none
  | n + 1, text, l =>
    if l.rest.isEmpty || endsToken (l.peek 0) then some (text, l)
    else if l.badColon then none
    else if l.endsPlain then some (text, l)
    else word n ((l.peek 0).toList ++ text) (l.skip 1)

structure Between where
  lead : Option (List Char) := none
  blanks : List Char := []
  breaks : List Char := []

def Between.chars (b : Between) : List Char :=
  folded b.lead b.blanks.reverse b.breaks.reverse

/-- Blanks and line ends inside a scalar.  Where `indent` is given, no tab may stand before it on a
further line. -/
def between (indent : Option Nat) : Nat → Between → Lexer → Option (Between × Lexer)
  | 0, _, _ => none
  | n + 1, b, l =>
    match l.rest with
    | [] => some (b, l)
    | c :: _ =>
      if isBlank c then
        if b.lead.isSome && c = '\t' && indent.any (l.column < ·) then none
        else
          let b := if b.lead.isSome then b else { b with blanks := c :: b.blanks }
          between indent n b (l.skip 1)
      else if isBreak c then
        let b := if b.lead.isSome then { b with breaks := breakChar c :: b.breaks }
          else { b with lead := some [breakChar c], blanks := [] }
        between indent n b l.skipBreak
      else some (b, l)

def plain (indent : Nat) : Nat → List Char → Between → Lexer → Option (List Char × Lexer)
  | 0, _, _, _ => none
  | n + 1, text, b, l => do
    let stop (b : Between) (text : List Char) (l : Lexer) :=
      some (text, { l with keyAllowed := l.keyAllowed || b.lead.isSome })
    if l.atMarker || l.peek 0 = some '#' then
      stop b text l
    else
      let (w, after) ← word (n + 1) [] l
      let (text, b) := if w.isEmpty then (text, b) else (w ++ b.chars.reverse ++ text, {})
      if after.rest.isEmpty || !endsToken (after.peek 0) then
        stop b text after
      else
        let (b, after) ← between (some indent) (n + 1) b after
        if !after.inFlow && after.column < indent then
          stop b text after
        else
          plain indent n text b after

def hexValue? (c : Char) : Option Nat :=
  if '0' ≤ c && c ≤ '9' then some (c.toNat - '0'.toNat)
  else if 'a' ≤ c && c ≤ 'f' then some (c.toNat - 'a'.toNat + 10)
  else if 'A' ≤ c && c ≤ 'F' then some (c.toNat - 'A'.toNat + 10)
  else none

def codePoint? (n : Nat) : Option Char :=
  if n < 0xd800 || (0xdfff < n && n < 0x110000) then some (Char.ofNat n) else none

def escapes : List (Char × Char) :=
  [('0', '\x00'), ('a', '\x07'), ('b', '\x08'), ('t', '\t'), ('\t', '\t'), ('n', '\n'),
   ('v', '\x0b'), ('f', '\x0c'), ('r', '\r'), ('e', '\x1b'), (' ', ' '), ('"', '"'), ('/', '/'),
   ('\\', '\\'), ('N', '\u0085'), ('_', '\u00a0'), ('L', '\u2028'), ('P', '\u2029')]

def codeDigits : List (Char × Nat) := [('x', 2), ('u', 4), ('U', 8)]

def escaped? : List Char → Option (Char × Nat)
  | [] => none
  | c :: rest =>
    match escapes.lookup c, codeDigits.lookup c with
    | some e, _ => some (e, 1)
    | none, some n => do
      let digits ← (rest.take n).mapM hexValue?
      if digits.length = n then
        let e ← codePoint? (digits.foldl (fun a d => 16 * a + d) 0)
        return (e, n + 1)
      else none
    | none, none => none

def quotedWord (quote : Char) : Nat → List Char → Lexer → Option (List Char × Bool × Lexer)
  | 0, _, _ => none
  | n + 1, text, l =>
    match l.rest with
    | [] => some (text, false, l)
    | c :: rest =>
      if endsToken (some c) then some (text, false, l)
      else if c = quote then
        if quote = '\'' && rest.head? = some '\'' then quotedWord quote n ('\'' :: text) (l.skip 2)
        else some (text, false, l)
      else if quote = '"' && c = '\\' then
        if rest.head?.any isBreak then some (text, true, (l.skip 1).skipBreak)
        else do
          let (e, length) ← escaped? rest
          quotedWord quote n (e :: text) (l.skip (length + 1))
      else quotedWord quote n (c :: text) (l.skip 1)

def quoted (quote : Char) : Nat → List Char → Lexer → Option (List Char × Lexer)
  | 0, _, _ => none
  | n + 1, text, l =>
    if l.atMarker || l.rest.isEmpty then none
    else do
      let (text, joined, l) ← quotedWord quote (n + 1) text l
      if l.peek 0 = some quote then return (text, l.skip 1)
      else
        let start : Between := if joined then { lead := some [] } else {}
        let (b, l) ← between none (n + 1) start l
        quoted quote n (b.chars.reverse ++ text) l

def indicators : List Char :=
  [',', '[', ']', '\x7b', '\x7d', '#', '&', '*', '!', '|', '>', '\'', '"', '%', '@', '\u0060']

def beginsPlain (c : Char) : Bool :=
  if c = '-' then !(l.peek 1).any isBlank
  else if c = '?' || c = ':' then !l.inFlow && !endsToken (l.peek 1)
  else !endsToken (some c) && !indicators.contains c

/-- The token for a value, before it the one for its key. -/
def valueToken : Option Lexer :=
  match l.spots with
  | some spot :: spots =>
    let l := (l.insert spot.position .key).roll spot.column spot.position .blockMapping
    some { l.push .value with spots := none :: spots, keyAllowed := false }
  | _ =>
    if l.inFlow then some { l.push .value with keyAllowed := false }
    else if l.keyAllowed then
      some { (l.roll l.column l.count .blockMapping).push .value with keyAllowed := true }
    else none

def keyToken : Option Lexer :=
  if !l.inFlow && !l.keyAllowed then none
  else do
    let l ← (l.roll l.column l.count .blockMapping).dropSpot
    return { l.push .key with keyAllowed := !l.inFlow }

/-- The next token, at a character that is neither blank nor part of a comment.  Fewer characters
than `bound` are left. -/
def fetch (bound : Nat) (c : Char) : Option Lexer :=
  if l.isMarker '-' || l.isMarker '.' then do
    let l ← (l.unroll none).dropSpot
    let marker := if c = '-' then Token.documentStart else .documentEnd
    return { (l.push marker).skip 3 with keyAllowed := false }
  else if c = '%' && l.column = 0 then none
  else if c = '[' || c = '\x7b' then do
    let l ← l.markSpot
    let l := (l.push (if c = '[' then .flowSequence else .flowMapping)).skip 1
    return { l with spots := none :: l.spots, keyAllowed := true }
  else if c = ']' || c = '\x7d' then do
    let l ← l.dropSpot
    let l := (l.push (if c = ']' then .flowSequenceEnd else .flowMappingEnd)).skip 1
    return { l with spots := if l.inFlow then l.spots.tail else l.spots, keyAllowed := false }
  else if c = ',' then do
    let l ← l.dropSpot
    return { (l.push .comma).skip 1 with keyAllowed := true }
  else if c = '-' && endsToken (l.peek 1) then
    if !l.inFlow && !l.keyAllowed then none
    else do
      let l ← (l.roll l.column l.count .blockSequence).dropSpot
      return { (l.push .entry).skip 1 with keyAllowed := true }
  else if c = '?' && (l.inFlow || endsToken (l.peek 1)) then do
    return (← l.keyToken).skip 1
  else if c = ':' && (l.inFlow || endsToken (l.peek 1)) then do
    return (← l.valueToken).skip 1
  else if c = '\'' || c = '"' then do
    let l ← l.markSpot
    let (text, l) ← quoted c bound [] ({ l with keyAllowed := false }.skip 1)
    return l.push (.scalar (String.ofList text.reverse) false)
  else if l.beginsPlain c then do
    let l ← l.markSpot
    let indent := l.indents.head?.elim 0 (· + 1)
    let (text, l) ← plain indent bound [] {} { l with keyAllowed := false }
    return l.push (.scalar (String.ofList text.reverse) true)
  else none

/-- All tokens of the text, in order.  Each token takes a character at least. -/
def scan : Nat → Lexer → Option (List Token)
  | 0, _ => none
  | n + 1, l => do
    let l ← (l.gap (n + 1)).dropStale
    match l.rest with
    | [] => return (← (l.unroll none).dropSpot).tokens.reverse
    | c :: _ => scan n (← (l.unroll (some l.column)).fetch (n + 1) c)

end Lexer

def tokens? (text : String) : Option (List Token) :=
  let chars := text.toList
  if chars.all isAllowed then Lexer.scan (chars.length + 1) { rest := chars } else none

end PathExplorer.Yaml
