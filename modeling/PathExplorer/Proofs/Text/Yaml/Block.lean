import Mathlib.Data.List.TakeWhile
import PathExplorer.Proofs.Text.Yaml.Token

namespace PathExplorer.Yaml

namespace Lexer

/-- At the beginning of a line, where a key may stand, with these characters left, these tokens
found and these block collections open. -/
structure AtLine (l : Lexer) (rest : List Char) (tokens : List Token) (indents : List Nat) :
    Prop where
  rest : l.rest = rest
  tokens : l.tokens = tokens
  indents : l.indents = indents
  spots : l.spots = [none]
  keyAllowed : l.keyAllowed = true
  column : l.column = 0

structure AtValue (l : Lexer) (rest : List Char) (tokens : List Token) (c : Nat)
    (indents : List Nat) : Prop where
  rest : l.rest = rest
  tokens : l.tokens = tokens
  indents : l.indents = c :: indents
  spots : l.spots = [none]
  keyAllowed : l.keyAllowed = false
  column : c ≤ l.column

def Gives (rest : List Char) (tokens : List Token) (indents : List Nat)
    (all : Option (List Token)) : Prop :=
  ∀ (l : Lexer) (n : Nat), l.AtLine rest tokens indents → rest.length < n → scan n l = all

variable {l : Lexer} {k v rest : List Char} {tokens : List Token} {indents : List Nat} {c m n : Nat}
  {all : Option (List Token)}

theorem length_spaces (m : Nat) : (spaces m).length = m := List.length_replicate

theorem begins_append (hk : Word k) : Begins (k ++ rest) := by
  obtain ⟨d, ds, rfl⟩ := List.exists_cons_of_ne_nil hk.nonempty
  rintro e ⟨⟩
  exact hk.isWordChar d (List.mem_cons_self ..)

theorem AtLine.atKey (h : l.AtLine (spaces c ++ rest) tokens indents)
    (hc : ∀ i ∈ indents.head?, i ≤ c) : (l.past (spaces c) rest).AtKey where
  spots := h.spots
  keyAllowed := h.keyAllowed
  indents i hi := by
    rw [column_past, h.column, length_spaces, Nat.zero_add]
    exact hc i (h.indents ▸ hi)

theorem AtLine.scan_key (h : l.AtLine (spaces c ++ (k ++ ':' :: rest)) tokens indents)
    (hc : ∀ i ∈ indents.head?, i ≤ c) (hk : Word k) (hrest : endsToken rest.head?)
    (hn : (spaces c ++ (k ++ ':' :: rest)).length < n + 2) :
    scan (n + 2) l = scan n ((l.past (spaces c) (k ++ ':' :: rest)).keyed k rest) := by
  simp only [List.length_append, List.length_cons, length_spaces] at hn
  rw [scan_spaces h.rest (begins_append hk) (by omega),
    Lexer.scan_key rfl hk hrest (h.atKey hc) (by omega)]

/-- Where a mapping is open, none begins at its keys. -/
theorem AtLine.roll_past (h : l.AtLine (spaces c ++ rest) tokens (c :: indents)) (position : Nat)
    (t : Token) : (l.past (spaces c) rest).roll (l.past (spaces c) rest).column position t =
      l.past (spaces c) rest := by
  have hhead : l.indents.head? = some c := by rw [h.indents]; rfl
  refine if_pos ?_
  simp [past, hhead, h.column, length_spaces]

theorem AtLine.atValue (h : l.AtLine (spaces c ++ (k ++ ':' :: rest)) tokens (c :: indents)) :
    ((l.past (spaces c) (k ++ ':' :: rest)).keyed k rest).AtValue rest
      (.value :: .scalar (String.ofList k) true :: .key :: tokens) c indents := by
  rw [keyed, h.roll_past]
  refine ⟨rfl, ?_, h.indents, rfl, rfl, ?_⟩
  · rw [← h.tokens]
    rfl
  · simp [past, h.column, length_spaces]

theorem AtValue.scan_scalar
    (h : l.AtValue (' ' :: (v ++ '\n' :: (spaces m ++ rest))) tokens c indents) (hv : Word v)
    (hrest : Begins rest) (hm : m ≤ c) (hn : v.length + m + 1 < n) :
    ∃ l', l'.AtLine (spaces m ++ rest) (.scalar (String.ofList v) true :: tokens) (c :: indents) ∧
      scan (n + 1) l = scan n l' := by
  refine ⟨_, ?_, (scan_spaces (m := 1) h.rest (begins_append hv) (by omega)).trans
    (scan_value rfl hv hrest h.spots h.keyAllowed (i := c) ?_ ?_ hm (by omega))⟩
  · refine ⟨rfl, ?_, h.indents, h.spots, rfl, rfl⟩
    rw [← h.tokens]
    rfl
  · exact congrArg List.head? h.indents
  · exact Nat.le_add_right_of_le h.column

theorem AtValue.scan_break (h : l.AtValue ('\n' :: (spaces m ++ rest)) tokens c indents)
    (hrest : Begins rest) (hn : m + 1 < n) :
    ∃ l', l'.AtLine (spaces m ++ rest) tokens (c :: indents) ∧ scan n l = scan n l' := by
  have hflow : l.inFlow = false := by simp [inFlow, h.spots]
  exact ⟨l.nextLine (spaces m ++ rest), ⟨rfl, h.tokens, h.indents, h.spots, rfl, rfl⟩,
    Lexer.scan_break h.rest hrest hflow hn⟩

theorem gives_scalar (hk : Word k) (hv : Word v) (hrest : Begins rest) (hm : m ≤ c)
    (h : Gives (spaces m ++ rest) (.scalar (String.ofList v) true :: .value ::
      .scalar (String.ofList k) true :: .key :: tokens) (c :: indents) all) :
    Gives (spaces c ++ (k ++ ':' :: ' ' :: (v ++ '\n' :: (spaces m ++ rest)))) tokens
      (c :: indents) all := by
  intro l n hl hn
  obtain ⟨n, rfl⟩ : ∃ n', n = n' + 3 := by
    simp only [List.length_append, List.length_cons] at hn
    exact ⟨n - 3, by omega⟩
  rw [hl.scan_key (n := n + 1) (by simp) hk rfl hn]
  have hlength := List.length_pos_iff.mpr hk.nonempty
  simp only [List.length_append, List.length_cons, length_spaces] at hn
  obtain ⟨l', hl', hscan⟩ := hl.atValue.scan_scalar hv hrest hm (n := n) (by omega)
  rw [hscan]
  refine h l' n hl' ?_
  rw [List.length_append, length_spaces]
  omega

theorem gives_break (hk : Word k) (hrest : Begins rest)
    (h : Gives (spaces m ++ rest) (.value :: .scalar (String.ofList k) true :: .key :: tokens)
      (c :: indents) all) :
    Gives (spaces c ++ (k ++ ':' :: '\n' :: (spaces m ++ rest))) tokens (c :: indents) all := by
  intro l n hl hn
  obtain ⟨n, rfl⟩ : ∃ n', n = n' + 2 := by
    simp only [List.length_append, List.length_cons] at hn
    exact ⟨n - 2, by omega⟩
  rw [hl.scan_key (by simp) hk rfl hn]
  have hlength := List.length_pos_iff.mpr hk.nonempty
  simp only [List.length_append, List.length_cons, length_spaces] at hn
  obtain ⟨l', hl', hscan⟩ := hl.atValue.scan_break hrest (n := n) (by omega)
  rw [hscan]
  refine h l' n hl' ?_
  rw [List.length_append, length_spaces]
  omega

theorem gives_open (hk : Word k) (hrest : endsToken rest.head?) (hc : ∀ i ∈ indents.head?, i < c)
    (h : Gives (spaces c ++ (k ++ ':' :: rest)) (.blockMapping :: tokens) (c :: indents) all) :
    Gives (spaces c ++ (k ++ ':' :: rest)) tokens indents all := by
  intro l n hl hn
  let opened : Lexer :=
    { l with
      tokens := .blockMapping :: l.tokens
      count := l.count + 1
      indents := c :: l.indents }
  have hopened : opened.AtLine (spaces c ++ (k ++ ':' :: rest)) (.blockMapping :: tokens)
      (c :: indents) :=
    ⟨hl.rest, congrArg _ hl.tokens, congrArg _ hl.indents, hl.spots, hl.keyAllowed, hl.column⟩
  obtain ⟨n, rfl⟩ : ∃ n', n = n' + 2 := by
    simp only [List.length_append, List.length_cons] at hn
    exact ⟨n - 2, by omega⟩
  rw [← h opened (n + 2) hopened hn, hl.scan_key (fun i hi => Nat.le_of_lt (hc i hi)) hk hrest hn,
    hopened.scan_key (by simp) hk hrest hn]
  have hflow : l.inFlow = false := by simp [inFlow, hl.spots]
  have hany : l.indents.head?.any (c ≤ ·) = false := by
    rw [hl.indents, Option.any_eq_false]
    exact fun i hi => by simpa using hc i hi
  have hroll : (l.past (spaces c) (k ++ ':' :: rest)).roll
      (l.past (spaces c) (k ++ ':' :: rest)).column (l.past (spaces c) (k ++ ':' :: rest)).count
      .blockMapping = opened.past (spaces c) (k ++ ':' :: rest) := by
    simp [opened, roll, insert, past, hl.column, length_spaces, inFlow, hl.spots, hany]
  rw [keyed, keyed, hroll, hopened.roll_past]

theorem unroll_cons {column : Option Nat} (hl : l.inFlow = false)
    (hindents : l.indents = c :: indents) (hc : column.all (· < c)) : l.unroll column =
      unroll { l with tokens := .blockEnd :: l.tokens, count := l.count + 1, indents } column := by
  have hclosed :
      { l with tokens := .blockEnd :: l.tokens, count := l.count + 1, indents }.inFlow = false := hl
  rw [unroll, unroll, hl, hclosed]
  simp [hindents, hc, List.replicate_succ', Nat.add_assoc, Nat.add_comm 1]

theorem gives_close (hrest : Begins rest) (hm : m < c)
    (h : Gives (spaces m ++ rest) (.blockEnd :: tokens) indents all) :
    Gives (spaces m ++ rest) tokens (c :: indents) all := by
  intro l n hl hn
  let closed : Lexer :=
    { l with tokens := .blockEnd :: l.tokens, count := l.count + 1, indents := indents }
  have hclosed : closed.AtLine (spaces m ++ rest) (.blockEnd :: tokens) indents :=
    ⟨hl.rest, congrArg _ hl.tokens, rfl, hl.spots, hl.keyAllowed, hl.column⟩
  have hflow : l.inFlow = false := by simp [inFlow, hl.spots]
  obtain ⟨n, rfl⟩ := Nat.exists_eq_succ_of_ne_zero (Nat.ne_zero_of_lt hn)
  rw [List.length_append, length_spaces] at hn
  rw [← h closed (n + 1) hclosed (by rw [List.length_append, length_spaces]; omega),
    scan_spaces hl.rest hrest (by omega), scan_spaces hclosed.rest hrest (by omega), scan, scan,
    gap_of_begins hrest, gap_of_begins hrest]
  have hstale (l' : Lexer) (hspots : l'.spots = [none]) :
      (l'.past (spaces m) rest).dropStale = some (l'.past (spaces m) rest) := by
    simp [dropStale, past, hspots]
  have hunroll (column : Option Nat) (hc : column.all (· < c)) :
      (l.past (spaces m) rest).unroll column = (closed.past (spaces m) rest).unroll column :=
    unroll_cons hflow hl.indents hc
  rw [hstale l hl.spots, hstale closed hl.spots]
  cases rest with
  | nil =>
    simp only [Option.bind_eq_bind, Option.bind_some, rest_past, hunroll none rfl]
  | cons d rest =>
    have hcolumn : (l.past (spaces m) (d :: rest)).column = m := by
      rw [column_past, hl.column, length_spaces, Nat.zero_add]
    have hcolumn' : (closed.past (spaces m) (d :: rest)).column = m := hcolumn
    simp only [Option.bind_eq_bind, Option.bind_some, rest_past, hcolumn, hcolumn',
      hunroll (some m) (by simpa using hm)]

theorem gives_end : Gives [] tokens indents
    (some (List.replicate indents.length Token.blockEnd ++ tokens).reverse) := by
  intro l n hl hn
  obtain ⟨n, rfl⟩ := Nat.exists_eq_succ_of_ne_zero (Nat.ne_zero_of_lt hn)
  have hbegins : Begins l.rest := by
    rw [hl.rest]
    rintro c ⟨⟩
  have hall : l.indents.takeWhile (fun _ => true) = l.indents :=
    List.takeWhile_eq_self_iff.mpr fun _ _ => rfl
  rw [scan, gap_of_begins hbegins]
  simp [dropStale, dropSpot, unroll, hl.spots, hl.rest, inFlow, hall, ← hl.indents, ← hl.tokens]

end Lexer

end PathExplorer.Yaml
