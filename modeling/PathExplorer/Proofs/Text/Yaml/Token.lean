import PathExplorer.Text.Yaml.Token

namespace PathExplorer.Yaml

def isWordChar (c : Char) : Bool := c.isAlphanum || c = '_'

/-- A text that is one plain scalar wherever it stands, and short enough for a key. -/
structure Word (cs : List Char) : Prop where
  nonempty : cs ≠ []
  isWordChar : ∀ c ∈ cs, isWordChar c
  length_le : cs.length ≤ keyReach

theorem word_iff {cs : List Char} :
    Word cs ↔ cs ≠ [] ∧ cs.all isWordChar ∧ cs.length ≤ keyReach := by
  rw [List.all_eq_true]
  exact ⟨fun h => ⟨h.nonempty, h.isWordChar, h.length_le⟩, fun ⟨h, hc, hl⟩ => ⟨h, hc, hl⟩⟩

-- By `List.all`, because a bounded quantifier may be decided by trying every character there is.
instance (cs : List Char) : Decidable (Word cs) := decidable_of_iff _ word_iff.symm

theorem ne_of_isWordChar {c d : Char} (h : isWordChar c) (hd : isWordChar d = false) : c ≠ d := by
  rintro rfl
  rw [h] at hd
  cases hd

theorem range_of_isWordChar {c : Char} (h : isWordChar c) : ' ' ≤ c ∧ c ≤ '~' := by
  change (decide ('A' ≤ c ∧ c ≤ 'Z') || ('a' ≤ c && c ≤ 'z') || ('0' ≤ c && c ≤ '9') ||
    decide (c = '_')) = true at h
  simp only [Bool.or_eq_true, Bool.and_eq_true, decide_eq_true_eq] at h
  obtain ((⟨hl, hr⟩ | ⟨hl, hr⟩) | ⟨hl, hr⟩) | rfl := h
  · exact ⟨UInt32.le_trans (by decide) hl, UInt32.le_trans hr (by decide)⟩
  · exact ⟨UInt32.le_trans (by decide) hl, UInt32.le_trans hr (by decide)⟩
  · exact ⟨UInt32.le_trans (by decide) hl, UInt32.le_trans hr (by decide)⟩
  · decide

theorem utf8Size_of_isWordChar {c : Char} (h : isWordChar c) : c.utf8Size = 1 :=
  Char.utf8Size_eq_one_iff.mpr (UInt32.le_trans (range_of_isWordChar h).2 (by decide))

theorem isAllowed_of_isWordChar {c : Char} (h : isWordChar c) : isAllowed c := by
  simp [isAllowed, range_of_isWordChar h]

theorem endsToken_of_isWordChar {c : Char} (h : isWordChar c) : endsToken (some c) = false := by
  simp [endsToken, isBlank, isBreak, ne_of_isWordChar h, isWordChar]

namespace Lexer

def past (l : Lexer) (cs rest : List Char) : Lexer :=
  { l with rest, offset := l.offset + cs.length, column := l.column + cs.length }

variable {l : Lexer} {w rest text : List Char} {n : Nat} {c : Char}

theorem peek_zero (h : l.rest = rest) : l.peek 0 = rest.head? := by
  rw [peek, h, List.head?_eq_getElem?]

theorem peek_one (h : l.rest = c :: rest) : l.peek 1 = rest.head? := by
  rw [peek, h, List.getElem?_cons_succ, List.head?_eq_getElem?]

theorem skip_one (h : l.rest = c :: rest) (hc : c.utf8Size = 1) : l.skip 1 = l.past [c] rest := by
  simp [skip, past, h, hc]

@[simp] theorem rest_past : (l.past w rest).rest = rest := rfl

@[simp] theorem column_past : (l.past w rest).column = l.column + w.length := rfl

@[simp] theorem inFlow_past : (l.past w rest).inFlow = l.inFlow := rfl

theorem past_eq_self (h : l.rest = rest) : l.past [] rest = l := by
  cases l
  cases h
  rfl

theorem past_past (v w : List Char) : (l.past v text).past w rest = l.past (v ++ w) rest := by
  simp [past, Nat.add_assoc]

/-- No plain scalar goes on with these characters of a block. -/
def Stops (rest : List Char) : Prop :=
  endsToken rest.head? ∨ ∃ more, rest = ':' :: more ∧ endsToken more.head?

theorem word_past (text : List Char) (h : l.rest = w ++ rest) (hw : ∀ c ∈ w, isWordChar c)
    (hl : l.inFlow = false) (hrest : Stops rest) (hn : w.length < n) :
    word n text l = some (w.reverse ++ text, l.past w rest) := by
  induction w generalizing l text n with
  | nil =>
    obtain ⟨n, rfl⟩ := Nat.exists_eq_add_of_lt hn
    have hself : l.past [] rest = l := past_eq_self h
    rw [hself, word]
    obtain hends | ⟨more, rfl, hends⟩ := hrest
    · simp [peek_zero h, hends]
    · have hcolon : l.rest = ':' :: more := h
      simp [peek_zero h, peek_one hcolon, hcolon, badColon, hl, endsPlain, hends]
  | cons c w ih =>
    obtain ⟨hc, hw⟩ := List.forall_mem_cons.mp hw
    obtain ⟨n, rfl⟩ := Nat.exists_eq_succ_of_ne_zero (Nat.ne_zero_of_lt hn)
    have hskip := skip_one h (utf8Size_of_isWordChar hc)
    have hnext := ih (l := l.past [c] (w ++ rest)) (c :: text) rfl hw hl (Nat.lt_of_succ_lt_succ hn)
    rw [past_past] at hnext
    rw [word]
    simp [peek_zero h, h, endsToken_of_isWordChar hc, badColon, hl, endsPlain, ne_of_isWordChar hc,
      isWordChar, hskip, hnext]

theorem not_isMarker (h : l.rest = c :: rest) {d : Char} (hd : c ≠ d) : l.isMarker d = false := by
  simp [isMarker, h, hd]

theorem not_atMarker (h : l.rest = c :: rest) (hc : isWordChar c) : l.atMarker = false := by
  simp [atMarker, not_isMarker h, ne_of_isWordChar hc, isWordChar]

def Begins (rest : List Char) : Prop := ∀ c ∈ rest.head?, isWordChar c

theorem gap_of_begins (h : Begins l.rest) : l.gap n = l := by
  cases n with
  | zero => rfl
  | succ n =>
    rw [gap]
    split
    · rfl
    · rename_i c cs heq
      have hc : isWordChar c := h c (by rw [heq]; rfl)
      simp [isBreak, ne_of_isWordChar hc, isWordChar]

def spaces (m : Nat) : List Char := List.replicate m ' '

theorem gap_spaces {m : Nat} (h : l.rest = spaces m ++ rest) (hrest : Begins rest) (hn : m < n) :
    l.gap n = l.past (spaces m) rest := by
  induction m generalizing l n with
  | zero =>
    have hself : l.past [] rest = l := past_eq_self h
    rw [show spaces 0 = [] from rfl, hself]
    exact gap_of_begins (h ▸ hrest)
  | succ m ih =>
    obtain ⟨n, rfl⟩ := Nat.exists_eq_succ_of_ne_zero (Nat.ne_zero_of_lt hn)
    have hspace : l.rest = ' ' :: (spaces m ++ rest) := h
    have hnext := ih (l := l.past [' '] (spaces m ++ rest)) rfl (Nat.lt_of_succ_lt_succ hn)
    rw [past_past] at hnext
    rw [gap]
    simp only [hspace, decide_true, Bool.true_or, if_true]
    rw [skip_one hspace (by decide), hnext]
    rfl

def broken (l : Lexer) (rest : List Char) : Lexer :=
  { l.past ['\n'] rest with line := l.line + 1, column := 0 }

@[simp] theorem column_broken : (l.broken rest).column = 0 := rfl

@[simp] theorem inFlow_broken : (l.broken rest).inFlow = l.inFlow := rfl

theorem skipBreak_eq (h : l.rest = '\n' :: rest) : l.skipBreak = l.broken rest := by
  rw [skipBreak, h, if_neg (by simp), skip_one h (by decide)]
  rfl

theorem between_spaces {m indent : Nat} {b : Between} (hb : b.lead.isSome)
    (h : l.rest = spaces m ++ rest) (hrest : Begins rest) (hn : m < n) :
    between (some indent) n b l = some (b, l.past (spaces m) rest) := by
  induction m generalizing l n with
  | zero =>
    obtain ⟨n, rfl⟩ := Nat.exists_eq_succ_of_ne_zero (Nat.ne_zero_of_lt hn)
    have hself : l.past [] rest = l := past_eq_self h
    rw [show spaces 0 = [] from rfl, hself, between]
    split
    · rfl
    · rename_i c cs heq
      have hc : isWordChar c := hrest c (by rw [← List.nil_append rest]; exact h ▸ heq ▸ rfl)
      simp [isBlank, isBreak, ne_of_isWordChar hc, isWordChar]
  | succ m ih =>
    obtain ⟨n, rfl⟩ := Nat.exists_eq_succ_of_ne_zero (Nat.ne_zero_of_lt hn)
    have hspace : l.rest = ' ' :: (spaces m ++ rest) := h
    have hnext := ih (l := l.past [' '] (spaces m ++ rest)) rfl (Nat.lt_of_succ_lt_succ hn)
    rw [past_past] at hnext
    rw [between]
    simp [hspace, isBlank, hb, skip_one hspace (by decide), hnext]
    rfl

theorem between_margin {m : Nat} (indent : Nat) (h : l.rest = '\n' :: (spaces m ++ rest))
    (hrest : Begins rest) (hn : m + 1 < n) : between (some indent) n {} l =
      some ({ lead := some ['\n'] }, (l.broken (spaces m ++ rest)).past (spaces m) rest) := by
  obtain ⟨n, rfl⟩ := Nat.exists_eq_succ_of_ne_zero (Nat.ne_zero_of_lt hn)
  have hspaces : between (some indent) n { lead := some ['\n'] } (l.broken (spaces m ++ rest)) =
      some ({ lead := some ['\n'] }, (l.broken (spaces m ++ rest)).past (spaces m) rest) :=
    between_spaces rfl rfl hrest (Nat.lt_of_succ_lt_succ hn)
  rw [between]
  simp [h, isBlank, isBreak, skipBreak_eq h, breakChar, hspaces]

/-- A word, and what is made of it when the line goes on or ends. -/
theorem plain_word {indent : Nat} (h : l.rest = w ++ rest) (hw : Word w) (hl : l.inFlow = false)
    (hrest : Stops rest) (hne : rest ≠ []) (hn : w.length ≤ n) : plain indent (n + 1) [] {} l =
      if endsToken rest.head? = false then some (w.reverse, l.past w rest)
      else between (some indent) (n + 1) {} (l.past w rest) >>= fun p =>
        if p.2.inFlow = false ∧ p.2.column < indent then
          some (w.reverse, { p.2 with keyAllowed := p.2.keyAllowed || p.1.lead.isSome })
        else plain indent n w.reverse p.1 p.2 := by
  obtain ⟨c, cs, rfl⟩ := List.exists_cons_of_ne_nil hw.nonempty
  have hc := hw.isWordChar c (List.mem_cons_self ..)
  have hword := word_past [] h hw.isWordChar hl hrest (Nat.lt_succ_of_le hn)
  have hchars : Between.chars {} = [] := rfl
  rw [plain]
  simp [not_atMarker h hc, peek_zero h, ne_of_isWordChar hc, isWordChar, hword, hchars,
    peek_zero (l := l.past (c :: cs) rest) rfl, hne]
  rfl

theorem plain_key {k : List Char} (indent : Nat) (h : l.rest = k ++ ':' :: rest) (hk : Word k)
    (hl : l.inFlow = false) (hrest : endsToken rest.head?) (hn : k.length ≤ n) :
    plain indent (n + 1) [] {} l = some (k.reverse, l.past k (':' :: rest)) := by
  rw [plain_word h hk hl (.inr ⟨rest, rfl, hrest⟩) (by simp) hn]
  rfl

theorem plain_value {v : List Char} {m indent : Nat}
    (h : l.rest = v ++ '\n' :: (spaces m ++ rest)) (hv : Word v) (hl : l.inFlow = false)
    (hrest : Begins rest) (hm : m < indent) (hn : v.length + m + 1 ≤ n) :
    plain indent (n + 1) [] {} l = some (v.reverse,
      { ((l.past v ('\n' :: (spaces m ++ rest))).broken (spaces m ++ rest)).past (spaces m) rest
        with keyAllowed := true }) := by
  have hmargin := between_margin (l := l.past v ('\n' :: (spaces m ++ rest))) indent rfl hrest
    (show m + 1 < n + 1 by omega)
  rw [plain_word h hv hl (.inl rfl) (by simp) (by omega), hmargin]
  simp [endsToken, isBreak, hl, spaces, hm]

theorem fetch_of_isWordChar (h : l.rest = c :: rest) (hc : isWordChar c) :
    l.fetch n c = (l.markSpot >>= fun l =>
      plain (l.indents.head?.elim 0 (· + 1)) n [] {} { l with keyAllowed := false } >>= fun p =>
        some (p.2.push (.scalar (String.ofList p.1.reverse) true))) := by
  have hbegins : l.beginsPlain c = true := by
    simp [beginsPlain, endsToken_of_isWordChar hc, indicators, ne_of_isWordChar hc, isWordChar]
  unfold fetch
  simp [not_isMarker h, ne_of_isWordChar hc, isWordChar, hbegins]

theorem scan_of_rest (h : l.rest = c :: rest) (hgap : l.gap (n + 1) = l)
    (hstale : l.dropStale = some l) :
    scan (n + 1) l = (l.unroll (some l.column)).fetch (n + 1) c >>= scan n := by
  rw [scan, hgap, hstale]
  simp [h]

theorem unroll_of_le (hl : l.inFlow = false) {column : Nat}
    (h : ∀ i ∈ l.indents.head?, i ≤ column) : l.unroll (some column) = l := by
  have hended : l.indents.takeWhile (fun i => decide (column < i)) = [] := by
    cases hi : l.indents with
    | nil => rfl
    | cons i is => exact List.takeWhile_cons_of_neg (by simpa using h i (by rw [hi]; rfl))
  simp [unroll, hl, hended]

def keyed (l : Lexer) (k rest : List Char) : Lexer :=
  let opened := l.roll l.column l.count .blockMapping
  { opened.past (k ++ [':']) rest with
    tokens := .value :: .scalar (String.ofList k) true :: .key :: opened.tokens
    count := opened.count + 3
    spots := [none]
    keyAllowed := false }

structure AtKey (l : Lexer) : Prop where
  spots : l.spots = [none]
  keyAllowed : l.keyAllowed = true
  indents : ∀ i ∈ l.indents.head?, i ≤ l.column

def here (l : Lexer) : KeySpot where
  position := l.count
  required := !l.inFlow && l.indents.head? = some l.column
  offset := l.offset
  line := l.line
  column := l.column

def marked (l : Lexer) (k rest : List Char) : Lexer :=
  { l.past k rest with
    tokens := .scalar (String.ofList k) true :: l.tokens
    count := l.count + 1
    spots := [some l.here]
    keyAllowed := false }

theorem scan_word {k : List Char} (h : l.rest = k ++ ':' :: rest) (hk : Word k)
    (hrest : endsToken rest.head?) (hl : l.AtKey) (hn : k.length ≤ n) :
    scan (n + 1) l = scan n (l.marked k (':' :: rest)) := by
  obtain ⟨c, cs, hcs⟩ := List.exists_cons_of_ne_nil hk.nonempty
  have hc := hk.isWordChar c (hcs ▸ List.mem_cons_self ..)
  have hfirst : l.rest = c :: (cs ++ ':' :: rest) := by rw [h, hcs, List.cons_append]
  have hflow : l.inFlow = false := by simp [inFlow, hl.spots]
  have hbegins : Begins l.rest := by
    rw [hfirst]
    rintro d ⟨⟩
    exact hc
  have hstale : l.dropStale = some l := by simp [dropStale, hl.spots]
  have hmark : l.markSpot = some { l with spots := [some l.here] } := by
    simp [markSpot, dropSpot, hl.spots, hl.keyAllowed, here]
  have hplain := plain_key (l := { l with spots := [some l.here], keyAllowed := false })
    (l.indents.head?.elim 0 (· + 1)) h hk rfl hrest hn
  rw [scan_of_rest hfirst (gap_of_begins hbegins) hstale, unroll_of_le hflow hl.indents,
    fetch_of_isWordChar hfirst hc, hmark]
  simp only [Option.bind_eq_bind, Option.bind_some, hplain, List.reverse_reverse]
  rfl

theorem valueToken_marked {k : List Char} (hl : l.AtKey) :
    (l.marked k (':' :: rest)).valueToken.map (·.skip 1) = some (l.keyed k rest) := by
  have hcolon : ':'.utf8Size = 1 := by decide
  -- The mapping begins here, or it is open already.
  cases hrolled : l.indents.head?.any (l.column ≤ ·) <;>
    simp [valueToken, marked, here, keyed, insert, roll, push, past, skip, hrolled, inFlow,
      hl.spots, hcolon, Nat.add_assoc]

theorem scan_colon {k : List Char} (hk : Word k) (hrest : endsToken rest.head?) (hl : l.AtKey) :
    scan (n + 1) (l.marked k (':' :: rest)) = scan n (l.keyed k rest) := by
  have hgap : (l.marked k (':' :: rest)).gap (n + 1) = l.marked k (':' :: rest) := by
    rw [gap]
    simp [marked, isBreak]
  have hstale : (l.marked k (':' :: rest)).dropStale = some (l.marked k (':' :: rest)) := by
    simp [dropStale, marked, here, past, Nat.not_lt_of_le hk.length_le]
  have hle : ∀ i ∈ (l.marked k (':' :: rest)).indents.head?,
      i ≤ (l.marked k (':' :: rest)).column := fun i hi =>
    Nat.le_trans (hl.indents i hi) (Nat.le_add_right ..)
  have hfetch : (l.marked k (':' :: rest)).fetch (n + 1) ':' = some (l.keyed k rest) := by
    have hpeek : (l.marked k (':' :: rest)).peek 1 = rest.head? := peek_one rfl
    rw [← valueToken_marked hl]
    unfold fetch
    simp [not_isMarker (l := l.marked k (':' :: rest)) (c := ':') rfl, hpeek, hrest]
    exact Option.map_eq_bind.symm
  rw [scan_of_rest rfl hgap hstale, unroll_of_le rfl hle, hfetch]
  rfl

theorem scan_key {k : List Char} (h : l.rest = k ++ ':' :: rest) (hk : Word k)
    (hrest : endsToken rest.head?) (hl : l.AtKey) (hn : k.length ≤ n + 1) :
    scan (n + 2) l = scan n (l.keyed k rest) := by
  rw [scan_word h hk hrest hl hn, scan_colon hk hrest hl]

theorem scan_of_gap {l' : Lexer} (h : l.gap (n + 1) = l') (h' : l'.gap (n + 1) = l') :
    scan (n + 1) l = scan (n + 1) l' := by
  rw [scan, scan, h, h']

theorem scan_spaces {m : Nat} (h : l.rest = spaces m ++ rest) (hrest : Begins rest) (hn : m < n) :
    scan n l = scan n (l.past (spaces m) rest) := by
  obtain ⟨n, rfl⟩ := Nat.exists_eq_succ_of_ne_zero (Nat.ne_zero_of_lt hn)
  exact scan_of_gap (gap_spaces h hrest hn) (gap_of_begins hrest)

def nextLine (l : Lexer) (rest : List Char) : Lexer := { l.broken rest with keyAllowed := true }

theorem scan_break {m : Nat} (h : l.rest = '\n' :: (spaces m ++ rest)) (hrest : Begins rest)
    (hl : l.inFlow = false) (hn : m + 1 < n) :
    scan n l = scan n (l.nextLine (spaces m ++ rest)) := by
  obtain ⟨n, rfl⟩ := Nat.exists_eq_succ_of_ne_zero (Nat.ne_zero_of_lt hn)
  have hspaces := gap_spaces (l := l.nextLine (spaces m ++ rest)) rfl hrest
    (Nat.lt_of_succ_lt_succ hn)
  have hgap : l.gap (n + 1) = (l.nextLine (spaces m ++ rest)).past (spaces m) rest := by
    rw [gap]
    simp [h, isBreak, skipBreak_eq h, hl]
    exact hspaces
  rw [scan_of_gap hgap (gap_of_begins hrest)]
  exact (scan_spaces rfl hrest (Nat.lt_of_succ_lt hn)).symm

theorem scan_value {v : List Char} {m i : Nat} (h : l.rest = v ++ '\n' :: (spaces m ++ rest))
    (hv : Word v) (hrest : Begins rest) (hspots : l.spots = [none]) (hkey : l.keyAllowed = false)
    (hi : l.indents.head? = some i) (hcolumn : i ≤ l.column) (hm : m ≤ i)
    (hn : v.length + m + 1 ≤ n) :
    scan (n + 1) l = scan n (((l.push (.scalar (String.ofList v) true)).past v
      ('\n' :: (spaces m ++ rest))).nextLine (spaces m ++ rest)) := by
  obtain ⟨c, cs, hcs⟩ := List.exists_cons_of_ne_nil hv.nonempty
  have hc := hv.isWordChar c (hcs ▸ List.mem_cons_self ..)
  have hfirst : l.rest = c :: (cs ++ '\n' :: (spaces m ++ rest)) := by rw [h, hcs, List.cons_append]
  have hflow : l.inFlow = false := by simp [inFlow, hspots]
  have hbegins : Begins l.rest := by
    rw [hfirst]
    rintro d ⟨⟩
    exact hc
  have hstale : l.dropStale = some l := by simp [dropStale, hspots]
  have hle : ∀ j ∈ l.indents.head?, j ≤ l.column := by
    rw [hi]
    rintro j ⟨⟩
    exact hcolumn
  have hmark : l.markSpot = some l := by simp [markSpot, hkey]
  have hsame : { l with keyAllowed := false } = l := by
    rw [← hkey]
  have hplain := plain_value h hv hflow hrest (Nat.lt_succ_of_le hm) hn
  rw [scan_of_rest hfirst (gap_of_begins hbegins) hstale, unroll_of_le hflow hle,
    fetch_of_isWordChar hfirst hc, hmark]
  simp only [Option.bind_eq_bind, Option.bind_some, hsame, hi, Option.elim_some, hplain,
    List.reverse_reverse]
  exact (scan_spaces (l := ((l.push (.scalar (String.ofList v) true)).past v
    ('\n' :: (spaces m ++ rest))).nextLine (spaces m ++ rest)) rfl hrest (by omega)).symm

end Lexer

end PathExplorer.Yaml
