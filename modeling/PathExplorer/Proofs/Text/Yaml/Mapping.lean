import PathExplorer.Proofs.Text.Yaml.Block
import PathExplorer.Text.Yaml.Node
import PathExplorer.Text.Yaml.Written

namespace PathExplorer.Yaml

open Lexer (spaces Begins Gives)

def IsKey : Yaml → Prop
  | .scalar text plain => plain ∧ Word text.toList
  | _ => False

mutual

/-- A word, or a mapping of words to words and to other such mappings. -/
def Simple : Yaml → Prop
  | .scalar text plain => plain ∧ Word text.toList
  | .sequence _ => False
  | .mapping entries => entries ≠ [] ∧ SimpleEntries entries

def SimpleEntries : List (Yaml × Yaml) → Prop
  | [] => True
  | (key, value) :: entries => IsKey key ∧ Simple value ∧ SimpleEntries entries

end

mutual

def tokens : Yaml → List Token
  | .scalar text plain => [.scalar text plain]
  | .sequence _ => []
  | .mapping entries => .blockMapping :: (entriesTokens entries ++ [.blockEnd])

def entriesTokens : List (Yaml × Yaml) → List Token
  | [] => []
  | (key, value) :: entries =>
    .key :: (tokens key ++ .value :: (tokens value ++ entriesTokens entries))

end

def linesText (lines : List String) : List Char := lines.flatMap fun line => line.toList ++ ['\n']

def Margined (c : Nat) (text : List Char) : Prop :=
  ∃ m rest, text = spaces m ++ rest ∧ m ≤ c ∧ Begins rest

theorem Margined.mono {b c : Nat} {text : List Char} (h : Margined b text) (hle : b ≤ c) :
    Margined c text := by
  obtain ⟨m, rest, htext, hm, hrest⟩ := h
  exact ⟨m, rest, htext, Nat.le_trans hm hle, hrest⟩

/-- From the beginning of its line an entry with this value has its tokens. -/
def ValueLexes (value : Yaml) : Prop :=
  ∀ (margin key : String) (c : Nat) (more : List Char) (before : List Token) (indents : List Nat)
    (all : Option (List Token)), margin.toList = spaces c → Word key.toList → Margined c more →
    Gives more ((tokens value).reverse ++ .value :: .scalar key true :: .key :: before)
      (c :: indents) all →
    Gives (linesText (entryLines margin key value) ++ more) before (c :: indents) all

def EntriesLex (entries : List (Yaml × Yaml)) : Prop :=
  ∀ (margin : String) (c : Nat) (more : List Char) (before : List Token) (indents : List Nat)
    (all : Option (List Token)), margin.toList = spaces c → Margined c more →
    Gives more ((entriesTokens entries).reverse ++ before) (c :: indents) all →
    Gives (linesText (lines margin entries) ++ more) before (c :: indents) all

variable {key value : Yaml} {entries : List (Yaml × Yaml)} {margin : String} {c : Nat}

theorem exists_isKey (h : IsKey key) : ∃ text, key = .scalar text true ∧ Word text.toList := by
  cases key with
  | scalar text plain =>
    obtain ⟨hplain, hword⟩ := h
    cases plain with
    | true => exact ⟨text, rfl, hword⟩
    | false => cases hplain
  | sequence | mapping => exact absurd h id

theorem linesText_append (l m : List String) : linesText (l ++ m) = linesText l ++ linesText m :=
  List.flatMap_append

theorem linesText_scalar (margin key text : String) :
    linesText (entryLines margin key (.scalar text true)) =
      margin.toList ++ (key.toList ++ ':' :: ' ' :: (text.toList ++ ['\n'])) := by
  simp [linesText, entryLines, inline]

theorem linesText_mapping (margin key : String) (entry : Yaml × Yaml)
    (entries : List (Yaml × Yaml)) :
    linesText (entryLines margin key (.mapping (entry :: entries))) =
      margin.toList ++ (key.toList ++ ':' :: '\n' ::
        linesText (lines (margin ++ "  ") (entry :: entries))) := by
  simp [linesText, entryLines]

theorem toList_indent (h : margin.toList = spaces c) :
    (margin ++ "  ").toList = spaces (c + 2) := by
  rw [String.toList_append, h, show "  ".toList = spaces 2 from rfl]
  exact List.replicate_append_replicate

theorem exists_linesText (h : SimpleEntries entries) (hne : entries ≠ []) (margin : String) :
    ∃ k d rest, Word k ∧ endsToken (some d) ∧
      linesText (lines margin entries) = margin.toList ++ (k ++ ':' :: d :: rest) := by
  obtain ⟨⟨key, value⟩, entries, rfl⟩ := List.exists_cons_of_ne_nil hne
  obtain ⟨hkey, hvalue, -⟩ := h
  obtain ⟨k, rfl, hk⟩ := exists_isKey hkey
  rw [lines, linesText_append]
  cases value with
  | scalar text plain =>
    obtain ⟨hplain, -⟩ := hvalue
    cases plain with
    | false => cases hplain
    | true =>
      exact ⟨k.toList, ' ', (text.toList ++ '\n' :: linesText (lines margin entries)), hk, rfl,
        by simp [linesText_scalar, inline]⟩
  | sequence items => exact absurd hvalue id
  | mapping inner =>
    obtain ⟨entry, inner, rfl⟩ := List.exists_cons_of_ne_nil hvalue.1
    exact ⟨k.toList, '\n', (linesText (lines (margin ++ "  ") (entry :: inner)) ++
      linesText (lines margin entries)), hk, rfl, by simp [linesText_mapping, inline]⟩

theorem margined_lines (h : SimpleEntries entries) (hm : margin.toList = spaces c)
    {more : List Char} (hmore : Margined c more) :
    Margined c (linesText (lines margin entries) ++ more) := by
  cases entries with
  | nil => exact hmore
  | cons entry entries =>
    obtain ⟨k, d, rest, hk, -, htext⟩ := exists_linesText h (by simp) margin
    refine ⟨c, k ++ (':' :: d :: rest ++ more), ?_, Nat.le_refl c, Lexer.begins_append hk⟩
    rw [htext, hm]
    simp

theorem valueLexes_scalar {text : String} (h : Word text.toList) :
    ValueLexes (.scalar text true) := by
  intro margin key c more before indents all hm hkey hmore hgives
  obtain ⟨m, rest, rfl, hle, hrest⟩ := hmore
  rw [linesText_scalar, hm]
  simp only [List.append_assoc, List.cons_append, List.nil_append]
  refine Lexer.gives_scalar hkey h hrest hle ?_
  rw [String.ofList_toList, String.ofList_toList]
  exact hgives

theorem valueLexes_mapping (hs : SimpleEntries entries) (hne : entries ≠ [])
    (h : EntriesLex entries) : ValueLexes (.mapping entries) := by
  intro margin key c more before indents all hm hkey hmore hgives
  obtain ⟨entry, entries, rfl⟩ := List.exists_cons_of_ne_nil hne
  obtain ⟨k, d, rest, hk, hd, htext⟩ := exists_linesText hs hne (margin ++ "  ")
  rw [toList_indent hm] at htext
  have hinner : linesText (lines (margin ++ "  ") (entry :: entries)) ++ more =
      spaces (c + 2) ++ (k ++ ':' :: d :: (rest ++ more)) := by simp [htext]
  have hclosed : Gives more ((entriesTokens (entry :: entries)).reverse ++
      .blockMapping :: .value :: .scalar key true :: .key :: before)
      ((c + 2) :: c :: indents) all := by
    obtain ⟨m, rest, rfl, hle, hbegins⟩ := hmore
    refine Lexer.gives_close hbegins (by omega) ?_
    simpa [tokens] using hgives
  have hopened := h (margin ++ "  ") (c + 2) more _ (c :: indents) all (toList_indent hm)
    (hmore.mono (Nat.le_add_right c 2)) hclosed
  rw [linesText_mapping, hm]
  simp only [List.append_assoc, List.cons_append]
  rw [hinner] at hopened ⊢
  refine Lexer.gives_break hkey (Lexer.begins_append hk) ?_
  rw [String.ofList_toList]
  exact Lexer.gives_open hk hd (by simp) hopened

theorem entriesLex_nil : EntriesLex [] := by
  intro margin c more before indents all _ _ hgives
  exact hgives

theorem entriesLex_cons (hkey : IsKey key) (hs : SimpleEntries entries) (hv : ValueLexes value)
    (h : EntriesLex entries) : EntriesLex ((key, value) :: entries) := by
  intro margin c more before indents all hm hmore hgives
  obtain ⟨k, rfl, hk⟩ := exists_isKey hkey
  rw [lines, linesText_append, List.append_assoc]
  refine hv margin k c _ before indents all hm hk (margined_lines hs hm hmore)
    (h margin c more _ indents all hm hmore ?_)
  simpa [entriesTokens, tokens] using hgives

mutual

theorem valueLexes : ∀ value : Yaml, Simple value → ValueLexes value
  | .scalar _ true, h => valueLexes_scalar h.2
  | .mapping entries, h => valueLexes_mapping h.2 h.1 (entriesLex entries h.2)

theorem entriesLex : ∀ entries : List (Yaml × Yaml), SimpleEntries entries → EntriesLex entries
  | [], _ => entriesLex_nil
  | (_, value) :: entries, h =>
    entriesLex_cons h.1 h.2.2 (valueLexes value h.2.1) (entriesLex entries h.2.2)

end

def Allowed (cs : List Char) : Prop := ∀ c ∈ cs, isAllowed c

theorem allowed_append {cs ds : List Char} (hc : Allowed cs) (hd : Allowed ds) :
    Allowed (cs ++ ds) := List.forall_mem_append.mpr ⟨hc, hd⟩

theorem allowed_cons {c : Char} {cs : List Char} (hc : isAllowed c) (h : Allowed cs) :
    Allowed (c :: cs) := List.forall_mem_cons.mpr ⟨hc, h⟩

theorem allowed_word {w : List Char} (h : Word w) : Allowed w :=
  fun c hc => isAllowed_of_isWordChar (h.isWordChar c hc)

theorem allowed_indent (h : Allowed margin.toList) : Allowed (margin ++ "  ").toList := by
  rw [String.toList_append]
  exact allowed_append h (by simp [Allowed, isAllowed])

mutual

theorem allowed_value : ∀ (value : Yaml), Simple value → ∀ (margin key : String),
    Allowed margin.toList → Word key.toList → Allowed (linesText (entryLines margin key value))
  | .scalar text true, h, margin, key, hm, hkey => by
    rw [linesText_scalar]
    have hend : Allowed ['\n'] := by simp [Allowed, isAllowed]
    exact allowed_append hm (allowed_append (allowed_word hkey) (allowed_cons (by decide)
      (allowed_cons (by decide) (allowed_append (allowed_word h.2) hend))))
  | .mapping (entry :: entries), h, margin, key, hm, hkey => by
    rw [linesText_mapping]
    exact allowed_append hm (allowed_append (allowed_word hkey) (allowed_cons (by decide)
      (allowed_cons (by decide) (allowed_lines (entry :: entries) h.2 _ (allowed_indent hm)))))

theorem allowed_lines : ∀ (entries : List (Yaml × Yaml)), SimpleEntries entries →
    ∀ margin : String, Allowed margin.toList → Allowed (linesText (lines margin entries))
  | [], _, _, _ => by
    rw [lines]
    exact fun _ hc => absurd hc (by simp [linesText])
  | (.scalar key true, value) :: entries, h, margin, hm => by
    rw [lines, linesText_append]
    exact allowed_append (allowed_value value h.2.1 margin key hm h.1.2)
      (allowed_lines entries h.2.2 margin hm)

end

theorem tokens?_write (h : Simple (.mapping entries)) :
    tokens? (write (.mapping entries)) = some (tokens (.mapping entries)) := by
  obtain ⟨hne, hs⟩ := h
  obtain ⟨entry, entries, rfl⟩ := List.exists_cons_of_ne_nil hne
  have htext : (write (.mapping (entry :: entries))).toList =
      linesText (lines "" (entry :: entries)) := by
    simp [write, linesText, String.toList_join, List.flatMap_map]
  have hallowed := allowed_lines (entry :: entries) hs "" (by simp [Allowed])
  have hmargined : Margined 0 [] := ⟨0, [], rfl, Nat.le_refl 0, by simp [Begins]⟩
  have hend : Gives [] ((entriesTokens (entry :: entries)).reverse ++ [.blockMapping]) [0]
      (some (tokens (.mapping (entry :: entries)))) := by
    have htokens : tokens (.mapping (entry :: entries)) = (List.replicate 1 Token.blockEnd ++
        ((entriesTokens (entry :: entries)).reverse ++ [Token.blockMapping])).reverse := by
      simp [tokens]
    rw [htokens]
    exact Lexer.gives_end
  obtain ⟨k, d, rest, hk, hd, hfirst⟩ := exists_linesText hs hne ""
  have hopened := entriesLex (entry :: entries) hs "" 0 [] _ [] _ rfl hmargined hend
  have hgives : Gives (linesText (lines "" (entry :: entries))) [] []
      (some (tokens (.mapping (entry :: entries)))) := by
    rw [List.append_nil, hfirst] at hopened
    rw [hfirst]
    exact Lexer.gives_open (c := 0) hk hd (by simp) hopened
  rw [tokens?]
  simp only [htext]
  rw [if_pos (List.all_eq_true.mpr hallowed)]
  exact hgives _ _ ⟨rfl, rfl, rfl, rfl, rfl, rfl⟩ (Nat.lt_succ_self _)

/-- Each node takes no more fuel than twice its tokens. -/
def Parses (y : Yaml) : Prop := ∀ (loose : Bool) (n : Nat) (rest : List Token),
  2 * (tokens y).length ≤ n → node true loose n (tokens y ++ rest) = some (y, rest)

def EntriesParse (entries : List (Yaml × Yaml)) : Prop := ∀ (n : Nat) (rest : List Token),
  2 * (entriesTokens entries).length < n →
    blockEntries n (entriesTokens entries ++ .blockEnd :: rest) = some (entries, rest)

theorem parses_scalar (text : String) (plain : Bool) : Parses (.scalar text plain) := by
  intro loose n rest hn
  obtain ⟨n, rfl⟩ := Nat.exists_eq_succ_of_ne_zero (Nat.ne_zero_of_lt hn)
  rw [tokens, List.singleton_append, node]

theorem parses_mapping (h : EntriesParse entries) : Parses (.mapping entries) := by
  intro loose n rest hn
  obtain ⟨n, rfl⟩ := Nat.exists_eq_succ_of_ne_zero (Nat.ne_zero_of_lt hn)
  rw [tokens] at hn ⊢
  simp only [List.length_cons, List.length_append, List.length_nil] at hn
  have hentries := h n rest (by omega)
  rw [node.eq_def]
  simp [hentries]

/-- Where a node may be missing, it is found. -/
theorem optional_of_parses (hs : Simple value) (h : Parses value) {loose : Bool} {ends : List Token}
    (hends : Token.blockMapping ∉ ends ∧ ∀ text, Token.scalar text true ∉ ends) {n : Nat}
    {rest : List Token} (hn : 2 * (tokens value).length < n) :
    optional true loose ends n (tokens value ++ rest) = some (value, rest) := by
  obtain ⟨n, rfl⟩ := Nat.exists_eq_succ_of_ne_zero (Nat.ne_zero_of_lt hn)
  have hbegins : beginsNothing ends (tokens value ++ rest) = false := by
    cases value with
    | scalar text plain =>
      obtain ⟨hplain, -⟩ := hs
      simp [tokens, beginsNothing, hplain, hends.2]
    | sequence items => exact absurd hs id
    | mapping entries => simp [tokens, beginsNothing, hends.1]
  rw [optional, hbegins]
  exact h loose n rest (Nat.le_of_lt_succ hn)

theorem entriesParse_nil : EntriesParse [] := by
  intro n rest hn
  obtain ⟨n, rfl⟩ := Nat.exists_eq_succ_of_ne_zero (Nat.ne_zero_of_lt hn)
  rw [entriesTokens, List.nil_append, blockEntries]

theorem entriesParse_cons (hkey : IsKey key) (hs : Simple value) (hv : Parses value)
    (h : EntriesParse entries) : EntriesParse ((key, value) :: entries) := by
  intro n rest hn
  obtain ⟨n, rfl⟩ := Nat.exists_eq_succ_of_ne_zero (Nat.ne_zero_of_lt hn)
  obtain ⟨k, rfl, hk⟩ := exists_isKey hkey
  simp only [entriesTokens, tokens, List.length_cons, List.length_append, List.length_nil] at hn
  have hsk : Simple (.scalar k true) := ⟨rfl, hk⟩
  have hfirst (rest : List Token) : optional true true [.key, .value, .blockEnd] n
      (tokens (.scalar k true) ++ rest) = some (.scalar k true, rest) :=
    optional_of_parses hsk (parses_scalar k true) (by simp)
      (by simp only [tokens, List.length_singleton]; omega)
  have hsecond (rest : List Token) : optional true true [.key, .value, .blockEnd] n
      (tokens value ++ rest) = some (value, rest) :=
    optional_of_parses hs hv (by simp) (by omega)
  have hentries := h n rest (by omega)
  rw [entriesTokens]
  simp only [List.cons_append, List.append_assoc]
  rw [blockEntries]
  simp [hfirst, hsecond, hentries]

mutual

theorem parses : ∀ value : Yaml, Simple value → Parses value
  | .scalar text plain, _ => parses_scalar text plain
  | .mapping entries, h => parses_mapping (entriesParse entries h.2)

theorem entriesParse : ∀ entries : List (Yaml × Yaml), SimpleEntries entries → EntriesParse entries
  | [], _ => entriesParse_nil
  | (_, value) :: entries, h =>
    entriesParse_cons h.1 h.2.1 (parses value h.2.1) (entriesParse entries h.2.2)

end

/-- A mapping of words comes back from its text. -/
theorem read?_write (h : Simple (.mapping entries)) :
    read? (write (.mapping entries)) = some (.mapping entries) := by
  have hparse := parses (.mapping entries) h false (3 * (tokens (.mapping entries)).length + 3) []
    (by omega)
  rw [List.append_nil] at hparse
  have hstart : tokens (.mapping entries) =
      .blockMapping :: (entriesTokens entries ++ [.blockEnd]) := by rw [tokens]
  rw [read?, tokens?_write h]
  rw [hstart] at hparse ⊢
  simp only [Option.bind_eq_bind, Option.bind_some, ofTokens?, hparse]
  rfl

end PathExplorer.Yaml
