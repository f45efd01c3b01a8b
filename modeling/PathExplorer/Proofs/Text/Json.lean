import PathExplorer.Proofs.Text.Decimal
import PathExplorer.Text.Json.Written

namespace PathExplorer.Json

section Strings

variable {n u v : Nat} {t cs rest : List Char} {c : Char}

theorem hexDigit?_hexChar : ∀ u < 16, hexDigit? (hexChar u) = some u := by decide

theorem unicode?_control (h : c < ' ') :
    unicode? ('0' :: '0' :: hexChar (c.toNat / 16) :: hexChar (c.toNat % 16) :: rest) =
      some (some c, rest) := by
  have hc : c.toNat < 32 := h
  have hhigh := hexDigit?_hexChar (c.toNat / 16) (by omega)
  have hlow := hexDigit?_hexChar (c.toNat % 16) (by omega)
  have hunit : unit? ('0' :: '0' :: hexChar (c.toNat / 16) :: hexChar (c.toNat % 16) :: rest) =
      some (c.toNat, rest) := by
    have hzero : hexDigit? '0' = some 0 := rfl
    simp [unit?, hzero, hhigh, hlow, Nat.div_add_mod]
  have hlone : isHighSurrogate c.toNat = false ∧ isLowSurrogate c.toNat = false := by
    simp [isHighSurrogate, isLowSurrogate]
    omega
  simp [unicode?, hunit, hlone.1, hlone.2, Char.ofNat_toNat]

theorem string?_escaped (c : Char) :
    string? (n + 1) (some t) (escaped c ++ rest) = string? n (some (c :: t)) rest := by
  unfold escaped
  split_ifs with hquote hback htab hline hfeed hreturn hcontrol
  · obtain rfl | rfl := by simpa using hquote
    · rfl
    · rfl
  · subst hback
    rfl
  · subst htab
    rfl
  · subst hline
    rfl
  · subst hfeed
    rfl
  · subst hreturn
    rfl
  · simp [string?, unicode?_control hcontrol]
  · obtain ⟨hquote, hslash⟩ : c ≠ '"' ∧ c ≠ '\\' := by simpa using hquote
    rw [List.singleton_append, string?.eq_6 _ _ _ _ hquote (fun _ h => absurd h hslash)
      (fun _ _ h => absurd h hslash)]
    exact if_neg (by simp [hcontrol, hslash])

theorem length_le_flatMap_escaped (cs : List Char) :
    cs.length ≤ (cs.flatMap escaped).length := by
  induction cs with
  | nil => exact Nat.le_refl _
  | cons c cs ih =>
    have hc : 0 < (escaped c).length := by
      unfold escaped
      split_ifs <;> simp
    rw [List.flatMap_cons, List.length_append, List.length_cons]
    omega

theorem string?_flatMap_escaped (h : cs.length < n) :
    string? n (some t) (cs.flatMap escaped ++ '"' :: rest) =
      some (some (String.ofList (t.reverse ++ cs)), rest) := by
  induction cs generalizing n t with
  | nil =>
    cases n with
    | zero => exact absurd h (Nat.not_lt_zero _)
    | succ n => simp [string?]
  | cons c cs ih =>
    cases n with
    | zero => exact absurd h (Nat.not_lt_zero _)
    | succ n =>
      rw [List.flatMap_cons, List.append_assoc, string?_escaped, ih (Nat.lt_of_succ_lt_succ h)]
      simp

theorem string?_toList {s : String} (h : (s.toList.flatMap escaped).length < n) :
    string? n (some []) (s.toList.flatMap escaped ++ '"' :: rest) = some (some s, rest) := by
  have hlength := Nat.lt_of_le_of_lt (length_le_flatMap_escaped s.toList) h
  rw [string?_flatMap_escaped hlength, List.reverse_nil, List.nil_append, String.ofList_toList]

end Strings

mutual

/-- All strings are texts and all numbers are natural. -/
def Plain : Json → Prop
  | .null | .bool _ | .natural _ => True
  | .number _ => False
  | .string text => text.isSome
  | .list items => PlainItems items
  | .record fields => PlainFields fields

def PlainItems : List Json → Prop
  | [] => True
  | item :: items => Plain item ∧ PlainItems items

def PlainFields : List (Option String × Json) → Prop
  | [] => True
  | (name, value) :: fields => name.isSome ∧ Plain value ∧ PlainFields fields

end

section Values

variable {n : Nat} {margin : String} {lead rest cs inner : List Char} {c : Char} {j : Json}

def Blank (cs : List Char) : Prop := ∀ c ∈ cs, isBlank c

def lineTo (margin : String) : List Char := '\n' :: margin.toList

theorem blank_lineTo (h : Blank margin.toList) : Blank (lineTo margin) :=
  List.forall_mem_cons.mpr ⟨rfl, h⟩

theorem blank_indent (h : Blank margin.toList) : Blank (margin ++ "  ").toList := by
  rw [String.toList_append]
  exact List.forall_mem_append.mpr ⟨h, by simp [isBlank]⟩

theorem blanks_append (h : Blank lead) : blanks (lead ++ cs) = blanks cs :=
  List.dropWhile_append_of_pos h

theorem blanks_cons (h : isBlank c = false) : blanks (c :: cs) = c :: cs :=
  List.dropWhile_cons_of_neg (by simp [h])

theorem toList_quoted (s : String) :
    (quoted (some s)).toList = '"' :: (s.toList.flatMap escaped ++ ['"']) := by
  simp [quoted]

def partsText (margin : String) (parts : List String) : List Char :=
  (',' :: lineTo margin).intercalate (parts.map String.toList)

theorem toList_enclosed {opening closing : String} {parts : List String} (h : parts ≠ []) :
    (enclosed opening closing margin parts).toList =
      opening.toList ++ (lineTo (margin ++ "  ") ++
        (partsText (margin ++ "  ") parts ++ (lineTo margin ++ closing.toList))) := by
  rw [enclosed, if_neg (by simpa using h)]
  simp [String.toList_intercalate, partsText, lineTo]

theorem value?_string {text : Option String} (hcs : blanks cs = '"' :: inner)
    (h : string? n (some []) inner = some (text, rest)) :
    value? (n + 1) cs = some (.string text, rest) := by
  unfold value?
  simp only [hcs, h]
  rfl

theorem value?_items {l : List Json} (hcs : blanks cs = '[' :: inner)
    (hinner : ∀ after, blanks inner ≠ ']' :: after) (h : items n (blanks inner) = some (l, rest)) :
    value? (n + 1) cs = some (.list l, rest) := by
  unfold value?
  simp only [hcs, h]
  rfl

theorem value?_fields {l : List (Option String × Json)} (hcs : blanks cs = '\x7b' :: inner)
    (hinner : ∀ after, blanks inner ≠ '\x7d' :: after)
    (h : fields n (blanks inner) = some (l, rest)) :
    value? (n + 1) cs = some (.record l, rest) := by
  unfold value?
  simp only [hcs, h]
  rfl

theorem value?_natural {m : Nat} {digits : List Char} (hcs : blanks cs = digits ++ rest)
    (hm : Numeral m digits) (hrest : EndsNumber rest) :
    value? (n + 1) cs = some (.natural m, rest) := by
  have hnumber := number?_numeral hm hrest
  obtain ⟨c, ds, rfl⟩ := List.exists_cons_of_ne_nil hm.nonempty
  have hc := hm.isDigit c (List.mem_cons_self ..)
  unfold value?
  rw [hcs]
  split
  all_goals first
    | exact hnumber
    | rename_i heq
      exact absurd (List.cons.inj heq).1 (ne_of_isDigit hc rfl)

theorem items_last {item : Json} {after : List Char} (h : value? n cs = some (item, after))
    (hafter : blanks after = ']' :: rest) : items (n + 1) cs = some ([item], rest) := by
  unfold items
  simp only [h, Option.bind_eq_bind, Option.bind_some, hafter]
  rfl

theorem items_more {item : Json} {l : List Json} {after more : List Char}
    (h : value? n cs = some (item, after)) (hafter : blanks after = ',' :: more)
    (hmore : items n more = some (l, rest)) : items (n + 1) cs = some (item :: l, rest) := by
  unfold items
  simp only [h, Option.bind_eq_bind, Option.bind_some, hafter, hmore]
  rfl

def Opens (n : Nat) (cs : List Char) (name : Option String) (value : Json)
    (after : List Char) : Prop :=
  ∃ inner named colon, after? "\"" (blanks cs) = some inner ∧
    string? n (some []) inner = some (name, named) ∧ after? ":" (blanks named) = some colon ∧
    value? n colon = some (value, after)

theorem fields_last {name : Option String} {value : Json} {after : List Char}
    (h : Opens n cs name value after) (hafter : blanks after = '\x7d' :: rest) :
    fields (n + 1) cs = some ([(name, value)], rest) := by
  obtain ⟨inner, named, colon, hquote, hname, hcolon, hvalue⟩ := h
  unfold fields
  simp only [hquote, hname, hcolon, hvalue, hafter, Option.bind_eq_bind, Option.bind_some]
  rfl

theorem fields_more {name : Option String} {value : Json} {l : List (Option String × Json)}
    {after more : List Char} (h : Opens n cs name value after)
    (hafter : blanks after = ',' :: more) (hmore : fields n more = some (l, rest)) :
    fields (n + 1) cs = some ((name, value) :: l, rest) := by
  obtain ⟨inner, named, colon, hquote, hname, hcolon, hvalue⟩ := h
  unfold fields
  simp only [hquote, hname, hcolon, hvalue, hafter, hmore, Option.bind_eq_bind, Option.bind_some]
  rfl

theorem partsText_cons {part : String} {parts : List String} (h : parts ≠ []) :
    partsText margin (part :: parts) =
      part.toList ++ ',' :: (lineTo margin ++ partsText margin parts) := by
  obtain ⟨next, parts, rfl⟩ := List.exists_cons_of_ne_nil h
  simp [partsText, List.intercalate_cons_cons]

theorem exists_partsText (margin part : String) (parts : List String) :
    ∃ more, partsText margin (part :: parts) = part.toList ++ more := by
  cases parts with
  | nil => exact ⟨[], by rw [partsText, List.append_nil]; exact List.intercalate_singleton⟩
  | cons next parts => exact ⟨_, partsText_cons (List.cons_ne_nil _ _)⟩

theorem partsText_singleton (part : String) : partsText margin [part] = part.toList :=
  List.intercalate_singleton

theorem toList_list (margin : String) (item : Json) (items : List Json) :
    (pretty margin (.list (item :: items))).toList =
      '[' :: (lineTo (margin ++ "  ") ++
        (partsText (margin ++ "  ") (prettyItems (margin ++ "  ") (item :: items)) ++
          (lineTo margin ++ [']']))) := by
  rw [pretty, toList_enclosed (by simp [prettyItems])]
  rfl

theorem toList_record (margin : String) (field : Option String × Json)
    (fields : List (Option String × Json)) :
    (pretty margin (.record (field :: fields))).toList =
      '\x7b' :: (lineTo (margin ++ "  ") ++
        (partsText (margin ++ "  ") (prettyFields (margin ++ "  ") (field :: fields)) ++
          (lineTo margin ++ ['\x7d']))) := by
  rw [pretty, toList_enclosed (by simp [prettyFields])]
  rfl

/-- The first character shows that there is a value. -/
theorem exists_cons_pretty (h : Plain j) (margin : String) :
    ∃ c cs, (pretty margin j).toList = c :: cs ∧ isBlank c = false ∧ c ≠ ']' := by
  cases j with
  | null => exact ⟨'n', "ull".toList, by rw [pretty]; rfl, rfl, by decide⟩
  | bool b =>
    cases b with
    | true => exact ⟨'t', "rue".toList, by rw [pretty]; rfl, rfl, by decide⟩
    | false => exact ⟨'f', "alse".toList, by rw [pretty]; rfl, rfl, by decide⟩
  | natural n =>
    have hn := numeral_toString n
    obtain ⟨c, cs, hcs⟩ := List.exists_cons_of_ne_nil hn.nonempty
    have hc := hn.isDigit c (hcs ▸ List.mem_cons_self ..)
    refine ⟨c, cs, by rw [pretty, hcs], ?_, ne_of_isDigit hc rfl⟩
    simp [isBlank, ne_of_isDigit hc]
  | number literal => exact absurd h id
  | string text =>
    obtain ⟨s, rfl⟩ := Option.isSome_iff_exists.mp h
    exact ⟨'"', _, by rw [pretty, toList_quoted], rfl, by decide⟩
  | list items =>
    cases items with
    | nil => exact ⟨'[', "]".toList, by simp [pretty, prettyItems, enclosed], rfl, by decide⟩
    | cons item items => exact ⟨'[', _, toList_list .., rfl, by decide⟩
  | record fields =>
    cases fields with
    | nil => exact ⟨'\x7b', "\x7d".toList, by simp [pretty, prettyFields, enclosed], rfl, by decide⟩
    | cons field fields => exact ⟨'\x7b', _, toList_record .., rfl, by decide⟩

end Values

theorem endsNumber_cons {c : Char} (hc : c = ',' ∨ c = ']' ∨ c = '\x7d') (cs : List Char) :
    EndsNumber (c :: cs) := by
  rintro d ⟨⟩
  obtain rfl | rfl | rfl := hc <;> decide

theorem endsNumber_close {close rest : List Char} {bracket : Char} (h : Blank close)
    (hbracket : EndsNumber (bracket :: rest)) : EndsNumber (close ++ bracket :: rest) := by
  cases close with
  | nil => exact hbracket
  | cons c close =>
    have hc : isBlank c := h c (List.mem_cons_self ..)
    have hblank : ((c = ' ' ∨ c = '\n') ∨ c = '\t') ∨ c = '\r' := by simpa [isBlank] using hc
    rintro d ⟨⟩
    obtain ((rfl | rfl) | rfl) | rfl := hblank <;> decide

/-- Behind blanks, and before what does not go on with it, the value is read as it was written. -/
def ReadsBack (j : Json) : Prop :=
  ∀ (margin : String) (lead rest : List Char) (n : Nat), Blank margin.toList → Blank lead →
    EndsNumber rest → (pretty margin j).toList.length ≤ n →
    value? n (lead ++ ((pretty margin j).toList ++ rest)) = some (j, rest)

def ItemsReadBack (l : List Json) : Prop :=
  ∀ (margin : String) (lead close rest : List Char) (n : Nat), Blank margin.toList → Blank lead →
    Blank close → (partsText margin (prettyItems margin l)).length < n →
    items n (lead ++ (partsText margin (prettyItems margin l) ++ (close ++ ']' :: rest))) =
      some (l, rest)

def FieldsReadBack (l : List (Option String × Json)) : Prop :=
  ∀ (margin : String) (lead close rest : List Char) (n : Nat), Blank margin.toList → Blank lead →
    Blank close → (partsText margin (prettyFields margin l)).length < n →
    fields n (lead ++ (partsText margin (prettyFields margin l) ++ (close ++ '\x7d' :: rest))) =
      some (l, rest)

section ReadBack

variable {j value : Json} {l : List Json} {fs : List (Option String × Json)}

theorem readsBack_of_succ (hj : Plain j)
    (h : ∀ (margin : String) (rest cs : List Char) (n : Nat), Blank margin.toList →
      EndsNumber rest → (pretty margin j).toList.length ≤ n + 1 →
      blanks cs = (pretty margin j).toList ++ rest → value? (n + 1) cs = some (j, rest)) :
    ReadsBack j := by
  intro margin lead rest n hm hlead hrest hn
  obtain ⟨c, cs, hcs, hc, -⟩ := exists_cons_pretty hj margin
  have hstart : blanks (lead ++ ((pretty margin j).toList ++ rest)) =
      (pretty margin j).toList ++ rest := by
    rw [blanks_append hlead, hcs, List.cons_append, blanks_cons hc]
  cases n with
  | zero =>
    rw [hcs] at hn
    exact absurd hn (Nat.not_succ_le_zero _)
  | succ n => exact h margin rest _ n hm hrest hn hstart

theorem readsBack_null : ReadsBack .null := by
  refine readsBack_of_succ trivial fun margin rest cs n _ _ _ hcs => ?_
  rw [pretty] at hcs
  have hnull : blanks cs = 'n' :: ("ull".toList ++ rest) := hcs
  unfold value?
  simp only [hnull]
  rfl

theorem readsBack_bool (b : Bool) : ReadsBack (.bool b) := by
  refine readsBack_of_succ trivial fun margin rest cs n _ _ _ hcs => ?_
  rw [pretty] at hcs
  unfold value?
  cases b with
  | true =>
    have htrue : blanks cs = 't' :: ("rue".toList ++ rest) := hcs
    simp only [htrue]
    rfl
  | false =>
    have hfalse : blanks cs = 'f' :: ("alse".toList ++ rest) := hcs
    simp only [hfalse]
    rfl

theorem readsBack_natural (m : Nat) : ReadsBack (.natural m) := by
  refine readsBack_of_succ trivial fun margin rest cs n _ hrest _ hcs => ?_
  rw [pretty] at hcs
  exact value?_natural hcs (numeral_toString m) hrest

theorem readsBack_string (s : String) : ReadsBack (.string (some s)) := by
  refine readsBack_of_succ rfl fun margin rest cs n _ _ hn hcs => ?_
  rw [pretty, toList_quoted] at hn hcs
  rw [List.cons_append, List.append_assoc] at hcs
  rw [List.length_cons, List.length_append] at hn
  exact value?_string hcs (string?_toList (Nat.lt_of_succ_le (Nat.le_of_succ_le_succ hn)))

theorem readsBack_list_nil : ReadsBack (.list []) := by
  refine readsBack_of_succ trivial fun margin rest cs n _ _ _ hcs => ?_
  have hempty : blanks cs = '[' :: ']' :: rest := by
    rw [hcs, pretty, prettyItems]
    simp [enclosed]
  unfold value?
  simp only [hempty, blanks_cons (show isBlank ']' = false from rfl)]

theorem blanks_parts {margin : String} {part : String} {c : Char} {cs : List Char}
    (hm : Blank margin.toList) (hpart : part.toList = c :: cs) (hc : isBlank c = false)
    (parts : List String) (more : List Char) :
    ∃ after, partsText margin (part :: parts) ++ more = c :: after ∧
      blanks (lineTo margin ++ (partsText margin (part :: parts) ++ more)) =
        partsText margin (part :: parts) ++ more := by
  obtain ⟨rest, hrest⟩ := exists_partsText margin part parts
  rw [hpart, List.cons_append] at hrest
  refine ⟨cs ++ rest ++ more, by rw [hrest, List.cons_append], ?_⟩
  rw [blanks_append (blank_lineTo hm), hrest, List.cons_append, blanks_cons hc]

theorem readsBack_list {item : Json} (hl : PlainItems (item :: l))
    (h : ItemsReadBack (item :: l)) : ReadsBack (.list (item :: l)) := by
  refine readsBack_of_succ hl fun margin rest cs n hm _ hn hcs => ?_
  rw [toList_list] at hn hcs
  simp only [List.cons_append, List.append_assoc, List.nil_append] at hcs
  simp only [List.length_cons, List.length_append] at hn
  obtain ⟨c, text, htext, hblank, hbracket⟩ := exists_cons_pretty hl.1 (margin ++ "  ")
  obtain ⟨after, hafter, hstart⟩ := blanks_parts (blank_indent hm) htext hblank
    (prettyItems (margin ++ "  ") l) (lineTo margin ++ ']' :: rest)
  rw [← prettyItems] at hafter hstart
  refine value?_items hcs (fun _ heq => ?_) ?_
  · rw [hstart, hafter] at heq
    exact hbracket (List.cons.inj heq).1
  · rw [hstart]
    exact h (margin ++ "  ") [] (lineTo margin) rest n (blank_indent hm) (by simp [Blank])
      (blank_lineTo hm) (by omega)

theorem readsBack_record_nil : ReadsBack (.record []) := by
  refine readsBack_of_succ trivial fun margin rest cs n _ _ _ hcs => ?_
  have hempty : blanks cs = '\x7b' :: '\x7d' :: rest := by
    rw [hcs, pretty, prettyFields]
    simp [enclosed]
  unfold value?
  simp only [hempty, blanks_cons (show isBlank '\x7d' = false from rfl)]

theorem toList_field (name : String) (value : Json) (margin : String) :
    (quoted (some name) ++ ": " ++ pretty margin value).toList =
      '"' :: (name.toList.flatMap escaped ++
        '"' :: ':' :: ' ' :: (pretty margin value).toList) := by
  simp [toList_quoted]

theorem readsBack_record {name : String} (hf : PlainFields ((some name, value) :: fs))
    (h : FieldsReadBack ((some name, value) :: fs)) :
    ReadsBack (.record ((some name, value) :: fs)) := by
  refine readsBack_of_succ hf fun margin rest cs n hm _ hn hcs => ?_
  rw [toList_record] at hn hcs
  simp only [List.cons_append, List.append_assoc, List.nil_append] at hcs
  simp only [List.length_cons, List.length_append] at hn
  obtain ⟨after, hafter, hstart⟩ := blanks_parts (blank_indent hm)
    (toList_field name value (margin ++ "  ")) rfl (prettyFields (margin ++ "  ") fs)
    (lineTo margin ++ '\x7d' :: rest)
  rw [← prettyFields] at hafter hstart
  refine value?_fields hcs (fun _ heq => ?_) ?_
  · rw [hstart, hafter] at heq
    cases heq
  · rw [hstart]
    exact h (margin ++ "  ") [] (lineTo margin) rest n (blank_indent hm) (by simp [Blank])
      (blank_lineTo hm) (by omega)

theorem itemsReadBack_singleton {item : Json} (h : ReadsBack item) : ItemsReadBack [item] := by
  intro margin lead close rest n hm hlead hclose hn
  simp only [prettyItems, partsText_singleton] at hn ⊢
  cases n with
  | zero => exact absurd hn (Nat.not_lt_zero _)
  | succ n =>
    have hvalue := h margin lead (close ++ ']' :: rest) n hm hlead
      (endsNumber_close hclose (endsNumber_cons (by simp) _)) (Nat.le_of_lt_succ hn)
    refine items_last hvalue ?_
    rw [blanks_append hclose, blanks_cons rfl]

theorem itemsReadBack_cons {item next : Json} (h : ReadsBack item)
    (hl : ItemsReadBack (next :: l)) : ItemsReadBack (item :: next :: l) := by
  intro margin lead close rest n hm hlead hclose hn
  rw [prettyItems, partsText_cons (by simp [prettyItems])] at hn ⊢
  simp only [List.length_append, List.length_cons] at hn
  simp only [List.append_assoc, List.cons_append]
  cases n with
  | zero => exact absurd hn (Nat.not_lt_zero _)
  | succ n =>
    have hvalue (cs : List Char) :=
      h margin lead (',' :: cs) n hm hlead (endsNumber_cons (by simp) cs) (by omega)
    exact items_more (hvalue _) (blanks_cons rfl)
      (hl margin (lineTo margin) close rest n hm (blank_lineTo hm) hclose (by omega))

theorem opens_of_readsBack {margin : String} {name : String} (h : ReadsBack value)
    (hm : Blank margin.toList) {lead rest : List Char} (hlead : Blank lead)
    (hrest : EndsNumber rest) {n : Nat}
    (hn : (quoted (some name) ++ ": " ++ pretty margin value).toList.length ≤ n) :
    Opens n (lead ++ ((quoted (some name) ++ ": " ++ pretty margin value).toList ++ rest))
      (some name) value rest := by
  rw [toList_field] at hn ⊢
  simp only [List.length_cons, List.length_append] at hn
  simp only [List.cons_append, List.append_assoc]
  have hname : string? n (some [])
      (name.toList.flatMap escaped ++ '"' :: ':' :: ' ' :: ((pretty margin value).toList ++ rest)) =
      some (some name, ':' :: ' ' :: ((pretty margin value).toList ++ rest)) :=
    string?_toList (by omega)
  have hvalue := h margin [' '] rest n hm (by simp [Blank, isBlank]) hrest (by omega)
  refine ⟨_, _, _, ?_, hname, ?_, hvalue⟩
  · rw [blanks_append hlead, blanks_cons rfl]
    rfl
  · rw [blanks_cons rfl]
    rfl

theorem fieldsReadBack_singleton {name : String} (h : ReadsBack value) :
    FieldsReadBack [(some name, value)] := by
  intro margin lead close rest n hm hlead hclose hn
  simp only [prettyFields, partsText_singleton] at hn ⊢
  cases n with
  | zero => exact absurd hn (Nat.not_lt_zero _)
  | succ n =>
    refine fields_last (opens_of_readsBack h hm hlead
      (endsNumber_close hclose (endsNumber_cons (by simp) _)) (Nat.le_of_lt_succ hn)) ?_
    rw [blanks_append hclose, blanks_cons rfl]

theorem fieldsReadBack_cons {name : String} {next : Option String × Json} (h : ReadsBack value)
    (hl : FieldsReadBack (next :: fs)) : FieldsReadBack ((some name, value) :: next :: fs) := by
  intro margin lead close rest n hm hlead hclose hn
  rw [prettyFields, partsText_cons (by simp [prettyFields])] at hn ⊢
  simp only [List.length_append, List.length_cons] at hn
  simp only [List.append_assoc, List.cons_append]
  cases n with
  | zero => exact absurd hn (Nat.not_lt_zero _)
  | succ n =>
    exact fields_more (opens_of_readsBack h hm hlead (endsNumber_cons (by simp) _) (by omega))
      (blanks_cons rfl)
      (hl margin (lineTo margin) close rest n hm (blank_lineTo hm) hclose (by omega))

end ReadBack

mutual

theorem readsBack : ∀ j : Json, Plain j → ReadsBack j
  | .null, _ => readsBack_null
  | .bool b, _ => readsBack_bool b
  | .natural m, _ => readsBack_natural m
  | .string (some s), _ => readsBack_string s
  | .list [], _ => readsBack_list_nil
  | .list (item :: items), h => readsBack_list h (itemsReadBack (item :: items) (by simp) h)
  | .record [], _ => readsBack_record_nil
  | .record ((some name, value) :: fields), h =>
    readsBack_record h (fieldsReadBack ((some name, value) :: fields) (by simp) h)

theorem itemsReadBack : ∀ l : List Json, l ≠ [] → PlainItems l → ItemsReadBack l
  | [item], _, h => itemsReadBack_singleton (readsBack item h.1)
  | item :: next :: items, _, h =>
    itemsReadBack_cons (readsBack item h.1) (itemsReadBack (next :: items) (by simp) h.2)

theorem fieldsReadBack : ∀ l : List (Option String × Json), l ≠ [] → PlainFields l →
    FieldsReadBack l
  | [(some _, value)], _, h => fieldsReadBack_singleton (readsBack value h.2.1)
  | (some _, value) :: next :: fields, _, h =>
    fieldsReadBack_cons (readsBack value h.2.1) (fieldsReadBack (next :: fields) (by simp) h.2.2)

end

/-- A value comes back from its text. -/
theorem read?_write {j : Json} (h : Plain j) : read? j.write = some j := by
  have hread := readsBack j h "" [] [] (2 * j.write.toList.length + 2) (by simp [Blank])
    (by simp [Blank]) (by simp [EndsNumber]) (by rw [write]; omega)
  rw [List.nil_append, List.append_nil] at hread
  rw [read?]
  simp only [write] at hread ⊢
  rw [hread]
  rfl

end PathExplorer.Json
