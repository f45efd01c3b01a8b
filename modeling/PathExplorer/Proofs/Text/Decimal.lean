import Mathlib.Data.List.TakeDrop
import PathExplorer.Text.Json.Read
import PathExplorer.Text.Yaml.Scalar

namespace PathExplorer

/-- The digits stand for the number, and no zero leads. -/
structure Numeral (n : Nat) (digits : List Char) : Prop where
  nonempty : digits ≠ []
  isDigit : ∀ c ∈ digits, c.isDigit
  leading : ∀ cs, digits = '0' :: cs → cs = []
  value : digits.foldl (fun a c => 10 * a + (c.toNat - '0'.toNat)) 0 = n

theorem leading_toDigits (n : Nat) (cs : List Char) (h : Nat.toDigits 10 n = '0' :: cs) :
    cs = [] := by
  induction n using Nat.strongRecOn generalizing cs with
  | ind n ih =>
    by_cases hn : n < 10
    · rw [Nat.toDigits_of_lt_base hn] at h
      exact (List.cons.inj h).2.symm
    · rw [Nat.toDigits_eq_if (by decide), if_neg hn] at h
      obtain ⟨ds, hds⟩ : ∃ ds, Nat.toDigits 10 (n / 10) = '0' :: ds := by
        cases hd : Nat.toDigits 10 (n / 10) with
        | nil => exact absurd hd Nat.toDigits_ne_nil
        | cons d ds =>
          rw [hd] at h
          exact ⟨ds, by rw [(List.cons.inj h).1]⟩
      have hnil := ih (n / 10) (by omega) ds hds
      have hzero : n / 10 = 0 := by
        rw [← Nat.ofDigitChars_ten_toDigits (n := n / 10), hds, hnil]
        rfl
      omega

theorem numeral_toString (n : Nat) : Numeral n (toString n).toList := by
  rw [Nat.toString_eq_ofList_toDigits, String.toList_ofList]
  exact {
    nonempty := Nat.toDigits_ne_nil
    isDigit := fun _ => Nat.isDigit_of_mem_toDigits (by decide) (by decide)
    leading := leading_toDigits n
    value := Nat.ofDigitChars_eq_foldl.symm.trans Nat.ofDigitChars_ten_toDigits }

theorem toNat_of_isDigit {c : Char} (h : c.isDigit) : 48 ≤ c.toNat ∧ c.toNat ≤ 57 := by
  rw [Char.isDigit, Bool.and_eq_true, decide_eq_true_eq, decide_eq_true_eq] at h
  exact h

theorem ne_of_isDigit {c d : Char} (h : c.isDigit) (hd : d.isDigit = false) : c ≠ d := by
  rintro rfl
  rw [h] at hd
  cases hd

variable {n : Nat} {digits : List Char}

namespace Yaml

theorem hexValue?_of_isDigit {c : Char} (h : c.isDigit) :
    Lexer.hexValue? c = some (c.toNat - '0'.toNat) := by
  have hrange : ('0' ≤ c && c ≤ '9') = true := h
  rw [Lexer.hexValue?, if_pos hrange]

theorem ofDigits?_of_isDigit (h : ∀ c ∈ digits, c.isDigit) (hne : digits ≠ []) :
    ofDigits? 10 digits =
      some (digits.foldl (fun a c => 10 * a + (c.toNat - '0'.toNat)) 0) := by
  have hfold (a : Nat) : digits.foldlM (fun n c => do
      let d ← Lexer.hexValue? c
      if d < 10 then some (10 * n + d) else none) a =
      some (digits.foldl (fun a c => 10 * a + (c.toNat - '0'.toNat)) a) := by
    clear hne
    induction digits generalizing a with
    | nil => rfl
    | cons c cs ih =>
      obtain ⟨hc, hcs⟩ := List.forall_mem_cons.mp h
      have hlt : c.toNat - '0'.toNat < 10 := by
        have := toNat_of_isDigit hc
        change c.toNat - 48 < 10
        omega
      rw [List.foldlM_cons, hexValue?_of_isDigit hc]
      exact (congrArg (· >>= _) (if_pos hlt)).trans (ih hcs _)
  rw [ofDigits?, if_neg (by simpa using hne)]
  exact hfold 0

theorem natural?_of_numeral {text : String} (h : Numeral n text.toList) :
    natural? text = some n := by
  have hten := ofDigits?_of_isDigit h.isDigit h.nonempty
  rw [h.value] at hten
  unfold natural?
  have hunsigned (cs : List Char) : text.toList ≠ '+' :: cs := fun heq =>
    ne_of_isDigit (h.isDigit '+' (heq ▸ List.mem_cons_self ..)) rfl rfl
  split
  · rename_i cs heq
    exact absurd heq (hunsigned cs)
  · dsimp only
    -- A zero in front is the whole numeral.
    split <;> first
      | exact hten
      | rename_i heq
        exact absurd (h.leading _ heq) (List.cons_ne_nil _ _)

end Yaml

namespace Json

variable {rest : List Char}

def EndsNumber (rest : List Char) : Prop :=
  ∀ c ∈ rest.head?, c.isDigit = false ∧ c ≠ '.' ∧ c ≠ 'e' ∧ c ≠ 'E'

theorem isDigit_eq : isDigit = Char.isDigit := rfl

theorem EndsNumber.any_isDigit (h : EndsNumber rest) : ¬ rest.head?.any Char.isDigit := by
  rw [Option.any_eq_true]
  rintro ⟨c, hc, hdigit⟩
  rw [(h c hc).1] at hdigit
  cases hdigit

theorem digits?_append (h : ∀ c ∈ digits, c.isDigit) (hne : digits ≠ [])
    (hrest : EndsNumber rest) : digits? (digits ++ rest) = some (digits, rest) := by
  have hspan : rest.takeWhile Char.isDigit = [] ∧ rest.dropWhile Char.isDigit = rest := by
    cases rest with
    | nil => exact ⟨rfl, rfl⟩
    | cons c cs =>
      have hc : ¬ c.isDigit := hrest.any_isDigit
      exact ⟨List.takeWhile_cons_of_neg hc, List.dropWhile_cons_of_neg hc⟩
  rw [digits?, isDigit_eq, List.span_eq_takeWhile_dropWhile, List.takeWhile_append_of_pos h,
    List.dropWhile_append_of_pos h, hspan.1, hspan.2, List.append_nil]
  exact if_neg (by simpa using hne)

theorem integer?_numeral (h : Numeral n digits) (hrest : EndsNumber rest) :
    integer? (digits ++ rest) = some (digits, rest) := by
  obtain ⟨c, cs, rfl⟩ := List.exists_cons_of_ne_nil h.nonempty
  by_cases hc : c = '0'
  · subst hc
    cases h.leading cs rfl
    exact if_neg hrest.any_isDigit
  · rw [List.cons_append, integer?.eq_2 _ (by simpa using hc)]
    exact digits?_append h.isDigit h.nonempty hrest

theorem fraction?_of_ends (h : EndsNumber rest) : fraction? rest = some ([], rest) := by
  unfold fraction?
  split
  · exact absurd rfl (h _ rfl).2.1
  · rfl

theorem exponent?_of_ends (h : EndsNumber rest) : exponent? rest = some ([], rest) := by
  cases rest with
  | nil => rfl
  | cons c cs =>
    obtain ⟨-, -, he, hE⟩ := h c rfl
    simp [exponent?, he, hE]

theorem number?_numeral (h : Numeral n digits) (hrest : EndsNumber rest) :
    number? (digits ++ rest) = some (.natural n, rest) := by
  have hsign (cs : List Char) : digits ++ rest ≠ '-' :: cs := by
    obtain ⟨c, ds, rfl⟩ := List.exists_cons_of_ne_nil h.nonempty
    intro heq
    exact ne_of_isDigit (h.isDigit c (List.mem_cons_self ..)) (d := '-') rfl (List.cons.inj heq).1
  unfold number?
  split
  rename_i sign cs heq
  split at heq
  · rename_i hminus
    exact absurd hminus (hsign _)
  · cases heq
    simp only [integer?_numeral h hrest, fraction?_of_ends hrest, exponent?_of_ends hrest,
      Option.bind_eq_bind, Option.bind_some]
    exact congrArg (fun v => some (Json.natural v, rest)) h.value

end Json

end PathExplorer
