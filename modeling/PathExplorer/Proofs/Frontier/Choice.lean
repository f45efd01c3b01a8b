import Mathlib.Data.List.Induction
import PathExplorer.Frontier.Choice

namespace PathExplorer

section Standing

variable {beats : Candidate → Candidate → Bool} {cs : List Candidate} {c x : Candidate} {i : Nat}

def standing (beats : Candidate → Candidate → Bool) (cs : List Candidate) :
    Option (Candidate × Nat) :=
  cs.zipIdx.foldl (fun best c => match best with
    | some b => if beats c.1 b.1 then some c else some b
    | none => some c) none

theorem lastStanding_eq : lastStanding beats cs = (standing beats cs).map (·.2) := rfl

theorem standing_concat (cs : List Candidate) (x : Candidate) :
    standing beats (cs ++ [x]) = match standing beats cs with
      | some b => if beats x b.1 then some (x, cs.length) else some b
      | none => some (x, cs.length) := by
  simp [standing, List.zipIdx_append]

theorem isBetter_iff_of_later (h : c.ticket.number < x.ticket.number) :
    x.isBetter c ↔ c.weight < x.weight := by
  have he : x.isEarlier c = false := decide_eq_false (Nat.lt_asymm h)
  simp [Candidate.isBetter, he]

/-- Of candidates in the order of insertion the first of the heaviest is left over. -/
theorem standing_isBetter (h : cs.Pairwise fun a b => a.ticket.number < b.ticket.number)
    (hn : cs ≠ []) :
    ∃ l₁ c l₂, cs = l₁ ++ c :: l₂ ∧ standing Candidate.isBetter cs = some (c, l₁.length) ∧
      (∀ b ∈ l₁, b.weight < c.weight) ∧ ∀ b ∈ l₂, b.weight ≤ c.weight := by
  induction cs using List.reverseRecOn with
  | nil => exact absurd rfl hn
  | append_singleton cs x ih =>
    obtain ⟨hcs, -, hx⟩ := List.pairwise_append.mp h
    rw [standing_concat]
    by_cases he : cs = []
    · subst he
      exact ⟨[], x, [], rfl, rfl, by simp, by simp⟩
    · obtain ⟨l₁, c, l₂, rfl, hs, h₁, h₂⟩ := ih hcs he
      rw [hs]
      dsimp only
      have hc : c.ticket.number < x.ticket.number := hx c (by simp) x (by simp)
      by_cases hb : c.weight < x.weight
      · rw [if_pos ((isBetter_iff_of_later hc).mpr hb)]
        refine ⟨_, x, [], rfl, rfl, fun b hm => ?_, by simp⟩
        rw [Weight.lt_iff] at hb ⊢
        obtain hm | hm := List.mem_append.mp hm
        · have := Weight.lt_iff.mp (h₁ b hm)
          omega
        · obtain rfl | hm := List.mem_cons.mp hm
          · exact hb
          · have := Weight.le_iff.mp (h₂ b hm)
            omega
      · rw [if_neg fun hx => hb ((isBetter_iff_of_later hc).mp hx)]
        refine ⟨l₁, c, l₂ ++ [x], by simp, rfl, h₁, fun b hm => ?_⟩
        obtain hm | hm := List.mem_append.mp hm
        · exact h₂ b hm
        · cases List.mem_singleton.mp hm
          rw [Weight.lt_iff] at hb
          exact Weight.le_iff.mpr (by omega)

theorem lastStanding_isBetter (h : cs.Pairwise fun a b => a.ticket.number < b.ticket.number)
    (hn : cs ≠ []) :
    ∃ l₁ c l₂, cs = l₁ ++ c :: l₂ ∧ lastStanding Candidate.isBetter cs = some l₁.length ∧
      (∀ b ∈ l₁, b.weight < c.weight) ∧ ∀ b ∈ l₂, b.weight ≤ c.weight := by
  obtain ⟨l₁, c, l₂, hcs, hs, h₁, h₂⟩ := standing_isBetter h hn
  exact ⟨l₁, c, l₂, hcs, by rw [lastStanding_eq, hs]; rfl, h₁, h₂⟩

theorem standing_cons_of_first (h : ∀ x ∈ cs, beats x c = false) :
    standing beats (c :: cs) = some (c, 0) := by
  induction cs using List.reverseRecOn with
  | nil => rfl
  | append_singleton cs x ih =>
    obtain ⟨hcs, hx⟩ := List.forall_mem_append.mp h
    rw [← List.cons_append, standing_concat, ih hcs]
    exact if_neg (by simp [hx x (List.mem_singleton.mpr rfl)])

theorem standing_concat_of_last (h : (cs ++ [x]).Pairwise fun a b => beats b a) :
    standing beats (cs ++ [x]) = some (x, cs.length) := by
  induction cs using List.reverseRecOn generalizing x with
  | nil => rfl
  | append_singleton cs y ih =>
    obtain ⟨hcs, -, hx⟩ := List.pairwise_append.mp h
    rw [standing_concat, ih hcs]
    exact if_pos (hx y (by simp) x (by simp))

theorem lastStanding_isEarlier (h : cs.Pairwise fun a b => a.ticket.number < b.ticket.number)
    (hn : cs ≠ []) : lastStanding Candidate.isEarlier cs = some 0 := by
  cases cs with
  | nil => exact absurd rfl hn
  | cons c cs =>
    have hfirst : ∀ x ∈ cs, x.isEarlier c = false := fun x hx =>
      decide_eq_false (Nat.lt_asymm ((List.pairwise_cons.mp h).1 x hx))
    rw [lastStanding_eq, standing_cons_of_first hfirst]
    rfl

theorem lastStanding_latest (h : cs.Pairwise fun a b => a.ticket.number < b.ticket.number)
    (hn : cs ≠ []) : lastStanding (fun a b => !a.isEarlier b) cs = some (cs.length - 1) := by
  cases cs using List.reverseRecOn with
  | nil => exact absurd rfl hn
  | append_singleton cs x =>
    have hlast : (cs ++ [x]).Pairwise fun a b => !b.isEarlier a := h.imp fun hab => by
      simp [Candidate.isEarlier, Nat.le_of_lt hab]
    rw [lastStanding_eq, standing_concat_of_last hlast, List.length_append]
    rfl

end Standing

section Stable

variable {α : Type} {l₁ l₂ m₁ m₂ : List α}

/-- A list is parted in one way into members with a property and members without it. -/
theorem append_inj_of_parted {p : α → Bool} (h : l₁ ++ l₂ = m₁ ++ m₂) (hl₁ : ∀ b ∈ l₁, p b)
    (hl₂ : ∀ b ∈ l₂, ¬ p b) (hm₁ : ∀ b ∈ m₁, p b) (hm₂ : ∀ b ∈ m₂, ¬ p b) : l₁ = m₁ ∧ l₂ = m₂ := by
  have hf := congrArg (List.filter p) h
  rw [List.filter_append, List.filter_append, List.filter_eq_self.mpr hl₁,
    List.filter_eq_self.mpr hm₁, List.filter_eq_nil_iff.mpr hl₂, List.filter_eq_nil_iff.mpr hm₂,
    List.append_nil, List.append_nil] at hf
  exact ⟨hf, List.append_cancel_left (hf ▸ h)⟩

theorem le_of_mergeSort_eq {le : α → α → Bool} (trans : ∀ a b c, le a b → le b c → le a c)
    (total : ∀ a b, le a b || le b a) {l : List α} {c : α} (h : l.mergeSort le = l₁ ++ c :: l₂) :
    ∀ b ∈ l₂, le c b := by
  have hp := List.pairwise_mergeSort trans total l
  rw [h] at hp
  exact (List.pairwise_cons.mp (List.pairwise_append.mp hp).2.1).1

/-- The first of the greatest members comes first in a stable sort. -/
theorem mergeSort_append_cons {le : α → α → Bool} (trans : ∀ a b c, le a b → le b c → le a c)
    (total : ∀ a b, le a b || le b a) {a : α} (h₁ : ∀ b ∈ l₁, ¬ le b a) (h₂ : ∀ b ∈ l₂, le a b) :
    (l₁ ++ a :: l₂).mergeSort le = a :: (l₁ ++ l₂).mergeSort le := by
  induction l₁ with
  | nil =>
    obtain ⟨m₁, m₂, hm, hl, hb⟩ := List.mergeSort_cons trans total a l₂
    have hnil : m₁ = [] := List.eq_nil_iff_forall_not_mem.mpr fun b hbm => by
      have hbl : b ∈ l₂ := List.mem_mergeSort.mp (hl ▸ List.mem_append_left m₂ hbm)
      simpa [h₂ b hbl] using hb b hbm
    subst hnil
    rw [List.nil_append, List.nil_append, hm, hl]
    rfl
  | cons c l₁ ih =>
    obtain ⟨hc, h₁⟩ := List.forall_mem_cons.mp h₁
    obtain ⟨m₁, m₂, hm, hml, hmb⟩ := List.mergeSort_cons trans total c (l₁ ++ a :: l₂)
    obtain ⟨n₁, n₂, hn, hnl, hnb⟩ := List.mergeSort_cons trans total c (l₁ ++ l₂)
    have hcm := le_of_mergeSort_eq trans total hm
    have hcn := le_of_mergeSort_eq trans total hn
    rw [ih h₁, hnl] at hml
    rw [List.cons_append, List.cons_append, hm, hn]
    cases m₁ with
    | nil =>
      rw [List.nil_append] at hml
      exact absurd (hcm a (hml ▸ List.mem_cons_self ..)) hc
    | cons b m₁ =>
      rw [List.cons_append, List.cons.injEq] at hml
      obtain ⟨rfl, hml⟩ := hml
      obtain ⟨rfl, rfl⟩ := append_inj_of_parted hml hnb
        (fun b hb => by simp [hcn b hb]) (fun b hb => hmb b (List.mem_cons_of_mem _ hb))
        (fun b hb => by simp [hcm b hb])
      rfl

theorem descending_trans (weight : α → Weight) (a b c : α) (hab : decide (weight b ≤ weight a))
    (hbc : decide (weight c ≤ weight b)) : decide (weight c ≤ weight a) := by
  simp only [decide_eq_true_eq, Weight.le_iff] at hab hbc ⊢
  omega

theorem descending_total (weight : α → Weight) (a b : α) :
    decide (weight b ≤ weight a) || decide (weight a ≤ weight b) := by
  simp only [Bool.or_eq_true, decide_eq_true_eq, Weight.le_iff]
  omega

theorem mergeSort_weight {weight : α → Weight} {a : α} (h₁ : ∀ b ∈ l₁, weight b < weight a)
    (h₂ : ∀ b ∈ l₂, weight b ≤ weight a) :
    ((l₁ ++ a :: l₂).mergeSort fun a b => weight b ≤ weight a) =
      a :: (l₁ ++ l₂).mergeSort fun a b => weight b ≤ weight a := by
  refine mergeSort_append_cons (descending_trans weight) (descending_total weight)
    (fun b hb => ?_) fun b hb => decide_eq_true (h₂ b hb)
  have hlt := Weight.lt_iff.mp (h₁ b hb)
  simp only [decide_eq_true_eq, Weight.le_iff]
  omega

end Stable

end PathExplorer
