import Mathlib.Data.List.Nodup
import Mathlib.Data.List.Perm.Basic
import PathExplorer.Proofs.Frontier.Choice

namespace PathExplorer

open scoped List

structure Contest (beats : Candidate → Candidate → Bool) (cs : List Candidate) : Prop where
  total : ∀ a ∈ cs, ∀ b ∈ cs, a ≠ b → beats a b ∨ beats b a
  antisymm : ∀ a ∈ cs, ∀ b ∈ cs, beats a b → beats b a → a = b
  trans : ∀ a b c, beats a b → beats b c → beats a c

structure Wins (beats : Candidate → Candidate → Bool) (cs : List Candidate) (c : Candidate) :
    Prop where
  mem : c ∈ cs
  beats : ∀ b ∈ cs, b = c ∨ beats c b

def picked? {χ : Type} [ChoiceRule χ] (rule : χ) (cs : List Candidate) : Option Candidate :=
  (ChoiceRule.choose cs rule).1.bind fun i => cs[i]?

/-- Asked about these candidates in any order, the rule answers with the position of the best one,
and with none only when there is no candidate. -/
structure Picks {χ : Type} [ChoiceRule χ] (rule : χ) (cs : List Candidate)
    (best : Candidate → Prop) : Prop where
  none_iff : (ChoiceRule.choose cs rule).1 = none ↔ cs = []
  inside : ∀ i, (ChoiceRule.choose cs rule).1 = some i → i < cs.length
  picked : ∀ c, picked? rule cs = some c ↔ c ∈ cs ∧ best c
  reordered : ∀ ds, ds ~ cs → picked? rule ds = picked? rule cs

section Contest

variable {beats : Candidate → Candidate → Bool} {cs ds : List Candidate} {c d x : Candidate}

namespace Contest

theorem subset (h : Contest beats cs) (hs : ds ⊆ cs) : Contest beats ds where
  total a ha b hb := h.total a (hs ha) b (hs hb)
  antisymm a ha b hb := h.antisymm a (hs ha) b (hs hb)
  trans := h.trans

theorem unique (h : Contest beats cs) (hc : Wins beats cs c) (hd : Wins beats cs d) : c = d := by
  obtain hdc | hcd := hc.beats d hd.mem
  · exact hdc.symm
  · obtain hcd' | hdc := hd.beats c hc.mem
    · exact hcd'
    · exact h.antisymm c hc.mem d hd.mem hcd hdc

/-- A further candidate that beats the one that was ahead is ahead of all. -/
theorem wins_concat_of_beats (h : Contest beats (cs ++ [x])) (hc : Wins beats cs c)
    (hx : beats x c) : Wins beats (cs ++ [x]) x where
  mem := by simp
  beats b hb := by
    obtain hb | hb := List.mem_append.mp hb
    · obtain rfl | hcb := hc.beats b hb
      · exact .inr hx
      · exact .inr (h.trans x c b hx hcb)
    · exact .inl (List.mem_singleton.mp hb)

theorem wins_concat_of_not (h : Contest beats (cs ++ [x])) (hc : Wins beats cs c)
    (hx : ¬ beats x c) : Wins beats (cs ++ [x]) c where
  mem := List.mem_append_left _ hc.mem
  beats b hb := by
    obtain hb | hb := List.mem_append.mp hb
    · exact hc.beats b hb
    · cases List.mem_singleton.mp hb
      refine or_iff_not_imp_left.mpr fun hne => ?_
      exact (h.total x (by simp) c (List.mem_append_left _ hc.mem) hne).resolve_left hx

/-- The candidate that is left over beats all others. -/
theorem exists_standing (h : Contest beats cs) (hn : cs ≠ []) :
    ∃ c i, standing beats cs = some (c, i) ∧ cs[i]? = some c ∧ Wins beats cs c := by
  induction cs using List.reverseRecOn with
  | nil => exact absurd rfl hn
  | append_singleton cs x ih =>
    have hlast : (cs ++ [x])[cs.length]? = some x := by simp
    rw [standing_concat]
    by_cases he : cs = []
    · subst he
      exact ⟨x, 0, rfl, hlast, by simp, by simp⟩
    · obtain ⟨c, i, hs, hi, hc⟩ := ih (h.subset (List.subset_append_left ..)) he
      rw [hs]
      dsimp only
      by_cases hx : beats x c
      · rw [if_pos hx]
        exact ⟨x, _, rfl, hlast, h.wins_concat_of_beats hc hx⟩
      · rw [if_neg hx]
        have hat : (cs ++ [x])[i]? = some c := by
          rw [List.getElem?_append_left (List.getElem?_eq_some_iff.mp hi).1, hi]
        exact ⟨c, i, rfl, hat, h.wins_concat_of_not hc hx⟩

variable {χ : Type} [ChoiceRule χ] {rule : χ}

theorem exists_picked (hrule : ∀ ds, (ChoiceRule.choose ds rule).1 = lastStanding beats ds)
    (h : Contest beats cs) (hn : cs ≠ []) :
    ∃ c i, (ChoiceRule.choose cs rule).1 = some i ∧ cs[i]? = some c ∧ picked? rule cs = some c ∧
      Wins beats cs c := by
  obtain ⟨c, i, hs, hi, hc⟩ := h.exists_standing hn
  have hanswer : (ChoiceRule.choose cs rule).1 = some i := by rw [hrule, lastStanding_eq, hs]; rfl
  exact ⟨c, i, hanswer, hi, by rw [picked?, hanswer]; exact hi, hc⟩

theorem picked?_eq_some_iff
    (hrule : ∀ ds, (ChoiceRule.choose ds rule).1 = lastStanding beats ds) (h : Contest beats cs) :
    picked? rule cs = some c ↔ Wins beats cs c := by
  by_cases hn : cs = []
  · subst hn
    have hnone : picked? rule [] = none := by rw [picked?, hrule]; rfl
    rw [hnone]
    exact ⟨nofun, fun hc => absurd hc.mem List.not_mem_nil⟩
  · obtain ⟨d, i, -, -, hpicked, hd⟩ := h.exists_picked hrule hn
    rw [hpicked, Option.some.injEq]
    constructor
    · rintro rfl
      exact hd
    · exact h.unique hd

theorem picks (hrule : ∀ ds, (ChoiceRule.choose ds rule).1 = lastStanding beats ds)
    (h : Contest beats cs) {best : Candidate → Prop}
    (hbest : ∀ c ∈ cs, (∀ b ∈ cs, b = c ∨ beats c b) ↔ best c) : Picks rule cs best where
  none_iff := by
    constructor
    · intro hnone
      by_contra hn
      obtain ⟨c, i, hi, -⟩ := h.exists_picked hrule hn
      rw [hnone] at hi
      cases hi
    · rintro rfl
      rw [hrule]
      rfl
  inside i hi := by
    have hn : cs ≠ [] := by
      rintro rfl
      rw [hrule] at hi
      cases hi
    obtain ⟨c, j, hj, hat, -⟩ := h.exists_picked hrule hn
    rw [hi] at hj
    cases hj
    exact (List.getElem?_eq_some_iff.mp hat).1
  picked c := by
    rw [h.picked?_eq_some_iff hrule]
    constructor
    · intro hc
      exact ⟨hc.mem, (hbest c hc.mem).mp hc.beats⟩
    · rintro ⟨hc, hb⟩
      exact ⟨hc, (hbest c hc).mpr hb⟩
  reordered ds hperm := by
    have hsame : ∀ c, Wins beats ds c ↔ Wins beats cs c := fun c =>
      ⟨fun hc => ⟨hperm.mem_iff.mp hc.mem, fun b hb => hc.beats b (hperm.mem_iff.mpr hb)⟩,
        fun hc => ⟨hperm.mem_iff.mpr hc.mem, fun b hb => hc.beats b (hperm.mem_iff.mp hb)⟩⟩
    refine Option.ext fun c => ?_
    rw [(h.subset hperm.subset).picked?_eq_some_iff hrule, h.picked?_eq_some_iff hrule, hsame]

end Contest

end Contest

section Rules

variable {cs : List Candidate}

def Ticketed (cs : List Candidate) : Prop := (cs.map (·.ticket)).Nodup

theorem Ticketed.eq (h : Ticketed cs) {a b : Candidate} (ha : a ∈ cs) (hb : b ∈ cs)
    (hab : a.ticket.number = b.ticket.number) : a = b :=
  List.inj_on_of_nodup_map h ha hb (congrArg Ticket.mk hab)

theorem isEarlier_iff {a b : Candidate} : a.isEarlier b ↔ a.ticket.number < b.ticket.number :=
  decide_eq_true_iff

theorem isBetter_iff {a b : Candidate} : a.isBetter b ↔
    b.weight.value.toInt < a.weight.value.toInt ∨
      a.weight.value.toInt = b.weight.value.toInt ∧ a.ticket.number < b.ticket.number := by
  simp [Candidate.isBetter, isEarlier_iff, Weight.lt_iff, Weight.eq_iff]

theorem not_isEarlier_iff {a b : Candidate} :
    (!a.isEarlier b) ↔ b.ticket.number ≤ a.ticket.number := by
  simp [Candidate.isEarlier]

theorem Ticketed.contest_isBetter (h : Ticketed cs) : Contest Candidate.isBetter cs where
  total a ha b hb hne := by
    have hticket : a.ticket.number ≠ b.ticket.number := fun hab => hne (h.eq ha hb hab)
    simp only [isBetter_iff]
    omega
  antisymm a ha b hb := by
    simp only [isBetter_iff]
    omega
  trans a b c := by
    simp only [isBetter_iff]
    omega

theorem Ticketed.contest_isEarlier (h : Ticketed cs) : Contest Candidate.isEarlier cs where
  total a ha b hb hne := by
    simp only [isEarlier_iff]
    exact Nat.lt_or_gt_of_ne fun hab => hne (h.eq ha hb hab)
  antisymm a ha b hb := by
    simp only [isEarlier_iff]
    omega
  trans a b c := by
    simp only [isEarlier_iff]
    exact Nat.lt_trans

theorem Ticketed.contest_latest (h : Ticketed cs) : Contest (fun a b => !a.isEarlier b) cs where
  total a ha b hb hne := by
    simp only [not_isEarlier_iff]
    exact (Nat.le_total a.ticket.number b.ticket.number).symm
  antisymm a ha b hb hab hba := by
    rw [not_isEarlier_iff] at hab hba
    exact h.eq ha hb (Nat.le_antisymm hba hab)
  trans a b c := by
    simp only [not_isEarlier_iff]
    exact fun hab hbc => Nat.le_trans hbc hab

/-- Of candidates with tickets of their own, in whatever order they are listed, the rules choose the
heaviest one, and of several the one with the least ticket; the one with the least ticket; and the
one with the greatest. -/
theorem choices_by_set (h : Ticketed cs) (heaviest : HighestWeight) (first : Fifo) (last : Lifo) :
    Picks heaviest cs (fun c => (∀ b ∈ cs, b.weight ≤ c.weight) ∧
      ∀ b ∈ cs, b.weight = c.weight → c.ticket.number ≤ b.ticket.number) ∧
    Picks first cs (fun c => ∀ b ∈ cs, c.ticket.number ≤ b.ticket.number) ∧
    Picks last cs (fun c => ∀ b ∈ cs, b.ticket.number ≤ c.ticket.number) := by
  refine ⟨h.contest_isBetter.picks (fun _ => rfl) fun c hc => ?heaviest,
    h.contest_isEarlier.picks (fun _ => rfl) fun c hc => ?first,
    h.contest_latest.picks (fun _ => rfl) fun c hc => ?last⟩
  case heaviest =>
    simp only [isBetter_iff, Weight.le_iff, Weight.eq_iff]
    constructor
    · intro hbeats
      refine ⟨fun b hb => ?_, fun b hb hw => ?_⟩
      · obtain rfl | hbetter := hbeats b hb <;> omega
      · obtain rfl | hbetter := hbeats b hb <;> omega
    · rintro ⟨hweight, hticket⟩ b hb
      refine or_iff_not_imp_left.mpr fun hne => ?_
      have hw := hweight b hb
      have ht := hticket b hb
      have hdiffer : b.ticket.number ≠ c.ticket.number := fun he => hne (h.eq hb hc he)
      omega
  case first =>
    refine forall₂_congr fun b hb => ?_
    rw [isEarlier_iff, Nat.le_iff_lt_or_eq, or_comm]
    refine or_congr_right ⟨fun he => he ▸ rfl, fun he => h.eq hb hc he.symm⟩
  case last =>
    refine forall₂_congr fun b hb => ?_
    rw [not_isEarlier_iff]
    exact ⟨fun hle => hle.elim (fun he => he ▸ Nat.le_refl _) id, .inr⟩

/-- Four candidates out of order, of which the two heaviest weigh the same. -/
theorem choices_by_set_shuffled :
    let cs : List Candidate :=
      [⟨⟨2⟩, ⟨-4⟩⟩, ⟨⟨7⟩, .negInfinity⟩, ⟨⟨5⟩, ⟨-1⟩⟩, ⟨⟨3⟩, ⟨-1⟩⟩]
    Ticketed cs ∧ picked? HighestWeight.mk cs.reverse = some ⟨⟨3⟩, ⟨-1⟩⟩ ∧
      picked? Fifo.mk cs.reverse = some ⟨⟨2⟩, ⟨-4⟩⟩ ∧
      picked? Lifo.mk cs.reverse = some ⟨⟨7⟩, .negInfinity⟩ := by
  intro cs
  have hcs : Ticketed cs := by
    unfold Ticketed
    decide
  obtain ⟨heaviest, first, last⟩ := choices_by_set hcs ⟨⟩ ⟨⟩ ⟨⟩
  have hperm : cs.reverse ~ cs := cs.reverse_perm
  refine ⟨hcs, ?_, ?_, ?_⟩
  · rw [heaviest.reordered _ hperm]
    exact (heaviest.picked _).mpr (by decide)
  · rw [first.reordered _ hperm]
    exact (first.picked _).mpr (by decide)
  · rw [last.reordered _ hperm]
    exact (last.picked _).mpr (by decide)

end Rules

end PathExplorer
