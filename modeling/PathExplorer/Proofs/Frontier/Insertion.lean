import PathExplorer.Proofs.Frontier.Ledger
import PathExplorer.Proofs.Frontier.Ready

namespace PathExplorer

variable {ω χ τ : Type}

namespace Frontier

/-- The frontier is open, and what it holds and counts is what some ledger has. -/
structure Filed (f : Frontier ω χ τ) : Prop where
  isOpen : f.closed = false
  ledger : ∃ l, f.Balances l

variable {f : Frontier ω χ τ}

theorem length_candidates (f : Frontier ω χ τ) : f.candidates.length = f.size := List.length_map ..

namespace Filed

theorem start (w : ω) (rule : χ) (stop : τ) : (start w rule stop).Filed :=
  ⟨rfl, _, .start w rule stop⟩

theorem stop (h : f.Filed) (stop : τ) : ({ f with stop } : Frontier ω χ τ).Filed := by
  obtain ⟨hopen, l, hl⟩ := h
  exact ⟨hopen, l, hl.held, hl.next, hl.numbered, hl.closed, hl.shut, hl.stats⟩

theorem asked (h : f.Filed) (hn : f.entries ≠ []) : Asked f.candidates := by
  obtain ⟨-, l, hl⟩ := h
  exact asked_of_ascending hl.ascending hn

end Filed

variable [Weighting ω] [ChoiceRule χ]

theorem choose_of_weightless (hu : ChoiceRule.usesWeights f.choice = false) (hn : f.entries ≠ []) :
    f.choose.1 = .ok ((ChoiceRule.choose f.candidates f.choice).1.filter (· < f.size)) := by
  have hprepare : f.prepare = (none, f) := by rw [prepare, hu]; rfl
  rw [choose_of_not_isEmpty hn, hprepare]

theorem poll_ne_error (hu : ChoiceRule.usesWeights f.choice = false) (fault : Fault) :
    f.poll.1 ≠ .error fault := by
  intro h
  have hchoose : f.choose.1 = .error fault := by
    have hspec := f.poll_spec
    generalize f.poll = r at h hspec
    cases hspec with
    | fault hc =>
      cases h
      rw [hc]
    | nothing => cases h
    | hands => cases h
  by_cases hn : f.entries = []
  · rw [choose_of_isEmpty hn] at hchoose
    cases hchoose
  · rw [choose_of_weightless hu hn] at hchoose
    cases hchoose

namespace Filed

theorem poll (h : f.Filed) : f.poll.2.Filed := by
  obtain ⟨hopen, l, hl⟩ := h
  obtain ⟨m, -, hm⟩ := hl.poll
  exact ⟨f.kept_poll.closed.trans hopen, m, hm⟩

theorem offers (h : f.Filed) (new : List State) : (f.after (new.map .offer)).Filed := by
  obtain ⟨hopen, l, hl⟩ := h
  obtain ⟨-, hstill, -⟩ := after_offers hopen new
  obtain ⟨m, -, hm⟩ := hl.after (new.map .offer)
  exact ⟨hstill, m, hm⟩

end Filed

theorem Filed.chosen?_fifo {f : Frontier ω Fifo τ} (h : f.Filed) (hsize : 0 < f.size) :
    f.chosen? = some 0 := by
  have hn : f.entries ≠ [] := List.length_pos_iff.mp (f.length_entries ▸ hsize)
  have hasked := h.asked hn
  have hchoose := choose_of_weightless (f := f) rfl hn
  have hanswer := lastStanding_isEarlier hasked.ascending hasked.some
  rw [chosen?, hchoose]
  change (lastStanding Candidate.isEarlier f.candidates).filter _ = _
  rw [hanswer, Option.filter_some, if_pos (decide_eq_true hsize)]

theorem Filed.chosen?_lifo {f : Frontier ω Lifo τ} (h : f.Filed) (hsize : 0 < f.size) :
    f.chosen? = some (f.size - 1) := by
  have hn : f.entries ≠ [] := List.length_pos_iff.mp (f.length_entries ▸ hsize)
  have hasked := h.asked hn
  have hchoose := choose_of_weightless (f := f) rfl hn
  have hanswer := lastStanding_latest hasked.ascending hasked.some
  rw [chosen?, hchoose]
  change (lastStanding (fun a b => !a.isEarlier b) f.candidates).filter _ = _
  rw [hanswer, f.length_candidates, Option.filter_some,
    if_pos (decide_eq_true (Nat.sub_lt hsize Nat.zero_lt_one))]

end Frontier

end PathExplorer
