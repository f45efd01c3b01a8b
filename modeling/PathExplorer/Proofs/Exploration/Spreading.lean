import PathExplorer.Proofs.Exploration.Round
import PathExplorer.Proofs.Exploration.Unfolding

namespace PathExplorer

open scoped List

namespace Session

variable {ω χ τ : Type}

/-- All states are those of the turns and what comes of the held ones. -/
structure Spreads (v : View) (all : List State) (ts : List Turn)
    (s : Session (Frontier ω χ τ) Walker) : Prop where
  interpreter : s.interpreter = ⟨v⟩
  isOpen : s.frontier.closed = false
  outcome : ∀ t ∈ ts, t.outcome = v.successors t.state
  left : ∃ left, v.Unfolds s.frontier.states left ∧ all ~ ts.map (·.state) ++ left

variable [StopRule τ] [Weighting ω] [ChoiceRule χ] {v : View} {all : List State} {ts : List Turn}
  {t : Turn} {s next final : Session (Frontier ω χ τ) Walker} {ending : Option Ending} {n : Nat}

theorem Spreads.take (hs : s.Spreads v all ts) (h : s.Round (some t) ending next) :
    next.Spreads v all (ts ++ [t]) ∧ ending = none := by
  obtain ⟨hpoll, hstep, ht⟩ := h.takes
  have houtcome : t.outcome = v.successors t.state := by
    rw [hstep, hs.interpreter]
    rfl
  obtain ⟨left, hleft, hall⟩ := hs.left
  obtain ⟨l₁, l₂, hl, hrest⟩ := Frontier.poll_states hpoll
  rw [hl] at hleft
  obtain ⟨new, left', hnew, hleft', hperm⟩ := hleft.take
  have hoffered : t.offered = new := by rw [Turn.offered, houtcome, hnew]
  obtain ⟨hstates, hopen, -⟩ := ht.stock hs.isOpen
  refine ⟨⟨?interpreter, hopen, ?outcome, left', ?left, ?all⟩, ?ending⟩
  case interpreter =>
    rw [ht.interpreter, hs.interpreter]
    rfl
  case outcome => exact List.forall_mem_append.mpr ⟨hs.outcome, by simpa using houtcome⟩
  case left =>
    rw [hstates, hrest, hoffered]
    exact hleft'
  case all =>
    calc all
      _ ~ ts.map (·.state) ++ left := hall
      _ ~ ts.map (·.state) ++ t.state :: left' := hperm.append_left _
      _ = (ts ++ [t]).map (·.state) ++ left' := by simp
  case ending =>
    cases h with
    | take _ _ _ _ => rw [Turn.ending, houtcome, hnew]

theorem Spreads.round {t? : Option Turn} (hs : s.Spreads v all ts) (h : s.Round t? ending next) :
    next.Spreads v all (ts ++ t?.toList) := by
  cases t? with
  | none =>
    obtain ⟨frontier, rfl, hkept, hentries⟩ := h.idle_kept
    obtain ⟨left, hleft, hall⟩ := hs.left
    have hstates : frontier.states = s.frontier.states := by
      rw [Frontier.states, hentries, Frontier.states]
    rw [Option.toList_none, List.append_nil]
    exact ⟨hs.interpreter, hkept.closed.trans hs.isOpen, hs.outcome, left, hstates ▸ hleft, hall⟩
  | some t => exact (hs.take h).1

theorem Spreads.runs (hs : s.Spreads v all []) (h : Runs n s ts ending final) :
    final.Spreads v all ts :=
  h.keeps (I := Spreads v all) Spreads.round [] hs

theorem spreads_offerAll (hi : s.interpreter = ⟨v⟩) (hc : s.frontier.closed = false)
    (hn : s.frontier.entries = []) {initial : List State} (hu : v.Unfolds initial all) :
    (s.offerAll initial).Spreads v all [] := by
  obtain ⟨hstates, hopen, -⟩ := Frontier.after_offers hc initial
  rw [Frontier.states_eq_nil_iff.mpr hn, List.nil_append] at hstates
  rw [offerAll_after]
  exact ⟨hi, hopen, by simp, all, hstates.symm ▸ hu, .refl _⟩

end Session

end PathExplorer
