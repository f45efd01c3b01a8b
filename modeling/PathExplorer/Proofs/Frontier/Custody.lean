import PathExplorer.Frontier.Standard
import PathExplorer.Proofs.Frontier.Ledger

namespace PathExplorer

open scoped List

variable {ω χ τ : Type}

def resources (states : List State) : List Resource := states.flatMap State.toRelease

/-- A frontier with the states that were polled from it, which the caller keeps until it drops
them. -/
structure Custody (ω χ τ : Type) where
  frontier : Frontier ω χ τ
  kept : List State := []
  dropped : List State := []

inductive Deed where
  | operate (op : Operation)
  | drop (place : Nat)

def Deed.operations : Deed → List Operation
  | .operate op => [op]
  | .drop _ => []

def Deed.offered (deed : Deed) : List State := deed.operations.flatMap Operation.offered

def Frontier.hands [Weighting ω] [ChoiceRule χ] (f : Frontier ω χ τ) : Operation → List State
  | .poll => handed f.poll.1
  | _ => []

/-- The states that were held and came in are held, or went out, or were let go and their resources
released. -/
def Frontier.Accounts (f g : Frontier ω χ τ) (ins outs : List State) : Prop :=
  ∃ gone, g.states ++ outs ++ gone ~ f.states ++ ins ∧ g.released ~ resources gone ++ f.released

namespace Custody

variable (c : Custody ω χ τ)

def released : List Resource := resources c.dropped ++ c.frontier.released

def leave : Custody ω χ τ where
  frontier := c.frontier.close
  dropped := c.kept.reverse ++ c.dropped

section Deeds

variable [Weighting ω] [ChoiceRule χ]

def act : Deed → Custody ω χ τ
  | .operate op => { c with
      frontier := c.frontier.act op
      kept := c.kept ++ c.frontier.hands op }
  | .drop place => { c with
      kept := c.kept.eraseIdx place
      dropped := c.kept[place]?.toList ++ c.dropped }

def after (deeds : List Deed) : Custody ω χ τ := deeds.foldl (fun c deed => c.act deed) c

end Deeds

end Custody

section Resources

@[simp] theorem resources_append (a b : List State) :
    resources (a ++ b) = resources a ++ resources b := List.flatMap_append

theorem resources_perm {a b : List State} (h : a ~ b) : resources a ~ resources b :=
  h.flatMap_right _

theorem length_resources {states : List State}
    (h : ∀ s ∈ states, ∃ r, s.resource = some r) : (resources states).length = states.length := by
  induction states with
  | nil => rfl
  | cons s states ih =>
    obtain ⟨⟨r, hr⟩, hs⟩ := List.forall_mem_cons.mp h
    have hone : s.toRelease.length = 1 := by simp [State.toRelease, hr]
    rw [resources, List.flatMap_cons, List.length_append, hone, List.length_cons, Nat.add_comm]
    exact congrArg (· + 1) (ih hs)

end Resources

namespace Frontier

variable {f g : Frontier ω χ τ} {ins outs : List State}

theorem Accounts.of_kept (hk : f.Kept g) (hs : g.states ++ outs ~ f.states) :
    f.Accounts g [] outs := by
  refine ⟨[], ?_, ?_⟩
  · rwa [List.append_nil, List.append_nil]
  · rw [hk.released]
    exact .refl _

theorem offer_accounts (s : State) : f.Accounts (f.offer s).2 [s] [] := by
  by_cases hc : f.closed
  · rw [offer_of_closed hc]
    refine ⟨[s], ?_, ?_⟩
    · rw [List.append_nil]
      exact .refl _
    · simp [resources]
  · have hopen : f.closed = false := by simpa using hc
    refine ⟨[], ?_, ?_⟩
    · rw [states_offer hopen, List.append_nil, List.append_nil]
    · rw [offer_of_open hopen]
      exact .refl _

theorem remove_accounts (t : Ticket) : f.Accounts (f.remove t).2 [] [] := by
  obtain ⟨-, hf⟩ | ⟨l₁, x, l₂, hheld, -, hf⟩ := f.remove_cases t
  · rw [hf]
    exact .of_kept (.refl f) (by rw [List.append_nil])
  · refine ⟨[x.state], ?_, ?_⟩
    · rw [hf, states_eq, states_eq, hheld]
      simp only [List.map_append, List.map_cons, List.append_nil, List.append_assoc]
      exact (List.perm_append_singleton ..).append_left _
    · simp [hf, resources]

theorem close_accounts : f.Accounts f.close [] [] := by
  by_cases hc : f.closed
  · rw [close, if_pos hc]
    exact .of_kept (.refl f) (by rw [List.append_nil])
  · obtain ⟨-, hheld, hreleased⟩ := close_of_open (f := f) (by simpa using hc)
    refine ⟨f.states, ?_, ?_⟩
    · rw [states_eq, hheld]
      simp
    · rw [hreleased]
      exact (List.reverse_perm _).append_right _

theorem polled_close (f : Frontier ω χ τ) : f.close.stats.polled = f.stats.polled := by
  by_cases hc : f.closed <;> simp [close, hc]

variable [Weighting ω] [ChoiceRule χ]

theorem act_accounts (op : Operation) : f.Accounts (f.act op) op.offered (f.hands op) := by
  have hsame : ∀ g : Frontier ω χ τ, f.Kept g → g.entries = f.entries → f.Accounts g [] [] := by
    intro g hk he
    exact .of_kept hk (by rw [states, he, states, List.append_nil])
  cases op with
  | offer s => exact offer_accounts s
  | poll => exact .of_kept f.kept_poll f.poll_hands
  | peek => exact hsame _ f.kept_choose.1 f.kept_choose.2.1
  | remove t => exact remove_accounts t
  | weightOf t => exact hsame _ (f.kept_weightOf t) (f.weightOf_entries t)
  | close => exact close_accounts

theorem polled_act (op : Operation) :
    (f.act op).stats.polled = f.stats.polled + (f.hands op).length := by
  cases op with
  | offer s => by_cases hc : f.closed <;> simp [act, hands, offer, hc]
  | poll =>
    obtain ⟨n, hn⟩ := f.stats_poll
    exact congrArg FrontierStats.polled hn
  | peek =>
    obtain ⟨n, hn⟩ := f.stats_choose
    exact (congrArg FrontierStats.polled hn :)
  | remove t =>
    obtain ⟨-, hf⟩ | ⟨_, _, _, -, -, hf⟩ := f.remove_cases t <;> simp [act, hands, hf]
  | weightOf t =>
    obtain ⟨n, hn⟩ := f.stats_weightOf t
    exact (congrArg FrontierStats.polled hn :)
  | close => exact f.polled_close

end Frontier

namespace Custody

/-- Every state that came in is with the frontier, with the caller, or gone from one of them, and
the resources of those gone from the frontier are released. -/
structure Whole (offered gone : List State) (c : Custody ω χ τ) : Prop where
  states : c.frontier.states ++ c.kept ++ c.dropped ++ gone ~ offered
  released : c.frontier.released ~ resources gone
  polled : c.frontier.stats.polled = c.kept.length + c.dropped.length

variable {c : Custody ω χ τ} {offered gone : List State}

theorem eraseIdx_perm (states : List State) (place : Nat) :
    states.eraseIdx place ++ states[place]?.toList ~ states := by
  by_cases hp : place < states.length
  · rw [List.getElem?_eq_getElem hp]
    exact List.perm_append_comm.trans (List.getElem_cons_eraseIdx_perm hp)
  · rw [List.getElem?_eq_none (by omega), List.eraseIdx_of_length_le (by omega)]
    simp

variable [Weighting ω] [ChoiceRule χ]

theorem Whole.operate (h : c.Whole offered gone) (op : Operation) :
    ∃ gone, (c.act (.operate op)).Whole (offered ++ op.offered) gone := by
  obtain ⟨more, hstates, hreleased⟩ := c.frontier.act_accounts op
  refine ⟨more ++ gone, ?states, ?released, ?polled⟩
  case states =>
    have hall := h.states
    rw [List.perm_iff_count] at hall hstates ⊢
    intro s
    have hall := hall s
    have hstates := hstates s
    simp only [act, List.count_append] at *
    omega
  case released =>
    rw [resources_append]
    exact hreleased.trans (h.released.append_left _)
  case polled =>
    change (c.frontier.act op).stats.polled =
      (c.kept ++ c.frontier.hands op).length + c.dropped.length
    rw [c.frontier.polled_act, h.polled, List.length_append]
    omega

theorem Whole.drop (h : c.Whole offered gone) (place : Nat) :
    (c.act (.drop place)).Whole offered gone := by
  have hdrop := eraseIdx_perm c.kept place
  refine ⟨?states, h.released, ?polled⟩
  case states =>
    have hall := h.states
    rw [List.perm_iff_count] at hall hdrop ⊢
    intro s
    have hall := hall s
    have hdrop := hdrop s
    simp only [act, List.count_append] at *
    omega
  case polled =>
    have hlength := hdrop.length_eq
    change c.frontier.stats.polled = (c.kept.eraseIdx place).length +
      (c.kept[place]?.toList ++ c.dropped).length
    rw [List.length_append] at hlength ⊢
    rw [h.polled]
    omega

theorem Whole.after (h : c.Whole offered gone) (deeds : List Deed) :
    ∃ gone, (c.after deeds).Whole (offered ++ deeds.flatMap Deed.offered) gone := by
  induction deeds generalizing c offered gone with
  | nil => exact ⟨gone, (List.append_nil offered).symm ▸ h⟩
  | cons deed deeds ih =>
    rw [List.flatMap_cons, ← List.append_assoc]
    cases deed with
    | operate op =>
      obtain ⟨gone, hop⟩ := h.operate op
      have hoffered : Deed.offered (.operate op) = op.offered := List.flatMap_singleton ..
      rw [hoffered]
      exact ih hop
    | drop place =>
      have hoffered : Deed.offered (.drop place) = [] := rfl
      rw [hoffered, List.append_nil]
      exact ih (h.drop place)

theorem frontier_after (c : Custody ω χ τ) (deeds : List Deed) :
    (c.after deeds).frontier = c.frontier.after (deeds.flatMap Deed.operations) := by
  induction deeds generalizing c with
  | nil => rfl
  | cons deed deeds ih =>
    change ((c.act deed).after deeds).frontier = _
    rw [ih]
    cases deed <;> rfl

omit [Weighting ω] [ChoiceRule χ] in
theorem Whole.releases (h : c.Whole offered gone) :
    c.released ~ resources (c.dropped ++ gone) := by
  rw [Custody.released, resources_append]
  exact h.released.append_left _

omit [Weighting ω] [ChoiceRule χ] in
theorem Whole.leave (h : c.Whole offered gone) : ∃ gone, c.leave.Whole offered gone := by
  obtain ⟨more, hstates, hreleased⟩ := c.frontier.close_accounts
  refine ⟨more ++ gone, ?states, ?released, ?polled⟩
  case states =>
    have hall := h.states
    have hkept := c.kept.reverse_perm
    rw [List.perm_iff_count] at hall hkept hstates ⊢
    intro s
    have hall := hall s
    have hkept := hkept s
    have hstates := hstates s
    simp only [Custody.leave, List.count_append, List.count_nil] at *
    omega
  case released =>
    rw [resources_append]
    exact hreleased.trans (h.released.append_left _)
  case polled =>
    change c.frontier.close.stats.polled = 0 + (c.kept.reverse ++ c.dropped).length
    rw [c.frontier.polled_close, h.polled, List.length_append, List.length_reverse, Nat.zero_add]

/-- At every moment as many resources have been released as states were removed, closed away, late
or dropped by the caller, none of them twice, and when all is dropped each was released once. -/
theorem released_once (w : ω) (rule : χ) (stop : τ) (deeds : List Deed)
    (hone : ∀ s ∈ deeds.flatMap Deed.offered, ∃ r, s.resource = some r)
    (hdistinct : (resources (deeds.flatMap Deed.offered)).Nodup) :
    let c := (Custody.mk (.start w rule stop) [] []).after deeds
    c.released.length = c.frontier.stats.removed + c.frontier.stats.releasedOnClose +
        offersAfterClose (deeds.flatMap Deed.operations) + c.dropped.length ∧
      c.released.Nodup ∧ c.leave.released ~ resources (deeds.flatMap Deed.offered) := by
  intro c
  have hstart : (Custody.mk (.start w rule stop) [] [] : Custody ω χ τ).Whole [] [] :=
    ⟨.refl _, .refl _, rfl⟩
  obtain ⟨gone, h⟩ : ∃ gone, c.Whole (deeds.flatMap Deed.offered) gone := hstart.after deeds
  have hfrontier : c.frontier = (Frontier.start w rule stop).after
      (deeds.flatMap Deed.operations) := frontier_after ..
  obtain ⟨l, -, hbalances, hstates, hconserved⟩ :=
    Frontier.exists_ledger w rule stop (deeds.flatMap Deed.operations)
  rw [← hfrontier] at hbalances hconserved
  have hreleased := h.releases
  have hall := h.states
  rw [List.append_assoc] at hall
  refine ⟨?length, ?nodup, ?leave⟩
  case length =>
    have hgone : c.dropped ++ gone ⊆ deeds.flatMap Deed.offered :=
      List.Subset.trans (List.subset_append_right ..) hall.subset
    have hone : (resources (c.dropped ++ gone)).length = (c.dropped ++ gone).length :=
      length_resources fun s hs => hone s (hgone hs)
    have hoffered : c.frontier.stats.offered = (deeds.flatMap Deed.offered).length := by
      have hops : deeds.flatMap Deed.offered = (deeds.flatMap Deed.operations).flatMap
        Operation.offered := List.flatMap_assoc.symm
      rw [hbalances.stats, hops, ← hstates, List.length_map]
    have hsize : c.frontier.states.length = c.frontier.size := by
      rw [Frontier.states_eq, List.length_map, Frontier.size]
    have hlength := hall.length_eq
    have hpolled := h.polled
    rw [hreleased.length_eq, hone]
    simp only [List.length_append] at hlength ⊢
    omega
  case nodup =>
    have hresources := (resources_perm hall).nodup_iff.mpr hdistinct
    rw [resources_append] at hresources
    exact hreleased.nodup_iff.mpr (List.nodup_append.mp hresources).2.1
  case leave =>
    obtain ⟨gone, hleave⟩ := h.leave
    have hnone : c.leave.frontier.states = [] := by
      have hentries := hbalances.close.held
      rw [held_close] at hentries
      exact Frontier.states_eq_nil_iff.mpr hentries
    have hstates := hleave.states
    rw [hnone] at hstates
    exact hleave.releases.trans (resources_perm hstates)

/-- Of five states the first is polled and dropped, the second removed and the third polled and
kept.  The fourth is held when the frontier is closed, the fifth comes after that. -/
def fiveStates : List Deed :=
  let offer (n : Nat) : Deed := .operate (.offer ((State.root ⟨⟨0⟩, 0⟩).attach ⟨n⟩))
  [offer 1, offer 2, offer 3, offer 4, .operate .poll, .operate (.remove ⟨1⟩), .operate .peek,
    .drop 0, .operate .poll, .operate .close, .operate .close, offer 5, .operate .poll, .drop 1]

theorem released_once_fiveStates :
    let c := (Custody.mk FifoFrontier.new [] []).after fiveStates
    c.released = [⟨1⟩, ⟨5⟩, ⟨4⟩, ⟨2⟩] ∧ resources c.kept = [⟨3⟩] ∧
      c.leave.released ~ [⟨1⟩, ⟨2⟩, ⟨3⟩, ⟨4⟩, ⟨5⟩] := by
  intro c
  have hone : ∀ s ∈ fiveStates.flatMap Deed.offered, ∃ r, s.resource = some r := by
    simp [fiveStates, Deed.offered, Deed.operations, Operation.offered, State.attach]
  have hdistinct : (resources (fiveStates.flatMap Deed.offered)).Nodup := by decide
  exact ⟨rfl, rfl, (released_once Uniform.mk Fifo.mk NeverStop.mk fiveStates hone hdistinct).2.2⟩

end Custody

end PathExplorer
