import PathExplorer.Proofs.Frontier.Sound

namespace PathExplorer

variable {ω χ τ : Type}

def handed : Except Fault (Option State) → List State
  | .ok (some s) => [s]
  | _ => []

theorem handed_eq_nil {result : Except Fault (Option State)}
    (h : ∀ s, result ≠ .ok (some s)) : handed result = [] := by
  rcases result with _ | _ | s
  · rfl
  · rfl
  · exact absurd rfl (h s)

namespace Frontier

def states (f : Frontier ω χ τ) : List State := f.entries.map (·.2)

/-- The position among the held states of the one that a poll hands over. -/
def chosen? [Weighting ω] [ChoiceRule χ] (f : Frontier ω χ τ) : Option Nat :=
  match f.choose.1 with
  | .ok position => position
  | .error _ => none

structure Kept (f g : Frontier ω χ τ) : Prop where
  next : g.next = f.next
  closed : g.closed = f.closed
  stop : g.stop = f.stop
  released : g.released = f.released

inductive Polls [Weighting ω] [ChoiceRule χ] (f : Frontier ω χ τ) :
    Except Fault (Option State) × Frontier ω χ τ → Prop
  | fault {fault : Fault} {g : Frontier ω χ τ} : f.choose = (.error fault, g) →
      Polls f (.error fault, g)
  | nothing {g : Frontier ω χ τ} : f.choose = (.ok none, g) → Polls f (.ok none, g)
  | hands {g : Frontier ω χ τ} {before after : List Held} {x : Held} :
      f.choose = (.ok (some before.length), g) → g.held = before ++ x :: after →
      Polls f (.ok (some x.state), { g with
        held := before ++ after
        stats.polled := g.stats.polled + 1 })

variable {f g : Frontier ω χ τ}

theorem Kept.refl (f : Frontier ω χ τ) : f.Kept f := ⟨rfl, rfl, rfl, rfl⟩

theorem states_eq (f : Frontier ω χ τ) : f.states = f.held.map (·.state) := by
  rw [states, entries, List.map_map]
  rfl

theorem states_eq_nil_iff : f.states = [] ↔ f.entries = [] := List.map_eq_nil_iff

theorem offer_of_open (hc : f.closed = false) (s : State) : (f.offer s).2 = { f with
    next := f.next + 1
    stats.offered := f.stats.offered + 1
    held := f.held ++ [{ ticket := ⟨f.next⟩, state := s }] } := by
  simp [offer, hc]

theorem offer_of_closed (hc : f.closed) (s : State) : (f.offer s).2 = { f with
    next := f.next + 1
    stats.offered := f.stats.offered + 1
    released := s.toRelease ++ f.released } := by
  simp [offer, hc]

theorem states_offer (hc : f.closed = false) (s : State) :
    (f.offer s).2.states = f.states ++ [s] := by
  simp [offer_of_open hc, states, entries, Held.entry]

theorem close_of_open (hc : f.closed = false) :
    f.close.closed = true ∧ f.close.held = [] ∧
      f.close.released = (f.states.flatMap State.toRelease).reverse ++ f.released := by
  have hs : f.states.flatMap State.toRelease = f.held.flatMap (·.state.toRelease) := by
    rw [states_eq, List.flatMap_map]
  rw [hs, close, hc]
  exact ⟨rfl, rfl, rfl⟩

theorem remove_cases (f : Frontier ω χ τ) (t : Ticket) :
    (t ∉ f.tickets ∧ f.remove t = (false, f)) ∨
      ∃ l₁ x l₂, f.held = l₁ ++ x :: l₂ ∧ x.ticket = t ∧ f.remove t = (true, { f with
        held := l₁ ++ l₂
        stats.removed := f.stats.removed + 1
        released := x.state.toRelease ++ f.released }) := by
  unfold remove
  cases hf : f.find? t with
  | none => exact .inl ⟨fun ht => mem_tickets_iff.mp ht hf, rfl⟩
  | some x =>
    obtain ⟨hx, l₁, l₂, hheld, hbefore⟩ := List.find?_eq_some_iff_append.mp hf
    have hxt : x.ticket = t := of_decide_eq_true hx
    have herase : f.held.eraseP (·.ticket = t) = l₁ ++ l₂ := by
      rw [hheld, List.eraseP_append_right _ (by simpa using hbefore),
        List.eraseP_cons_of_pos (p := fun e : Held => decide (e.ticket = t)) hx]
    exact .inr ⟨l₁, x, l₂, hheld, hxt, by rw [herase]⟩

variable [Weighting ω]

theorem kept_weightOf (f : Frontier ω χ τ) (t : Ticket) : f.Kept (f.weightOf t).2 := by
  have h := f.weightOf_spec t
  generalize f.weightOf t = r at h ⊢
  cases h <;> exact ⟨rfl, rfl, rfl, rfl⟩

theorem stats_weightOf (f : Frontier ω χ τ) (t : Ticket) :
    ∃ n, (f.weightOf t).2.stats = { f.stats with weighted := n } := by
  have h := f.weightOf_spec t
  generalize f.weightOf t = r at h ⊢
  cases h <;> exact ⟨_, rfl⟩

theorem weightOf_ne_iff (f : Frontier ω χ τ) (t : Ticket) :
    (f.weightOf t).1 ≠ .ok none ↔ t ∈ f.tickets := by
  have h := f.weightOf_spec t
  generalize f.weightOf t = r at h ⊢
  cases h with
  | missing ht => simp [ht]
  | known hx hxt | fault hx hxt | weighed hx hxt =>
    have ht : t ∈ f.tickets := hxt ▸ List.mem_map_of_mem hx
    simp [ht]

theorem weighAll_entries (held : List Held) (w : ω) :
    (weighAll held w).held.map Held.entry = held.map Held.entry := by
  induction held generalizing w with
  | nil => rfl
  | cons h held ih =>
    unfold weighAll
    split
    · exact congrArg (h.entry :: ·) (ih w)
    · split
      · rfl
      · exact congrArg (h.entry :: ·) (ih _)

variable [ChoiceRule χ]

theorem kept_prepare (f : Frontier ω χ τ) :
    f.Kept f.prepare.2 ∧ f.prepare.2.entries = f.entries := by
  unfold prepare
  split
  · exact ⟨⟨rfl, rfl, rfl, rfl⟩, weighAll_entries ..⟩
  · exact ⟨.refl f, rfl⟩

theorem kept_choose (f : Frontier ω χ τ) :
    f.Kept f.choose.2 ∧ f.choose.2.entries = f.entries ∧
      ∀ i, f.choose.1 = .ok (some i) → i < f.entries.length := by
  by_cases hn : f.entries = []
  · rw [choose_of_isEmpty hn]
    exact ⟨.refl f, rfl, fun i hi => nomatch hi⟩
  · obtain ⟨hk, he⟩ := f.kept_prepare
    rw [choose_of_not_isEmpty hn]
    cases hp : f.prepare with
    | mk fault g =>
      rw [hp] at hk he
      cases fault with
      | some fault => exact ⟨hk, he, fun i hi => nomatch hi⟩
      | none =>
        refine ⟨⟨hk.next, hk.closed, hk.stop, hk.released⟩, he, fun i hi => ?_⟩
        simp only [Except.ok.injEq, Option.filter_eq_some_iff, decide_eq_true_eq] at hi
        rw [← he, length_entries]
        exact hi.2

theorem poll_spec (f : Frontier ω χ τ) : f.Polls f.poll := by
  obtain ⟨-, he, hlt⟩ := f.kept_choose
  unfold poll
  cases hc : f.choose with
  | mk result g =>
    rw [hc] at he hlt
    rcases result with fault | _ | i
    · exact .fault hc
    · exact .nothing hc
    · have hlength : g.held.length = f.entries.length := by
        rw [← he, length_entries]
        rfl
      have hi : i < g.held.length := hlength ▸ hlt i rfl
      have hbefore : (g.held.take i).length = i := List.length_take_of_le (Nat.le_of_lt hi)
      have hheld : g.held = g.held.take i ++ g.held[i] :: g.held.drop (i + 1) := by
        rw [List.getElem_cons_drop, List.take_append_drop]
      dsimp only
      rw [List.getElem?_eq_getElem hi, List.eraseIdx_eq_take_drop_succ]
      exact .hands (by rw [hc, hbefore]) hheld

theorem kept_poll (f : Frontier ω χ τ) : f.Kept f.poll.2 := by
  obtain ⟨hk, -⟩ := f.kept_choose
  have h := f.poll_spec
  generalize f.poll = r at h ⊢
  cases h with
  | fault hc | nothing hc =>
    rw [hc] at hk
    exact hk
  | hands hc =>
    rw [hc] at hk
    exact ⟨hk.next, hk.closed, hk.stop, hk.released⟩

theorem stats_choose (f : Frontier ω χ τ) :
    ∃ n, f.choose.2.stats = { f.stats with weighted := n } := by
  have hp : ∃ n, f.prepare.2.stats = { f.stats with weighted := n } := by
    unfold prepare
    split
    · exact ⟨_, rfl⟩
    · exact ⟨_, rfl⟩
  by_cases hn : f.entries = []
  · rw [choose_of_isEmpty hn]
    exact ⟨_, rfl⟩
  · rw [choose_of_not_isEmpty hn]
    cases hc : f.prepare with
    | mk fault g =>
      rw [hc] at hp
      cases fault with
      | some fault => exact hp
      | none => exact hp

theorem stats_poll (f : Frontier ω χ τ) : ∃ n, f.poll.2.stats = { f.stats with
    weighted := n
    polled := f.stats.polled + (handed f.poll.1).length } := by
  obtain ⟨n, hn⟩ := f.stats_choose
  have h := f.poll_spec
  generalize f.poll = r at h ⊢
  cases h with
  | fault hc | nothing hc =>
    rw [hc] at hn
    exact ⟨n, hn⟩
  | hands hc =>
    rw [hc] at hn
    dsimp only at hn
    refine ⟨n, ?_⟩
    rw [hn]
    rfl

theorem poll_of_isEmpty (h : f.entries = []) : f.poll = (.ok none, f) := by
  rw [poll, choose_of_isEmpty h]

/-- A poll takes out the state that it hands over, and nothing else. -/
theorem poll_cases (f : Frontier ω χ τ) :
    ((∀ s, f.poll.1 ≠ .ok (some s)) ∧ f.poll.2.entries = f.entries) ∨
      ∃ l₁ e l₂, f.entries = l₁ ++ e :: l₂ ∧ f.poll.1 = .ok (some e.2) ∧
        f.poll.2.entries = l₁ ++ l₂ := by
  obtain ⟨-, he, -⟩ := f.kept_choose
  have h := f.poll_spec
  generalize f.poll = r at h ⊢
  cases h with
  | fault hc | nothing hc =>
    rw [hc] at he
    exact .inl ⟨fun s hs => (nomatch hs), he⟩
  | @hands g before after x hc hheld =>
    rw [hc] at he
    refine .inr ⟨before.map Held.entry, x.entry, after.map Held.entry, ?_, rfl, List.map_append⟩
    rw [← he, entries, hheld, List.map_append, List.map_cons]

/-- The state at the chosen position is handed over, and the others stay. -/
theorem poll_chosen {s : State} (h : f.poll.1 = .ok (some s)) :
    ∃ l₁ l₂, f.states = l₁ ++ s :: l₂ ∧ f.chosen? = some l₁.length ∧
      f.poll.2.states = l₁ ++ l₂ := by
  obtain ⟨-, he, -⟩ := f.kept_choose
  have hspec := f.poll_spec
  generalize f.poll = r at h hspec
  cases hspec with
  | fault => cases h
  | nothing => cases h
  | @hands g before after x hc hheld =>
    cases h
    rw [hc] at he
    have hstates : f.states = g.states := congrArg (List.map Prod.snd) he.symm
    refine ⟨before.map (·.state), after.map (·.state), ?_, ?_, ?_⟩
    · rw [hstates, states_eq, hheld, List.map_append, List.map_cons]
    · rw [chosen?, hc, List.length_map]
    · rw [states_eq, List.map_append]

theorem poll_states {s : State} (h : f.poll.1 = .ok (some s)) :
    ∃ l₁ l₂, f.states = l₁ ++ s :: l₂ ∧ f.poll.2.states = l₁ ++ l₂ := by
  obtain ⟨l₁, l₂, hstates, -, hrest⟩ := poll_chosen h
  exact ⟨l₁, l₂, hstates, hrest⟩

theorem poll_perm {s : State} (h : f.poll.1 = .ok (some s)) :
    f.states.Perm (s :: f.poll.2.states) := by
  obtain ⟨l₁, l₂, hl, hrest⟩ := poll_states h
  rw [hl, hrest]
  exact List.perm_middle

theorem poll_hands (f : Frontier ω χ τ) : (f.poll.2.states ++ handed f.poll.1).Perm f.states := by
  obtain ⟨hn, he⟩ | ⟨l₁, e, l₂, he, hpoll, hafter⟩ := f.poll_cases
  · rw [handed_eq_nil hn, List.append_nil, states, he, states]
  · rw [states, states, he, hafter, hpoll, List.map_append, List.map_append, List.map_cons,
      List.append_assoc]
    exact (List.perm_append_singleton ..).append_left _

theorem after_offers (hc : f.closed = false) (new : List State) :
    (f.after (new.map .offer)).states = f.states ++ new ∧
      (f.after (new.map .offer)).closed = false ∧
      (f.after (new.map .offer)).released = f.released := by
  induction new generalizing f with
  | nil => exact ⟨(List.append_nil _).symm, hc, rfl⟩
  | cons s new ih =>
    have ho := offer_of_open hc s
    obtain ⟨hs, hopen, hr⟩ := ih (f := (f.offer s).2) (by rw [ho]; exact hc)
    refine ⟨?_, hopen, hr.trans (by rw [ho])⟩
    rw [states_offer hc, List.append_assoc] at hs
    exact hs

theorem after_offers_stop (f : Frontier ω χ τ) (new : List State) :
    (f.after (new.map .offer)).stop = f.stop := by
  induction new generalizing f with
  | nil => rfl
  | cons s new ih =>
    have hoffer : (f.offer s).2.stop = f.stop := by
      unfold offer
      split
      · rfl
      · rfl
    exact (ih (f.offer s).2).trans hoffer

theorem after_offers_stats (f : Frontier ω χ τ) (new : List State) :
    (f.after (new.map .offer)).stats =
      { f.stats with offered := f.stats.offered + new.length } := by
  induction new generalizing f with
  | nil => rfl
  | cons s new ih =>
    have hoffer : (f.offer s).2.stats = { f.stats with offered := f.stats.offered + 1 } := by
      unfold offer
      split
      · rfl
      · rfl
    refine (ih (f.offer s).2).trans ?_
    rw [hoffer, List.length_cons, Nat.add_comm new.length, ← Nat.add_assoc]

end Frontier

end PathExplorer
