import PathExplorer.Proofs.Frontier.Logged
import PathExplorer.Proofs.Frontier.Lookup

namespace PathExplorer

open scoped List

variable {ω χ τ : Type}

inductive Answer where
  | ticket (t : Ticket)
  | state (result : Except Fault (Option State))
  | removed (wasHeld : Bool)
  | weight (result : Except Fault (Option Weight))
  | closed

inductive Fate where
  | held
  | polled
  | removed
  | released
  | late
deriving DecidableEq

structure Entry where
  ticket : Ticket
  state : State
  fate : Fate

def Entry.close (e : Entry) : Entry := if e.fate = .held then { e with fate := .released } else e

structure Ledger where
  entries : List Entry := []
  closed : Bool := false

def waiting (es : List Entry) : List (Ticket × State) :=
  (es.filter (·.fate = .held)).map fun e => (e.ticket, e.state)

namespace Ledger

variable (l : Ledger)

def held : List (Ticket × State) := waiting l.entries

def count (fate : Fate) : Nat := l.entries.countP (·.fate = fate)

def offer (s : State) : Ledger :=
  { l with entries := l.entries ++ [⟨⟨l.entries.length⟩, s, if l.closed then .late else .held⟩] }

def close : Ledger where
  entries := l.entries.map Entry.close
  closed := true

inductive Leaves : Ledger → Fate → Ticket → State → Ledger → Prop
  | mk (before after : List Entry) (closed : Bool) {fate : Fate} {t : Ticket} {s : State} :
      Leaves ⟨before ++ ⟨t, s, .held⟩ :: after, closed⟩ fate t s
        ⟨before ++ ⟨t, s, fate⟩ :: after, closed⟩

/-- What may be answered to an operation, and what has become of the states then. -/
inductive Step (l : Ledger) : Operation → Answer → Ledger → Prop
  | offer (s : State) : Step l (.offer s) (.ticket ⟨l.entries.length⟩) (l.offer s)
  | poll {t : Ticket} {s : State} {m : Ledger} : Leaves l .polled t s m →
      Step l .poll (.state (.ok (some s))) m
  | pollNothing {result : Except Fault (Option State)} : (∀ s, result ≠ .ok (some s)) →
      Step l .poll (.state result) l
  | peek {result : Except Fault (Option State)} :
      (∀ s, result = .ok (some s) → s ∈ l.held.map (·.2)) → Step l .peek (.state result) l
  | remove {t : Ticket} {s : State} {m : Ledger} : Leaves l .removed t s m →
      Step l (.remove t) (.removed true) m
  | removeNothing {t : Ticket} : t ∉ l.held.map (·.1) → Step l (.remove t) (.removed false) l
  | weightOf {t : Ticket} {result : Except Fault (Option Weight)} :
      (result ≠ .ok none ↔ t ∈ l.held.map (·.1)) → Step l (.weightOf t) (.weight result) l
  | close : Step l .close .closed l.close

inductive Run : Ledger → List Operation → List Answer → Ledger → Prop
  | nil (l : Ledger) : Run l [] [] l
  | cons {l m n : Ledger} {op : Operation} {a : Answer} {ops : List Operation}
      {as : List Answer} : Step l op a m → Run m ops as n → Run l (op :: ops) (a :: as) n

end Ledger

namespace Frontier

def Tallies (l : Ledger) (stats : FrontierStats) : Prop :=
  stats = {
    offered := l.entries.length
    polled := l.count .polled
    removed := l.count .removed
    weighted := stats.weighted
    releasedOnClose := l.count .released }

/-- The ledger has what the frontier holds and counts. -/
structure Balances (f : Frontier ω χ τ) (l : Ledger) : Prop where
  held : f.entries = l.held
  next : f.next = l.entries.length
  numbered : l.entries.map (·.ticket) = (List.range l.entries.length).map Ticket.mk
  closed : f.closed = l.closed
  shut : l.closed → l.held = []
  stats : Tallies l f.stats

section Answers

variable [Weighting ω] [ChoiceRule χ]

def answer (f : Frontier ω χ τ) : Operation → Answer
  | .offer s => .ticket (f.offer s).1
  | .poll => .state f.poll.1
  | .peek => .state f.peek.1
  | .remove t => .removed (f.remove t).1
  | .weightOf t => .weight (f.weightOf t).1
  | .close => .closed

def answers (f : Frontier ω χ τ) : List Operation → List Answer
  | [] => []
  | op :: ops => f.answer op :: (f.act op).answers ops

end Answers

end Frontier

def offersAfterClose : List Operation → Nat
  | [] => 0
  | .close :: ops => (ops.flatMap Operation.offered).length
  | _ :: ops => offersAfterClose ops

section Entries

variable {l m : Ledger} {t : Ticket} {s : State} {fate : Fate}

theorem waiting_append (a b : List Entry) : waiting (a ++ b) = waiting a ++ waiting b := by
  simp [waiting]

theorem waiting_cons_left (hf : fate ≠ .held) (es : List Entry) :
    waiting (⟨t, s, fate⟩ :: es) = waiting es := by
  simp [waiting, hf]

theorem waiting_split {es : List Entry} {l₁ l₂ : List (Ticket × State)} {e : Ticket × State}
    (h : waiting es = l₁ ++ e :: l₂) : ∃ before after,
      es = before ++ ⟨e.1, e.2, .held⟩ :: after ∧ waiting before = l₁ ∧ waiting after = l₂ := by
  obtain ⟨a, b, hab, rfl, hb⟩ := List.map_eq_append_iff.mp h
  obtain ⟨x, b, rfl, rfl, rfl⟩ := List.map_eq_cons_iff.mp hb
  obtain ⟨u, v, rfl, rfl, hv⟩ := List.filter_eq_append_iff.mp hab
  obtain ⟨w, z, rfl, hw, hx, rfl⟩ := List.filter_eq_cons_iff.mp hv
  have hheld : x.fate = .held := of_decide_eq_true hx
  refine ⟨u ++ w, z, ?_, ?_, rfl⟩
  · cases x
    cases hheld
    rw [List.append_assoc]
  · have hnone : w.filter (·.fate = .held) = [] := List.filter_eq_nil_iff.mpr hw
    rw [waiting, List.filter_append, hnone, List.append_nil]

theorem held_offer (l : Ledger) (s : State) : (l.offer s).held =
    if l.closed then l.held else l.held ++ [(⟨l.entries.length⟩, s)] := by
  by_cases hc : l.closed <;> simp [Ledger.held, Ledger.offer, waiting, hc]

theorem held_close (l : Ledger) : l.close.held = [] := by
  have hnone : ∀ e ∈ l.close.entries, ¬ e.fate = .held := by
    intro e he
    obtain ⟨x, -, rfl⟩ := List.mem_map.mp he
    by_cases hx : x.fate = .held <;> simp [Entry.close, hx]
  have hfilter : l.close.entries.filter (·.fate = .held) = [] := by simpa using hnone
  rw [Ledger.held, waiting, hfilter, List.map_nil]

theorem tickets_close (l : Ledger) : l.close.entries.map (·.ticket) = l.entries.map (·.ticket) := by
  rw [Ledger.close, List.map_map]
  refine List.map_congr_left fun e _ => ?_
  by_cases he : e.fate = .held <;> simp [Entry.close, he]

theorem states_close (l : Ledger) : l.close.entries.map (·.state) = l.entries.map (·.state) := by
  rw [Ledger.close, List.map_map]
  refine List.map_congr_left fun e _ => ?_
  by_cases he : e.fate = .held <;> simp [Entry.close, he]

theorem count_offer (l : Ledger) (s : State) (fate : Fate) : (l.offer s).count fate =
    l.count fate + if (if l.closed then Fate.late else .held) = fate then 1 else 0 := by
  simp [Ledger.count, Ledger.offer, List.countP_append, List.countP_singleton]

theorem count_close (l : Ledger) : l.close.count .released = l.count .released + l.held.length ∧
    ∀ fate, fate ≠ .held → fate ≠ .released → l.close.count fate = l.count fate := by
  obtain ⟨es, closed⟩ := l
  simp only [Ledger.count, Ledger.close, Ledger.held, waiting, List.length_map, List.countP_map,
    ← List.countP_eq_length_filter]
  constructor
  · induction es with
    | nil => rfl
    | cons e es ih =>
      rw [List.countP_cons, List.countP_cons, List.countP_cons, ih]
      obtain ⟨t, s, fate⟩ := e
      cases fate <;> simp [Entry.close] <;> omega
  · intro fate hheld hreleased
    refine List.countP_congr fun e _ => ?_
    by_cases he : e.fate = .held <;> simp [Entry.close, he, Ne.symm hheld, Ne.symm hreleased]

namespace Ledger.Leaves

theorem tickets (h : l.Leaves fate t s m) :
    m.entries.map (·.ticket) = l.entries.map (·.ticket) := by
  cases h
  simp

theorem states (h : l.Leaves fate t s m) : m.entries.map (·.state) = l.entries.map (·.state) := by
  cases h
  simp

theorem length (h : l.Leaves fate t s m) : m.entries.length = l.entries.length := by
  simpa using congrArg List.length h.states

theorem closed (h : l.Leaves fate t s m) : m.closed = l.closed := by
  cases h
  rfl

theorem count (h : l.Leaves fate t s m) {x : Fate} (hx : x ≠ .held) :
    m.count x = l.count x + if fate = x then 1 else 0 := by
  cases h
  simp only [Ledger.count, List.countP_append, List.countP_cons]
  simp [Ne.symm hx]
  omega

theorem of_held {l₁ l₂ : List (Ticket × State)} {e : Ticket × State} (hf : fate ≠ .held)
    (h : l.held = l₁ ++ e :: l₂) : ∃ m, l.Leaves fate e.1 e.2 m ∧ m.held = l₁ ++ l₂ := by
  obtain ⟨es, closed⟩ := l
  obtain ⟨before, after, rfl, rfl, rfl⟩ := waiting_split h
  refine ⟨_, .mk before after closed, ?_⟩
  rw [Ledger.held, waiting_append, waiting_cons_left hf]

end Ledger.Leaves

theorem Ledger.length_entries (l : Ledger) : l.entries.length =
    l.held.length + l.count .polled + l.count .removed + l.count .released + l.count .late := by
  obtain ⟨es, closed⟩ := l
  simp only [Ledger.count, Ledger.held, waiting, List.length_map, ← List.countP_eq_length_filter]
  induction es with
  | nil => rfl
  | cons e es ih =>
    simp only [List.length_cons, List.countP_cons, ih]
    cases e.fate <;> simp <;> omega

end Entries

namespace Frontier.Balances

variable {f g : Frontier ω χ τ} {l m : Ledger} {s : State} {t : Ticket} {fate : Fate}

theorem start (w : ω) (rule : χ) (stop : τ) : (start w rule stop).Balances {} :=
  ⟨rfl, rfl, rfl, rfl, fun _ => rfl, rfl⟩

theorem ascending (h : f.Balances l) : f.Ascending := by
  have hsub : f.entries.map (·.1) <+ l.entries.map (·.ticket) := by
    rw [h.held, Ledger.held, waiting, List.map_map]
    exact List.filter_sublist.map _
  rw [h.numbered] at hsub
  have hlt : ((List.range l.entries.length).map Ticket.mk).Pairwise
      fun a b => a.number < b.number := List.pairwise_map.mpr List.pairwise_lt_range
  have hentries := hlt.sublist hsub
  rwa [List.pairwise_map] at hentries

theorem mem_tickets (h : f.Balances l) : t ∈ f.tickets ↔ t ∈ l.held.map (·.1) := by
  rw [← h.held, entries, List.map_map]
  rfl

theorem weigh (h : f.Balances l) (hk : f.Kept g) (he : g.entries = f.entries)
    (hs : ∃ n, g.stats = { f.stats with weighted := n }) : g.Balances l where
  held := he.trans h.held
  next := hk.next.trans h.next
  numbered := h.numbered
  closed := hk.closed.trans h.closed
  shut := h.shut
  stats := by
    obtain ⟨n, hn⟩ := hs
    rw [Tallies, hn, h.stats]

theorem offer (h : f.Balances l) (s : State) : (f.offer s).2.Balances (l.offer s) := by
  have hentries : (l.offer s).entries.length = l.entries.length + 1 := by simp [Ledger.offer]
  have hnumbered : (l.offer s).entries.map (·.ticket) =
      (List.range (l.offer s).entries.length).map Ticket.mk := by
    rw [hentries, List.range_succ, List.map_append, ← h.numbered]
    simp [Ledger.offer]
  have hcount : ∀ fate, fate ≠ .held → fate ≠ .late → (l.offer s).count fate = l.count fate := by
    intro fate hheld hlate
    rw [count_offer]
    by_cases hc : l.closed <;> simp [hc, Ne.symm hheld, Ne.symm hlate]
  have hstats : Tallies (l.offer s) { f.stats with offered := f.stats.offered + 1 } := by
    rw [Tallies, hentries, hcount .polled, hcount .removed, hcount .released, h.stats] <;> simp
  by_cases hc : f.closed
  · have hl : l.closed := h.closed ▸ hc
    have hheld : (l.offer s).held = l.held := by rw [held_offer, if_pos hl]
    rw [offer_of_closed hc]
    exact ⟨h.held.trans hheld.symm, by rw [hentries, h.next], hnumbered, h.closed,
      fun hl => hheld.trans (h.shut hl), hstats⟩
  · have hl : ¬ l.closed := h.closed ▸ hc
    rw [offer_of_open (by simpa using hc)]
    refine ⟨?_, by rw [hentries, h.next], hnumbered, h.closed, fun hl' => absurd hl' hl, hstats⟩
    rw [held_offer, if_neg hl, ← h.held, ← h.next]
    simp [entries, Held.entry]

theorem close (h : f.Balances l) : f.close.Balances l.close := by
  obtain ⟨hreleased, hcount⟩ := count_close l
  have hentries : l.close.entries.length = l.entries.length := List.length_map ..
  have hnumbered : l.close.entries.map (·.ticket) =
      (List.range l.close.entries.length).map Ticket.mk := by
    rw [hentries, tickets_close, h.numbered]
  have hlength : f.held.length = l.held.length := by
    rw [← h.held, Frontier.length_entries]
    rfl
  have hstats : Tallies l.close { f.stats with
      releasedOnClose := f.stats.releasedOnClose + f.held.length } := by
    rw [Tallies, hentries, hcount .polled, hcount .removed, hreleased, hlength, h.stats] <;> simp
  have hnext : f.next = l.close.entries.length := h.next.trans hentries.symm
  unfold Frontier.close
  by_cases hc : f.closed
  · have hnone : l.held = [] := h.shut (h.closed ▸ hc)
    rw [if_pos hc]
    rw [hlength, hnone] at hstats
    exact ⟨h.held.trans (hnone.trans (held_close l).symm), hnext, hnumbered, hc,
      fun _ => held_close l, hstats⟩
  · rw [if_neg hc]
    exact ⟨(held_close l).symm, hnext, hnumbered, rfl, fun _ => held_close l, hstats⟩

/-- A held state leaves the ledger as it leaves the frontier. -/
theorem leaves (h : f.Balances l) {l₁ l₂ : List (Ticket × State)} {e : Ticket × State}
    (fate : Fate) (hf : fate ≠ .held) (he : f.entries = l₁ ++ e :: l₂) (hg : g.entries = l₁ ++ l₂)
    (hn : g.next = f.next) (hc : g.closed = f.closed)
    (hs : ∀ m, l.Leaves fate e.1 e.2 m → Tallies m g.stats) :
    ∃ m, l.Leaves fate e.1 e.2 m ∧ g.Balances m := by
  obtain ⟨m, hm, hheld⟩ := Ledger.Leaves.of_held hf (h.held.symm.trans he)
  have hlength := hm.length
  refine ⟨m, hm, ⟨hg.trans hheld.symm, hn.trans (h.next.trans hlength.symm), ?_,
    hc.trans (h.closed.trans hm.closed.symm), fun hmc => ?_, hs m hm⟩⟩
  · rw [hm.tickets, hlength, h.numbered]
  · have hnone := h.shut (hm.closed ▸ hmc)
    rw [← h.held, he] at hnone
    simp at hnone

variable [Weighting ω]

theorem weightOf (h : f.Balances l) (t : Ticket) : (f.weightOf t).2.Balances l :=
  h.weigh (f.kept_weightOf t) (f.weightOf_entries t) (f.stats_weightOf t)

omit [Weighting ω] in
theorem remove (h : f.Balances l) (t : Ticket) :
    ∃ m, l.Step (.remove t) (.removed (f.remove t).1) m ∧ (f.remove t).2.Balances m := by
  obtain ⟨ht, hf⟩ | ⟨l₁, x, l₂, hheld, rfl, hf⟩ := f.remove_cases t
  · rw [hf]
    exact ⟨l, .removeNothing fun hm => ht (h.mem_tickets.mpr hm), h⟩
  · rw [hf]
    have he : f.entries = l₁.map Held.entry ++ x.entry :: l₂.map Held.entry := by
      rw [entries, hheld, List.map_append, List.map_cons]
    have hstats : ∀ m, l.Leaves .removed x.ticket x.state m →
        Tallies m { f.stats with removed := f.stats.removed + 1 } := by
      intro m hm
      rw [Tallies, hm.length, hm.count, hm.count, hm.count, h.stats] <;> simp
    obtain ⟨m, hm, hbalances⟩ := h.leaves .removed (by decide) he List.map_append
      (g := { f with
        held := l₁ ++ l₂
        stats.removed := f.stats.removed + 1
        released := x.state.toRelease ++ f.released }) rfl rfl hstats
    exact ⟨m, .remove hm, hbalances⟩

variable [ChoiceRule χ]

theorem choose (h : f.Balances l) : f.choose.2.Balances l := by
  obtain ⟨hk, he, -⟩ := f.kept_choose
  exact h.weigh hk he f.stats_choose

theorem poll (h : f.Balances l) :
    ∃ m, l.Step .poll (.state f.poll.1) m ∧ f.poll.2.Balances m := by
  have hk := f.kept_poll
  obtain ⟨n, hstats⟩ := f.stats_poll
  obtain ⟨hn, he⟩ | ⟨l₁, e, l₂, he, hpoll, hafter⟩ := f.poll_cases
  · refine ⟨l, .pollNothing hn, h.weigh hk he ⟨n, ?_⟩⟩
    rw [hstats, handed_eq_nil hn]
    rfl
  · have htallies : ∀ m, l.Leaves .polled e.1 e.2 m → Tallies m f.poll.2.stats := by
      intro m hm
      rw [Tallies, hm.length, hm.count, hm.count, hm.count, hstats, hpoll, h.stats] <;>
        simp [handed]
    obtain ⟨m, hm, hbalances⟩ := h.leaves .polled (by decide) he hafter hk.next hk.closed htallies
    rw [hpoll]
    exact ⟨m, .poll hm, hbalances⟩

theorem mem_of_peek (h : f.Balances l) (hp : f.peek.1 = .ok (some s)) :
    s ∈ l.held.map (·.2) := by
  obtain ⟨-, he, -⟩ := f.kept_choose
  rw [← h.held]
  cases hc : f.choose.1 with
  | error fault =>
    rw [peek_fst, hc] at hp
    cases hp
  | ok answer =>
    rw [peek_of_choose hc he] at hp
    cases answer with
    | none => cases hp
    | some i =>
      simp only [Option.bind_some, Except.ok.injEq] at hp
      rw [← List.getElem?_map] at hp
      exact List.mem_of_getElem? hp

/-- What a frontier answers is what the ledger allows, and the ledger goes on with it. -/
theorem act (h : f.Balances l) (op : Operation) :
    ∃ m, l.Step op (f.answer op) m ∧ (f.act op).Balances m := by
  cases op with
  | offer s =>
    have hticket : (f.offer s).1 = ⟨l.entries.length⟩ := by
      rw [← h.next, Frontier.offer]
      by_cases hc : f.closed <;> simp [hc]
    refine ⟨l.offer s, ?_, h.offer s⟩
    rw [answer, hticket]
    exact .offer s
  | poll => exact h.poll
  | peek => exact ⟨l, .peek fun s hs => h.mem_of_peek hs, h.choose⟩
  | remove t => exact h.remove t
  | weightOf t =>
    exact ⟨l, .weightOf ((f.weightOf_ne_iff t).trans h.mem_tickets), h.weightOf t⟩
  | close => exact ⟨l.close, .close, h.close⟩

theorem after (h : f.Balances l) (ops : List Operation) :
    ∃ m, l.Run ops (f.answers ops) m ∧ (f.after ops).Balances m := by
  induction ops generalizing f l with
  | nil => exact ⟨l, .nil l, h⟩
  | cons op ops ih =>
    obtain ⟨m, hstep, hm⟩ := h.act op
    obtain ⟨n, hrun, hn⟩ := ih hm
    exact ⟨n, .cons hstep hrun, hn⟩

end Frontier.Balances

namespace Ledger

variable {l m : Ledger} {op : Operation} {a : Answer} {ops : List Operation} {as : List Answer}

theorem Step.states (h : l.Step op a m) :
    m.entries.map (·.state) = l.entries.map (·.state) ++ op.offered := by
  cases h with
  | offer s => exact List.map_append
  | poll h | remove h => exact h.states.trans (List.append_nil _).symm
  | pollNothing | peek | removeNothing | weightOf => exact (List.append_nil _).symm
  | close => exact (states_close l).trans (List.append_nil _).symm

theorem Step.late (h : l.Step op a m) :
    m.count .late = l.count .late + if l.closed then op.offered.length else 0 := by
  cases h with
  | offer s =>
    rw [count_offer]
    by_cases hc : l.closed <;> simp [hc, Operation.offered]
  | poll h | remove h =>
    rw [h.count (by decide)]
    simp [Operation.offered]
  | pollNothing | peek | removeNothing | weightOf => simp [Operation.offered]
  | close =>
    rw [(count_close l).2 .late (by decide) (by decide)]
    simp [Operation.offered]

theorem Step.closed (h : l.Step op a m) (hop : op ≠ .close) : m.closed = l.closed := by
  cases h with
  | offer | pollNothing | peek | removeNothing | weightOf => rfl
  | poll h | remove h => exact h.closed
  | close => exact absurd rfl hop

theorem Run.states (h : l.Run ops as m) :
    m.entries.map (·.state) = l.entries.map (·.state) ++ ops.flatMap Operation.offered := by
  induction h with
  | nil => simp
  | cons h _ ih => rw [ih, h.states, List.flatMap_cons, List.append_assoc]

theorem Run.late (h : l.Run ops as m) : m.count .late = l.count .late +
    if l.closed then (ops.flatMap Operation.offered).length else offersAfterClose ops := by
  induction h with
  | nil => simp [offersAfterClose]
  | @cons l m n op a ops as h _ ih =>
    have hlate := h.late
    by_cases hop : op = .close
    · subst hop
      cases h
      rw [ih, hlate]
      simp [close, Operation.offered, offersAfterClose]
    · rw [h.closed hop] at ih
      rw [ih, hlate]
      by_cases hc : l.closed
      · simp [hc, Nat.add_assoc]
      · cases op <;> simp_all [offersAfterClose]

end Ledger

namespace Frontier

variable [Weighting ω] [ChoiceRule χ]

theorem exists_ledger (w : ω) (rule : χ) (stop : τ) (ops : List Operation) :
    let f := (start w rule stop).after ops
    ∃ l : Ledger, Ledger.Run {} ops ((start w rule stop).answers ops) l ∧ f.Balances l ∧
      l.entries.map (·.state) = ops.flatMap Operation.offered ∧
      f.stats.offered = f.size + f.stats.polled + f.stats.removed + f.stats.releasedOnClose +
        offersAfterClose ops := by
  intro f
  obtain ⟨l, hrun, hbalances⟩ := (Balances.start w rule stop).after ops
  have hlate : l.count .late = offersAfterClose ops := hrun.late.trans (Nat.zero_add _)
  have hsize : f.size = l.held.length := by rw [← length_entries, hbalances.held]
  refine ⟨l, hrun, hbalances, hrun.states, ?_⟩
  rw [hbalances.stats, hsize, ← hlate]
  exact l.length_entries

/-- Whatever its weighting and its choice rule answer, a frontier holds what was offered while it
was open and has not been polled or removed or released by closing.  Everything that it tells
is told of exactly these states. -/
theorem refines_ledger (w : ω) (rule : χ) (stop : τ) (ops : List Operation) :
    let f := (start w rule stop).after ops
    ∃ l : Ledger, Ledger.Run {} ops ((start w rule stop).answers ops) l ∧ f.Balances l ∧
      l.entries.map (·.state) = ops.flatMap Operation.offered ∧
      f.Ascending ∧
      (∀ t, f.find? t = (f.position? t).bind fun i => f.held[i]?) ∧
      f.stats.offered = f.size + f.stats.polled + f.stats.removed + f.stats.releasedOnClose +
        offersAfterClose ops ∧
      f.stats.weighted ≤ f.stats.offered ∧
      ∃ g : Frontier (Logged ω) χ τ, g = (start (Logged.mk w []) rule stop).after ops ∧
        g.forget = f ∧ g.weighting.log <+~ ops.flatMap Operation.offered ∧
        g.weighting.log.length = f.stats.weighted := by
  intro f
  obtain ⟨l, hrun, hbalances, hstates, hconserved⟩ := exists_ledger w rule stop ops
  obtain ⟨hforget, hlog, hcount⟩ := weighed_once w rule stop ops
  have hascending : f.Ascending := hbalances.ascending
  have hweighted := hcount.trans (congrArg (·.stats.weighted) hforget)
  refine ⟨l, hrun, hbalances, hstates, hascending, fun t => find?_eq_of_ascending hascending,
    hconserved, ?_, _, rfl, hforget, hlog, hweighted⟩
  have hoffered : f.stats.offered = l.entries.length := by rw [hbalances.stats]
  rw [← hweighted, hoffered, ← List.length_map (f := Entry.state), hstates]
  exact hlog.length_le

end Frontier

end PathExplorer
