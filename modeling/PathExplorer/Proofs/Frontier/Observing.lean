import PathExplorer.Proofs.Frontier.Highest
import PathExplorer.Proofs.Frontier.Ledger
import PathExplorer.Proofs.Frontier.Ready

namespace PathExplorer

variable {ω χ τ : Type} {truth : State → Except Fault Weight}

/-- It asks about the frontier, and neither brings in a state nor takes one out. -/
def Operation.observes : Operation → Bool
  | .peek | .weightOf _ => true
  | .offer _ | .poll | .remove _ | .close => false

def acting (ops : List Operation) : List Operation := ops.filter fun op => !op.observes

/-- The rule stays as it was when it is asked, and without weights goes by the tickets alone. -/
structure Forgetful [ChoiceRule χ] (rule : χ) : Prop where
  keeps : ∀ cs, (ChoiceRule.choose cs rule).2 = rule
  blind : ChoiceRule.usesWeights rule = false → ∀ cs cs' : List Candidate,
    cs.map (·.ticket) = cs'.map (·.ticket) →
      (ChoiceRule.choose cs rule).1 = (ChoiceRule.choose cs' rule).1

namespace Frontier

/-- The frontiers differ in nothing but what they remember of weights. -/
structure Alike (f g : Frontier ω χ τ) : Prop where
  entries : f.entries = g.entries
  next : f.next = g.next
  closed : f.closed = g.closed
  choice : f.choice = g.choice
  stop : f.stop = g.stop
  stats : { f.stats with weighted := 0 } = { g.stats with weighted := 0 }
  released : f.released = g.released

def told [Weighting ω] [ChoiceRule χ] (f : Frontier ω χ τ) : List Operation → List Answer
  | [] => []
  | op :: ops => if op.observes then (f.act op).told ops else f.answer op :: (f.act op).told ops

end Frontier

section Rules

variable {beats : Candidate → Candidate → Bool}

def Candidate.weightless (c : Candidate) : Candidate := ⟨c.ticket, .zero⟩

theorem standing_weightless (h : ∀ a b, beats a.weightless b.weightless = beats a b)
    (cs : List Candidate) : standing beats (cs.map Candidate.weightless) =
      (standing beats cs).map (Prod.map Candidate.weightless id) := by
  induction cs using List.reverseRecOn with
  | nil => rfl
  | append_singleton cs x ih =>
    rw [List.map_append, List.map_singleton, standing_concat, standing_concat, ih,
      List.length_map]
    cases standing beats cs with
    | none => rfl
    | some b =>
      simp only [Option.map_some, Prod.map_fst, h]
      split
      · rfl
      · rfl

theorem lastStanding_weightless (h : ∀ a b, beats a.weightless b.weightless = beats a b)
    (cs : List Candidate) :
    lastStanding beats (cs.map Candidate.weightless) = lastStanding beats cs := by
  rw [lastStanding_eq, lastStanding_eq, standing_weightless h, Option.map_map]
  rfl

/-- Where weights are not compared, the tickets tell which candidate is left over. -/
theorem lastStanding_congr (h : ∀ a b, beats a.weightless b.weightless = beats a b)
    {cs cs' : List Candidate} (ht : cs.map (·.ticket) = cs'.map (·.ticket)) :
    lastStanding beats cs = lastStanding beats cs' := by
  have hw : cs.map Candidate.weightless = cs'.map Candidate.weightless := by
    have := congrArg (List.map fun t => Candidate.mk t .zero) ht
    rwa [List.map_map, List.map_map] at this
  rw [← lastStanding_weightless h, hw, lastStanding_weightless h]

theorem BuiltIn.forgetful [rules : ChoiceRule χ] (h : BuiltIn χ rules) (rule : χ) :
    Forgetful rule := by
  cases h with
  | highestWeight => exact ⟨fun _ => rfl, fun hu => nomatch hu⟩
  | fifo =>
    have h : ∀ a b : Candidate, a.weightless.isEarlier b.weightless = a.isEarlier b :=
      fun _ _ => rfl
    exact ⟨fun _ => rfl, fun _ _ _ ht => lastStanding_congr h ht⟩
  | lifo =>
    let isLater (a b : Candidate) : Bool := !a.isEarlier b
    have h : ∀ a b : Candidate, isLater a.weightless b.weightless = isLater a b := fun _ _ => rfl
    exact ⟨fun _ => rfl, fun _ _ _ ht => lastStanding_congr h ht⟩

theorem Shown.unique {es : List (Ticket × State)} {cs cs' : List Candidate}
    (h : Shown truth es cs) (h' : Shown truth es cs') : cs = cs' := by
  refine List.map_injective_iff.mpr ?_ (h.trans h'.symm)
  rintro ⟨t, w⟩ ⟨t', w'⟩ he
  cases he
  rfl

end Rules

namespace Frontier

section Entries

variable (f : Frontier ω χ τ) (t : Ticket)

theorem tickets_eq : f.tickets = f.entries.map (·.1) := by
  rw [entries, List.map_map]
  rfl

theorem find?_entry : (f.find? t).map Held.entry = f.entries.find? (·.1 = t) := by
  rw [entries, List.find?_map]
  rfl

theorem eraseP_entry :
    (f.held.eraseP (·.ticket = t)).map Held.entry = f.entries.eraseP (·.1 = t) := by
  rw [entries, List.eraseP_map]
  rfl

theorem toRelease_entry :
    f.held.flatMap (·.state.toRelease) = f.entries.flatMap (·.2.toRelease) := by
  rw [entries, List.flatMap_map]
  rfl

end Entries

variable {f g k : Frontier ω χ τ}

namespace Alike

theorem refl (f : Frontier ω χ τ) : f.Alike f := ⟨rfl, rfl, rfl, rfl, rfl, rfl, rfl⟩

theorem symm (h : f.Alike g) : g.Alike f :=
  ⟨h.entries.symm, h.next.symm, h.closed.symm, h.choice.symm, h.stop.symm, h.stats.symm,
    h.released.symm⟩

theorem trans (h : f.Alike g) (h' : g.Alike k) : f.Alike k :=
  ⟨h.entries.trans h'.entries, h.next.trans h'.next, h.closed.trans h'.closed,
    h.choice.trans h'.choice, h.stop.trans h'.stop, h.stats.trans h'.stats,
    h.released.trans h'.released⟩

theorem size (h : f.Alike g) : f.size = g.size := by
  rw [← length_entries, ← length_entries, h.entries]

theorem offer (h : f.Alike g) (s : State) :
    (f.offer s).1 = (g.offer s).1 ∧ (f.offer s).2.Alike (g.offer s).2 := by
  have hn := h.next
  have hs := FrontierStats.mk.inj h.stats
  unfold Frontier.offer
  rw [← h.closed]
  split
  · refine ⟨congrArg Ticket.mk hn, h.entries, congrArg (· + 1) hn, rfl, h.choice, h.stop, ?_, ?_⟩
    · simp [hs]
    · simp [h.released]
  · refine ⟨congrArg Ticket.mk hn, ?_, congrArg (· + 1) hn, rfl, h.choice, h.stop, ?_, h.released⟩
    · have he : f.held.map Held.entry = g.held.map Held.entry := h.entries
      simp [Frontier.entries, he, hn, Held.entry]
    · simp [hs]

theorem remove (h : f.Alike g) (t : Ticket) :
    (f.remove t).1 = (g.remove t).1 ∧ (f.remove t).2.Alike (g.remove t).2 := by
  have hs := FrontierStats.mk.inj h.stats
  have hfind : (f.find? t).map Held.entry = (g.find? t).map Held.entry := by
    rw [find?_entry, find?_entry, h.entries]
  have herase : (f.held.eraseP (·.ticket = t)).map Held.entry =
      (g.held.eraseP (·.ticket = t)).map Held.entry := by
    rw [eraseP_entry, eraseP_entry, h.entries]
  unfold Frontier.remove
  cases hf : f.find? t with
  | none =>
    cases hg : g.find? t with
    | none => exact ⟨rfl, h⟩
    | some y => simp [hf, hg] at hfind
  | some x =>
    cases hg : g.find? t with
    | none => simp [hf, hg] at hfind
    | some y =>
      rw [hf, hg, Option.map_some, Option.map_some, Option.some.injEq] at hfind
      have hstate : x.state = y.state := congrArg Prod.snd hfind
      refine ⟨rfl, herase, h.next, h.closed, h.choice, h.stop, ?_, ?_⟩
      · simp [hs]
      · simp [hstate, h.released]

theorem close (h : f.Alike g) : f.close.Alike g.close := by
  have hs := FrontierStats.mk.inj h.stats
  have hl : f.held.length = g.held.length := h.size
  unfold Frontier.close
  rw [← h.closed]
  split
  · exact h
  · refine ⟨rfl, h.next, rfl, h.choice, h.stop, ?_, ?_⟩
    · simp [hs, hl]
    · simp [toRelease_entry, h.entries, h.released]

end Alike

section Questions

variable [Weighting ω]

theorem alike_weightOf (f : Frontier ω χ τ) (t : Ticket) : f.Alike (f.weightOf t).2 := by
  have he := f.weightOf_entries t
  have h := f.weightOf_spec t
  generalize f.weightOf t = r at h he ⊢
  cases h with
  | missing | known | fault | weighed => exact ⟨he.symm, rfl, rfl, rfl, rfl, rfl, rfl⟩

variable [ChoiceRule χ]

theorem choice_choose (hr : Forgetful f.choice) : f.choose.2.choice = f.choice := by
  have hp : f.prepare.2.choice = f.choice := by
    unfold prepare
    split
    · rfl
    · rfl
  by_cases hn : f.entries = []
  · rw [choose_of_isEmpty hn]
  · rw [choose_of_not_isEmpty hn]
    cases hc : f.prepare with
    | mk fault g =>
      rw [hc] at hp
      cases fault with
      | some fault => exact hp
      | none =>
        dsimp only at hp ⊢
        rw [hp, hr.keeps]

theorem alike_choose (hr : Forgetful f.choice) : f.Alike f.choose.2 := by
  obtain ⟨hk, he, -⟩ := f.kept_choose
  obtain ⟨n, hn⟩ := f.stats_choose
  exact ⟨he.symm, hk.next.symm, hk.closed.symm, (choice_choose hr).symm, hk.stop.symm,
    by rw [hn], hk.released.symm⟩

theorem alike_act (hr : Forgetful f.choice) {op : Operation} (ho : op.observes) :
    f.Alike (f.act op) := by
  cases op with
  | peek => exact alike_choose hr
  | weightOf t => exact f.alike_weightOf t
  | offer | poll | remove | close => cases ho

end Questions

section Steps

variable [Weighting ω] [ChoiceRule χ]

/-- Alike frontiers want the same state next, or cannot tell for the same fault. -/
theorem Alike.choose (h : f.Alike g) (hf : f.Sound truth) (hg : g.Sound truth)
    (hr : Forgetful f.choice) : f.choose.1 = g.choose.1 := by
  have he := h.entries
  by_cases hn : f.entries = []
  · rw [choose_of_isEmpty hn, choose_of_isEmpty (he ▸ hn)]
  have hn' : g.entries ≠ [] := he ▸ hn
  cases hu : ChoiceRule.usesWeights f.choice with
  | false =>
    have ht : ∀ f : Frontier ω χ τ, f.candidates.map (·.ticket) = f.tickets := fun f => by
      rw [candidates, List.map_map]
      rfl
    have hcandidates : f.candidates.map (·.ticket) = g.candidates.map (·.ticket) := by
      rw [ht, ht, tickets_eq, tickets_eq, he]
    have hprepare : ∀ f : Frontier ω χ τ, ChoiceRule.usesWeights f.choice = false →
        f.prepare = (none, f) := fun f hu => by rw [prepare, hu, if_neg Bool.false_ne_true]
    rw [choose_of_not_isEmpty hn, choose_of_not_isEmpty hn', hprepare f hu,
      hprepare g (h.choice ▸ hu)]
    simp only [← h.choice, h.size, hr.blind hu _ _ hcandidates]
  | true =>
    have hu' : ChoiceRule.usesWeights g.choice := h.choice ▸ hu
    cases hfault : firstFault? truth f.entries with
    | some fault =>
      rw [(hf.choose_fault hu hfault).1, (hg.choose_fault hu' (he ▸ hfault)).1]
    | none =>
      obtain ⟨cs, hs, hc, -⟩ := hf.choose_shown hu hn hfault
      obtain ⟨cs', hs', hc', -⟩ := hg.choose_shown hu' hn' (he ▸ hfault)
      rw [he] at hs
      rw [hc, hc', hs.unique hs', h.choice, h.size]

theorem Alike.poll (h : f.Alike g) (hf : f.Sound truth) (hg : g.Sound truth)
    (hr : Forgetful f.choice) : f.poll.1 = g.poll.1 ∧ f.poll.2.Alike g.poll.2 := by
  have hchoose := h.choose hf hg hr
  have hfc := alike_choose hr
  have hgc := alike_choose (h.choice ▸ hr : Forgetful g.choice)
  have hc := (hfc.symm.trans h).trans hgc
  cases ha : f.choose.1 with
  | error fault =>
    rw [poll_of_fault ha, poll_of_fault (hchoose ▸ ha)]
    exact ⟨rfl, hc⟩
  | ok answer =>
    obtain ⟨hp, he, hchoice⟩ := poll_of_choose ha hfc.entries.symm
    obtain ⟨hp', he', hchoice'⟩ := poll_of_choose (hchoose ▸ ha) hgc.entries.symm
    have hsame : f.poll.1 = g.poll.1 := by rw [hp, hp', h.entries]
    have hk := f.kept_poll
    have hk' := g.kept_poll
    obtain ⟨m, hm⟩ := f.stats_poll
    obtain ⟨m', hm'⟩ := g.stats_poll
    have hs := FrontierStats.mk.inj h.stats
    refine ⟨hsame, ⟨?entries, ?next, ?closed, ?choice, ?stop, ?stats, ?released⟩⟩
    case entries => rw [he, he', h.entries]
    case next => rw [hk.next, hk'.next, h.next]
    case closed => rw [hk.closed, hk'.closed, h.closed]
    case choice => rw [hchoice, hchoice', hc.choice]
    case stop => rw [hk.stop, hk'.stop, h.stop]
    case stats =>
      rw [hm, hm', hsame]
      simp [hs]
    case released => rw [hk.released, hk'.released, h.released]

theorem Alike.act (h : f.Alike g) (hf : f.Sound truth) (hg : g.Sound truth)
    (hr : Forgetful f.choice) {op : Operation} (ho : op.observes = false) :
    f.answer op = g.answer op ∧ (f.act op).Alike (g.act op) := by
  cases op with
  | offer s =>
    obtain ⟨ht, ha⟩ := h.offer s
    exact ⟨congrArg Answer.ticket ht, ha⟩
  | poll =>
    obtain ⟨hp, ha⟩ := h.poll hf hg hr
    exact ⟨congrArg Answer.state hp, ha⟩
  | remove t =>
    obtain ⟨ht, ha⟩ := h.remove t
    exact ⟨congrArg Answer.removed ht, ha⟩
  | close => exact ⟨rfl, h.close⟩
  | peek | weightOf => cases ho

theorem Alike.run (h : f.Alike g) (hf : f.Sound truth) (hg : g.Sound truth)
    (hr : ∀ rule : χ, Forgetful rule) (ops : List Operation) :
    f.told ops = g.answers (acting ops) ∧ (f.after ops).Alike (g.after (acting ops)) := by
  induction ops generalizing f g with
  | nil => exact ⟨rfl, h⟩
  | cons op ops ih =>
    cases ho : op.observes with
    | true =>
      have hacting : acting (op :: ops) = acting ops := List.filter_cons_of_neg (by simp [ho])
      rw [told, if_pos ho, hacting]
      exact ih ((alike_act (hr _) ho).symm.trans h) (hf.act op) hg
    | false =>
      have hacting : acting (op :: ops) = op :: acting ops := List.filter_cons_of_pos (by simp [ho])
      obtain ⟨hanswer, hnext⟩ := h.act hf hg (hr _) ho
      obtain ⟨htold, hafter⟩ := ih hnext (hf.act op) (hg.act op)
      rw [told, ho, if_neg Bool.false_ne_true, hacting, answers, hanswer, htold]
      exact ⟨rfl, hafter⟩

end Steps

section Observing

variable [rules : ChoiceRule χ]

/-- Whatever two frontiers are asked for in between, and however much room they have for trees: as
far as the same was done with them otherwise they have answered the same to it, hold the same states
and have counted the same. -/
theorem observing_changes_nothing (v : View) (goals : Registry) (a b : SelectorSettings)
    (hinner : a.inner = b.inner) (hinter : a.inter = b.inter) {t u : TaintDistance}
    (ht : TaintDistance.ofSettings v goals a = .ok t)
    (hu : TaintDistance.ofSettings v goals b = .ok u) (hrules : BuiltIn χ rules) (rule : χ)
    (stop : τ) {ops ops' : List Operation} (hops : acting ops = acting ops') :
    (start t rule stop).told ops = (start u rule stop).told ops' ∧
      ((start t rule stop).after ops).Alike ((start u rule stop).after ops') := by
  have hsteady := (TaintDistance.Agrees.ofSettings ht).steady
  have hsteady' := (TaintDistance.Agrees.ofSettings hu).steady
  rw [hinner, hinter] at hsteady
  have hf := Sound.start hsteady rule stop
  have hg := Sound.start hsteady' rule stop
  have hstart : (start t rule stop).Alike (start u rule stop) := ⟨rfl, rfl, rfl, rfl, rfl, rfl, rfl⟩
  -- Both are compared with the second frontier when it is asked for nothing in between.
  obtain ⟨htold, hafter⟩ := hstart.run hf hg hrules.forgetful ops
  obtain ⟨htold', hafter'⟩ := (Alike.refl _).run hg hg hrules.forgetful ops'
  rw [hops] at htold hafter
  exact ⟨htold.trans htold'.symm, hafter.trans hafter'.symm⟩

theorem observing_changes_nothing_twoMethods :
    ∃ t u, TaintDistance.ofSettings twoMethods.view TaintDistance.behindCall { capacity := 1 } =
        .ok t ∧
      TaintDistance.ofSettings twoMethods.view TaintDistance.behindCall {} = .ok u ∧
      (start t HighestWeight.mk NeverStop.mk).told
        [.peek, .offer TaintDistance.insideCall, .peek, .offer (.root ⟨⟨0⟩, 1⟩), .weightOf ⟨1⟩,
          .poll, .weightOf ⟨0⟩, .remove ⟨0⟩] =
      (start u HighestWeight.mk NeverStop.mk).told
        [.offer TaintDistance.insideCall, .offer (.root ⟨⟨0⟩, 1⟩), .poll, .remove ⟨0⟩, .peek] ∧
      (start u HighestWeight.mk NeverStop.mk).told
        [.offer TaintDistance.insideCall, .offer (.root ⟨⟨0⟩, 1⟩), .poll, .remove ⟨0⟩, .peek] =
      [.ticket ⟨0⟩, .ticket ⟨1⟩, .state (.ok (some (.root ⟨⟨0⟩, 1⟩))), .removed true] := by
  have ht : TaintDistance.ofSettings twoMethods.view TaintDistance.behindCall { capacity := 1 } =
    .ok _ := rfl
  have hu : TaintDistance.ofSettings twoMethods.view TaintDistance.behindCall {} = .ok _ := rfl
  refine ⟨_, _, ht, hu, ?_, by rfl⟩
  exact (observing_changes_nothing twoMethods.view TaintDistance.behindCall { capacity := 1 } {} rfl
    rfl ht hu .highestWeight HighestWeight.mk NeverStop.mk rfl).1

end Observing

end Frontier

end PathExplorer
