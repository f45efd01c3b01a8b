import PathExplorer.Frontier.Standard
import PathExplorer.Proofs.Frontier.Choice
import PathExplorer.Proofs.Frontier.Stock
import PathExplorer.Proofs.Weighting.Direct

namespace PathExplorer

variable {ω τ : Type} {truth : State → Except Fault Weight}

structure IsBest (truth : State → Except Fault Weight) (es : List (Ticket × State))
    (e : Ticket × State) : Prop where
  mem : e ∈ es
  best : ∀ d ∈ es, d = e ∨ ∃ w w', truth e.2 = .ok w ∧ truth d.2 = .ok w' ∧
    (w' < w ∨ w' = w ∧ e.1.number < d.1.number)

structure Foremost (truth : State → Except Fault Weight) (l₁ : List (Ticket × State))
    (e : Ticket × State) (l₂ : List (Ticket × State)) (weight : Weight) : Prop where
  own : truth e.2 = .ok weight
  before : ∀ d ∈ l₁, ∃ w, truth d.2 = .ok w ∧ w < weight
  behind : ∀ d ∈ l₂, ∃ w, truth d.2 = .ok w ∧ w ≤ weight

theorem IsBest.unique {es : List (Ticket × State)} {d e : Ticket × State}
    (hd : IsBest truth es d) (he : IsBest truth es e) : d = e := by
  obtain h | ⟨w, w', hw, hw', h⟩ := he.best d hd.mem
  · exact h
  · obtain h' | ⟨v, v', hv, hv', h'⟩ := hd.best e he.mem
    · exact h'.symm
    · rw [hw] at hv'
      rw [hw'] at hv
      cases hv
      cases hv'
      simp only [Weight.lt_iff] at h h'
      obtain h | ⟨rfl, h⟩ := h
      · obtain h' | ⟨rfl, -⟩ := h' <;> omega
      · obtain h' | ⟨-, h'⟩ := h' <;> omega

section Foremost

variable {l₁ l₂ : List (Ticket × State)} {e : Ticket × State} {weight : Weight}

theorem Foremost.isBest (h : Foremost truth l₁ e l₂ weight)
    (hs : (l₁ ++ e :: l₂).Pairwise fun a b => a.1.number < b.1.number) :
    IsBest truth (l₁ ++ e :: l₂) e := by
  refine ⟨by simp, fun d hd => ?_⟩
  obtain hd | hd := List.mem_append.mp hd
  · obtain ⟨w, hw, hlt⟩ := h.before d hd
    exact .inr ⟨weight, w, h.own, hw, .inl hlt⟩
  · obtain rfl | hd := List.mem_cons.mp hd
    · exact .inl rfl
    · obtain ⟨w, hw, hle⟩ := h.behind d hd
      have ht := (List.pairwise_cons.mp (List.pairwise_append.mp hs).2.1).1 d hd
      exact .inr ⟨weight, w, h.own, hw, (Weight.lt_or_eq_of_le hle).imp_right fun he => ⟨he, ht⟩⟩

theorem Foremost.erase (h : Foremost truth l₁ e l₂ weight) :
    (l₁ ++ e :: l₂).erase e = l₁ ++ l₂ := by
  have hn : e ∉ l₁ := fun he => by
    obtain ⟨w, hw, hlt⟩ := h.before e he
    rw [h.own] at hw
    cases hw
    simp [Weight.lt_iff] at hlt
  rw [List.erase_append_right _ hn, List.erase_cons_head]

theorem Foremost.of_weight (h : Foremost truth l₁ e l₂ weight) {f : State → Weight}
    (hf : ∀ d ∈ l₁ ++ e :: l₂, truth d.2 = .ok (f d.2)) :
    (∀ d ∈ l₁, f d.2 < f e.2) ∧ ∀ d ∈ l₂, f d.2 ≤ f e.2 := by
  have he := hf e (by simp)
  rw [h.own, Except.ok.injEq] at he
  subst he
  refine ⟨fun d hd => ?_, fun d hd => ?_⟩
  · obtain ⟨w, hw, hlt⟩ := h.before d hd
    rw [hf d (by simp [hd]), Except.ok.injEq] at hw
    exact hw ▸ hlt
  · obtain ⟨w, hw, hle⟩ := h.behind d hd
    rw [hf d (by simp [hd]), Except.ok.injEq] at hw
    exact hw ▸ hle

/-- What is shown of some entries is led where the entries are. -/
theorem foremost_of_shown {es : List (Ticket × State)} {c₁ c₂ : List Candidate} {c : Candidate}
    (h : Shown truth es (c₁ ++ c :: c₂)) (h₁ : ∀ b ∈ c₁, b.weight < c.weight)
    (h₂ : ∀ b ∈ c₂, b.weight ≤ c.weight) :
    ∃ l₁ e l₂, es = l₁ ++ e :: l₂ ∧ l₁.length = c₁.length ∧ Foremost truth l₁ e l₂ c.weight := by
  rw [Shown, List.map_append, List.map_cons] at h
  obtain ⟨l₁, l, rfl, hl₁, hl⟩ := List.map_eq_append_iff.mp h.symm
  obtain ⟨e, l₂, rfl, he, hl₂⟩ := List.map_eq_cons_iff.mp hl
  have hmem : ∀ {l : List (Ticket × State)} {cs : List Candidate},
      (l.map fun e => (e.1, truth e.2)) = cs.map (fun c => (c.ticket, .ok c.weight)) →
      ∀ d ∈ l, ∃ b ∈ cs, truth d.2 = .ok b.weight := by
    intro l cs hlc d hd
    have hm : (d.1, truth d.2) ∈ cs.map fun c => (c.ticket, Except.ok c.weight) :=
      hlc ▸ List.mem_map_of_mem hd
    obtain ⟨b, hb, hbd⟩ := List.mem_map.mp hm
    exact ⟨b, hb, (congrArg Prod.snd hbd).symm⟩
  refine ⟨l₁, e, l₂, rfl, ?_, congrArg Prod.snd he, fun d hd => ?_, fun d hd => ?_⟩
  · simpa using congrArg List.length hl₁
  · obtain ⟨b, hb, hw⟩ := hmem hl₁ d hd
    exact ⟨_, hw, h₁ b hb⟩
  · obtain ⟨b, hb, hw⟩ := hmem hl₂ d hd
    exact ⟨_, hw, h₂ b hb⟩

end Foremost

theorem TaintDistance.Agrees.steady {v : View} {goals : Registry} {c : Coefficients}
    {t : TaintDistance} (h : t.Agrees v goals c) :
    Steady (fun s => (v.estimate goals c s).map Estimate.weight) t := by
  intro weighed s
  induction weighed generalizing t with
  | nil => exact (h.weigh s).1
  | cons x weighed ih => exact ih (h.weigh x).2

namespace Frontier

def polls {χ : Type} [Weighting ω] [ChoiceRule χ] (f : Frontier ω χ τ) :
    Nat → List (Except Fault (Option State))
  | 0 => []
  | n + 1 => f.poll.1 :: f.poll.2.polls n

variable [Weighting ω] {f : Frontier ω HighestWeight τ}

theorem Sound.shown_ascending {χ : Type} {f : Frontier ω χ τ} (h : f.Sound truth)
    {cs : List Candidate} (hs : Shown truth f.entries cs) :
    cs.Pairwise fun a b => a.ticket.number < b.ticket.number := by
  have ht : cs.map (·.ticket.number) = f.entries.map (·.1.number) := by
    simpa [Function.comp_def] using congrArg (List.map fun p => p.1.number) hs
  have hp : (f.entries.map (·.1.number)).Pairwise (· < ·) := List.pairwise_map.mpr h.ascending
  rw [← ht] at hp
  exact List.pairwise_map.mp hp

theorem Sound.poll_foremost (h : f.Sound truth) (hn : f.entries ≠ [])
    (hw : firstFault? truth f.entries = none) :
    ∃ l₁ e l₂ weight, f.entries = l₁ ++ e :: l₂ ∧ Foremost truth l₁ e l₂ weight ∧
      f.poll.1 = .ok (some e.2) ∧ f.poll.2.entries = l₁ ++ l₂ ∧ f.peek.1 = .ok (some e.2) := by
  obtain ⟨cs, hs, ⟨hpoll, -, hafter⟩, hpeek, -⟩ := (h.consults rfl).shown hn hw
  have hcs : cs ≠ [] := by
    rintro rfl
    exact hn (List.map_eq_nil_iff.mp (Eq.symm hs))
  obtain ⟨c₁, c, c₂, rfl, hc, h₁, h₂⟩ := lastStanding_isBetter (h.shown_ascending hs) hcs
  obtain ⟨l₁, e, l₂, he, hl, hforemost⟩ := foremost_of_shown hs h₁ h₂
  have hlt : l₁.length < f.size := by
    rw [← length_entries, he, List.length_append, List.length_cons]
    omega
  have ha : (lastStanding Candidate.isBetter (c₁ ++ c :: c₂)).filter (· < f.size) =
      some l₁.length := by
    rw [hc, ← hl, Option.filter_some, if_pos (decide_eq_true hlt)]
  have hat : f.entries[l₁.length]? = some e := by simp [he]
  rw [ha, Option.bind_some, hat, Option.map_some] at hpoll hpeek
  rw [ha, Option.elim_some, he, List.eraseIdx_append_of_length_le (Nat.le_refl _),
    Nat.sub_self, List.eraseIdx_zero, List.tail_cons] at hafter
  exact ⟨l₁, e, l₂, _, he, hforemost, hpoll, hafter, hpeek⟩

/-- Polling as often as there are held states hands them over in the order of a stable sort. -/
theorem Sound.polls_eq_mergeSort (h : f.Sound truth) (weight : State → Weight)
    (hw : ∀ e ∈ f.entries, truth e.2 = .ok (weight e.2)) :
    f.polls f.entries.length =
      ((f.entries.map (·.2)).mergeSort fun a b => weight b ≤ weight a).map
        fun s => .ok (some s) := by
  generalize hn : f.entries.length = n
  induction n generalizing f with
  | zero =>
    have he : f.entries = [] := List.length_eq_zero_iff.mp hn
    simp [polls, he]
  | succ n ih =>
    have hne : f.entries ≠ [] := fun he => by simp [he] at hn
    have hf : firstFault? truth f.entries = none :=
      firstFault?_eq_none_iff.mpr fun e he => ⟨_, hw e he⟩
    obtain ⟨l₁, e, l₂, w, he, hl, hpoll, hafter, -⟩ := h.poll_foremost hne hf
    rw [he] at hn hw
    obtain ⟨h₁, h₂⟩ := hl.of_weight hw
    have hrest := ih h.poll (fun d hd => hw d ?mem) ?length
    case mem =>
      rw [hafter] at hd
      obtain hd | hd := List.mem_append.mp hd
      · exact List.mem_append_left _ hd
      · exact List.mem_append_right _ (List.mem_cons_of_mem _ hd)
    case length =>
      rw [hafter, List.length_append]
      simp only [List.length_append, List.length_cons] at hn
      omega
    have h₁ : ∀ s ∈ l₁.map (·.2), weight s < weight e.2 := List.forall_mem_map.mpr h₁
    have h₂ : ∀ s ∈ l₂.map (·.2), weight s ≤ weight e.2 := List.forall_mem_map.mpr h₂
    rw [he, List.map_append, List.map_cons, mergeSort_weight h₁ h₂, polls, hpoll, hrest, hafter,
      List.map_append]
    rfl

/-- What follows for a frontier from a choice by weight: the best state is handed over, and no
other changes its place. -/
structure TakesBest (truth : State → Except Fault Weight) (f : Frontier ω HighestWeight τ) :
    Prop where
  empty : f.entries = [] → f.poll.1 = .ok none ∧ f.peek.1 = .ok none
  best : f.entries ≠ [] → (∀ e ∈ f.entries, ∃ weight, truth e.2 = .ok weight) →
    ∃ e, IsBest truth f.entries e ∧
      f.poll.1 = .ok (some e.2) ∧ f.poll.2.entries = f.entries.erase e ∧
      f.peek.1 = .ok (some e.2) ∧
      f.peek.2.poll.1 = .ok (some e.2) ∧ f.peek.2.poll.2.entries = f.entries.erase e
  spared : ∀ s, f.poll.1 = .ok (some s) → truth s = .ok .negInfinity →
    ∀ e ∈ f.entries, ∀ weight, truth e.2 = .ok weight → ¬ Weight.negInfinity < weight
  sorted : f.entries = [] → f.closed = false → ∀ (states : List State) (weight : State → Weight),
    (∀ s ∈ states, truth s = .ok (weight s)) →
    (f.after (states.map .offer)).polls states.length =
      (states.mergeSort fun a b => weight b ≤ weight a).map fun s => .ok (some s)

theorem Sound.poll_best (h : f.Sound truth) (hn : f.entries ≠ [])
    (hw : firstFault? truth f.entries = none) :
    ∃ e, IsBest truth f.entries e ∧ f.poll.1 = .ok (some e.2) ∧
      f.poll.2.entries = f.entries.erase e ∧ f.peek.1 = .ok (some e.2) := by
  obtain ⟨l₁, e, l₂, w, he, hl, hpoll, hafter, hpeek⟩ := h.poll_foremost hn hw
  have ha := h.ascending
  rw [he] at ha
  exact ⟨e, he ▸ hl.isBest ha, hpoll, by rw [hafter, he, hl.erase], hpeek⟩

theorem Sound.peek_poll (h : f.Sound truth) (hn : f.entries ≠ [])
    (hw : firstFault? truth f.entries = none) {e : Ticket × State}
    (he : IsBest truth f.entries e) :
    f.peek.2.poll.1 = .ok (some e.2) ∧ f.peek.2.poll.2.entries = f.entries.erase e := by
  obtain ⟨hs, hse⟩ : f.peek.2.Sound truth ∧ f.peek.2.entries = f.entries := h.choose
  obtain ⟨d, hd, hpoll, hafter, -⟩ := hs.poll_best (by rwa [hse]) (by rwa [hse])
  rw [hse] at hd hafter
  rw [← hd.unique he]
  exact ⟨hpoll, hafter⟩

theorem Sound.poll_spares (h : f.Sound truth) {s : State} (hs : f.poll.1 = .ok (some s))
    {w : Weight} (hw : truth s = .ok w) {e : Ticket × State} (he : e ∈ f.entries) {weight : Weight}
    (hweight : truth e.2 = .ok weight) : ¬ w < weight := by
  have hn : f.entries ≠ [] := List.ne_nil_of_mem he
  cases hf : firstFault? truth f.entries with
  | some fault =>
    have hpoll := ((h.consults rfl).fault fault hf).1.1
    rw [hs] at hpoll
    cases hpoll
  | none =>
    obtain ⟨d, hd, hpoll, -⟩ := h.poll_best hn hf
    rw [hs] at hpoll
    cases hpoll
    rw [Weight.lt_iff]
    obtain rfl | ⟨v, v', hv, hv', hlt⟩ := hd.best e he
    · rw [hw] at hweight
      cases hweight
      omega
    · rw [hw] at hv
      rw [hweight] at hv'
      cases hv
      cases hv'
      obtain hlt | ⟨rfl, -⟩ := hlt
      · have := Weight.lt_iff.mp hlt
        omega
      · omega

theorem Sound.takesBest (h : f.Sound truth) : f.TakesBest truth where
  empty hn := by
    obtain ⟨hpoll, hpeek⟩ := (h.consults rfl).empty hn
    rw [hpoll, hpeek]
    exact ⟨rfl, rfl⟩
  best hn hw := by
    have hf := firstFault?_eq_none_iff.mpr hw
    obtain ⟨e, he, hpoll, hafter, hpeek⟩ := h.poll_best hn hf
    exact ⟨e, he, hpoll, hafter, hpeek, h.peek_poll hn hf he⟩
  spared s hs hneg e he weight hweight := h.poll_spares hs hneg he hweight
  sorted hn hc states weight hw := by
    have hs := (after_offers hc states).1
    rw [Frontier.states, Frontier.states, hn, List.map_nil, List.nil_append] at hs
    have hl : (f.after (states.map .offer)).entries.length = states.length := by
      simpa using congrArg List.length hs
    have hp := (h.after (states.map .offer)).polls_eq_mergeSort weight fun e he =>
      hw e.2 (hs ▸ List.mem_map_of_mem he)
    rw [hl, hs] at hp
    exact hp

/-- Whatever was done with a frontier, a choice by weight takes the best state from it, and every
rule that reads weights is shown the weights of all that is held, in the order of the tickets. -/
theorem highestWeight_order {w : ω} (hw : Steady truth w) (stop : τ) (ops : List Operation) :
    ((start w HighestWeight.mk stop).after ops).TakesBest truth ∧
    ∀ (χ : Type) [ChoiceRule χ] (rule : χ),
      ChoiceRule.usesWeights ((start w rule stop).after ops).choice →
      ((start w rule stop).after ops).Consults truth ∧
        ((start w rule stop).after ops).entries.Pairwise fun a b => a.1.number < b.1.number := by
  refine ⟨((Sound.start hw _ stop).after ops).takesBest, fun χ _ rule hu => ?_⟩
  have hs := (Sound.start hw rule stop).after ops
  exact ⟨hs.consults hu, hs.ascending⟩

theorem highestWeight_order_nearest :
    ∃ t, TaintDistance.ofSettings twoMethods.view TaintDistance.behindCall {} = .ok t ∧
      let f := (start t HighestWeight.mk NeverStop.mk).after
        [.offer (.root ⟨⟨0⟩, 0⟩), .peek, .offer (.root ⟨⟨0⟩, 1⟩)]
      f.poll.1 = .ok (some (.root ⟨⟨0⟩, 1⟩)) ∧
      f.TakesBest fun s => (twoMethods.view.estimate TaintDistance.behindCall ⟨1, 3⟩ s).map
        Estimate.weight := by
  have ht : TaintDistance.ofSettings twoMethods.view TaintDistance.behindCall {} = .ok _ := rfl
  refine ⟨_, ht, by rfl, ?_⟩
  exact (highestWeight_order (TaintDistance.Agrees.ofSettings ht).steady NeverStop.mk _).1

end Frontier

end PathExplorer
