import PathExplorer.Proofs.Frontier.Choice
import PathExplorer.Proofs.Frontier.Stock

namespace PathExplorer

variable {ω χ τ : Type} {P : State → Prop}

/-- Whatever states of the kind it weighed, the weighting can weigh any other. -/
def Tireless [Weighting ω] (P : State → Prop) (w : ω) : Prop :=
  ∀ weighed : List State, (∀ x ∈ weighed, P x) → ∀ s, P s → ∃ weight,
    (Weighting.weigh s (weighed.foldl (fun w x => (Weighting.weigh x w).2) w)).1 = .ok weight

structure Asked (cs : List Candidate) : Prop where
  some : cs ≠ []
  ascending : cs.Pairwise fun a b => a.ticket.number < b.ticket.number

def Decisive [ChoiceRule χ] (rule : χ) : Prop :=
  ∀ before : List (List Candidate), (∀ cs ∈ before, Asked cs) → ∀ cs, Asked cs → ∃ i < cs.length,
    (ChoiceRule.choose cs (before.foldl (fun r cs => (ChoiceRule.choose cs r).2) rule)).1 = some i

namespace Tireless

variable [Weighting ω] {w : ω} {s : State}

theorem weigh (h : Tireless P w) (hs : P s) : ∃ weight, (Weighting.weigh s w).1 = .ok weight :=
  h [] (by simp) s hs

theorem next (h : Tireless P w) (hs : P s) : Tireless P (Weighting.weigh s w).2 :=
  fun weighed hw => h (s :: weighed) (List.forall_mem_cons.mpr ⟨hs, hw⟩)

theorem mono {Q : State → Prop} (h : Tireless P w) (hQ : ∀ s, Q s → P s) : Tireless Q w :=
  fun weighed hw s hs => h weighed (fun x hx => hQ x (hw x hx)) s (hQ s hs)

theorem weighAll {held : List Held} (h : Tireless P w) (hs : ∀ x ∈ held, P x.state) :
    (Frontier.weighAll held w).fault = none ∧ Tireless P (Frontier.weighAll held w).weighting := by
  induction held generalizing w with
  | nil => exact ⟨rfl, h⟩
  | cons x held ih =>
    obtain ⟨hx, hs⟩ := List.forall_mem_cons.mp hs
    unfold Frontier.weighAll
    split
    · exact ih h hs
    · obtain ⟨weight, hw⟩ := h.weigh hx
      have hn := h.next hx
      cases hr : Weighting.weigh x.state w with
      | mk result next =>
        rw [hr] at hw hn
        cases hw
        exact ih hn hs

end Tireless

namespace Decisive

variable [ChoiceRule χ] {rule : χ} {cs : List Candidate}

theorem answer (h : Decisive rule) (hc : Asked cs) :
    ∃ i < cs.length, (ChoiceRule.choose cs rule).1 = some i :=
  h [] (by simp) cs hc

theorem next (h : Decisive rule) (hc : Asked cs) : Decisive (ChoiceRule.choose cs rule).2 :=
  fun before hb => h (cs :: before) (List.forall_mem_cons.mpr ⟨hc, hb⟩)

end Decisive

theorem standing_lt {beats : Candidate → Candidate → Bool} {cs : List Candidate} (hn : cs ≠ []) :
    ∃ c i, standing beats cs = some (c, i) ∧ i < cs.length := by
  induction cs using List.reverseRecOn with
  | nil => exact absurd rfl hn
  | append_singleton cs x ih =>
    rw [standing_concat, List.length_append, List.length_singleton]
    by_cases he : cs = []
    · subst he
      exact ⟨x, 0, rfl, Nat.zero_lt_one⟩
    · obtain ⟨c, i, hs, hi⟩ := ih he
      rw [hs]
      dsimp only
      split
      · exact ⟨x, cs.length, rfl, Nat.lt_succ_self _⟩
      · exact ⟨c, i, rfl, Nat.lt_succ_of_lt hi⟩

theorem lastStanding_lt (beats : Candidate → Candidate → Bool) {cs : List Candidate}
    (hn : cs ≠ []) : ∃ i < cs.length, lastStanding beats cs = some i := by
  obtain ⟨c, i, hs, hi⟩ := standing_lt hn
  exact ⟨i, hi, by rw [lastStanding_eq, hs]; rfl⟩

theorem decisive_highestWeight : Decisive HighestWeight.mk :=
  fun _ _ _ hc => lastStanding_lt _ hc.some

theorem decisive_lifo : Decisive Lifo.mk :=
  fun _ _ _ hc => lastStanding_lt (fun a b => !a.isEarlier b) hc.some

theorem tireless_uniform : Tireless P Uniform.mk := fun _ _ _ _ => ⟨.zero, rfl⟩

namespace Frontier

theorem asked_of_ascending {f : Frontier ω χ τ}
    (h : f.entries.Pairwise fun a b => a.1.number < b.1.number) (hn : f.entries ≠ []) :
    Asked f.candidates := by
  have ht : f.candidates.map (·.ticket.number) = f.entries.map (·.1.number) := by
    simp [candidates, entries, Held.entry, Function.comp_def]
  refine ⟨fun hc => hn ?_, ?_⟩
  · rw [hc] at ht
    exact List.map_eq_nil_iff.mp ht.symm
  · have hp : (f.entries.map (·.1.number)).Pairwise (· < ·) := List.pairwise_map.mpr h
    rw [← ht] at hp
    exact List.pairwise_map.mp hp

/-- The frontier is open, all that it holds is of the kind, and it can go on forever. -/
structure Ready [Weighting ω] [ChoiceRule χ] (P : State → Prop) (f : Frontier ω χ τ) : Prop where
  isOpen : f.closed = false
  tireless : Tireless P f.weighting
  decisive : Decisive f.choice
  kind : ∀ e ∈ f.entries, P e.2
  ascending : f.entries.Pairwise fun a b => a.1.number < b.1.number
  fresh : ∀ e ∈ f.entries, e.1.number < f.next

namespace Ready

variable [Weighting ω] [ChoiceRule χ] {f g : Frontier ω χ τ}

theorem start {w : ω} {rule : χ} (hw : Tireless P w) (hr : Decisive rule) (stop : τ) :
    (Frontier.start w rule stop).Ready P where
  isOpen := rfl
  tireless := hw
  decisive := hr
  kind _ he := nomatch he
  ascending := .nil
  fresh _ he := nomatch he

theorem offer (h : f.Ready P) {s : State} (hs : P s) : (f.offer s).2.Ready P := by
  have he : (f.offer s).2.entries = f.entries ++ [(⟨f.next⟩, s)] := by
    simp [offer_of_open h.isOpen, entries, Held.entry]
  rw [offer_of_open h.isOpen] at he ⊢
  refine ⟨h.isOpen, h.tireless, h.decisive, ?kind, ?ascending, ?fresh⟩
  case kind =>
    rw [he]
    exact List.forall_mem_append.mpr ⟨h.kind, by simpa using hs⟩
  case ascending =>
    rw [he]
    refine List.pairwise_append.mpr ⟨h.ascending, by simp, fun a ha b hb => ?_⟩
    cases List.mem_singleton.mp hb
    exact h.fresh a ha
  case fresh =>
    rw [he]
    refine List.forall_mem_append.mpr ⟨fun e hm => Nat.lt_succ_of_lt (h.fresh e hm), ?_⟩
    simp

theorem offers (h : f.Ready P) {new : List State} (hn : ∀ s ∈ new, P s) :
    (f.after (new.map .offer)).Ready P := by
  induction new generalizing f with
  | nil => exact h
  | cons s new ih =>
    obtain ⟨hs, hn⟩ := List.forall_mem_cons.mp hn
    exact ih (h.offer hs) hn

theorem congr (h : f.Ready P) (hk : f.Kept g) (he : g.entries.Sublist f.entries)
    (hw : Tireless P g.weighting) (hr : Decisive g.choice) : g.Ready P where
  isOpen := hk.closed.trans h.isOpen
  tireless := hw
  decisive := hr
  kind e hm := h.kind e (he.subset hm)
  ascending := h.ascending.sublist he
  fresh e hm := hk.next ▸ h.fresh e (he.subset hm)

theorem stop (h : f.Ready P) (stop : τ) : ({ f with stop } : Frontier ω χ τ).Ready P :=
  ⟨h.isOpen, h.tireless, h.decisive, h.kind, h.ascending, h.fresh⟩

theorem asked (h : f.Ready P) (hn : f.entries ≠ []) : Asked f.candidates :=
  asked_of_ascending h.ascending hn

theorem prepare (h : f.Ready P) : f.prepare.1 = none ∧ f.prepare.2.Ready P := by
  obtain ⟨hk, he⟩ := f.kept_prepare
  have hheld : ∀ x ∈ f.held, P x.state := fun x hx => h.kind x.entry (List.mem_map_of_mem hx)
  obtain ⟨hfault, hw⟩ := h.tireless.weighAll hheld
  unfold Frontier.prepare at hk he ⊢
  split
  · rw [if_pos ‹_›] at hk he
    exact ⟨hfault, h.congr hk (he ▸ .refl _) hw h.decisive⟩
  · exact ⟨rfl, h⟩

theorem choose (h : f.Ready P) (hn : f.entries ≠ []) :
    f.choose.2.Ready P ∧ ∃ i, f.choose.1 = .ok (some i) := by
  obtain ⟨hfault, hready⟩ := h.prepare
  obtain ⟨-, he⟩ := f.kept_prepare
  rw [choose_of_not_isEmpty hn]
  cases hp : f.prepare with
  | mk fault g =>
    rw [hp] at hfault hready he
    cases hfault
    have hasked := hready.asked (he ▸ hn)
    obtain ⟨i, hi, hanswer⟩ := hready.decisive.answer hasked
    refine ⟨hready.congr ⟨rfl, rfl, rfl, rfl⟩ (.refl _) hready.tireless
      (hready.decisive.next hasked), i, ?_⟩
    have hi : i < g.size := by
      rw [candidates, List.length_map] at hi
      exact hi
    have hfilter : (some i).filter (· < g.size) = some i := by
      rw [Option.filter_some, if_pos (decide_eq_true hi)]
    exact congrArg Except.ok ((congrArg _ hanswer).trans hfilter)

theorem poll (h : f.Ready P) (hn : f.entries ≠ []) :
    f.poll.2.Ready P ∧ ∃ s, P s ∧ f.poll.1 = .ok (some s) := by
  obtain ⟨hready, i, hi⟩ := h.choose hn
  have hp := f.poll_spec
  generalize f.poll = r at hp ⊢
  cases hp with
  | fault hc | nothing hc =>
    rw [hc] at hi
    cases hi
  | @hands g before after x hc hheld =>
    rw [hc] at hready
    have hx : P x.state := hready.kind x.entry (List.mem_map_of_mem (by simp [hheld]))
    have hsub : (before ++ after).Sublist g.held := by
      rw [hheld]
      exact (List.sublist_cons_self ..).append_left _
    exact ⟨hready.congr ⟨rfl, rfl, rfl, rfl⟩ (hsub.map _) hready.tireless hready.decisive,
      x.state, hx, rfl⟩

end Ready

end Frontier

inductive BuiltIn : (χ : Type) → ChoiceRule χ → Prop
  | highestWeight : BuiltIn HighestWeight inferInstance
  | fifo : BuiltIn Fifo inferInstance
  | lifo : BuiltIn Lifo inferInstance

section Choice

variable [rules : ChoiceRule χ]

theorem BuiltIn.answers (h : BuiltIn χ rules) (rule : χ) {cs : List Candidate} (hn : cs ≠ []) :
    ∃ i < cs.length, (ChoiceRule.choose cs rule).1 = some i := by
  cases h with
  | highestWeight => exact lastStanding_lt Candidate.isBetter hn
  | fifo => exact lastStanding_lt Candidate.isEarlier hn
  | lifo => exact lastStanding_lt (fun a b => !a.isEarlier b) hn

theorem Frontier.held_of_poll_none [Weighting ω] {f : Frontier ω χ τ} (h : BuiltIn χ rules)
    (hp : f.poll.1 = .ok none) : f.held = [] := by
  by_contra hn
  have hentries : f.entries ≠ [] := fun he => hn (entries_eq_nil_iff.mp he)
  have hchoose : f.choose.1 = .ok none := by
    have hspec := f.poll_spec
    generalize f.poll = r at hp hspec
    cases hspec with
    | fault => cases hp
    | nothing hc => rw [hc]
    | hands => cases hp
  obtain ⟨-, he⟩ := f.kept_prepare
  rw [choose_of_not_isEmpty hentries] at hchoose
  cases hprepare : f.prepare with
  | mk fault g =>
    rw [hprepare] at hchoose he
    cases fault with
    | some fault => cases hchoose
    | none =>
      have hg : g.candidates ≠ [] := by
        intro hc
        rw [← he] at hentries
        exact hentries (entries_eq_nil_iff.mpr (List.map_eq_nil_iff.mp hc))
      obtain ⟨i, hi, hanswer⟩ := h.answers g.choice hg
      have hi : i < g.size := by
        rw [candidates, List.length_map] at hi
        exact hi
      dsimp only at hchoose
      rw [hanswer, Option.filter_some, if_pos (decide_eq_true hi)] at hchoose
      cases hchoose

end Choice

end PathExplorer
