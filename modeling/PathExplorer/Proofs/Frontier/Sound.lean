import Mathlib.Data.List.InsertIdx
import PathExplorer.Frontier.Basic

namespace PathExplorer

variable {ω χ τ : Type} {truth : State → Except Fault Weight}

/-- The weighting gives every state the same weight, or the same fault, whatever it weighed. -/
def Steady [Weighting ω] (truth : State → Except Fault Weight) (w : ω) : Prop :=
  ∀ (weighed : List State) (s : State),
    (Weighting.weigh s (weighed.foldl (fun w x => (Weighting.weigh x w).2) w)).1 = truth s

def Held.Known (truth : State → Except Fault Weight) (h : Held) : Prop :=
  ∀ weight, h.weight = some weight → truth h.state = .ok weight

def Held.entry (h : Held) : Ticket × State := (h.ticket, h.state)

def Held.remember (t : Ticket) (weight : Weight) (h : Held) : Held :=
  if h.ticket = t then { h with weight := some weight } else h

def firstFault? (truth : State → Except Fault Weight) (es : List (Ticket × State)) :
    Option Fault :=
  es.findSome? fun e => match truth e.2 with
    | .error fault => some fault
    | .ok _ => none

def Shown (truth : State → Except Fault Weight) (es : List (Ticket × State))
    (cs : List Candidate) : Prop :=
  cs.map (fun c => (c.ticket, .ok c.weight)) = es.map fun e => (e.1, truth e.2)

inductive Operation where
  | offer (s : State)
  | poll
  | peek
  | remove (t : Ticket)
  | weightOf (t : Ticket)
  | close

namespace Frontier

def start (weighting : ω) (choice : χ) (stop : τ) : Frontier ω χ τ := { weighting, choice, stop }

def entries (f : Frontier ω χ τ) : List (Ticket × State) := f.held.map Held.entry

def act [Weighting ω] [ChoiceRule χ] (f : Frontier ω χ τ) : Operation → Frontier ω χ τ
  | .offer s => (f.offer s).2
  | .poll => f.poll.2
  | .peek => f.peek.2
  | .remove t => (f.remove t).2
  | .weightOf t => (f.weightOf t).2
  | .close => f.close

def after [Weighting ω] [ChoiceRule χ] (f : Frontier ω χ τ) (ops : List Operation) :
    Frontier ω χ τ := ops.foldl act f

inductive Asks [Weighting ω] (f : Frontier ω χ τ) (t : Ticket) :
    Except Fault (Option Weight) × Frontier ω χ τ → Prop
  | missing : t ∉ f.tickets → Asks f t (.ok none, f)
  | known {x : Held} {weight : Weight} : x ∈ f.held → x.ticket = t → x.weight = some weight →
      Asks f t (.ok (some weight), f)
  | fault {x : Held} {fault : Fault} {w : ω} : x ∈ f.held → x.ticket = t → x.weight = none →
      Weighting.weigh x.state f.weighting = (.error fault, w) →
      Asks f t (.error fault, { f with weighting := w })
  | weighed {x : Held} {weight : Weight} {w : ω} : x ∈ f.held → x.ticket = t → x.weight = none →
      Weighting.weigh x.state f.weighting = (.ok weight, w) →
      Asks f t (.ok (some weight), { f with
        held := f.held.map (Held.remember t weight)
        weighting := w
        stats.weighted := f.stats.weighted + 1 })

structure Sound [Weighting ω] (truth : State → Except Fault Weight) (f : Frontier ω χ τ) :
    Prop where
  steady : Steady truth f.weighting
  known : ∀ h ∈ f.held, h.Known truth
  ascending : f.entries.Pairwise fun a b => a.1.number < b.1.number
  fresh : ∀ e ∈ f.entries, e.1.number < f.next

end Frontier

namespace Steady

variable [Weighting ω] {w : ω}

theorem weigh (h : Steady truth w) (s : State) : (Weighting.weigh s w).1 = truth s := h [] s

theorem next (h : Steady truth w) (s : State) : Steady truth (Weighting.weigh s w).2 :=
  fun weighed => h (s :: weighed)

end Steady

theorem firstFault?_eq_none_iff {es : List (Ticket × State)} :
    firstFault? truth es = none ↔ ∀ e ∈ es, ∃ weight, truth e.2 = .ok weight := by
  rw [firstFault?, List.findSome?_eq_none_iff]
  apply forall₂_congr
  intro e _
  cases truth e.2 <;> simp

section Weighing

variable [Weighting ω]

/-- What comes of weighing states of which nothing wrong is remembered. -/
structure Weighed.Sound (truth : State → Except Fault Weight) (held : List Held) (r : Weighed ω) :
    Prop where
  steady : Steady truth r.weighting
  entries : r.held.map Held.entry = held.map Held.entry
  known : ∀ h ∈ r.held, h.Known truth
  fault : r.fault = firstFault? truth (held.map Held.entry)
  complete : r.fault = none → ∀ h ∈ r.held, h.weight.isSome

namespace Weighed.Sound

variable {h : Held} {held : List Held} {r : Weighed ω}

theorem nil {w : ω} (hw : Steady truth w) : Sound truth [] ⟨[], 0, none, w⟩ where
  steady := hw
  entries := rfl
  known := by simp
  fault := rfl
  complete := by simp

theorem cons (hr : Sound truth held r) {h' : Held} (he : h'.entry = h.entry)
    {weight : Weight} (hh : h'.weight = some weight) (ht : truth h'.state = .ok weight) (n : Nat) :
    Sound truth (h :: held) ⟨h' :: r.held, n, r.fault, r.weighting⟩ where
  steady := hr.steady
  entries := by simp [he, hr.entries]
  known := by
    refine List.forall_mem_cons.mpr ⟨fun w hw => ?_, hr.known⟩
    rw [hh] at hw
    cases hw
    exact ht
  fault := by
    have ht : truth h.entry.2 = .ok weight := he ▸ ht
    simp only [hr.fault, firstFault?, List.map_cons, List.findSome?_cons, ht]
  complete hf := List.forall_mem_cons.mpr ⟨by simp [hh], hr.complete hf⟩

theorem stuck {w : ω} (hw : Steady truth w) (hk : ∀ x ∈ h :: held, x.Known truth) {fault : Fault}
    (ht : truth h.state = .error fault) :
    Sound truth (h :: held) ⟨h :: held, 0, some fault, w⟩ where
  steady := hw
  entries := rfl
  known := hk
  fault := by
    have ht : truth h.entry.2 = .error fault := ht
    simp only [firstFault?, List.map_cons, List.findSome?_cons, ht]
  complete hf := by cases hf

end Weighed.Sound

theorem weighAll_sound {held : List Held} {w : ω} (hw : Steady truth w)
    (hk : ∀ h ∈ held, h.Known truth) : (Frontier.weighAll held w).Sound truth held := by
  induction held generalizing w with
  | nil => exact .nil hw
  | cons h held ih =>
    obtain ⟨hh, hks⟩ := List.forall_mem_cons.mp hk
    unfold Frontier.weighAll
    cases hm : h.weight with
    | some weight =>
      rw [if_pos (Option.isSome_some)]
      exact (ih hw hks).cons rfl hm (hh weight hm) _
    | none =>
      rw [if_neg (by simp)]
      have ht := hw.weigh h.state
      have hn := hw.next h.state
      cases hr : Weighting.weigh h.state w with
      | mk result next =>
        rw [hr] at ht hn
        cases result with
        | error fault => exact .stuck hn hk ht.symm
        | ok weight =>
          have he : Held.entry { h with weight := some weight } = h.entry := rfl
          exact (ih hn hks).cons he rfl ht.symm _

end Weighing

namespace Frontier

variable {f g : Frontier ω χ τ}

theorem entries_eq_nil_iff : f.entries = [] ↔ f.held = [] := List.map_eq_nil_iff

theorem length_entries (f : Frontier ω χ τ) : f.entries.length = f.size := List.length_map ..

theorem state_at (f : Frontier ω χ τ) (i : Nat) :
    f.held[i]?.map (·.state) = f.entries[i]?.map (·.2) := by
  simp [entries, Held.entry, Function.comp_def]

theorem mem_tickets_iff {t : Ticket} : t ∈ f.tickets ↔ f.find? t ≠ none := by
  rw [find?, Ne, List.find?_eq_none, tickets, List.mem_map]
  simp

theorem entry_remember (t : Ticket) (weight : Weight) (h : Held) :
    (h.remember t weight).entry = h.entry := by
  unfold Held.remember
  split <;> rfl

variable [Weighting ω]

theorem weightOf_spec (f : Frontier ω χ τ) (t : Ticket) : f.Asks t (f.weightOf t) := by
  unfold weightOf
  cases hf : f.find? t with
  | none => exact .missing fun ht => mem_tickets_iff.mp ht hf
  | some x =>
    have hx : x ∈ f.held := List.mem_of_find?_eq_some hf
    have hxt : x.ticket = t := of_decide_eq_true (List.find?_some hf :)
    dsimp only
    cases hw : x.weight with
    | some weight => exact .known hx hxt hw
    | none =>
      dsimp only
      cases hr : Weighting.weigh x.state f.weighting with
      | mk result w =>
        cases result with
        | error fault => exact .fault hx hxt hw hr
        | ok weight => exact .weighed hx hxt hw hr

theorem weightOf_entries (f : Frontier ω χ τ) (t : Ticket) :
    (f.weightOf t).2.entries = f.entries := by
  have h := f.weightOf_spec t
  generalize f.weightOf t = r at h ⊢
  cases h with
  | missing | known | fault => rfl
  | weighed =>
    change List.map _ (List.map _ _) = _
    rw [List.map_map]
    exact List.map_congr_left fun x _ => entry_remember t _ x

namespace Sound

theorem start {w : ω} (hw : Steady truth w) (choice : χ) (stop : τ) :
    (start w choice stop).Sound truth where
  steady := hw
  known := by simp [Frontier.start]
  ascending := by simp [Frontier.start, entries]
  fresh := by simp [Frontier.start, entries]

theorem sublist (h : f.Sound truth) (hw : g.weighting = f.weighting)
    (hs : g.held.Sublist f.held) (hn : g.next = f.next) : g.Sound truth where
  steady := hw ▸ h.steady
  known x hx := h.known x (hs.subset hx)
  ascending := h.ascending.sublist (hs.map _)
  fresh e he := hn ▸ h.fresh e ((hs.map _).subset he)

theorem offer (h : f.Sound truth) (s : State) : (f.offer s).2.Sound truth := by
  unfold Frontier.offer
  dsimp only
  split
  · exact ⟨h.steady, h.known, h.ascending, fun e he => Nat.lt_succ_of_lt (h.fresh e he)⟩
  · refine ⟨h.steady, ?known, ?ascending, ?fresh⟩
    case known =>
      intro x hx
      obtain hx | hx := List.mem_append.mp hx
      · exact h.known x hx
      · cases List.mem_singleton.mp hx
        intro weight hw
        cases hw
    case ascending =>
      change (List.map _ (_ ++ _)).Pairwise _
      rw [List.map_append]
      refine List.pairwise_append.mpr ⟨h.ascending, by simp, fun a ha b hb => ?_⟩
      cases List.mem_singleton.mp hb
      exact h.fresh a ha
    case fresh =>
      intro e he
      change e ∈ List.map _ (_ ++ _) at he
      rw [List.map_append] at he
      obtain he | he := List.mem_append.mp he
      · exact Nat.lt_succ_of_lt (h.fresh e he)
      · cases List.mem_singleton.mp he
        exact Nat.lt_succ_self _

theorem remove (h : f.Sound truth) (t : Ticket) : (f.remove t).2.Sound truth := by
  unfold Frontier.remove
  split
  · exact h
  · exact h.sublist rfl List.eraseP_sublist rfl

theorem close (h : f.Sound truth) : f.close.Sound truth := by
  unfold Frontier.close
  split
  · exact h
  · exact h.sublist rfl (List.nil_sublist _) rfl

theorem eq_of_ticket (h : f.Sound truth) {a b : Ticket × State} (ha : a ∈ f.entries)
    (hb : b ∈ f.entries) (ht : a.1 = b.1) : a = b := by
  have hlt : f.entries.Pairwise fun a b => a.1 = b.1 → a = b :=
    h.ascending.imp fun hab he => by
      rw [he] at hab
      exact absurd hab (Nat.lt_irrefl _)
  have hgt : f.entries.Pairwise fun a b => b.1 = a.1 → b = a :=
    h.ascending.imp fun hab he => by
      rw [he] at hab
      exact absurd hab (Nat.lt_irrefl _)
  exact hlt.forall_of_forall_of_flip (fun _ _ _ => rfl) hgt ha hb ht

theorem of_entries (h : f.Sound truth) (he : g.entries = f.entries) (hn : g.next = f.next)
    (hs : Steady truth g.weighting) (hk : ∀ x ∈ g.held, x.Known truth) : g.Sound truth where
  steady := hs
  known := hk
  ascending := he ▸ h.ascending
  fresh := by
    rw [he, hn]
    exact h.fresh

theorem known_remember (h : f.Sound truth) {x y : Held} (hx : x ∈ f.held) {weight : Weight}
    (ht : truth x.state = .ok weight) (hy : y ∈ f.held.map (Held.remember x.ticket weight)) :
    y.Known truth := by
  obtain ⟨z, hz, rfl⟩ := List.mem_map.mp hy
  unfold Held.remember
  by_cases hzt : z.ticket = x.ticket
  · have hzx : z.entry = x.entry :=
      h.eq_of_ticket (List.mem_map_of_mem hz) (List.mem_map_of_mem hx) hzt
    have hstate : z.state = x.state := congrArg Prod.snd hzx
    rw [if_pos hzt]
    intro w hw
    cases hw
    exact hstate ▸ ht
  · rw [if_neg hzt]
    exact h.known z hz

theorem weightOf (h : f.Sound truth) (t : Ticket) : (f.weightOf t).2.Sound truth := by
  have he := f.weightOf_entries t
  have ha := f.weightOf_spec t
  generalize f.weightOf t = r at ha he ⊢
  cases ha with
  | missing | known => exact h
  | @fault x _ _ _ _ _ hr =>
    have hs := h.steady.next x.state
    rw [hr] at hs
    exact h.of_entries rfl rfl hs h.known
  | @weighed x _ _ hx hxt _ hr =>
    subst hxt
    have ht := h.steady.weigh x.state
    have hs := h.steady.next x.state
    rw [hr] at ht hs
    exact h.of_entries he rfl hs fun y hy => h.known_remember hx ht.symm hy

theorem settle (h : f.Sound truth) : (f.settle (weighAll f.held f.weighting)).Sound truth := by
  have hs := weighAll_sound h.steady h.known
  exact h.of_entries hs.entries rfl hs.steady hs.known

end Sound

section Choice

variable [ChoiceRule χ]

theorem choose_of_isEmpty (h : f.entries = []) : f.choose = (.ok none, f) := by
  have he : f.isEmpty := List.isEmpty_iff.mpr (entries_eq_nil_iff.mp h)
  rw [choose, if_pos he]

theorem choose_of_not_isEmpty (h : f.entries ≠ []) :
    f.choose = match f.prepare with
      | (some fault, g) => (.error fault, g)
      | (none, g) => (.ok ((ChoiceRule.choose g.candidates g.choice).1.filter (· < g.size)),
          { g with choice := (ChoiceRule.choose g.candidates g.choice).2 }) := by
  have he : ¬ f.isEmpty := fun he => h (entries_eq_nil_iff.mpr (List.isEmpty_iff.mp he))
  rw [choose]
  exact if_neg he

theorem Sound.prepare (h : f.Sound truth) : f.prepare.2.Sound truth ∧
    f.prepare.2.entries = f.entries ∧ f.prepare.2.choice = f.choice := by
  unfold Frontier.prepare
  split
  · exact ⟨h.settle, (weighAll_sound h.steady h.known).entries, rfl⟩
  · exact ⟨h, rfl, rfl⟩

theorem Sound.choose (h : f.Sound truth) :
    f.choose.2.Sound truth ∧ f.choose.2.entries = f.entries := by
  by_cases hn : f.entries = []
  · rw [choose_of_isEmpty hn]
    exact ⟨h, rfl⟩
  · obtain ⟨hs, he, -⟩ := h.prepare
    rw [choose_of_not_isEmpty hn]
    cases hp : f.prepare with
    | mk fault g =>
      rw [hp] at hs he
      cases fault with
      | some fault => exact ⟨hs, he⟩
      | none => exact ⟨hs.of_entries rfl rfl hs.steady hs.known, he⟩

theorem peek_fst (f : Frontier ω χ τ) :
    f.peek.1 = f.choose.1.map fun answer =>
      answer.bind fun i => f.choose.2.held[i]?.map (·.state) := rfl

theorem Sound.poll (h : f.Sound truth) : f.poll.2.Sound truth := by
  obtain ⟨hs, -⟩ := h.choose
  unfold Frontier.poll
  cases hc : f.choose with
  | mk result g =>
    rw [hc] at hs
    cases result with
    | error fault => exact hs
    | ok answer =>
      cases answer with
      | none => exact hs
      | some i => exact hs.sublist rfl (List.eraseIdx_sublist ..) rfl

theorem Sound.act (h : f.Sound truth) (op : Operation) : (f.act op).Sound truth := by
  cases op with
  | offer s => exact h.offer s
  | poll => exact h.poll
  | peek => exact h.choose.1
  | remove t => exact h.remove t
  | weightOf t => exact h.weightOf t
  | close => exact h.close

theorem Sound.after (h : f.Sound truth) (ops : List Operation) : (f.after ops).Sound truth := by
  induction ops generalizing f with
  | nil => exact h
  | cons op ops ih => exact ih (h.act op)

end Choice

theorem Sound.candidates_shown (h : f.Sound truth) (hw : ∀ x ∈ f.held, x.weight.isSome) :
    Shown truth f.entries f.candidates := by
  rw [Shown, entries, candidates, List.map_map, List.map_map]
  apply List.map_congr_left
  intro x hx
  obtain ⟨weight, hx'⟩ := Option.isSome_iff_exists.mp (hw x hx)
  have ht := h.known x hx weight hx'
  simp [Held.entry, ht, hx']

section Outcome

variable [ChoiceRule χ]

/-- If some held state cannot be weighed, the rule is not asked. -/
theorem Sound.choose_fault (h : f.Sound truth) (hu : ChoiceRule.usesWeights f.choice)
    {fault : Fault} (hf : firstFault? truth f.entries = some fault) :
    f.choose.1 = .error fault ∧ f.choose.2.choice = f.choice := by
  have hn : f.entries ≠ [] := fun hn => by simp [hn, firstFault?] at hf
  have hs := weighAll_sound h.steady h.known
  have hw : (weighAll f.held f.weighting).fault = some fault := hs.fault.trans hf
  rw [choose_of_not_isEmpty hn, Frontier.prepare, if_pos hu]
  simp only [hw, true_and]
  rfl

/-- If every held state can be weighed, the rule is asked about all of them. -/
theorem Sound.choose_shown (h : f.Sound truth) (hu : ChoiceRule.usesWeights f.choice)
    (hn : f.entries ≠ []) (hf : firstFault? truth f.entries = none) :
    ∃ cs, Shown truth f.entries cs ∧
      f.choose.1 = .ok ((ChoiceRule.choose cs f.choice).1.filter (· < f.size)) ∧
      f.choose.2.choice = (ChoiceRule.choose cs f.choice).2 := by
  have hs := weighAll_sound h.steady h.known
  have hw : (weighAll f.held f.weighting).fault = none := hs.fault.trans hf
  have hc := h.settle.candidates_shown (hs.complete hw)
  have he : (f.settle (weighAll f.held f.weighting)).entries = f.entries := hs.entries
  have hl : (f.settle (weighAll f.held f.weighting)).size = f.size := by
    rw [← length_entries, he, length_entries]
  rw [he] at hc
  refine ⟨_, hc, ?_⟩
  rw [choose_of_not_isEmpty hn, Frontier.prepare, if_pos hu]
  simp only [hw, hl]
  exact ⟨rfl, rfl⟩

theorem peek_of_choose {answer : Option Nat} (h : f.choose.1 = .ok answer)
    (he : f.choose.2.entries = f.entries) :
    f.peek.1 = .ok (answer.bind fun i => f.entries[i]?.map (·.2)) := by
  rw [peek_fst, h]
  simp only [state_at, he]
  rfl

theorem poll_of_fault {fault : Fault} (h : f.choose.1 = .error fault) :
    f.poll = (.error fault, f.choose.2) := by
  unfold poll
  cases hc : f.choose with
  | mk result g =>
    rw [hc] at h
    subst h
    rfl

theorem poll_of_choose {answer : Option Nat} (h : f.choose.1 = .ok answer)
    (he : f.choose.2.entries = f.entries) :
    f.poll.1 = .ok (answer.bind fun i => f.entries[i]?.map (·.2)) ∧
      f.poll.2.entries = answer.elim f.entries f.entries.eraseIdx ∧
      f.poll.2.choice = f.choose.2.choice := by
  unfold poll
  cases hc : f.choose with
  | mk result g =>
    rw [hc] at h he
    subst h
    cases answer with
    | none => exact ⟨rfl, he, rfl⟩
    | some i =>
      refine ⟨congrArg Except.ok ?_, ?_, rfl⟩
      · rw [state_at, he]
        rfl
      · rw [← he]
        exact (List.eraseIdx_map ..).symm

/-- How a rule that reads weights is asked: about all that is held, with every weight, or not at
all. -/
structure Consults (truth : State → Except Fault Weight) (f : Frontier ω χ τ) : Prop where
  empty : f.entries = [] → f.poll = (.ok none, f) ∧ f.peek = (.ok none, f)
  fault : ∀ fault, firstFault? truth f.entries = some fault →
    (f.poll.1 = .error fault ∧ f.poll.2.entries = f.entries ∧ f.poll.2.choice = f.choice) ∧
    (f.peek.1 = .error fault ∧ f.peek.2.entries = f.entries ∧ f.peek.2.choice = f.choice)
  shown : f.entries ≠ [] → firstFault? truth f.entries = none →
    ∃ cs, Shown truth f.entries cs ∧
      let (asked, rule) := ChoiceRule.choose cs f.choice
      let answer := asked.filter (· < f.size)
      let result := .ok (answer.bind fun i => f.entries[i]?.map (·.2))
      (f.poll.1 = result ∧ f.poll.2.choice = rule ∧
        f.poll.2.entries = answer.elim f.entries f.entries.eraseIdx) ∧
      (f.peek.1 = result ∧ f.peek.2.choice = rule ∧ f.peek.2.entries = f.entries)

theorem Sound.consults (h : f.Sound truth) (hu : ChoiceRule.usesWeights f.choice) :
    f.Consults truth where
  empty hn := by
    rw [Frontier.poll, Frontier.peek, choose_of_isEmpty hn]
    exact ⟨rfl, rfl⟩
  fault fault hf := by
    obtain ⟨hc, hr⟩ := h.choose_fault hu hf
    obtain ⟨-, he⟩ := h.choose
    have hpeek : f.peek.1 = .error fault := by
      rw [peek_fst, hc]
      rfl
    rw [poll_of_fault hc]
    exact ⟨⟨rfl, he, hr⟩, hpeek, he, hr⟩
  shown hn hf := by
    obtain ⟨cs, hs, hc, hr⟩ := h.choose_shown hu hn hf
    obtain ⟨-, he⟩ := h.choose
    obtain ⟨hpoll, hentries, hrule⟩ := poll_of_choose hc he
    exact ⟨cs, hs, ⟨hpoll, hrule.trans hr, hentries⟩, peek_of_choose hc he, hr, he⟩

end Outcome

end Frontier

end PathExplorer
