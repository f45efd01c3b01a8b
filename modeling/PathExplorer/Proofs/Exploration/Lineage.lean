import PathExplorer.Proofs.Exploration.Tally
import PathExplorer.Proofs.Frontier.Insertion

namespace PathExplorer

open scoped List

/-- An offered state, and the steps in which those were polled that it descends from, the latest
first. -/
structure Member where
  state : State
  line : List Nat

namespace Member

def generation (m : Member) : Nat := m.line.length

def DescendsFrom (m : Member) (step : Nat) : Prop := step ∈ m.line

/-- The step in which the state was offered, and 0 for an initial one. -/
def offeredAt (m : Member) : Nat := m.line.headD 0

def brood (m : Member) (step : Nat) (t : Turn) : List Member :=
  t.offered.map fun s => ⟨s, step :: m.line⟩

variable {m x : Member} {step : Nat} {t : Turn}

theorem states_brood (m : Member) (step : Nat) (t : Turn) :
    (m.brood step t).map (·.state) = t.offered := by
  rw [brood, List.map_map]
  exact List.map_id _

theorem generation_of_mem_brood (h : x ∈ m.brood step t) : x.generation = m.generation + 1 := by
  obtain ⟨s, -, rfl⟩ := List.mem_map.mp h
  rfl

theorem line_of_mem_brood (h : x ∈ m.brood step t) : x.line = step :: m.line := by
  obtain ⟨s, -, rfl⟩ := List.mem_map.mp h
  rfl

/-- A state descends from none that was polled after it was offered. -/
theorem not_descendsFrom (h : m.line.Pairwise (· > ·)) (hlt : m.offeredAt < step) :
    ¬ m.DescendsFrom step := by
  intro hd
  rw [DescendsFrom] at hd
  rw [offeredAt] at hlt
  cases hl : m.line with
  | nil =>
    rw [hl] at hd
    cases hd
  | cons latest rest =>
    rw [hl] at h hd hlt
    obtain rfl | hd := List.mem_cons.mp hd
    · exact Nat.lt_irrefl _ hlt
    · exact Nat.lt_asymm hlt ((List.pairwise_cons.mp h).1 step hd)

end Member

/-- The states that were offered and those that were polled, in that order, and those that are
held. -/
structure Family where
  offered : List Member
  polled : List Member
  held : List Member

namespace Family

def begun (initial : List State) : Family where
  offered := initial.map fun s => ⟨s, []⟩
  polled := []
  held := initial.map fun s => ⟨s, []⟩

def take (f : Family) (position : Nat) (t : Turn) : Family :=
  match f.held[position]? with
  | none => f
  | some m =>
    let brood := m.brood (f.polled.length + 1) t
    { offered := f.offered ++ brood
      polled := f.polled ++ [m]
      held := f.held.eraseIdx position ++ brood }

variable {ω χ τ ι : Type} [Weighting ω] [ChoiceRule χ]

def next [StopRule τ] [Interpreter ι] (f : Family) (s : Session (Frontier ω χ τ) ι) : Family :=
  match s.turn?, s.frontier.chosen? with
  | some t, some position => f.take position t
  | _, _ => f

structure Records (f : Family) (initial : List State) (ts : List Turn)
    (s : Session (Frontier ω χ τ) ι) : Prop where
  offered : f.offered.map (·.state) = initial ++ ts.flatMap Turn.offered
  polled : f.polled.map (·.state) = ts.map (·.state)
  held : f.held.map (·.state) = s.frontier.states
  all : f.polled ++ f.held ~ f.offered
  descent : ∀ x ∈ f.offered, x.state ∈ initial ∧ x.line = [] ∨ ∃ (k : Nat) (m : Member) (t : Turn),
    f.polled[k]? = some m ∧ ts[k]? = some t ∧ x.state ∈ t.offered ∧ x.line = (k + 1) :: m.line

end Family

def Session.family {ω χ τ ι : Type} [StopRule τ] [Weighting ω] [ChoiceRule χ] [Interpreter ι] :
    Nat → Session (Frontier ω χ τ) ι → Family → Family
  | 0, _, f => f
  | n + 1, s, f =>
    match s.round with
    | (none, next) => family n next (f.next s)
    | (some _, _) => f.next s

namespace Family

variable {ω χ τ ι : Type} [Weighting ω] [ChoiceRule χ] {f : Family} {m : Member}
  {t : Turn} {ts : List Turn} {initial : List State} {s next : Session (Frontier ω χ τ) ι}
  {before after : List Member}

theorem take_of_held (h : f.held = before ++ m :: after) : f.take before.length t =
    ⟨f.offered ++ m.brood (f.polled.length + 1) t, f.polled ++ [m],
      before ++ after ++ m.brood (f.polled.length + 1) t⟩ := by
  have hm : f.held[before.length]? = some m := by rw [h]; simp
  have herase : f.held.eraseIdx before.length = before ++ after := by
    rw [h, List.eraseIdx_append_of_length_le (Nat.le_refl _), Nat.sub_self]
    rfl
  rw [take, hm, herase]

theorem Records.take [StopRule τ] [Interpreter ι] (h : f.Records initial ts s) (ht : s.Takes t next)
    (hopen : s.frontier.closed = false) (hheld : f.held = before ++ m :: after)
    (hm : m.state = t.state)
    (hrest : s.frontier.poll.2.states = (before ++ after).map (·.state)) :
    (f.take before.length t).Records initial (ts ++ [t]) next := by
  obtain ⟨hstates, -, -⟩ := ht.stock hopen
  have hbrood := Member.states_brood m (f.polled.length + 1) t
  rw [take_of_held hheld]
  refine ⟨?offered, ?polled, ?held, ?all, ?descent⟩
  case offered =>
    rw [List.map_append, h.offered, hbrood, List.append_assoc, List.flatMap_append,
      List.flatMap_singleton]
  case polled => rw [List.map_append, h.polled, List.map_append, List.map_singleton, hm]; rfl
  case held => rw [List.map_append, hbrood, hstates, hrest]
  case all =>
    have hall : f.polled ++ [m] ++ (before ++ after) ~ f.offered := by
      refine .trans ?_ h.all
      rw [hheld, List.append_assoc, List.singleton_append]
      exact List.perm_middle.symm.append_left _
    rw [← List.append_assoc]
    exact hall.append_right _
  case descent =>
    have hlength : f.polled.length = ts.length := by
      simpa using congrArg List.length h.polled
    intro x hx
    obtain hx | hx := List.mem_append.mp hx
    · obtain hfirst | ⟨k, p, u, hp, hu, hx⟩ := h.descent x hx
      · exact .inl hfirst
      · have hk := (List.getElem?_eq_some_iff.mp hp).1
        refine .inr ⟨k, p, u, ?_, ?_, hx⟩
        · rw [List.getElem?_append_left hk, hp]
        · rw [List.getElem?_append_left (hlength ▸ hk), hu]
    · obtain ⟨y, hy, rfl⟩ := List.mem_map.mp hx
      exact .inr ⟨f.polled.length, m, t, List.getElem?_concat_length, by simp [hlength], hy, rfl⟩

end Family

namespace Session

variable {ω χ τ ι : Type} [StopRule τ] [Weighting ω] [ChoiceRule χ] [Interpreter ι]
  {f : Family} {initial : List State} {ts : List Turn} {s next : Session (Frontier ω χ τ) ι}

theorem Round.filed {t? : Option Turn} {ending : Option Ending} (h : s.Round t? ending next)
    (hs : s.frontier.Filed) : next.frontier.Filed := by
  cases h with
  | stop => exact hs
  | fault | exhausted => exact hs.poll
  | take _ _ _ ht =>
    obtain ⟨stop, hfrontier⟩ := ht.after
    rw [hfrontier]
    exact (hs.poll.stop stop).offers _

/-- A turn takes the state at the chosen position of the family, and a round without one none. -/
theorem family_round (hr : f.Records initial ts s) (hs : s.frontier.Filed) :
    (f.next s).Records initial (ts ++ s.turn?.toList) s.round.2 ∧
      (f.next s = f ∨ ∃ before m after t, f.held = before ++ m :: after ∧
        s.frontier.chosen? = some before.length ∧ f.next s = f.take before.length t) := by
  have hround := s.round_cases
  unfold Family.next
  cases ht : s.turn? with
  | none =>
    rw [ht] at hround
    obtain ⟨frontier, hnext, -, hentries⟩ := hround.idle_kept
    rw [hnext, Option.toList_none, List.append_nil]
    have hstates : frontier.states = s.frontier.states := congrArg (List.map Prod.snd) hentries
    exact ⟨⟨hr.offered, hr.polled, hr.held.trans hstates.symm, hr.all, hr.descent⟩, .inl rfl⟩
  | some t =>
    rw [ht] at hround
    obtain ⟨hpoll, -, htakes⟩ := hround.takes
    obtain ⟨l₁, l₂, hstates, hchosen, hrest⟩ := Frontier.poll_chosen hpoll
    -- The states of the family lie as those of the frontier do.
    obtain ⟨before, rest, hheld, rfl, hafter⟩ := List.map_eq_append_iff.mp (hr.held.trans hstates)
    obtain ⟨m, after, rfl, hm, rfl⟩ := List.map_eq_cons_iff.mp hafter
    rw [List.length_map] at hchosen
    rw [← List.map_append] at hrest
    rw [hchosen]
    exact ⟨hr.take htakes hs.isOpen hheld hm hrest, .inr ⟨before, m, after, t, hheld, rfl, rfl⟩⟩

/-- What is kept whenever the chosen state is taken holds of the family after a run. -/
theorem family_keeps {P : Family → Prop}
    (htake : ∀ {f : Family} {x : Session (Frontier ω χ τ) ι} {before after : List Member}
      {m : Member},
      P f → x.frontier.Filed → f.held.length = x.frontier.size →
      x.frontier.chosen? = some before.length → f.held = before ++ m :: after →
      ∀ t, P (f.take before.length t))
    (hr : f.Records initial ts s) (hs : s.frontier.Filed) (hP : P f) (n : Nat) :
    (s.family n f).Records initial (ts ++ s.turns n) (s.run n).2 ∧ P (s.family n f) := by
  induction n generalizing s f ts with
  | zero =>
    rw [turns, List.append_nil]
    exact ⟨hr, hP⟩
  | succ n ih =>
    obtain ⟨hnext, htaken⟩ := family_round hr hs
    have hfiled := s.round_cases.filed hs
    have hsize : f.held.length = s.frontier.size := by
      have hlength := congrArg List.length hr.held
      rwa [List.length_map, Frontier.states, List.length_map, Frontier.length_entries] at hlength
    have hkept : P (f.next s) := by
      obtain he | ⟨before, m, after, t, hheld, hchosen, he⟩ := htaken
      · rw [he]
        exact hP
      · rw [he]
        exact htake hP hs hsize hchosen hheld t
    unfold family turns run
    cases hround : s.round with
    | mk ending next =>
      rw [hround] at hnext hfiled
      cases ending with
      | some ending => exact ⟨hnext, hkept⟩
      | none =>
        rw [← List.append_assoc]
        exact ih hnext hfiled hkept

theorem family_of_fresh {P : Family → Prop} (settings : ExplorationSettings) (goals : Registry)
    (w : ω) (rule : χ) (stop : τ) (interpreter : ι) (initial : List State)
    (htake : ∀ {f : Family} {x : Session (Frontier ω χ τ) ι} {before after : List Member}
      {m : Member},
      P f → x.frontier.Filed → f.held.length = x.frontier.size →
      x.frontier.chosen? = some before.length → f.held = before ++ m :: after →
      ∀ t, P (f.take before.length t))
    (hP : P (.begun initial)) (n : Nat) :
    let begun := (fresh settings goals (Frontier.start w rule stop) interpreter).offerAll initial
    (begun.family n (.begun initial)).Records initial (begun.turns n) (begun.run n).2 ∧
      P (begun.family n (.begun initial)) := by
  intro begun
  have hinitial : (initial.map fun s => Member.mk s []).map (·.state) = initial := by
    rw [List.map_map]
    exact List.map_id _
  have hbegun : begun.Begun initial stop := begun_offerAll settings goals w rule stop _ initial
  have hfiled : begun.frontier.Filed := by
    have hfrontier := congrArg Session.frontier
      ((fresh settings goals (Frontier.start w rule stop) interpreter).offerAll_after initial)
    exact hfrontier ▸ (Frontier.Filed.start w rule stop).offers initial
  have hrecords : (Family.begun initial).Records initial [] begun :=
    ⟨hinitial.trans (List.append_nil _).symm, rfl, hinitial.trans hbegun.states.symm, .refl _,
      List.forall_mem_map.mpr fun _ hx => .inl ⟨hx, rfl⟩⟩
  exact family_keeps htake hrecords hfiled hP n

end Session

end PathExplorer
