import PathExplorer.Proofs.Exploration.Ending
import PathExplorer.Proofs.Exploration.Lineage

namespace PathExplorer

open scoped List

namespace Family

/-- The states are polled as they were offered, generation by generation. -/
structure Levels (f : Family) : Prop where
  order : f.polled ++ f.held = f.offered
  sorted : f.offered.Pairwise fun a b => a.generation ≤ b.generation
  near : ∀ a ∈ f.held, ∀ b ∈ f.held, b.generation ≤ a.generation + 1

/-- Once a state is polled that was held when one was polled in some earlier step, nothing is left
that descends from that one, and nothing that does is polled any more. -/
def DepthFirst (f : Family) : Prop :=
  ∀ before m after, f.polled = before ++ m :: after → ∀ step ≤ before.length,
    m.offeredAt < step → ∀ x ∈ after ++ f.held, ¬ x.DescendsFrom step

/-- What is held above descends from all that the lower ones descend from. -/
structure Nested (f : Family) : Prop where
  nested : f.held.Pairwise fun a b => a.line <:+ b.line
  falling : ∀ x ∈ f.held, x.line.Pairwise (· > ·)
  polled : ∀ x ∈ f.held, ∀ step ∈ x.line, step ≤ f.polled.length
  depthFirst : f.DepthFirst

variable {f : Family} {m : Member} {before after : List Member} {initial : List State}

theorem levels_begun (initial : List State) : (begun initial).Levels := by
  have hzero : ∀ m ∈ initial.map (Member.mk · []), m.generation = 0 :=
    List.forall_mem_map.mpr fun _ _ => rfl
  refine ⟨rfl, ?_, fun a ha b hb => ?_⟩
  · exact List.pairwise_of_forall_mem_list fun a ha b hb =>
      Nat.le_of_eq ((hzero a ha).trans (hzero b hb).symm)
  · rw [hzero b hb]
    exact Nat.zero_le _

theorem Levels.take (h : f.Levels) (hheld : f.held = m :: after) (t : Turn) :
    (f.take 0 t).Levels := by
  have htake : f.take ([] : List Member).length t = _ := take_of_held hheld
  rw [List.length_nil] at htake
  rw [htake]
  have horder : f.offered = f.polled ++ m :: after := by rw [← h.order, hheld]
  have hsorted := h.sorted
  rw [horder] at hsorted
  obtain ⟨-, hfirst, hpolled⟩ := List.pairwise_append.mp hsorted
  have hafter : ∀ a ∈ after, m.generation ≤ a.generation := (List.pairwise_cons.mp hfirst).1
  have hnear : ∀ a ∈ after, a.generation ≤ m.generation + 1 := fun a ha =>
    h.near m (by simp [hheld]) a (by simp [hheld, ha])
  have hbrood : ∀ x ∈ m.brood (f.polled.length + 1) t, x.generation = m.generation + 1 :=
    fun _ => Member.generation_of_mem_brood
  refine ⟨?order, ?sorted, ?near⟩
  case order => simp [horder]
  case sorted =>
    refine List.pairwise_append.mpr ⟨h.sorted, ?_, fun a ha b hb => ?_⟩
    · exact List.pairwise_of_forall_mem_list fun a ha b hb =>
        Nat.le_of_eq ((hbrood a ha).trans (hbrood b hb).symm)
    · rw [hbrood b hb]
      rw [horder] at ha
      obtain ha | ha := List.mem_append.mp ha
      · exact Nat.le_succ_of_le (hpolled a ha m (List.mem_cons_self ..))
      · obtain rfl | ha := List.mem_cons.mp ha
        · exact Nat.le_succ _
        · exact hnear a ha
  case near =>
    -- A state that waits is of the generation of the one that is taken, or of the next.
    have hband : ∀ x ∈ [] ++ after ++ m.brood (f.polled.length + 1) t,
        m.generation ≤ x.generation ∧ x.generation ≤ m.generation + 1 := by
      intro x hx
      obtain hx | hx := List.mem_append.mp hx
      · exact ⟨hafter x hx, hnear x hx⟩
      · rw [hbrood x hx]
        exact ⟨Nat.le_succ _, Nat.le_refl _⟩
    exact fun a ha b hb => Nat.le_trans (hband b hb).2 (Nat.succ_le_succ (hband a ha).1)

/-- The first polled state to complete a goal is of the least generation of all that do. -/
theorem Levels.least (h : f.Levels) {g : Goal} {step : Nat}
    (hg : g.FirstAt (f.polled.map (·.state)) step) :
    ∃ before m after, f.polled = before ++ m :: after ∧ step = before.length + 1 ∧
      g.CompletedBy m.state ∧
      ∀ x ∈ f.offered, g.CompletedBy x.state → m.generation ≤ x.generation := by
  obtain ⟨earlier, s, later, hstates, rfl, hs, hearlier⟩ := hg
  obtain ⟨before, rest, hpolled, rfl, hrest⟩ := List.map_eq_append_iff.mp hstates
  obtain ⟨m, after, rfl, rfl, -⟩ := List.map_eq_cons_iff.mp hrest
  refine ⟨before, m, after, hpolled, by rw [List.length_map], hs, fun x hx hc => ?_⟩
  have horder : f.offered = before ++ m :: (after ++ f.held) := by
    rw [← h.order, hpolled, List.append_assoc, List.cons_append]
  obtain ⟨-, hm, -⟩ := List.pairwise_append.mp (horder ▸ h.sorted)
  rw [horder] at hx
  obtain hx | hx := List.mem_append.mp hx
  · exact absurd hc (hearlier x.state (List.mem_map_of_mem hx))
  · obtain rfl | hx := List.mem_cons.mp hx
    · exact Nat.le_refl _
    · exact (List.pairwise_cons.mp hm).1 x hx

theorem nested_begun (initial : List State) : (begun initial).Nested := by
  refine ⟨?_, ?_, ?_, fun before m after h => ?_⟩
  · exact List.pairwise_map.mpr (List.pairwise_of_forall fun _ _ => List.suffix_rfl)
  · exact List.forall_mem_map.mpr fun _ _ => .nil
  · exact List.forall_mem_map.mpr fun _ _ step hs => nomatch hs
  · exact absurd h (by simp [begun])

theorem DepthFirst.take (h : f.DepthFirst) (hheld : f.held = before ++ [m])
    (hbelow : ∀ a ∈ before, a.line <:+ m.line) (hfalling : m.line.Pairwise (· > ·)) (t : Turn) :
    (f.take before.length t).DepthFirst := by
  rw [take_of_held hheld, List.append_nil]
  intro earlier q later hpolled step hstep hq x hx
  dsimp only at hpolled hx
  -- The successors descend from what the taken one does, and from the step in which it is taken.
  have hnew : ∀ x ∈ m.brood (f.polled.length + 1) t, step ≤ f.polled.length →
      ¬ m.DescendsFrom step → ¬ x.DescendsFrom step := by
    intro x hx hle hm hd
    rw [Member.DescendsFrom, Member.line_of_mem_brood hx] at hd
    obtain rfl | hd := List.mem_cons.mp hd
    · exact absurd hle (Nat.not_succ_le_self _)
    · exact hm hd
  cases later using List.reverseRecOn with
  | nil =>
    obtain ⟨rfl, hlast⟩ := List.append_inj' hpolled rfl
    cases hlast
    have hm := Member.not_descendsFrom hfalling hq
    rw [List.nil_append] at hx
    obtain hx | hx := List.mem_append.mp hx
    · exact fun hd => hm ((hbelow x hx).subset hd)
    · exact hnew x hx hstep hm
  | append_singleton later y =>
    rw [← List.cons_append, ← List.append_assoc] at hpolled
    obtain ⟨hinit, hlast⟩ := List.append_inj' hpolled rfl
    cases hlast
    have hbefore := h earlier q later hinit step hstep hq
    rw [hheld] at hbefore
    have hle : step ≤ f.polled.length := by
      rw [hinit, List.length_append]
      omega
    rw [List.append_assoc, List.mem_append, List.mem_append, List.mem_append] at hx
    obtain hx | hx | hx | hx := hx
    · exact hbefore x (by simp [hx])
    · exact hbefore x (by simp [List.mem_singleton.mp hx])
    · exact hbefore x (by simp [hx])
    · exact hnew x hx hle (hbefore m (by simp))

theorem Nested.take (h : f.Nested) (hheld : f.held = before ++ [m]) (t : Turn) :
    (f.take before.length t).Nested := by
  obtain ⟨hbefore, -, hbelow⟩ := List.pairwise_append.mp (hheld ▸ h.nested)
  have hbelow : ∀ a ∈ before, a.line <:+ m.line := fun a ha => hbelow a ha m (by simp)
  have hbrood : ∀ x ∈ m.brood (f.polled.length + 1) t,
      x.line = (f.polled.length + 1) :: m.line := fun _ => Member.line_of_mem_brood
  have hmheld : m ∈ f.held := by simp [hheld]
  have hold : ∀ a ∈ before, a ∈ f.held := fun a ha => by simp [hheld, ha]
  have hdepth := h.depthFirst.take hheld hbelow (h.falling m hmheld) t
  rw [take_of_held hheld, List.append_nil] at hdepth ⊢
  refine ⟨?nested, ?falling, ?polled, hdepth⟩
  case nested =>
    refine List.pairwise_append.mpr ⟨hbefore, ?_, fun a ha b hb => ?_⟩
    · exact List.pairwise_of_forall_mem_list fun a ha b hb =>
        (hbrood a ha).trans (hbrood b hb).symm ▸ List.suffix_rfl
    · rw [hbrood b hb]
      exact (hbelow a ha).trans (List.suffix_cons ..)
  case falling =>
    refine List.forall_mem_append.mpr ⟨fun a ha => h.falling a (hold a ha), fun a ha => ?_⟩
    rw [hbrood a ha]
    exact List.pairwise_cons.mpr
      ⟨fun step hs => Nat.lt_succ_of_le (h.polled m hmheld step hs), h.falling m hmheld⟩
  case polled =>
    rw [List.length_append]
    refine List.forall_mem_append.mpr ⟨fun a ha step hs => ?_, fun a ha step hs => ?_⟩
    · exact Nat.le_succ_of_le (h.polled a (hold a ha) step hs)
    · rw [hbrood a ha] at hs
      obtain rfl | hs := List.mem_cons.mp hs
      · exact Nat.le_refl _
      · exact Nat.le_succ_of_le (h.polled m hmheld step hs)

end Family

namespace Session

variable {ω τ ι : Type} [Weighting ω] [StopRule τ] [Interpreter ι]

theorem fifo_levels (settings : ExplorationSettings) (goals : Registry) (w : ω) (stop : τ)
    (interpreter : ι) (initial : List State) (n : Nat) :
    let begun := (fresh settings goals (Frontier.start w Fifo.mk stop) interpreter).offerAll initial
    (begun.family n (.begun initial)).Records initial (begun.turns n) (begun.run n).2 ∧
      (begun.family n (.begun initial)).Levels := by
  refine family_of_fresh settings goals w Fifo.mk stop interpreter initial
    (fun {f x before after m} hf hx hsize hchosen hheld t => ?_) (Family.levels_begun initial) n
  rw [hheld, List.length_append, List.length_cons] at hsize
  rw [hx.chosen?_fifo (by omega), Option.some.injEq] at hchosen
  cases List.length_eq_zero_iff.mp hchosen.symm
  exact hf.take hheld t

theorem lifo_nested (settings : ExplorationSettings) (goals : Registry) (w : ω) (stop : τ)
    (interpreter : ι) (initial : List State) (n : Nat) :
    let begun := (fresh settings goals (Frontier.start w Lifo.mk stop) interpreter).offerAll initial
    (begun.family n (.begun initial)).Records initial (begun.turns n) (begun.run n).2 ∧
      (begun.family n (.begun initial)).Nested := by
  refine family_of_fresh settings goals w Lifo.mk stop interpreter initial
    (fun {f x before after m} hf hx hsize hchosen hheld t => ?_) (Family.nested_begun initial) n
  rw [hheld, List.length_append, List.length_cons] at hsize
  rw [hx.chosen?_lifo (by omega), Option.some.injEq] at hchosen
  have hafter : after = [] := List.length_eq_zero_iff.mp (by omega)
  subst hafter
  exact hf.take hheld t

theorem fifo_reached (settings : ExplorationSettings) (goals : Registry) (w : ω) (stop : τ)
    (interpreter : ι) (initial : List State) {n : Nat} {report : Report}
    (h : ((fresh settings goals (Frontier.start w Fifo.mk stop) interpreter).explore n initial).1 =
      some (.ok report)) :
    let begun := (fresh settings goals (Frontier.start w Fifo.mk stop) interpreter).offerAll initial
    let family := begun.family n (.begun initial)
    (report.stopReason = .frontierExhausted → family.held = []) ∧
    ∀ r ∈ report.goalsReached, ∃ before m after, family.polled = before ++ m :: after ∧
      r.step = before.length + 1 ∧ r.goal.CompletedBy m.state ∧
      ∀ x ∈ family.offered, r.goal.CompletedBy x.state → m.generation ≤ x.generation := by
  intro begun family
  obtain ⟨hrecords, hlevels⟩ := fifo_levels settings goals w stop interpreter initial n
  obtain ⟨reason, hrun, rfl⟩ := run_of_explore_ok h
  have hbegun : begun.Notes goals [] := notes_offerAll settings goals _ interpreter initial
  have hgoals : begun.goals = goals := congrArg Session.goals (offerAll_after _ initial)
  refine ⟨?exhausted, fun r hr => ?reached⟩
  case exhausted =>
    rintro rfl
    have hheld := hrecords.held
    rw [states_of_exhausted .fifo hbegun hgoals hrun] at hheld
    exact List.map_eq_nil_iff.mp hheld
  case reached =>
    obtain ⟨-, hfirst⟩ := ((hbegun.runs (runs n begun)).reached r).mp hr
    rw [← hrecords.polled] at hfirst
    exact hlevels.least hfirst

/-- With the earliest first an exploration is in levels: no poll fails, the states are polled as
they were offered and so generation by generation, and a goal is reached in the least generation in
which it can be.  With the latest first it is in depth: no poll fails, and of what is held when a
state is polled nothing is polled before all that descends from that state. -/
theorem polls_by_insertion (settings : ExplorationSettings) (goals : Registry) (w : ω) (stop : τ)
    (interpreter : ι) (initial : List State) (n : Nat) :
    (let session := fresh settings goals (Frontier.start w Fifo.mk stop) interpreter
      let begun := session.offerAll initial
      let family := begun.family n (.begun initial)
      (∀ k fault, (begun.run k).2.frontier.poll.1 ≠ .error fault) ∧
      family.Records initial (begun.turns n) (begun.run n).2 ∧
      family.polled ++ family.held = family.offered ∧
      (family.offered.Pairwise fun a b => a.generation ≤ b.generation) ∧
      ∀ report, (session.explore n initial).1 = some (.ok report) →
        (report.stopReason = .frontierExhausted → family.held = []) ∧
        ∀ r ∈ report.goalsReached, ∃ before m after, family.polled = before ++ m :: after ∧
          r.step = before.length + 1 ∧ r.goal.CompletedBy m.state ∧
          ∀ x ∈ family.offered, r.goal.CompletedBy x.state → m.generation ≤ x.generation) ∧
    (let session := fresh settings goals (Frontier.start w Lifo.mk stop) interpreter
      let begun := session.offerAll initial
      let family := begun.family n (.begun initial)
      (∀ k fault, (begun.run k).2.frontier.poll.1 ≠ .error fault) ∧
      family.Records initial (begun.turns n) (begun.run n).2 ∧ family.DepthFirst) := by
  obtain ⟨hfifo, hlevels⟩ := fifo_levels settings goals w stop interpreter initial n
  obtain ⟨hlifo, hnested⟩ := lifo_nested settings goals w stop interpreter initial n
  exact ⟨⟨fun k => Frontier.poll_ne_error rfl, hfifo, hlevels.order, hlevels.sorted,
      fun report => fifo_reached settings goals w stop interpreter initial⟩,
    fun k => Frontier.poll_ne_error rfl, hlifo, hnested.depthFirst⟩

theorem polls_by_insertion_helperTwice :
    let session := fresh { stepsLimit := none } helperGoals
      (Frontier.start Uniform.mk Fifo.mk NeverStop.mk) (Walker.mk helperTwice.view)
    let family := (session.offerAll [.root ⟨⟨0⟩, 0⟩]).family 10 (.begun [.root ⟨⟨0⟩, 0⟩])
    family.polled = family.offered ∧
      family.polled.map (·.generation) = [0, 1, 2, 3, 4, 5, 6, 6] := by
  intro session family
  have hheld : family.held.length = 0 := by decide
  have horder : family.polled ++ family.held = family.offered :=
    (polls_by_insertion { stepsLimit := none } helperGoals Uniform.mk NeverStop.mk
      (Walker.mk helperTwice.view) [.root ⟨⟨0⟩, 0⟩] 10).1.2.2.1
  rw [List.length_eq_zero_iff.mp hheld, List.append_nil] at horder
  exact ⟨horder, by decide⟩

end Session

end PathExplorer
