import PathExplorer.Exploration.Walker
import PathExplorer.Frontier.Standard
import PathExplorer.Proofs.Exploration.Round
import PathExplorer.Proofs.Program.Graph

namespace PathExplorer

open scoped List

namespace Session

variable {ω χ τ ι : Type} [StopRule τ] [Weighting ω] [ChoiceRule χ] [Interpreter ι]
  {s next final : Session (Frontier ω χ τ) ι} {ts : List Turn} {ending : Option Ending} {n : Nat}

/-- What was held or offered in the turns is held or polled, and what was polled is released. -/
structure Balance (s : Session (Frontier ω χ τ) ι) (ts : List Turn)
    (final : Session (Frontier ω χ τ) ι) : Prop where
  isOpen : final.frontier.closed = false
  states : ts.map (·.state) ++ final.frontier.states ~
    s.frontier.states ++ ts.flatMap Turn.offered
  released : final.allReleased ~ (ts.map (·.state)).flatMap State.toRelease ++ s.allReleased

theorem Balance.take {x : Session (Frontier ω χ τ) ι} (hx : s.Balance ts x) {t : Turn}
    (h : x.Round (some t) ending next) : s.Balance (ts ++ [t]) next := by
  obtain ⟨hpoll, -, ht⟩ := h.takes
  obtain ⟨hstates, hopen, hreleased⟩ := ht.stock hx.isOpen
  have hperm := Frontier.poll_perm hpoll
  refine ⟨hopen, ?states, ?released⟩
  case states =>
    calc (ts ++ [t]).map (·.state) ++ next.frontier.states
      _ = ts.map (·.state) ++ t.state :: x.frontier.poll.2.states ++ t.offered := by
        simp [hstates]
      _ ~ ts.map (·.state) ++ x.frontier.states ++ t.offered :=
        (hperm.symm.append_left _).append_right _
      _ ~ s.frontier.states ++ ts.flatMap Turn.offered ++ t.offered := hx.states.append_right _
      _ = s.frontier.states ++ (ts ++ [t]).flatMap Turn.offered := by simp
  case released =>
    calc next.allReleased
      _ = t.state.toRelease ++ x.allReleased := by
        simp [allReleased, ht.released, hreleased]
      _ ~ t.state.toRelease ++ ((ts.map (·.state)).flatMap State.toRelease ++ s.allReleased) :=
        hx.released.append_left _
      _ ~ (ts.map (·.state)).flatMap State.toRelease ++ (t.state.toRelease ++ s.allReleased) :=
        List.perm_append_comm_assoc ..
      _ = ((ts ++ [t]).map (·.state)).flatMap State.toRelease ++ s.allReleased := by simp

theorem Balance.round {x : Session (Frontier ω χ τ) ι} {t? : Option Turn} (hx : s.Balance ts x)
    (h : x.Round t? ending next) : s.Balance (ts ++ t?.toList) next := by
  cases t? with
  | none =>
    obtain ⟨frontier, rfl, hk, he⟩ := h.idle_kept
    have hstates : frontier.states = x.frontier.states := by
      rw [Frontier.states, Frontier.states, he]
    rw [Option.toList_none, List.append_nil]
    refine ⟨hk.closed.trans hx.isOpen, ?_, ?_⟩
    · rw [hstates]
      exact hx.states
    · rw [allReleased, hk.released]
      exact hx.released
  | some t => exact hx.take h

theorem Runs.balance (hs : s.frontier.closed = false) (h : Runs n s ts ending final) :
    s.Balance ts final :=
  h.keeps (I := s.Balance) Balance.round [] ⟨hs, by simp, .refl _⟩

omit [Interpreter ι] in
theorem Balance.close (h : s.Balance ts final) : final.close.allReleased ~
    (s.frontier.states ++ ts.flatMap Turn.offered).flatMap State.toRelease ++ s.allReleased := by
  obtain ⟨-, -, hclose⟩ := Frontier.close_of_open h.isOpen
  calc final.close.allReleased
    _ = final.released ++ ((final.frontier.states.flatMap State.toRelease).reverse ++
        final.frontier.released) := congrArg (final.released ++ ·) hclose
    _ ~ (final.frontier.states.flatMap State.toRelease).reverse ++ final.allReleased :=
      List.perm_append_comm_assoc ..
    _ ~ final.frontier.states.flatMap State.toRelease ++
        ((ts.map (·.state)).flatMap State.toRelease ++ s.allReleased) :=
      (List.reverse_perm _).append h.released
    _ = (final.frontier.states ++ ts.map (·.state)).flatMap State.toRelease ++ s.allReleased := by
      simp
    _ ~ (s.frontier.states ++ ts.flatMap Turn.offered).flatMap State.toRelease ++ s.allReleased :=
      (List.Perm.flatMap_right _ (List.perm_append_comm.trans h.states)).append_right _

omit [Interpreter ι] in
theorem offerAll_open (hs : s.frontier.closed = false) (new : List State) :
    (s.offerAll new).frontier.states = s.frontier.states ++ new ∧
      (s.offerAll new).frontier.closed = false ∧ (s.offerAll new).allReleased = s.allReleased := by
  obtain ⟨hstates, hopen, hreleased⟩ := Frontier.after_offers hs new
  rw [offerAll_after]
  refine ⟨hstates, hopen, ?_⟩
  rw [allReleased, hreleased]
  rfl

/-- While an exploration runs the resources of the polled states are released, when they have been
polled, and when it has returned those of all states that the frontier ever held, once each. -/
theorem explore_releases (s : Session (Frontier ω χ τ) ι) (hs : s.frontier.closed = false)
    (initial : List State) (rounds : Nat) :
    let begun := s.offerAll initial
    let final := (s.explore rounds initial).2
    final.frontier.closed = true ∧ final.frontier.held = [] ∧
      final.allReleased ~
        (s.frontier.states ++ initial ++ (begun.turns rounds).flatMap Turn.offered).flatMap
          State.toRelease ++ s.allReleased ∧
      ∀ n, (begun.run n).2.frontier.poll.2.released = (begun.run n).2.frontier.released ∧
        (begun.run n).2.allReleased ~
          (begun.polled n).flatMap State.toRelease ++ s.allReleased := by
  intro begun final
  obtain ⟨hstates, hbegun, hall⟩ := offerAll_open hs initial
  have hbalance := fun n => (begun.runs n).balance hbegun
  obtain ⟨hclosed, hheld, -⟩ := Frontier.close_of_open (hbalance rounds).isOpen
  refine ⟨hclosed, hheld, ?_, fun n => ⟨(Frontier.kept_poll _).released, ?_⟩⟩
  · rw [← hstates, ← hall]
    exact (hbalance rounds).close
  · rw [← hall]
    exact (hbalance n).released

def hiddenCall : Session (Frontier Uniform Fifo NeverStop) Walker where
  settings := .ofPreset .fast
  goals := ⟨.empty⟩
  frontier := (FifoFrontier.new.offer ((State.root ⟨⟨0⟩, 1⟩).attach ⟨7⟩)).2
  interpreter := ⟨twoMethods.view.hide [⟨1⟩]⟩

theorem explore_releases_hiddenCall :
    let initial := [(State.root ⟨⟨0⟩, 0⟩).attach ⟨8⟩]
    (hiddenCall.explore 5 initial).1 = some (.error (.methodNotFound ⟨1⟩)) ∧
      (hiddenCall.explore 5 initial).2.allReleased ~ [⟨7⟩, ⟨8⟩] := by
  intro initial
  refine ⟨rfl, ?_⟩
  exact (hiddenCall.explore_releases rfl initial 5).2.2.1

end Session

end PathExplorer
