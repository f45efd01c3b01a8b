import PathExplorer.Frontier.Choice
import PathExplorer.Frontier.Stop
import PathExplorer.Weighting.Basic

namespace PathExplorer

structure Held where
  ticket : Ticket
  state : State
  weight : Option Weight := none

structure FrontierStats where
  offered : Nat := 0
  polled : Nat := 0
  removed : Nat := 0
  weighted : Nat := 0
  releasedOnClose : Nat := 0
deriving DecidableEq

structure Frontier (ω χ τ : Type) where
  weighting : ω
  choice : χ
  stop : τ
  held : List Held := []
  next : Nat := 0
  closed : Bool := false
  stats : FrontierStats := {}
  released : List Resource := []

/-- What came of weighing some held states: they themselves, how many were weighed, the fault that
ended it if there was one, and the weighting afterwards. -/
structure Weighed (ω : Type) where
  held : List Held
  count : Nat
  fault : Option Fault
  weighting : ω

namespace Frontier

variable {ω χ τ : Type} (f : Frontier ω χ τ)

def size : Nat := f.held.length

def isEmpty : Bool := f.held.isEmpty

def tickets : List Ticket := f.held.map (·.ticket)

def find? (t : Ticket) : Option Held := f.held.find? (·.ticket = t)

/-- Add a state and give it a ticket.  A closed frontier releases it at once. -/
def offer (s : State) : Ticket × Frontier ω χ τ :=
  let ticket : Ticket := ⟨f.next⟩
  let counted := { f with next := f.next + 1, stats.offered := f.stats.offered + 1 }
  if f.closed then (ticket, { counted with released := s.toRelease ++ f.released })
  else (ticket, { counted with held := f.held ++ [{ ticket, state := s }] })

def remove (t : Ticket) : Bool × Frontier ω χ τ :=
  match f.find? t with
  | none => (false, f)
  | some h => (true, { f with
      held := f.held.eraseP (·.ticket = t)
      stats.removed := f.stats.removed + 1
      released := h.state.toRelease ++ f.released })

def close : Frontier ω χ τ :=
  if f.closed then f else
    { f with
      held := []
      closed := true
      stats.releasedOnClose := f.stats.releasedOnClose + f.held.length
      released := (f.held.flatMap (·.state.toRelease)).reverse ++ f.released }

/-- The candidates as a choice rule sees them; a state without a weight counts as weightless. -/
def candidates : List Candidate := f.held.map fun h => ⟨h.ticket, h.weight.getD .zero⟩

variable [Weighting ω]

/-- Weigh in order those held states that have no weight, up to the first that cannot be weighed. -/
def weighAll : List Held → ω → Weighed ω
  | [], w => ⟨[], 0, none, w⟩
  | h :: hs, w =>
    if h.weight.isSome then
      let rest := weighAll hs w
      { rest with held := h :: rest.held }
    else
      match Weighting.weigh h.state w with
      | (.error fault, w) => ⟨h :: hs, 0, some fault, w⟩
      | (.ok weight, w) =>
        let rest := weighAll hs w
        { rest with held := { h with weight := some weight } :: rest.held, count := rest.count + 1 }

def settle (w : Weighed ω) : Frontier ω χ τ :=
  { f with
    held := w.held
    weighting := w.weighting
    stats.weighted := f.stats.weighted + w.count }

def weightOf (t : Ticket) : Except Fault (Option Weight) × Frontier ω χ τ :=
  match f.find? t with
  | none => (.ok none, f)
  | some h =>
    match h.weight with
    | some weight => (.ok (some weight), f)
    | none =>
      match Weighting.weigh h.state f.weighting with
      | (.error fault, w) => (.error fault, { f with weighting := w })
      | (.ok weight, w) => (.ok (some weight), { f with
          held := f.held.map fun e => if e.ticket = t then { e with weight := some weight } else e
          weighting := w
          stats.weighted := f.stats.weighted + 1 })

variable [ChoiceRule χ]

def prepare : Option Fault × Frontier ω χ τ :=
  if ChoiceRule.usesWeights f.choice then
    let w := weighAll f.held f.weighting
    (w.fault, f.settle w)
  else (none, f)

/-- The position of the state that the choice rule wants next.  An answer that is no position
counts as none. -/
def choose : Except Fault (Option Nat) × Frontier ω χ τ :=
  if f.isEmpty then (.ok none, f) else
    match f.prepare with
    | (some fault, f) => (.error fault, f)
    | (none, f) =>
      let (answer, choice) := ChoiceRule.choose f.candidates f.choice
      (.ok (answer.filter (· < f.size)), { f with choice })

def peek : Except Fault (Option State) × Frontier ω χ τ :=
  let (chosen, f) := f.choose
  (chosen.map fun position => position.bind fun i => f.held[i]?.map (·.state), f)

def poll : Except Fault (Option State) × Frontier ω χ τ :=
  match f.choose with
  | (.error fault, f) => (.error fault, f)
  | (.ok none, f) => (.ok none, f)
  | (.ok (some i), f) =>
    (.ok (f.held[i]?.map (·.state)), { f with
      held := f.held.eraseIdx i
      stats.polled := f.stats.polled + 1 })

end Frontier

end PathExplorer
