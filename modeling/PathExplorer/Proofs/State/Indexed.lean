import PathExplorer.Proofs.Exploration.Reached
import PathExplorer.State.Basic

namespace PathExplorer

/-- Frames, innermost first, with their number beside them. -/
structure CountedStack where
  frames : List Frame := []
  count : Nat := 0

namespace CountedStack

def root (m : Method) : CountedStack := ⟨[⟨m, none⟩], 1⟩

variable (k : CountedStack)

def push (m : Method) (site : Stmt) : CountedStack := ⟨⟨m, some site⟩ :: k.frames, k.count + 1⟩

/-- The stack without its innermost frame, unless that frame was never counted. -/
def pop? : Option CountedStack :=
  match k.frames with
  | [] => some {}
  | _ :: below => if k.count = 0 then none else some ⟨below, k.count - 1⟩

def top? : Option Frame := k.frames.head?

def methods : List Method := (k.frames.map (·.method)).reverse

end CountedStack

inductive Stacking where
  | empty
  | root (m : Method)
  | push (m : Method) (site : Stmt)
  | pop

def Stack.stacked (st : Stack) : Stacking → Stack
  | .empty => .empty
  | .root m => .root m
  | .push m site => .push st m site
  | .pop => st.pop

def CountedStack.stacked? (k : CountedStack) : Stacking → Option CountedStack
  | .empty => some {}
  | .root m => some (.root m)
  | .push m site => some (k.push m site)
  | .pop => k.pop?

def Stack.built (steps : List Stacking) : Stack := steps.foldl Stack.stacked .empty

def CountedStack.built? (steps : List Stacking) : Option CountedStack :=
  steps.foldlM CountedStack.stacked? {}

/-- A state with its path, and the statements of the path as a set beside it. -/
structure IndexedState where
  stmt : Stmt
  stack : CountedStack
  path : List Stmt
  visited : Ascending Stmt
  resource : Option Resource := none

inductive Halt where
  | noCaller
  | uncounted

inductive Making where
  | root (entry : Stmt)
  | place (stmt : Stmt) (stack : List Stacking)
  | remember (history : List Stmt)
  | attach (r : Resource)
  | move (m : Move)

namespace IndexedState

def place (stmt : Stmt) (stack : CountedStack) : IndexedState where
  stmt := stmt
  stack := stack
  path := [stmt]
  visited := Ascending.empty.insert stmt

variable (k : IndexedState)

def depth : Nat := k.path.length

def hasVisited (x : Stmt) : Bool := x ∈ k.visited

def visitedSources (goals : Registry) : Ascending Source :=
  goals.sources.filter fun source => k.hasVisited source.stmt

def reaches (g : Goal) : Bool :=
  g.sink.stmt = k.stmt && k.path.dropLast.contains g.source.stmt

def remember (history : List Stmt) : IndexedState :=
  { k with path := history ++ [k.stmt], visited := .ofList (history ++ [k.stmt]) }

def follow (next : Stmt) (stack : CountedStack) : IndexedState where
  stmt := next
  stack := stack
  path := k.path ++ [next]
  visited := k.visited.insert next

def resume : Except Halt IndexedState :=
  match k.stack.top? with
  | some ⟨_, some site⟩ =>
    match k.stack.pop? with
    | some below => .ok (k.follow site below)
    | none => .error .uncounted
  | _ => .error .noCaller

def make : Making → Except Halt IndexedState
  | .root entry => .ok (place entry (.root entry.method))
  | .place stmt steps =>
    match CountedStack.built? steps with
    | some stack => .ok (place stmt stack)
    | none => .error .uncounted
  | .remember history => .ok (k.remember history)
  | .attach r => .ok { k with resource := some r }
  | .move (.advance next) => .ok (k.follow next k.stack)
  | .move (.enter entry) => .ok (k.follow entry (k.stack.push entry.method k.stmt))
  | .move .resume => k.resume

def made (entry : Stmt) (steps : List Making) : Except Halt IndexedState :=
  steps.foldlM make (place entry (.root entry.method))

end IndexedState

namespace State

def make? (s : State) : Making → Option State
  | .root entry => some (.root entry)
  | .place stmt steps => some { stmt, stack := .built steps }
  | .remember history => some (s.withHistory history)
  | .attach r => some (s.attach r)
  | .move m => m.next? s

def made? (entry : Stmt) (steps : List Making) : Option State :=
  steps.foldlM make? (.root entry)

end State

namespace CountedStack

structure Keeps (k : CountedStack) (st : Stack) : Prop where
  frames : k.frames = st.frames
  count : k.count = k.frames.length

variable {k : CountedStack} {st : Stack}

namespace Keeps

theorem empty : Keeps {} .empty := ⟨rfl, rfl⟩

theorem root (m : Method) : (CountedStack.root m).Keeps (.root m) := ⟨rfl, rfl⟩

theorem push (h : k.Keeps st) (m : Method) (site : Stmt) :
    (k.push m site).Keeps (.push st m site) where
  frames := congrArg _ h.frames
  count := congrArg (· + 1) h.count

/-- A frame that is there was counted, so that the count can be lowered. -/
theorem pop (h : k.Keeps st) : ∃ below, k.pop? = some below ∧ below.Keeps st.pop := by
  have hpop := Stack.frames_pop st
  rw [← h.frames] at hpop
  unfold pop?
  cases hf : k.frames with
  | nil =>
    rw [hf] at hpop
    exact ⟨{}, rfl, hpop.symm, rfl⟩
  | cons top below =>
    rw [hf] at hpop
    have hcount : k.count = below.length + 1 := by rw [h.count, hf, List.length_cons]
    dsimp only
    rw [if_neg (by omega)]
    exact ⟨_, rfl, hpop.symm, by rw [hcount, Nat.add_sub_cancel]⟩

theorem stacked (h : k.Keeps st) (step : Stacking) :
    ∃ next, k.stacked? step = some next ∧ next.Keeps (st.stacked step) := by
  cases step with
  | empty => exact ⟨_, rfl, empty⟩
  | root m => exact ⟨_, rfl, root m⟩
  | push m site => exact ⟨_, rfl, h.push m site⟩
  | pop => exact h.pop

theorem foldlM (h : k.Keeps st) (steps : List Stacking) :
    ∃ last, steps.foldlM stacked? k = some last ∧ last.Keeps (steps.foldl Stack.stacked st) := by
  induction steps generalizing k st with
  | nil => exact ⟨k, rfl, h⟩
  | cons step steps ih =>
    obtain ⟨next, hnext, hkeeps⟩ := h.stacked step
    obtain ⟨last, hlast, hkeeps⟩ := ih hkeeps
    refine ⟨last, ?_, hkeeps⟩
    rw [List.foldlM_cons, hnext]
    exact hlast

theorem built (steps : List Stacking) :
    ∃ k, CountedStack.built? steps = some k ∧ k.Keeps (.built steps) := empty.foldlM steps

end Keeps

end CountedStack

theorem Stack.site_of_mem_dropLast {st : Stack} {frame : Frame} (h : frame ∈ st.frames.dropLast) :
    frame.site?.isSome := by
  induction st with
  | empty | root => cases h
  | push below m site ih =>
    cases hb : below.frames with
    | nil =>
      rw [frames, hb] at h
      cases h
    | cons top frames =>
      rw [Stack.frames, hb, List.dropLast_cons_cons, ← hb] at h
      obtain rfl | h := List.mem_cons.mp h
      · rfl
      · exact ih h

namespace IndexedState

structure Keeps (k : IndexedState) (s : State) : Prop where
  stmt : k.stmt = s.stmt
  stack : k.stack.Keeps s.stack
  path : k.path = s.path
  visited : ∀ x, x ∈ k.visited ↔ x ∈ k.path
  resource : k.resource = s.resource

/-- What is made of both is a state again, or nothing for want of a caller. -/
def Made (indexed : Except Halt IndexedState) (plain : Option State) : Prop :=
  (∃ k s, indexed = .ok k ∧ plain = some s ∧ k.Keeps s) ∨
    (indexed = .error .noCaller ∧ plain = none)

variable {k : IndexedState} {s : State}

theorem Keeps.made (h : k.Keeps s) : Made (.ok k) (some s) := .inl ⟨k, s, rfl, rfl, h⟩

namespace Keeps

theorem place {stack : CountedStack} {st : Stack} (h : stack.Keeps st) (stmt : Stmt) :
    (IndexedState.place stmt stack).Keeps { stmt, stack := st } where
  stmt := rfl
  stack := h
  path := rfl
  visited x := by simp [IndexedState.place]
  resource := rfl

theorem remember (h : k.Keeps s) (history : List Stmt) :
    (k.remember history).Keeps (s.withHistory history) where
  stmt := h.stmt
  stack := h.stack
  path := by rw [State.path_withHistory, ← h.stmt]; rfl
  visited x := Ascending.mem_ofList
  resource := h.resource

theorem attach (h : k.Keeps s) (r : Resource) :
    Keeps { k with resource := some r } (s.attach r) :=
  ⟨h.stmt, h.stack, h.path, h.visited, rfl⟩

theorem follow (h : k.Keeps s) {stack : CountedStack} {st : Stack} (hst : stack.Keeps st)
    (next : Stmt) : (k.follow next stack).Keeps (s.follow next st) where
  stmt := rfl
  stack := hst
  path := by rw [State.path_follow, ← h.path]; rfl
  visited x := by simp [IndexedState.follow, h.visited, or_comm]
  resource := rfl

theorem resume (h : k.Keeps s) : Made k.resume s.resume? := by
  obtain ⟨below, hpop, hbelow⟩ := h.stack.pop
  unfold IndexedState.resume CountedStack.top? State.resume?
  rw [h.stack.frames, Stack.head?_frames]
  cases hs : s.stack with
  | empty | root m => exact .inr ⟨rfl, rfl⟩
  | push st m site =>
    rw [hs] at hbelow
    simp only [Stack.top?, hpop]
    exact (h.follow hbelow site).made

theorem make (h : k.Keeps s) (step : Making) : Made (k.make step) (s.make? step) := by
  cases step with
  | root entry => exact (place (.root _) entry).made
  | place stmt steps =>
    obtain ⟨stack, hbuilt, hstack⟩ := CountedStack.Keeps.built steps
    rw [IndexedState.make, hbuilt]
    exact (place hstack stmt).made
  | remember history => exact (h.remember history).made
  | attach r => exact (h.attach r).made
  | move m =>
    cases m with
    | advance next => exact (h.follow h.stack next).made
    | enter entry =>
      have hpush := h.stack.push entry.method k.stmt
      rw [h.stmt] at hpush
      rw [IndexedState.make, h.stmt]
      exact (h.follow hpush entry).made
    | resume => exact h.resume

theorem foldlM (h : k.Keeps s) (steps : List Making) :
    Made (steps.foldlM IndexedState.make k) (steps.foldlM State.make? s) := by
  induction steps generalizing k s with
  | nil => exact h.made
  | cons step steps ih =>
    rw [List.foldlM_cons, List.foldlM_cons]
    obtain ⟨next, t, hnext, ht, hkeeps⟩ | ⟨hnext, ht⟩ := h.make step
    · rw [hnext, ht]
      exact ih hkeeps
    · rw [hnext, ht]
      exact .inr ⟨rfl, rfl⟩

theorem hasVisited (h : k.Keeps s) (x : Stmt) : k.hasVisited x = s.hasVisited x := by
  rw [Bool.eq_iff_iff, State.hasVisited_iff, ← h.path, ← h.visited]
  exact decide_eq_true_iff

end Keeps

structure Reads (k : IndexedState) (s : State) : Prop where
  stmt : s.stmt = k.stmt
  path : s.path = k.path
  ends : k.path.getLast? = some k.stmt
  depth : s.depth = k.depth ∧ k.depth = k.path.length
  hasVisited : ∀ x, s.hasVisited x = k.hasVisited x ∧ (k.hasVisited x ↔ x ∈ k.path)
  visitedSources : ∀ goals : Registry, goals.visitedSources s = k.visitedSources goals
  reaches : ∀ g : Goal, g.reachedBy s = k.reaches g
  history : ∀ (goals : Registry), ∀ source ∈ goals.sources,
    source ∈ k.visitedSources goals ↔ source.stmt = k.stmt ∨ source.stmt ∈ k.path.dropLast
  frames : s.stack.frames = k.stack.frames
  count : s.stack.depth = k.stack.count ∧ k.stack.count = k.stack.frames.length
  pop : ∃ below, k.stack.pop? = some below ∧ below.frames = s.stack.pop.frames
  methods : s.stack.methods = k.stack.methods ∧
    k.stack.methods = (k.stack.frames.map (·.method)).reverse
  sites : ∀ frame ∈ k.stack.frames.dropLast, frame.site?.isSome

theorem mem_iff_of_getLast? {path : List Stmt} {last x : Stmt} (h : path.getLast? = some last) :
    x ∈ path ↔ x = last ∨ x ∈ path.dropLast := by
  obtain ⟨before, rfl⟩ := List.getLast?_eq_some_iff.mp h
  rw [List.dropLast_concat, List.mem_append, List.mem_singleton, or_comm]

theorem Keeps.reads (h : k.Keeps s) : k.Reads s := by
  have hends : k.path.getLast? = some k.stmt := by
    rw [h.path, h.stmt, State.path, List.getLast?_reverse, List.head?_cons]
  have hvisited : ∀ x, k.hasVisited x ↔ x ∈ k.path := fun x =>
    decide_eq_true_iff.trans (h.visited x)
  obtain ⟨below, hpop, hbelow⟩ := h.stack.pop
  exact {
    stmt := h.stmt.symm
    path := h.path.symm
    ends := hends
    depth := ⟨by rw [← State.length_path, ← h.path]; rfl, rfl⟩
    hasVisited := fun x => ⟨(h.hasVisited x).symm, hvisited x⟩
    visitedSources := fun goals => by
      simp only [Registry.visitedSources, IndexedState.visitedSources, h.hasVisited]
    reaches := fun g => by
      rw [Bool.eq_iff_iff, Goal.reachedBy_iff, Goal.CompletedBy, ← h.path, ← h.stmt,
        IndexedState.reaches, Bool.and_eq_true, decide_eq_true_iff, List.contains_iff_mem, eq_comm]
    history := fun goals source hsource => by
      rw [IndexedState.visitedSources, Ascending.mem_filter, hvisited, mem_iff_of_getLast? hends]
      exact and_iff_right hsource
    frames := h.stack.frames.symm
    count := ⟨by rw [h.stack.count, h.stack.frames, Stack.length_frames], h.stack.count⟩
    pop := ⟨below, hpop, hbelow.frames⟩
    methods := ⟨by rw [Stack.methods, ← h.stack.frames]; rfl, rfl⟩
    sites := fun frame hframe => Stack.site_of_mem_dropLast (h.stack.frames ▸ hframe) }

/-- Of the states that come of any steps, the path is the set of visited statements in order and
ends with the current one, and the count is that of the frames, of which none but the outermost
resumes nowhere.  No step finds a frame that was not counted, and the only ones that make nothing
are those that leave the outermost frame. -/
theorem halves_agree (entry : Stmt) (steps : List Making) :
    (∃ k s, made entry steps = .ok k ∧ State.made? entry steps = some s ∧ k.Reads s) ∨
      (made entry steps = .error .noCaller ∧ State.made? entry steps = none) := by
  obtain ⟨k, s, hk, hs, hkeeps⟩ | hnone := (Keeps.place (.root _) entry).foldlM steps
  · exact .inl ⟨k, s, hk, hs, hkeeps.reads⟩
  · exact .inr hnone

end IndexedState

end PathExplorer
