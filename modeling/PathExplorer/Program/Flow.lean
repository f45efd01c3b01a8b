import PathExplorer.Distinct
import PathExplorer.Fault

namespace PathExplorer

inductive Kind where
  | plain
  | call
  | ret
  | throw
deriving DecidableEq

structure Flow where
  method : Method
  kinds : List Kind
  start : Nat
  /-- Pairs of positions in the body, in the order in which they were first given. -/
  edges : List (Nat × Nat)
  start_lt : start < kinds.length
  edges_lt : ∀ e ∈ edges, e.1 < kinds.length ∧ e.2 < kinds.length
  edges_nodup : edges.Nodup

namespace Flow

/-- Every position that an entry and some edges name, in the order in which they are checked. -/
def named (start : Nat) (edges : List (Nat × Nat)) : List Nat :=
  start :: edges.flatMap fun e => [e.1, e.2]

theorem named_lt {size start : Nat} {edges : List (Nat × Nat)}
    (h : (named start edges).find? (size ≤ ·) = none) :
    start < size ∧ ∀ e ∈ edges, e.1 < size ∧ e.2 < size := by
  simp only [named, List.find?_eq_none, List.mem_cons, List.mem_flatMap, decide_eq_true_eq,
    Nat.not_le] at h
  exact ⟨h _ (.inl rfl), fun e he =>
    ⟨h _ (.inr ⟨e, he, by simp⟩), h _ (.inr ⟨e, he, by simp⟩)⟩⟩

def build (method : Method) (kinds : List Kind) (start : Nat) (edges : List (Nat × Nat)) :
    Except Fault Flow :=
  match h : (named start edges).find? (kinds.length ≤ ·) with
  | some stray => .error (.stmtNotFound (method.stmt stray))
  | none => .ok {
      method, kinds, start
      edges := edges.eraseDups
      start_lt := (named_lt h).1
      edges_lt := fun e he => (named_lt h).2 e (List.mem_eraseDups.mp he)
      edges_nodup := nodup_eraseDups edges }

def chain (kinds : List Kind) : List (Nat × Nat) :=
  (List.range (kinds.length - 1)).map fun i => (i, i + 1)

variable (f : Flow)

def size : Nat := f.kinds.length

def entry : Stmt := f.method.stmt f.start

def stmts : List Stmt := (List.range f.size).map f.method.stmt

instance : Membership Stmt Flow := ⟨fun f s => s.method = f.method ∧ s.index < f.size⟩

instance (s : Stmt) : Decidable (s ∈ f) :=
  inferInstanceAs (Decidable (s.method = f.method ∧ s.index < f.size))

def next (i : Nat) : List Stmt :=
  (f.edges.filter (·.1 = i)).map fun e => f.method.stmt e.2

def previous (i : Nat) : List Stmt :=
  (f.edges.filter (·.2 = i)).map fun e => f.method.stmt e.1

/-- The value of `g` at the position of `s`, for a statement of the body. -/
def locate {α : Type} (s : Stmt) (g : (i : Nat) → i < f.kinds.length → α) : Except Fault α :=
  if h : s ∈ f then .ok (g s.index h.2) else .error (.stmtNotFound s)

def kind (s : Stmt) : Except Fault Kind := f.locate s fun i h => f.kinds[i]

def successors (s : Stmt) : Except Fault (List Stmt) := f.locate s fun i _ => f.next i

def predecessors (s : Stmt) : Except Fault (List Stmt) := f.locate s fun i _ => f.previous i

def exits : List Stmt := f.stmts.filter fun s => (f.next s.index).isEmpty

/-- The exits by which the method returns to its caller. -/
def returns : List Stmt := f.exits.filter fun s => f.kinds[s.index]? = some .ret

variable {f}

theorem mem_iff {s : Stmt} : s ∈ f ↔ s.method = f.method ∧ s.index < f.kinds.length := Iff.rfl

@[simp] theorem mem_stmts {s : Stmt} : s ∈ f.stmts ↔ s ∈ f := by
  simp only [stmts, List.mem_map, List.mem_range, mem_iff, size]
  constructor
  · rintro ⟨i, hi, rfl⟩
    exact ⟨rfl, hi⟩
  · rintro ⟨hm, hi⟩
    exact ⟨s.index, hi, by cases s; cases hm; rfl⟩

theorem mem_next {i : Nat} {s : Stmt} :
    s ∈ f.next i ↔ s.method = f.method ∧ (i, s.index) ∈ f.edges := by
  simp only [next, List.mem_map, List.mem_filter, decide_eq_true_eq]
  constructor
  · rintro ⟨⟨a, b⟩, ⟨he, rfl⟩, rfl⟩
    exact ⟨rfl, he⟩
  · rintro ⟨hm, he⟩
    exact ⟨_, ⟨he, rfl⟩, by cases s; cases hm; rfl⟩

theorem mem_previous {i : Nat} {s : Stmt} :
    s ∈ f.previous i ↔ s.method = f.method ∧ (s.index, i) ∈ f.edges := by
  simp only [previous, List.mem_map, List.mem_filter, decide_eq_true_eq]
  constructor
  · rintro ⟨⟨a, b⟩, ⟨he, rfl⟩, rfl⟩
    exact ⟨rfl, he⟩
  · rintro ⟨hm, he⟩
    exact ⟨_, ⟨he, rfl⟩, by cases s; cases hm; rfl⟩

theorem mem_of_mem_next {i : Nat} {s : Stmt} (h : s ∈ f.next i) : s ∈ f :=
  ⟨(mem_next.mp h).1, (f.edges_lt _ (mem_next.mp h).2).2⟩

theorem entry_mem (f : Flow) : f.entry ∈ f := ⟨rfl, f.start_lt⟩

theorem locate_of_mem {α : Type} {s : Stmt} {g : (i : Nat) → i < f.kinds.length → α} (h : s ∈ f) :
    f.locate s g = .ok (g s.index h.2) := dif_pos h

theorem locate_of_not_mem {α : Type} {s : Stmt} {g : (i : Nat) → i < f.kinds.length → α}
    (h : s ∉ f) : f.locate s g = .error (.stmtNotFound s) := dif_neg h

theorem successors_of_mem {s : Stmt} (h : s ∈ f) : f.successors s = .ok (f.next s.index) :=
  locate_of_mem h

theorem mem_of_mem_successors {s t : Stmt} {next : List Stmt} (h : f.successors s = .ok next)
    (ht : t ∈ next) : t ∈ f := by
  by_cases hs : s ∈ f
  · rw [successors_of_mem hs] at h
    cases h
    exact mem_of_mem_next ht
  · rw [successors, locate_of_not_mem hs] at h
    cases h

theorem kind_of_mem {s : Stmt} (h : s ∈ f) : f.kind s = .ok (f.kinds.get ⟨s.index, h.2⟩) :=
  locate_of_mem h

theorem build_eq_error_iff {method : Method} {kinds : List Kind} {start : Nat}
    {edges : List (Nat × Nat)} {fault : Fault} :
    build method kinds start edges = .error fault ↔
      ∃ stray, (named start edges).find? (kinds.length ≤ ·) = some stray ∧
        fault = .stmtNotFound (method.stmt stray) := by
  unfold build
  split
  · rename_i stray h
    simp [h, eq_comm]
  · rename_i h
    simp [h]

end Flow

end PathExplorer
