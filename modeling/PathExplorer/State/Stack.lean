import PathExplorer.Program.Point

namespace PathExplorer

/-- One activation: the method, and the statement at which its caller resumes. -/
structure Frame where
  method : Method
  site? : Option Stmt
deriving DecidableEq

inductive Stack where
  | empty
  | root (method : Method)
  | push (below : Stack) (method : Method) (site : Stmt)
deriving DecidableEq

namespace Stack

def pop : Stack → Stack
  | push below _ _ => below
  | _ => empty

def top? : Stack → Option Frame
  | empty => none
  | root m => some ⟨m, none⟩
  | push _ m site => some ⟨m, some site⟩

def depth : Stack → Nat
  | empty => 0
  | root _ => 1
  | push below _ _ => below.depth + 1

def isEmpty : Stack → Bool
  | empty => true
  | _ => false

def frames : Stack → List Frame
  | empty => []
  | root m => [⟨m, none⟩]
  | push below m site => ⟨m, some site⟩ :: below.frames

def methods (s : Stack) : List Method := (s.frames.map (·.method)).reverse

def holds (s : Stack) (m : Method) : Bool := s.frames.any (·.method = m)

@[simp] theorem length_frames (s : Stack) : s.frames.length = s.depth := by
  induction s <;> simp_all [frames, depth]

theorem frames_pop (s : Stack) : s.pop.frames = s.frames.tail := by
  cases s <;> rfl

theorem head?_frames (s : Stack) : s.frames.head? = s.top? := by
  cases s <;> rfl

def debugText (s : Stack) : String :=
  let shown := s.methods.map fun m => s!"MethodId({m.index})"
  "[" ++ ", ".intercalate shown ++ "]"

end Stack

end PathExplorer
