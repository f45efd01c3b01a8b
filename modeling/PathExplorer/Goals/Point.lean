import PathExplorer.Program.Point

namespace PathExplorer

structure Source where
  stmt : Stmt
deriving DecidableEq

structure Sink where
  stmt : Stmt
deriving DecidableEq

structure Goal where
  source : Source
  sink : Sink
deriving DecidableEq

def Source.method (s : Source) : Method := s.stmt.method

def Sink.method (s : Sink) : Method := s.stmt.method

instance : ToString Source := ⟨fun s => s!"source@{s.stmt}"⟩

instance : ToString Sink := ⟨fun s => s!"sink@{s.stmt}"⟩

instance : Ord Source := ⟨compareOn Source.stmt⟩

instance : Ord Sink := ⟨compareOn Sink.stmt⟩

instance : Ord Goal := ⟨compareLex (compareOn Goal.source) (compareOn Goal.sink)⟩

instance : Std.TransOrd Source := inferInstanceAs (Std.TransCmp (compareOn Source.stmt))

instance : Std.TransOrd Sink := inferInstanceAs (Std.TransCmp (compareOn Sink.stmt))

instance : Std.TransOrd Goal :=
  inferInstanceAs (Std.TransCmp (compareLex (compareOn Goal.source) (compareOn Goal.sink)))

instance : Std.LawfulEqOrd Source where
  eq_of_compare {a b} h := by
    have : a.stmt = b.stmt := Std.LawfulEqOrd.eq_of_compare h
    cases a; cases b; simp_all

instance : Std.LawfulEqOrd Sink where
  eq_of_compare {a b} h := by
    have : a.stmt = b.stmt := Std.LawfulEqOrd.eq_of_compare h
    cases a; cases b; simp_all

instance : Std.LawfulEqOrd Goal where
  eq_of_compare {a b} h := by
    obtain ⟨hs, hk⟩ := compareLex_eq_eq.mp h
    have hs : a.source = b.source := Std.LawfulEqOrd.eq_of_compare hs
    have hk : a.sink = b.sink := Std.LawfulEqOrd.eq_of_compare hk
    cases a; cases b; simp_all

end PathExplorer
