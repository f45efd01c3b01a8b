namespace PathExplorer

structure Method where
  index : Nat
deriving DecidableEq

structure Stmt where
  method : Method
  index : Nat
deriving DecidableEq

def Method.stmt (m : Method) (index : Nat) : Stmt := ⟨m, index⟩

instance : ToString Method := ⟨fun m => s!"m{m.index}"⟩

instance : ToString Stmt := ⟨fun s => s!"{s.method}#{s.index}"⟩

instance : Ord Method := ⟨compareOn Method.index⟩

instance : Ord Stmt := ⟨compareLex (compareOn Stmt.method) (compareOn Stmt.index)⟩

instance : Std.TransOrd Method := inferInstanceAs (Std.TransCmp (compareOn Method.index))

instance : Std.TransOrd Stmt :=
  inferInstanceAs (Std.TransCmp (compareLex (compareOn Stmt.method) (compareOn Stmt.index)))

instance : Std.LawfulEqOrd Method where
  eq_of_compare {a b} h := by
    have : a.index = b.index := Std.LawfulEqOrd.eq_of_compare (α := Nat) h
    cases a; cases b; simp_all

instance : Std.LawfulEqOrd Stmt where
  eq_of_compare {a b} h := by
    obtain ⟨hm, hi⟩ := compareLex_eq_eq.mp h
    have hm : a.method = b.method := Std.LawfulEqOrd.eq_of_compare hm
    have hi : a.index = b.index := Std.LawfulEqOrd.eq_of_compare (α := Nat) hi
    cases a; cases b; simp_all

end PathExplorer
