import PathExplorer.Proofs.State.Holding

namespace PathExplorer

theorem getLastD_append {α : Type} (l m : List α) (a : α) :
    (l ++ m).getLastD a = m.getLastD (l.getLastD a) := by
  induction l generalizing a with
  | nil => rfl
  | cons b l ih => rw [List.cons_append, List.getLastD_cons, List.getLastD_cons, ih]

/-- Moves that enter methods and leave them again, each by a return of its own. -/
inductive Nested : List Move → Prop
  | nil : Nested []
  | advance {next : Stmt} {ms : List Move} : Nested ms → Nested (.advance next :: ms)
  | call {entry : Stmt} {inner ms : List Move} : Nested inner → Nested ms →
      Nested (.enter entry :: (inner ++ .resume :: ms))

namespace State

def trail? (s : State) : List Move → Option (List State)
  | [] => some []
  | m :: ms => do
    let t ← m.next? s
    return t :: (← t.trail? ms)

variable {s t u : State} {m : Move} {ms more : List Move} {ts us : List State}

theorem trail?_cons_eq_some_iff : s.trail? (m :: ms) = some us ↔
    ∃ t ts, m.next? s = some t ∧ t.trail? ms = some ts ∧ us = t :: ts := by
  simp only [trail?, Option.bind_eq_bind, Option.bind_eq_some_iff, Option.pure_def,
    Option.some.injEq]
  constructor
  · rintro ⟨t, ht, ts, hts, rfl⟩
    exact ⟨t, ts, ht, hts, rfl⟩
  · rintro ⟨t, ts, ht, hts, rfl⟩
    exact ⟨t, ht, ts, hts, rfl⟩

theorem trail?_append (hs : s.trail? ms = some ts) (hu : (ts.getLastD s).trail? more = some us) :
    s.trail? (ms ++ more) = some (ts ++ us) := by
  induction ms generalizing s ts with
  | nil =>
    cases hs
    exact hu
  | cons m ms ih =>
    obtain ⟨t, ts, ht, hts, rfl⟩ := trail?_cons_eq_some_iff.mp hs
    rw [List.getLastD_cons] at hu
    exact trail?_cons_eq_some_iff.mpr ⟨t, _, ht, ih hts hu, rfl⟩

theorem path_of_next (h : m.next? s = some t) : t.path = s.path ++ [t.stmt] := by
  cases m with
  | advance next | enter entry =>
    cases h
    exact path_follow ..
  | resume =>
    simp only [Move.next?, resume?] at h
    split at h
    · cases h
      exact path_follow ..
    · cases h

theorem path_of_trail? (h : s.trail? ms = some ts) {before after : List State}
    (hts : ts = before ++ t :: after) : t.path = s.path ++ (before ++ [t]).map stmt := by
  induction ms generalizing s ts before with
  | nil =>
    cases h
    cases before <;> cases hts
  | cons m ms ih =>
    obtain ⟨first, rest, hfirst, hrest, rfl⟩ := trail?_cons_eq_some_iff.mp h
    have hpath := path_of_next hfirst
    cases before with
    | nil =>
      cases hts
      exact hpath
    | cons _ before =>
      cases hts
      rw [ih hrest rfl, hpath, List.append_assoc]
      rfl

theorem exists_resumed {entry : Stmt} (h : t.stack = (s.enter entry).stack) :
    ∃ u, t.resume? = some u ∧ u.stmt = s.stmt ∧ u.stack = s.stack := by
  have hpush : t.stack = s.stack.push entry.method s.stmt := h
  refine ⟨t.follow s.stmt s.stack, ?_, rfl, rfl⟩
  rw [resume?, hpush]

/-- A method is entered and left, when the moves inside come back to the stack on which they
began. -/
theorem trail?_call {entry : Stmt} (hts : (s.enter entry).trail? ms = some ts)
    (hstack : (ts.getLastD (s.enter entry)).stack = (s.enter entry).stack) :
    ∃ u, s.trail? (.enter entry :: (ms ++ [.resume])) = some (s.enter entry :: (ts ++ [u])) ∧
      u.stmt = s.stmt ∧ u.stack = s.stack := by
  obtain ⟨u, hu, hstmt, hback⟩ := exists_resumed hstack
  have hresume : (ts.getLastD (s.enter entry)).trail? [.resume] = some [u] :=
    trail?_cons_eq_some_iff.mpr ⟨u, [], hu, rfl, rfl⟩
  exact ⟨u, trail?_cons_eq_some_iff.mpr ⟨_, _, rfl, trail?_append hts hresume, rfl⟩, hstmt, hback⟩

end State

open State in
/-- Nested moves can all be made, and end on the stack on which they began. -/
theorem Nested.stack {ms : List Move} (h : Nested ms) (s : State) :
    ∃ ts, s.trail? ms = some ts ∧ (ts.getLastD s).stack = s.stack := by
  induction h generalizing s with
  | nil => exact ⟨[], rfl, rfl⟩
  | @advance next ms _ ih =>
    obtain ⟨ts, hts, hstack⟩ := ih (s.advance next)
    refine ⟨s.advance next :: ts, trail?_cons_eq_some_iff.mpr ⟨_, ts, rfl, hts, rfl⟩, ?_⟩
    rw [List.getLastD_cons]
    exact hstack
  | @call entry inner ms _ _ ihinner ihms =>
    obtain ⟨ts, hts, hinner⟩ := ihinner (s.enter entry)
    obtain ⟨u, hcall, -, hback⟩ := trail?_call hts hinner
    obtain ⟨us, hus, hstack⟩ := ihms u
    have hlast : (s.enter entry :: (ts ++ [u])).getLastD s = u := by
      rw [← List.cons_append, List.getLastD_concat]
    have htrail := trail?_append hcall (hlast ▸ hus)
    rw [List.cons_append, List.append_assoc, List.singleton_append] at htrail
    refine ⟨_, htrail, ?_⟩
    rw [getLastD_append, hlast, hstack, hback]

namespace Shelf

variable {s t : State} {m : Move} {ms : List Move} {ts : List State} {place source : Nat}

theorem get?_put (shelf : Shelf) (place : Nat) (s : State) :
    (shelf.put place s).get? place = some s := List.lookup_cons_self

theorem get?_go {shelf : Shelf} (hs : shelf.get? source = some s) (ht : m.next? s = some t) :
    (shelf.perform (.go place source m)).get? place = some t := by
  have hmove : shelf.get? source >>= m.next? = some t := by
    rw [hs]
    exact ht
  rw [perform, go, hmove]
  exact shelf.get?_put place t

theorem get?_after_trail {a : Account} (hs : a.shelf.get? place = some s)
    (hts : s.trail? ms = some ts) :
    (a.after (ms.map (.go place place))).shelf.get? place = some (ts.getLastD s) := by
  induction ms generalizing a s ts with
  | nil =>
    cases hts
    exact hs
  | cons m ms ih =>
    obtain ⟨t, ts, ht, hrest, rfl⟩ := State.trail?_cons_eq_some_iff.mp hts
    rw [List.getLastD_cons]
    exact ih (get?_go hs ht) hrest

end Shelf

namespace State

/-- A method that is entered from a state, and in which every call is left again, can be left by the
next return, which resumes at the statement and on the stack of that state.  The path has grown by
the statements entered in between, and nothing visited before is forgotten on the way.  Where the
states are kept, that state and all others but the one that goes on stay as they are. -/
theorem call_undone (s : State) (entry : Stmt) {ms : List Move} (h : Nested ms) :
    ∃ ts u, s.trail? (.enter entry :: (ms ++ [.resume])) = some (ts ++ [u]) ∧
      u.stmt = s.stmt ∧ u.stack = s.stack ∧
      u.path = s.path ++ ts.map stmt ++ [s.stmt] ∧
      (∀ t ∈ ts ++ [u], ∀ x, s.hasVisited x → t.hasVisited x) ∧
      ∀ (a : Shelf.Account) (home place : Nat), a.shelf.get? home = some s →
        let later := a.after (.go place home (.enter entry) ::
          (ms ++ [Move.resume]).map (.go place place))
        later.shelf.get? place = some u ∧
          ∀ other ≠ place, later.shelf.get? other = a.shelf.get? other := by
  obtain ⟨ts, hts, hstack⟩ := h.stack (s.enter entry)
  obtain ⟨u, htrail, hstmt, hback⟩ := trail?_call hts hstack
  have hinside : (s.enter entry).trail? (ms ++ [.resume]) = some (ts ++ [u]) := by
    obtain ⟨_, _, hfirst, hrest, hlist⟩ := trail?_cons_eq_some_iff.mp htrail
    cases hfirst
    cases hlist
    exact hrest
  refine ⟨s.enter entry :: ts, u, htrail, hstmt, hback, ?path, ?visited, ?kept⟩
  case path =>
    have hlast : s.enter entry :: (ts ++ [u]) = (s.enter entry :: ts) ++ u :: [] := rfl
    rw [path_of_trail? htrail hlast, List.map_append, List.map_singleton, hstmt,
      List.append_assoc]
  case visited =>
    intro t ht x hx
    obtain ⟨before, after, hsplit⟩ := List.append_of_mem ht
    rw [hasVisited_iff] at hx ⊢
    rw [path_of_trail? htrail hsplit]
    exact List.mem_append_left _ hx
  case kept =>
    intro a home place hs
    refine ⟨?_, fun other hother => Shelf.Account.get?_after_of_ne ?_⟩
    · have hentered : (a.act (.go place home (.enter entry))).shelf.get? place =
          some (s.enter entry) := Shelf.get?_go hs rfl
      have hlast := Shelf.get?_after_trail hentered hinside
      rwa [List.getLastD_concat] at hlast
    · refine List.forall_mem_cons.mpr ⟨hother.symm, ?_⟩
      intro act hact
      obtain ⟨m, -, rfl⟩ := List.mem_map.mp hact
      exact hother.symm

/-- On no stack at all a method is entered that calls two others, the first of which calls a third.
The last return is back on no stack. -/
theorem call_undone_rootless :
    let s : State := { stmt := ⟨⟨0⟩, 1⟩, stack := .empty, earlier := [⟨⟨0⟩, 0⟩] }
    let inside := [Move.advance ⟨⟨1⟩, 1⟩, .enter ⟨⟨2⟩, 0⟩, .enter ⟨⟨3⟩, 0⟩, .resume,
      .advance ⟨⟨2⟩, 1⟩, .resume, .enter ⟨⟨3⟩, 0⟩, .resume]
    Nested inside ∧ ∃ ts u, s.trail? (.enter ⟨⟨1⟩, 0⟩ :: (inside ++ [.resume])) = some (ts ++ [u]) ∧
      ts.length = 9 ∧ u.stmt = ⟨⟨0⟩, 1⟩ ∧ u.stack = .empty := by
  intro s inside
  have hthird : Nested [.enter ⟨⟨3⟩, 0⟩, .resume, .advance ⟨⟨2⟩, 1⟩] :=
    .call .nil (.advance .nil)
  have hinside : Nested inside := .advance (.call hthird (.call .nil .nil))
  obtain ⟨ts, u, htrail, hstmt, hstack, -⟩ := s.call_undone ⟨⟨1⟩, 0⟩ hinside
  refine ⟨hinside, ts, u, htrail, ?_, hstmt, hstack⟩
  have hlength : some 10 = some (ts ++ [u]).length := congrArg (Option.map List.length) htrail
  simpa using hlength.symm

end State

end PathExplorer
