import PathExplorer.Program.Graph

namespace PathExplorer

namespace View

/-- The view is of the program, but some lookups of control flow may fail, for any reason. -/
structure Shows (v : View) (p : Program) : Prop where
  calls : v.calls = p.calls
  flow : ∀ m f, v.flow m = .ok f → p.flow m = .ok f

def Lawful (v : View) : Prop := ∀ m f, v.flow m = .ok f → f.method = m

def Has (v : View) (m : Method) : Prop := ∃ f, v.flow m = .ok f

def Locates (v : View) (s : Stmt) : Prop := ∃ f, v.flow s.method = .ok f ∧ s ∈ f

variable {v : View} {m : Method} {f : Flow}

theorem mem_of_lawful (hv : v.Lawful) (hf : v.flow m = .ok f) {s : Stmt} (hs : s ∈ f) :
    s.method = m := hs.1.trans (hv m f hf)

theorem locates_of_mem (hv : v.Lawful) (hf : v.flow m = .ok f) {s : Stmt} (hs : s ∈ f) :
    v.Locates s := ⟨f, by rw [mem_of_lawful hv hf hs, hf], hs⟩

theorem locates_entry (hv : v.Lawful) (hf : v.flow m = .ok f) : v.Locates f.entry :=
  locates_of_mem hv hf f.entry_mem

end View

theorem Program.flow_lawful (p : Program) : p.view.Lawful := by
  intro m f hf
  change p.flow m = .ok f at hf
  unfold Program.flow at hf
  cases hg : p.flows[m.index]? with
  | none =>
    rw [hg] at hf
    cases hf
  | some g =>
    rw [hg] at hf
    cases hf
    obtain ⟨hi, rfl⟩ := List.getElem?_eq_some_iff.mp hg
    exact p.flow_method m.index hi

theorem Program.flow_eq_ok_iff {p : Program} {m : Method} {f : Flow} :
    p.view.flow m = .ok f ↔ p.flows[m.index]? = some f := by
  change p.flow m = .ok f ↔ _
  unfold Program.flow
  cases p.flows[m.index]? <;> simp

theorem Program.has_callee {p : Program} {c : Call} (hc : c ∈ p.calls) : p.view.Has c.callee :=
  ⟨_, Program.flow_eq_ok_iff.mpr (List.getElem?_eq_getElem (p.callee_lt c hc))⟩

theorem View.Shows.lawful {v : View} {p : Program} (h : v.Shows p) : v.Lawful :=
  fun m f hf => p.flow_lawful m f (h.flow m f hf)

theorem Program.view_shows (p : Program) : p.view.Shows p := ⟨rfl, fun _ _ h => h⟩

theorem Program.hide_shows (p : Program) (hidden : List Method) :
    (p.view.hide hidden).Shows p where
  calls := rfl
  flow m f hf := by
    unfold View.hide at hf
    dsimp only at hf
    split at hf
    · cases hf
    · exact hf

def twoMethods : Program where
  names := ["outer", "inner"]
  flows := [
    { method := ⟨0⟩, kinds := [.plain, .call, .ret], start := 0, edges := [(0, 1), (1, 2)]
      start_lt := by decide, edges_lt := by decide, edges_nodup := by decide },
    { method := ⟨1⟩, kinds := [.plain, .ret], start := 0, edges := [(0, 1)]
      start_lt := by decide, edges_lt := by decide, edges_nodup := by decide }]
  calls := [⟨⟨⟨0⟩, 1⟩, ⟨1⟩⟩]
  names_length := rfl
  flow_method := by
    intro i h
    match i, h with
    | 0, _ => rfl
    | 1, _ => rfl
  flow_start := by simp
  site_mem := by
    intro c hc
    cases List.mem_singleton.mp hc
    exact ⟨_, rfl, by decide⟩
  callee_lt := by simp
  calls_nodup := by decide
  calls_sorted := by simp

/-- A method that calls a helper twice, in a loop that begins at the first call, and ends by an
exception or normally. -/
def helperTwice : Program where
  names := ["caller", "helper"]
  flows := [
    { method := ⟨0⟩, kinds := [.call, .call, .throw, .ret], start := 0
      edges := [(0, 1), (1, 0), (1, 2), (1, 3)]
      start_lt := by decide, edges_lt := by decide, edges_nodup := by decide },
    { method := ⟨1⟩, kinds := [.plain, .ret], start := 0, edges := [(0, 1)]
      start_lt := by decide, edges_lt := by decide, edges_nodup := by decide }]
  calls := [⟨⟨⟨0⟩, 0⟩, ⟨1⟩⟩, ⟨⟨⟨0⟩, 1⟩, ⟨1⟩⟩]
  names_length := rfl
  flow_method := by
    intro i h
    match i, h with
    | 0, _ => rfl
    | 1, _ => rfl
  flow_start := by simp
  site_mem := by
    intro c hc
    simp only [List.mem_cons, List.not_mem_nil, or_false] at hc
    obtain rfl | rfl := hc
    · exact ⟨_, rfl, by decide⟩
    · exact ⟨_, rfl, by decide⟩
  callee_lt := by simp
  calls_nodup := by decide
  calls_sorted := by decide

def calledAtPlain : Program where
  names := ["main", "helper"]
  flows := [
    { method := ⟨0⟩, kinds := [.plain, .ret], start := 0, edges := [(0, 1)]
      start_lt := by decide, edges_lt := by decide, edges_nodup := by decide },
    { method := ⟨1⟩, kinds := [.ret], start := 0, edges := []
      start_lt := by decide, edges_lt := by decide, edges_nodup := by decide }]
  calls := [⟨⟨⟨0⟩, 0⟩, ⟨1⟩⟩]
  names_length := rfl
  flow_method := by
    intro i h
    match i, h with
    | 0, _ => rfl
    | 1, _ => rfl
  flow_start := by simp
  site_mem := by
    intro c hc
    cases List.mem_singleton.mp hc
    exact ⟨_, rfl, by decide⟩
  callee_lt := by simp
  calls_nodup := by decide
  calls_sorted := by simp

def returnGoesOn : Program where
  names := ["caller", "callee"]
  flows := [
    { method := ⟨0⟩, kinds := [.call, .plain, .ret], start := 0, edges := [(0, 1), (1, 2)]
      start_lt := by decide, edges_lt := by decide, edges_nodup := by decide },
    { method := ⟨1⟩, kinds := [.ret, .plain], start := 0, edges := [(0, 1)]
      start_lt := by decide, edges_lt := by decide, edges_nodup := by decide }]
  calls := [⟨⟨⟨0⟩, 0⟩, ⟨1⟩⟩]
  names_length := rfl
  flow_method := by
    intro i h
    match i, h with
    | 0, _ => rfl
    | 1, _ => rfl
  flow_start := by simp
  site_mem := by
    intro c hc
    cases List.mem_singleton.mp hc
    exact ⟨_, rfl, by decide⟩
  callee_lt := by simp
  calls_nodup := by decide
  calls_sorted := by simp

/-- A method that calls itself at two statements, each of which leads to the other, and at the first
of them another method as well. -/
def restarts : Program where
  names := ["caller", "helper"]
  flows := [
    { method := ⟨0⟩, kinds := [.plain, .call, .ret, .call], start := 0
      edges := [(0, 1), (0, 2), (1, 3), (3, 1)]
      start_lt := by decide, edges_lt := by decide, edges_nodup := by decide },
    { method := ⟨1⟩, kinds := [.ret], start := 0, edges := []
      start_lt := by decide, edges_lt := by decide, edges_nodup := by decide }]
  calls := [⟨⟨⟨0⟩, 1⟩, ⟨0⟩⟩, ⟨⟨⟨0⟩, 1⟩, ⟨1⟩⟩, ⟨⟨⟨0⟩, 3⟩, ⟨0⟩⟩]
  names_length := rfl
  flow_method := by
    intro i h
    match i, h with
    | 0, _ => rfl
    | 1, _ => rfl
  flow_start := by simp
  site_mem := by
    intro c hc
    simp only [List.mem_cons, List.not_mem_nil, or_false] at hc
    obtain rfl | rfl | rfl := hc
    · exact ⟨_, rfl, by decide⟩
    · exact ⟨_, rfl, by decide⟩
    · exact ⟨_, rfl, by decide⟩
  callee_lt := by simp
  calls_nodup := by decide
  calls_sorted := by decide

end PathExplorer
