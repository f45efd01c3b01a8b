import PathExplorer.Program.Graph

namespace PathExplorer

structure Body where
  kinds : List Kind
  edges : List (Nat × Nat)

def Body.linear (kinds : List Kind) : Body := ⟨kinds, Flow.chain kinds⟩

structure Draft where
  names : List String := []
  /-- By method number, the last definition if there is one. -/
  bodies : List (Option Body) := []
  calls : List Call := []
  undeclared : List Method := []
  names_length : names.length = bodies.length := by rfl

namespace Draft

def nextMethod (d : Draft) : Method := ⟨d.bodies.length⟩

def declare (name : String) (d : Draft) : Draft where
  names := d.names ++ [name]
  bodies := d.bodies ++ [none]
  calls := d.calls
  undeclared := d.undeclared
  names_length := by simp [d.names_length]

/-- Give a declared method its body.  For an undeclared one `build` is going to fail. -/
def define (m : Method) (body : Body) (d : Draft) : Draft :=
  if m.index < d.bodies.length then
    { d with bodies := d.bodies.set m.index (some body), names_length := by simp [d.names_length] }
  else { d with undeclared := d.undeclared ++ [m] }

def method (name : String) (body : Body) (d : Draft) : Draft :=
  (d.declare name).define d.nextMethod body

def call (site : Stmt) (callee : Method) (d : Draft) : Draft :=
  { d with calls := d.calls ++ [⟨site, callee⟩] }

def flows : Nat → List (Option Body) → Except Fault (List Flow)
  | _, [] => .ok []
  | i, none :: _ => .error (.methodNotFound ⟨i⟩)
  | i, some body :: rest => do
    let f ← Flow.build ⟨i⟩ body.kinds 0 body.edges
    let fs ← flows (i + 1) rest
    return f :: fs

/-- What is wrong with a call among the given methods: an unknown caller, a site outside it, an
unknown callee. -/
def callFault? (fs : List Flow) (c : Call) : Option Fault :=
  match fs[c.caller.index]? with
  | none => some (.methodNotFound c.caller)
  | some f =>
    if c.site ∉ f then some (.stmtNotFound c.site)
    else if fs.length ≤ c.callee.index then some (.methodNotFound c.callee)
    else none

/-- Calls once each, ordered by site, those of one site as they were given. -/
def arrange (calls : List Call) : List Call :=
  calls.eraseDups.mergeSort fun a b => (compare a.site b.site).isLE

theorem callFault?_eq_none {fs : List Flow} {c : Call} (h : callFault? fs c = none) :
    (∃ f, fs[c.caller.index]? = some f ∧ c.site ∈ f) ∧ c.callee.index < fs.length := by
  unfold callFault? at h
  split at h
  · simp at h
  · rename_i f hf
    split at h
    · simp at h
    · rename_i hs
      split at h
      · simp at h
      · rename_i hc
        exact ⟨⟨f, hf, Decidable.not_not.mp hs⟩, Nat.not_le.mp hc⟩

theorem build_method {m : Method} {kinds : List Kind} {start : Nat} {edges : List (Nat × Nat)}
    {f : Flow} (h : Flow.build m kinds start edges = .ok f) : f.method = m ∧ f.start = start := by
  unfold Flow.build at h
  split at h
  · simp at h
  · injection h with h
    subst h
    exact ⟨rfl, rfl⟩

theorem flows_cons_ok {i : Nat} {body : Option Body} {rest : List (Option Body)} {fs : List Flow}
    (h : flows i (body :: rest) = .ok fs) :
    ∃ b f gs, body = some b ∧ Flow.build ⟨i⟩ b.kinds 0 b.edges = .ok f ∧
      flows (i + 1) rest = .ok gs ∧ fs = f :: gs := by
  cases body with
  | none => simp [flows] at h
  | some b =>
    unfold flows at h
    cases hf : Flow.build ⟨i⟩ b.kinds 0 b.edges with
    | error e => simp [hf, bind, Except.bind] at h
    | ok f =>
      cases hg : flows (i + 1) rest with
      | error e => simp [hf, hg, bind, Except.bind] at h
      | ok gs =>
        simp [hf, hg, bind, Except.bind, pure, Except.pure] at h
        exact ⟨b, f, gs, rfl, hf, rfl, h.symm⟩

theorem flows_ok {i : Nat} {bodies : List (Option Body)} {fs : List Flow}
    (h : flows i bodies = .ok fs) :
    fs.length = bodies.length ∧ (∀ f ∈ fs, f.start = 0) ∧
      ∀ j (hj : j < fs.length), fs[j].method = ⟨i + j⟩ := by
  induction bodies generalizing i fs with
  | nil =>
    simp only [flows, Except.ok.injEq] at h
    subst h
    simp
  | cons body rest ih =>
    obtain ⟨b, f, gs, -, hf, hg, rfl⟩ := flows_cons_ok h
    obtain ⟨hl, hs, hm⟩ := ih hg
    obtain ⟨hfm, hfs⟩ := build_method hf
    refine ⟨by simp [hl], by simpa [hfs] using hs, fun j hj => ?_⟩
    cases j with
    | zero => simpa using hfm
    | succ j =>
      have := hm j (by simpa using hj)
      simp [this, Nat.add_comm, Nat.add_left_comm]

theorem mem_arrange {calls : List Call} {c : Call} : c ∈ arrange calls ↔ c ∈ calls := by
  simp [arrange]

theorem arrange_sorted (calls : List Call) :
    (arrange calls).Pairwise (fun a b => (compare a.site b.site).isLE) :=
  List.pairwise_mergeSort (fun _ _ _ => Std.TransCmp.isLE_trans)
    (fun a b => by
      have : compare b.site a.site = (compare a.site b.site).swap := Std.OrientedCmp.eq_swap
      cases h : compare a.site b.site <;> simp_all) _

/-- The finished program, or the first thing wrong with it: a definition of an undeclared method,
a method without a body or with a bad one, a call between what does not exist. -/
def build (d : Draft) : Except Fault Program :=
  match d.undeclared with
  | m :: _ => .error (.methodNotFound m)
  | [] =>
    match hf : flows 0 d.bodies with
    | .error fault => .error fault
    | .ok fs =>
      match hc : d.calls.findSome? (callFault? fs) with
      | some fault => .error fault
      | none => .ok {
          names := d.names
          flows := fs
          calls := arrange d.calls
          names_length := d.names_length.trans (flows_ok hf).1.symm
          flow_method := fun i h => by simpa using (flows_ok hf).2.2 i h
          flow_start := (flows_ok hf).2.1
          site_mem := fun c h => (callFault?_eq_none
            (List.findSome?_eq_none_iff.mp hc c (mem_arrange.mp h))).1
          callee_lt := fun c h => (callFault?_eq_none
            (List.findSome?_eq_none_iff.mp hc c (mem_arrange.mp h))).2
          calls_nodup := (List.mergeSort_perm _ _).nodup_iff.mpr (nodup_eraseDups _)
          calls_sorted := arrange_sorted _ }

end Draft

end PathExplorer
