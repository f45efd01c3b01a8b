import PathExplorer.Proofs.Program.Steps
import PathExplorer.Proofs.Program.Targets

namespace PathExplorer

namespace Step

def Sound (steps : List Step) (i : Nat) : Prop :=
  ∃ body f, LastBody steps ⟨i⟩ body ∧ Flow.build ⟨i⟩ body.kinds 0 body.edges = .ok f

/-- What is wrong with a method: it has no body in the end, or one that is refused. -/
inductive MethodFault (steps : List Step) (i : Nat) : Fault → Prop
  | bodyless : (∀ body, ¬ LastBody steps ⟨i⟩ body) → MethodFault steps i (.methodNotFound ⟨i⟩)
  | refused {body : Body} {fault : Fault} : LastBody steps ⟨i⟩ body →
      Flow.build ⟨i⟩ body.kinds 0 body.edges = .error fault → MethodFault steps i fault

def Joins (steps : List Step) (c : Call) : Prop :=
  (∃ body, LastBody steps c.caller body ∧ c.site.index < body.kinds.length) ∧
    c.callee.index < declared steps

/-- What is wrong with a call between methods that are all sound: there is no caller, or not the
statement, or no callee. -/
inductive CallFault (steps : List Step) (c : Call) : Fault → Prop
  | caller : declared steps ≤ c.caller.index → CallFault steps c (.methodNotFound c.caller)
  | site {body : Body} : LastBody steps c.caller body → body.kinds.length ≤ c.site.index →
      CallFault steps c (.stmtNotFound c.site)
  | callee {body : Body} : LastBody steps c.caller body → c.site.index < body.kinds.length →
      declared steps ≤ c.callee.index → CallFault steps c (.methodNotFound c.callee)

structure Flows (steps : List Step) (fs : List Flow) : Prop where
  length : fs.length = declared steps
  flow : ∀ (i : Nat) f, fs[i]? = some f ↔
    ∃ body, LastBody steps ⟨i⟩ body ∧ Flow.build ⟨i⟩ body.kinds 0 body.edges = .ok f

structure WellFormed (steps : List Step) : Prop where
  declaredFirst : NoStray steps
  methods : ∀ i < declared steps, Sound steps i
  calls : ∀ c ∈ calls steps, Joins steps c

/-- The first thing that is wrong: definitions before methods, these by number, and before calls. -/
inductive FirstFault (steps : List Step) : Fault → Prop
  | stray {m : Method} : FirstStray steps m → FirstFault steps (.methodNotFound m)
  | method {i : Nat} {fault : Fault} : NoStray steps → i < declared steps →
      (∀ j < i, Sound steps j) → MethodFault steps i fault → FirstFault steps fault
  | call {before after : List Call} {c : Call} {fault : Fault} : NoStray steps →
      (∀ i < declared steps, Sound steps i) → calls steps = before ++ c :: after →
      (∀ d ∈ before, Joins steps d) → CallFault steps c fault → FirstFault steps fault

def GivenBefore (steps : List Step) (a b : Call) : Prop :=
  (calls steps).idxOf a < (calls steps).idxOf b

end Step

/-- The program has the last bodies that the steps gave, and the calls that they gave, once each. -/
structure Program.Shows (p : Program) (steps : List Step) : Prop where
  flow : ∀ m f, p.view.flow m = .ok f ↔
    ∃ body, Step.LastBody steps m body ∧ Flow.build m body.kinds 0 body.edges = .ok f
  callee : ∀ s m, m ∈ p.view.callees s ↔ ⟨s, m⟩ ∈ Step.calls steps
  callees_nodup : ∀ s, (p.view.callees s).Nodup
  callees_order : ∀ s, (p.view.callees s).Pairwise fun a b => Step.GivenBefore steps ⟨s, a⟩ ⟨s, b⟩
  views_agree : ∀ s m, m ∈ p.view.callees s ↔ ⟨s, m⟩ ∈ p.view.callsFrom s.method
  caller : ∀ m, ∀ c ∈ p.view.callsFrom m, c.caller = m
  edges_nodup : ∀ m, (p.view.callsFrom m).Nodup
  edges_order : ∀ m, (p.view.callsFrom m).Pairwise fun a b =>
    a.site.index < b.site.index ∨ a.site = b.site ∧ Step.GivenBefore steps a b
  count : p.callCount = (Step.calls steps).toFinset.card

namespace Draft

variable {d : Draft} {p : Program} {fault : Fault} {i : Nat} {bodies : List (Option Body)}
  {fs : List Flow}

def flowOf (i : Nat) : Option Body → Except Fault Flow
  | none => .error (.methodNotFound ⟨i⟩)
  | some body => Flow.build ⟨i⟩ body.kinds 0 body.edges

theorem flows_cons (i : Nat) (body : Option Body) (rest : List (Option Body)) :
    flows i (body :: rest) = flowOf i body >>= fun f => flows (i + 1) rest >>= fun fs =>
      .ok (f :: fs) := by
  cases body <;> rfl

theorem forall_getElem?_cons {α : Type} {a : α} {l : List α} {q : Nat → α → Prop} :
    (∀ (j : Nat) b, (a :: l)[j]? = some b → q j b) ↔
      q 0 a ∧ ∀ (j : Nat) b, l[j]? = some b → q (j + 1) b := by
  constructor
  · exact fun h => ⟨h 0 a rfl, fun j => h (j + 1)⟩
  · rintro ⟨ha, hl⟩ j b hb
    cases j with
    | zero =>
      cases hb
      exact ha
    | succ j => exact hl j b hb

theorem exists_flows_iff : (∃ fs, flows i bodies = .ok fs) ↔
    ∀ (j : Nat) body, bodies[j]? = some body → ∃ f, flowOf (i + j) body = .ok f := by
  induction bodies generalizing i with
  | nil => exact ⟨fun _ j _ hj => by simp at hj, fun _ => ⟨[], rfl⟩⟩
  | cons body rest ih =>
    rw [forall_getElem?_cons, Nat.add_zero]
    simp only [← Nat.add_assoc, Nat.add_right_comm i _ 1, ← ih, flows_cons]
    constructor
    · rintro ⟨fs, h⟩
      obtain ⟨f, hf, h⟩ := bind_eq_ok_iff.mp h
      obtain ⟨gs, hgs, -⟩ := bind_eq_ok_iff.mp h
      exact ⟨⟨f, hf⟩, gs, hgs⟩
    · rintro ⟨⟨f, hf⟩, gs, hgs⟩
      exact ⟨f :: gs, bind_eq_ok_iff.mpr ⟨f, hf, bind_eq_ok_iff.mpr ⟨gs, hgs, rfl⟩⟩⟩

theorem getElem?_flows (h : flows i bodies = .ok fs) (j : Nat) (f : Flow) :
    fs[j]? = some f ↔ ∃ body, bodies[j]? = some body ∧ flowOf (i + j) body = .ok f := by
  induction bodies generalizing i fs j with
  | nil =>
    cases h
    simp
  | cons body rest ih =>
    rw [flows_cons] at h
    obtain ⟨g, hg, h⟩ := bind_eq_ok_iff.mp h
    obtain ⟨gs, hgs, h⟩ := bind_eq_ok_iff.mp h
    cases h
    cases j with
    | zero => simp [hg]
    | succ j =>
      rw [List.getElem?_cons_succ, List.getElem?_cons_succ, ih hgs, Nat.add_right_comm,
        Nat.add_assoc]

theorem flows_eq_error_iff : flows i bodies = .error fault ↔
    ∃ (j : Nat) (body : Option Body), bodies[j]? = some body ∧ flowOf (i + j) body = .error fault ∧
      ∀ k < j, ∃ other f, bodies[k]? = some other ∧ flowOf (i + k) other = .ok f := by
  induction bodies generalizing i with
  | nil =>
    refine ⟨fun h => (nomatch h), ?_⟩
    rintro ⟨j, _, hj, -⟩
    simp at hj
  | cons body rest ih =>
    have hadd (k : Nat) : i + 1 + k = i + (k + 1) := Nat.add_right_comm ..
    rw [flows_cons, bind_eq_error_iff]
    simp only [bind_eq_error_iff, reduceCtorEq, and_false, exists_false, or_false, ih]
    constructor
    · rintro (h | ⟨f, hf, j, other, hj, hother, hbefore⟩)
      · exact ⟨0, body, rfl, h, fun k hk => absurd hk (Nat.not_lt_zero k)⟩
      · refine ⟨j + 1, other, hj, hadd j ▸ hother, fun k hk => ?_⟩
        cases k with
        | zero => exact ⟨body, f, rfl, hf⟩
        | succ k =>
          rw [← hadd]
          exact hbefore k (Nat.lt_of_succ_lt_succ hk)
    · rintro ⟨j, other, hj, hother, hbefore⟩
      cases j with
      | zero =>
        cases hj
        exact .inl hother
      | succ j =>
        obtain ⟨_, f, hf, hflow⟩ := hbefore 0 (Nat.succ_pos j)
        cases hf
        refine .inr ⟨f, hflow, j, other, hj, hadd j ▸ hother, fun k hk => ?_⟩
        rw [hadd]
        exact hbefore (k + 1) (Nat.succ_lt_succ hk)

end Draft

namespace Step

variable {steps : List Step} {m : Method} {i : Nat} {body body' : Body} {c : Call} {fault : Fault}
  {fs : List Flow}

theorem LastBody.lt_declared (h : LastBody steps m body) : m.index < declared steps := by
  have hbodies := (Draft.records_ofSteps steps).bodies
  rw [← hbodies.length]
  exact (List.getElem?_eq_some_iff.mp ((hbodies.body m.index body).mpr h)).1

theorem LastBody.unique (h : LastBody steps m body) (h' : LastBody steps m body') :
    body' = body := by
  have hbodies := (Draft.records_ofSteps steps).bodies
  have hsame := ((hbodies.body m.index body).mpr h).symm.trans ((hbodies.body m.index body').mpr h')
  cases hsame
  rfl

theorem sound_iff : Sound steps i ↔ ∃ body f,
    (Draft.ofSteps steps).bodies[i]? = some body ∧ Draft.flowOf i body = .ok f := by
  have hbodies := (Draft.records_ofSteps steps).bodies
  constructor
  · rintro ⟨body, f, hlast, hf⟩
    exact ⟨some body, f, (hbodies.body i body).mpr hlast, hf⟩
  · rintro ⟨body, f, hbody, hf⟩
    cases body with
    | none => cases hf
    | some body => exact ⟨body, f, (hbodies.body i body).mp hbody, hf⟩

theorem methodFault_iff (hi : i < declared steps) : MethodFault steps i fault ↔ ∃ body,
    (Draft.ofSteps steps).bodies[i]? = some body ∧ Draft.flowOf i body = .error fault := by
  have hbodies := (Draft.records_ofSteps steps).bodies
  rw [← hbodies.length] at hi
  constructor
  · intro h
    cases h with
    | bodyless hnone =>
      have hbody := List.getElem?_eq_getElem hi
      cases hgiven : (Draft.ofSteps steps).bodies[i] with
      | none => exact ⟨none, hgiven ▸ hbody, rfl⟩
      | some body => exact absurd ((hbodies.body i body).mp (hgiven ▸ hbody)) (hnone body)
    | refused hlast hf => exact ⟨some _, (hbodies.body i _).mpr hlast, hf⟩
  · rintro ⟨body, hbody, hf⟩
    cases body with
    | none =>
      cases hf
      refine .bodyless fun body hlast => ?_
      cases hbody.symm.trans ((hbodies.body i body).mpr hlast)
    | some body => exact .refused ((hbodies.body i body).mp hbody) hf

theorem flows_of_eq_ok (h : Draft.flows 0 (Draft.ofSteps steps).bodies = .ok fs) :
    Flows steps fs where
  length := (Draft.flows_ok h).1.trans (Draft.records_ofSteps steps).bodies.length
  flow i f := by
    have hbodies := (Draft.records_ofSteps steps).bodies
    rw [Draft.getElem?_flows h, Nat.zero_add]
    constructor
    · rintro ⟨body, hbody, hf⟩
      cases body with
      | none => cases hf
      | some body => exact ⟨body, (hbodies.body i body).mp hbody, hf⟩
    · rintro ⟨body, hlast, hf⟩
      exact ⟨some body, (hbodies.body i body).mpr hlast, hf⟩

theorem exists_flows_iff : (∃ fs, Draft.flows 0 (Draft.ofSteps steps).bodies = .ok fs) ↔
    ∀ i < declared steps, Sound steps i := by
  rw [Draft.exists_flows_iff, ← (Draft.records_ofSteps steps).bodies.length]
  simp only [Nat.zero_add, sound_iff]
  constructor
  · intro h i hi
    obtain ⟨f, hf⟩ := h i _ (List.getElem?_eq_getElem hi)
    exact ⟨_, f, List.getElem?_eq_getElem hi, hf⟩
  · intro h i body hbody
    obtain ⟨other, f, hother, hf⟩ := h i (List.getElem?_eq_some_iff.mp hbody).1
    cases hbody.symm.trans hother
    exact ⟨f, hf⟩

theorem flows_eq_error_iff : Draft.flows 0 (Draft.ofSteps steps).bodies = .error fault ↔
    ∃ i < declared steps, (∀ j < i, Sound steps j) ∧ MethodFault steps i fault := by
  rw [Draft.flows_eq_error_iff]
  simp only [Nat.zero_add, ← sound_iff]
  constructor
  · rintro ⟨i, body, hbody, hfault, hbefore⟩
    have hi := (List.getElem?_eq_some_iff.mp hbody).1
    rw [(Draft.records_ofSteps steps).bodies.length] at hi
    exact ⟨i, hi, hbefore, (methodFault_iff hi).mpr ⟨body, hbody, hfault⟩⟩
  · rintro ⟨i, hi, hbefore, hfault⟩
    obtain ⟨body, hbody, hflow⟩ := (methodFault_iff hi).mp hfault
    exact ⟨i, body, hbody, hflow, hbefore⟩

theorem mem_of_build {f : Flow} (h : Flow.build m body.kinds 0 body.edges = .ok f) {s : Stmt}
    (hs : s.method = m) : s ∈ f ↔ s.index < body.kinds.length := by
  obtain ⟨hm, hk, -⟩ := Flow.fields_of_build h
  rw [Flow.mem_iff, hm, hk]
  exact and_iff_right hs

theorem callFault?_eq_some_iff (h : Flows steps fs) :
    Draft.callFault? fs c = some fault ↔ CallFault steps c fault := by
  unfold Draft.callFault?
  cases hg : fs[c.caller.index]? with
  | none =>
    have hle : declared steps ≤ c.caller.index := h.length ▸ List.getElem?_eq_none_iff.mp hg
    constructor
    · intro hf
      cases hf
      exact .caller hle
    · intro hf
      cases hf with
      | caller => rfl
      | site hlast | callee hlast => exact absurd hlast.lt_declared (Nat.not_lt_of_le hle)
  | some f =>
    obtain ⟨body, hlast, hbuild⟩ := (h.flow _ f).mp hg
    have hmem : c.site ∈ f ↔ c.site.index < body.kinds.length := mem_of_build hbuild rfl
    simp only [h.length, hmem]
    constructor
    · intro hf
      split at hf
      · rename_i hs
        cases hf
        exact .site hlast (Nat.le_of_not_lt hs)
      · rename_i hs
        split at hf
        · rename_i hc
          cases hf
          exact .callee hlast (Decidable.not_not.mp hs) hc
        · cases hf
    · intro hf
      cases hf with
      | caller hle => exact absurd hlast.lt_declared (Nat.not_lt_of_le hle)
      | site hlast' hle =>
        cases hlast.unique hlast'
        rw [if_pos (Nat.not_lt_of_le hle)]
      | callee hlast' hs hle =>
        cases hlast.unique hlast'
        rw [if_neg (Decidable.not_not.mpr hs), if_pos hle]

theorem CallFault.not_joins (h : CallFault steps c fault) : ¬ Joins steps c := by
  rintro ⟨⟨body, hlast, hs⟩, hc⟩
  cases h with
  | caller hle => exact absurd hlast.lt_declared (Nat.not_lt_of_le hle)
  | site hlast' hle =>
    cases hlast.unique hlast'
    exact absurd hs (Nat.not_lt_of_le hle)
  | callee _ _ hle => exact absurd hc (Nat.not_lt_of_le hle)

theorem callFault?_eq_none_iff (h : Flows steps fs) :
    Draft.callFault? fs c = none ↔ Joins steps c := by
  constructor
  · intro hnone
    obtain ⟨⟨f, hf, hs⟩, hc⟩ := Draft.callFault?_eq_none hnone
    obtain ⟨body, hlast, hbuild⟩ := (h.flow _ f).mp hf
    exact ⟨⟨body, hlast, (mem_of_build hbuild rfl).mp hs⟩, h.length ▸ hc⟩
  · intro hj
    cases hf : Draft.callFault? fs c with
    | none => rfl
    | some fault => exact absurd hj ((callFault?_eq_some_iff h).mp hf).not_joins

end Step

namespace Draft

variable {d : Draft} {p : Program} {calls : List Call} {steps : List Step}

/-- Nothing else can be wrong. -/
theorem exists_build {fs : List Flow} (hu : d.undeclared = []) (hf : flows 0 d.bodies = .ok fs)
    (hc : d.calls.findSome? (callFault? fs) = none) : ∃ p, d.build = .ok p := by
  cases h : d.build with
  | ok p => exact ⟨p, rfl⟩
  | error fault =>
    obtain ⟨m, hm, -⟩ | ⟨-, hfault | ⟨gs, hgs, hfault⟩⟩ := build_eq_error_iff.mp h
    · rw [hu] at hm
      cases hm
    · cases hfault.symm.trans hf
    · cases hgs.symm.trans hf
      cases hfault.symm.trans hc

theorem exists_build_iff :
    (∃ p, (ofSteps steps).build = .ok p) ↔ Step.WellFormed steps := by
  have hstrays := (records_ofSteps steps).undeclared
  constructor
  · rintro ⟨p, h⟩
    obtain ⟨hu, hf, hc, -⟩ := build_eq_ok_iff.mp h
    refine ⟨hstrays.clean.mp hu, Step.exists_flows_iff.mp ⟨_, hf⟩, fun c hcall => ?_⟩
    rw [calls_ofSteps] at hc
    exact (Step.callFault?_eq_none_iff (Step.flows_of_eq_ok hf)).mp
      (List.findSome?_eq_none_iff.mp hc c hcall)
  · rintro ⟨hstray, hsound, hjoins⟩
    obtain ⟨fs, hf⟩ := Step.exists_flows_iff.mpr hsound
    refine exists_build (hstrays.clean.mpr hstray) hf ?_
    rw [calls_ofSteps]
    exact List.findSome?_eq_none_iff.mpr fun c hcall =>
      (Step.callFault?_eq_none_iff (Step.flows_of_eq_ok hf)).mpr (hjoins c hcall)

theorem build_eq_error_iff_firstFault {fault : Fault} :
    (ofSteps steps).build = .error fault ↔ Step.FirstFault steps fault := by
  have hstrays := (records_ofSteps steps).undeclared
  rw [build_eq_error_iff, hstrays.clean, calls_ofSteps, Step.flows_eq_error_iff]
  constructor
  · rintro (⟨m, hm, rfl⟩ | ⟨hstray, ⟨i, hi, hbefore, hfault⟩ | ⟨fs, hf, hc⟩⟩)
    · exact .stray ((hstrays.first m).mp hm)
    · exact .method hstray hi hbefore hfault
    · have hflows := Step.flows_of_eq_ok hf
      obtain ⟨before, c, after, hcalls, hc, hbefore⟩ := List.findSome?_eq_some_iff.mp hc
      exact .call hstray (Step.exists_flows_iff.mp ⟨fs, hf⟩) hcalls
        (fun d hd => (Step.callFault?_eq_none_iff hflows).mp (hbefore d hd))
        ((Step.callFault?_eq_some_iff hflows).mp hc)
  · intro h
    cases h with
    | stray hm => exact .inl ⟨_, (hstrays.first _).mpr hm, rfl⟩
    | method hstray hi hbefore hfault => exact .inr ⟨hstray, .inl ⟨_, hi, hbefore, hfault⟩⟩
    | call hstray hsound hcalls hbefore hc =>
      obtain ⟨fs, hf⟩ := Step.exists_flows_iff.mpr hsound
      have hflows := Step.flows_of_eq_ok hf
      exact .inr ⟨hstray, .inr ⟨fs, hf, List.findSome?_eq_some_iff.mpr ⟨_, _, _, hcalls,
        (Step.callFault?_eq_some_iff hflows).mpr hc,
        fun d hd => (Step.callFault?_eq_none_iff hflows).mpr (hbefore d hd)⟩⟩⟩

theorem shows_of_build (h : (ofSteps steps).build = .ok p) : p.Shows steps := by
  obtain ⟨-, hf, -, -, hcalls⟩ := build_eq_ok_iff.mp h
  have hmem (c : Call) : c ∈ p.view.calls ↔ c ∈ Step.calls steps := by
    rw [← calls_ofSteps]
    exact mem_calls h
  rw [calls_ofSteps] at hcalls
  exact {
    flow := fun m f => Program.flow_eq_ok_iff.trans ((Step.flows_of_eq_ok hf).flow m.index f)
    callee := fun s m => View.mem_callees.trans (hmem _)
    callees_nodup := fun s => by
      refine (callees_order hcalls s).imp ?_
      rintro a _ hlt rfl
      exact Nat.lt_irrefl _ hlt
    callees_order := callees_order hcalls
    views_agree := fun s m => by
      rw [View.mem_callees, View.mem_callsFrom]
      exact (and_iff_left rfl).symm
    caller := fun m c hc => (View.mem_callsFrom.mp hc).2
    edges_nodup := fun m => p.calls_nodup.filter _
    edges_order := callsFrom_order hcalls
    count := by
      rw [Program.callCount, ← List.toFinset_card_of_nodup p.calls_nodup]
      congr 1
      ext c
      rw [List.mem_toFinset, List.mem_toFinset]
      exact hmem c }

/-- Whatever the order of the steps, a program comes of them exactly if all methods are declared
before they are defined, the last body of each is accepted, and each call joins what exists.
Otherwise the first fault is reported.  The program shows the last bodies and the calls once each.
Tables that are filled call by call are refused alike and have the same answers, and all this is the
same wherever the calls stand among the other steps. -/
theorem build_by_steps (steps : List Step) :
    ((∃ p, (ofSteps steps).build = .ok p) ↔ Step.WellFormed steps) ∧
      (∀ fault, (ofSteps steps).build = .error fault ↔ Step.FirstFault steps fault) ∧
      (∀ p, (ofSteps steps).build = .ok p → p.Shows steps ∧
        ∃ t, (ofSteps steps).tables = .ok t ∧ p.Reads t) ∧
      (∀ fault, (ofSteps steps).tables = .error fault ↔ (ofSteps steps).build = .error fault) ∧
      ∀ others : List Step, others.filter Step.isCall = steps.filter Step.isCall →
        others.filter (!·.isCall) = steps.filter (!·.isCall) →
        (ofSteps others).build = (ofSteps steps).build :=
  ⟨exists_build_iff, fun _ => build_eq_error_iff_firstFault,
    fun _ h => ⟨shows_of_build h, reads_of_build h⟩, fun _ => tables_eq_error_iff,
    fun _ hcalls hrest => congrArg build (ofSteps_eq_of_filter_eq hcalls hrest)⟩

/-- A method is called twice before it is defined, once even before it is declared, and then it is
defined twice. -/
def forward : List Step := [
  .call ⟨⟨1⟩, 1⟩ ⟨0⟩, .declare "helper", Step.linear "main" [.plain, .call, .ret],
  .call ⟨⟨1⟩, 1⟩ ⟨1⟩, .define ⟨0⟩ ⟨[.plain], [(0, 4)]⟩, .call ⟨⟨1⟩, 1⟩ ⟨0⟩,
  .define ⟨0⟩ (.linear [.plain, .ret])]

theorem build_by_steps_forward :
    (∃ p, (ofSteps forward).build = .ok p ∧ Step.WellFormed forward ∧ p.Shows forward ∧
      p.view.callees ⟨⟨1⟩, 1⟩ = [⟨0⟩, ⟨1⟩] ∧ p.callCount = 2) ∧
    Step.FirstFault [.call ⟨⟨5⟩, 0⟩ ⟨0⟩, .declare "idle", .define ⟨3⟩ ⟨[.ret], []⟩]
      (.methodNotFound ⟨3⟩) := by
  obtain ⟨hbuilds, -, hshows, -⟩ := build_by_steps forward
  obtain ⟨p, hp⟩ : ∃ p, (ofSteps forward).build = .ok p := exists_build rfl rfl rfl
  refine ⟨⟨p, hp, hbuilds.mp ⟨p, hp⟩, (hshows p hp).1, ?callees, ?count⟩, ?fault⟩
  case callees =>
    rw [callees_eq (build_eq_ok_iff.mp hp).2.2.2.2]
    decide
  case count =>
    rw [(hshows p hp).1.count]
    decide
  case fault =>
    obtain ⟨-, hfault, -⟩ := build_by_steps
      [.call ⟨⟨5⟩, 0⟩ ⟨0⟩, .declare "idle", .define ⟨3⟩ ⟨[.ret], []⟩]
    exact (hfault _).mp rfl

end Draft

end PathExplorer
