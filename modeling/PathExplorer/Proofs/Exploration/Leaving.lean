import PathExplorer.Program.Draft
import PathExplorer.Proofs.Exploration.Activation
import PathExplorer.Proofs.Exploration.Placed
import PathExplorer.Proofs.Weighting.Detour

namespace PathExplorer

namespace Stack

def pile (site : Stmt) : List Method → Stack
  | [] => .empty
  | m :: ms => .push (pile site ms) m site

theorem holds_pile {site : Stmt} {ms : List Method} {m : Method} (h : m ∈ ms) :
    (pile site ms).holds m := by
  induction ms with
  | nil => cases h
  | cons n ms ih =>
    rw [pile, holds_push]
    obtain rfl | h := List.mem_cons.mp h
    · exact .inl rfl
    · exact .inr (ih h)

end Stack

namespace View

variable (v : View)

def ReturnsEnd (m : Method) : Prop := ∀ r t, r.method = m → v.Is .ret r → ¬ v.Leads r t

/-- Wherever an execution stands on the statement, inside a frame that was entered, it goes on in
the caller behind the call. -/
def LeavesAt (x : Stmt) : Prop :=
  ∀ s r : State, s.stmt = x → s.resume? = some r → v.successors s = v.fallThrough r

variable {v} {s t r : State} {f : Flow} {x : Stmt} {k : Kind}

theorem is_iff (hf : v.flow x.method = .ok f) : v.Is k x ↔ f.kind x = .ok k := by
  constructor
  · rintro ⟨g, hg, hk⟩
    rw [hf] at hg
    cases hg
    exact hk
  · exact fun hk => ⟨f, hf, hk⟩

theorem stack_of_fallThrough {ts : List State} (h : v.fallThrough s = .ok ts) (ht : t ∈ ts) :
    t.stack = s.stack := by
  obtain ⟨f, -, h⟩ := bind_eq_ok_iff.mp h
  obtain ⟨next, -, h⟩ := bind_eq_ok_iff.mp h
  cases h
  obtain ⟨n, -, rfl⟩ := List.mem_map.mp ht
  rfl

theorem depth_of_enterAll {callees : List Method} {ts : List State}
    (h : v.enterAll s callees = .ok ts) (ht : t ∈ ts) :
    t.stack.depth = s.stack.depth + 1 := by
  obtain ⟨m, -, h⟩ := mem_of_mapM_eq_ok h ht
  obtain ⟨f, -, h⟩ := bind_eq_ok_iff.mp h
  cases h
  rfl

theorem leavesAt_of_is (h : v.Is .ret x) : v.LeavesAt x := by
  rintro s r rfl hr
  rw [successors_eq h, hr]

/-- From any other statement the execution does not come back to a frame below. -/
theorem depth_le_of_next (h : ¬ v.Is .ret s.stmt) (hn : v.Next s t) :
    s.stack.depth ≤ t.stack.depth := by
  obtain ⟨ts, hn, ht⟩ := hn
  change v.successors s = .ok ts at hn
  obtain ⟨f, hf, hkind⟩ := bind_eq_ok_iff.mp hn
  obtain ⟨k, hk, -⟩ := bind_eq_ok_iff.mp hkind
  have his : v.Is k s.stmt := ⟨f, hf, hk⟩
  rw [successors_eq his] at hn
  have hsame : ∀ {ts}, v.fallThrough s = .ok ts → t ∈ ts → s.stack.depth ≤ t.stack.depth :=
    fun h ht => Nat.le_of_eq (congrArg Stack.depth (stack_of_fallThrough h ht).symm)
  cases k with
  | plain => exact hsame hn ht
  | call =>
    dsimp only at hn
    split at hn
    · exact hsame hn ht
    · rw [depth_of_enterAll hn ht]
      exact Nat.le_succ _
  | ret => exact absurd his h
  | throw =>
    cases hn
    cases ht

theorem fallThrough_of_mem (hf : v.flow s.method = .ok f) (hs : s.stmt ∈ f) :
    ∃ ts, v.fallThrough s = .ok ts := by
  simp only [fallThrough, bind_eq_ok_iff]
  exact ⟨_, f, hf, _, Flow.successors_of_mem hs, rfl⟩

theorem fallThrough_of_not_mem (hf : v.flow s.method = .ok f) (hs : s.stmt ∉ f) :
    v.fallThrough s = .error (.stmtNotFound s.stmt) := by
  rw [fallThrough, hf]
  simp only [bind, Except.bind, Flow.successors, Flow.locate_of_not_mem hs]

theorem enterAll_of_holds {callees : List Method} (h : ∀ m ∈ callees, s.stack.holds m) :
    v.enterAll s callees = .ok [] := by
  have hnone : (callees.filter fun m => !s.stack.holds m) = [] :=
    List.filter_eq_nil_iff.mpr fun m hm => by simp [h m hm]
  rw [enterAll, hnone]
  rfl

/-- Only returns leave.  The state that shows it stands on a stack that holds all callees, and
resumes outside the body, where nothing can be found. -/
theorem is_of_leavesAt (hf : v.flow x.method = .ok f) (hx : x ∈ f) (h : v.LeavesAt x) :
    v.Is .ret x := by
  let site : Stmt := ⟨x.method, f.size⟩
  let below := Stack.pile site (v.callees x)
  let s : State := { stmt := x, stack := .push below x.method site }
  have hresume : v.successors s = v.fallThrough (s.follow site below) := h s _ rfl rfl
  have hsite : site ∉ f := fun hm => Nat.lt_irrefl _ hm.2
  have hfail : v.fallThrough (s.follow site below) = .error (.stmtNotFound site) :=
    fallThrough_of_not_mem hf hsite
  obtain ⟨ts, hts⟩ := fallThrough_of_mem (s := s) hf hx
  have hheld : ∀ m ∈ v.callees x, s.stack.holds m :=
    fun m hm => Stack.holds_push.mpr (.inr (Stack.holds_pile hm))
  obtain ⟨k, hk⟩ := Locates.is ⟨f, hf, hx⟩
  have hks : v.Is k s.stmt := hk
  rw [successors_eq hks, hfail] at hresume
  cases k with
  | plain =>
    rw [hts] at hresume
    cases hresume
  | call =>
    dsimp only at hresume
    split at hresume
    · rw [hts] at hresume
      cases hresume
    · rw [enterAll_of_holds hheld] at hresume
      cases hresume
  | ret => exact hk
  | throw => cases hresume

theorem leavesAt_iff (hf : v.flow x.method = .ok f) (hx : x ∈ f) :
    v.LeavesAt x ↔ f.kind x = .ok .ret := by
  rw [← is_iff hf]
  exact ⟨is_of_leavesAt hf hx, leavesAt_of_is⟩

theorem stack_eq_iff_leavesAt (hr : s.resume? = some r) (hn : v.Next s t) :
    t.stack = r.stack ↔ v.LeavesAt s.stmt := by
  constructor
  · intro hstack
    refine leavesAt_of_is ?_
    by_contra hk
    obtain ⟨m, hframe⟩ := (State.resumes_of_resume? hr).frame
    have hdepth := depth_le_of_next hk hn
    rw [hstack, hframe] at hdepth
    exact Nat.not_succ_le_self _ hdepth
  · intro hleaves
    obtain ⟨ts, hts, ht⟩ := hn
    exact stack_of_fallThrough ((hleaves s r rfl hr).symm.trans hts) ht

theorem mem_returns_iff (hf : v.flow x.method = .ok f) (hx : x ∈ f) :
    x ∈ f.returns ↔ v.LeavesAt x ∧ f.next x.index = [] := by
  rw [Flow.mem_returns_iff, leavesAt_iff hf hx]

theorem returnsEnd_iff {m : Method} (hf : v.flow m = .ok f) (hm : f.method = m) :
    v.ReturnsEnd m ↔ ∀ x ∈ f, v.LeavesAt x → f.next x.index = [] := by
  have hflow : ∀ {x : Stmt}, x.method = m → v.flow x.method = .ok f := fun hx => hx ▸ hf
  constructor
  · intro hend x hx hleaves
    have hxm := hx.1.trans hm
    refine List.eq_nil_iff_forall_not_mem.mpr fun t ht => ?_
    exact hend x t hxm (is_of_leavesAt (hflow hxm) hx hleaves) ⟨f, hflow hxm, hx, ht⟩
  · rintro hend r t hr hk ⟨g, hg, hrg, ht⟩
    rw [hflow hr] at hg
    cases hg
    rw [hend r hrg (leavesAt_of_is hk)] at ht
    cases ht

section Distance

def LeavesAfter (v : View) (x : Stmt) (n : Nat) : Prop := ∃ y, v.LeavesAt y ∧ Walk v.Leads x y n

/-- The distance to the returns of a method is that to the nearest statement from which an execution
leaves and that nothing follows. -/
theorem returning_measures (hf : v.flow x.method = .ok f) (hx : x ∈ f) :
    ∃ d, v.returning [⟨x.method, x⟩] = .ok d ∧
      d.Measures fun n => ∃ y, v.LeavesAt y ∧ f.next y.index = [] ∧ Walk v.Leads x y n := by
  obtain ⟨tree, ht⟩ := searchTree_isOk.mpr ⟨f, hf, hx⟩
  refine ⟨tree.nearest f.returns + .zero, ?_, ?_⟩
  · exact returning_cons_eq_ok_iff.mpr ⟨f, tree, .zero, hf, ht, rfl, rfl⟩
  · refine ((measures_nearest ht f.returns).add .zero).congr fun n => ?_
    have hreturn : ∀ {y k}, Walk v.Leads x y k →
        (y ∈ f.returns ↔ v.LeavesAt y ∧ f.next y.index = []) := by
      intro y k hw
      have hy : y ∈ f := mem_of_walk hf hx hw
      have hxy : y.method = x.method := hy.1.trans hx.1.symm
      exact mem_returns_iff (hxy ▸ hf) hy
    constructor
    · rintro ⟨i, j, ⟨y, hy, hw⟩, rfl, rfl⟩
      obtain ⟨hleaves, hend⟩ := (hreturn hw).mp hy
      exact ⟨y, hleaves, hend, hw⟩
    · rintro ⟨y, hleaves, hend, hw⟩
      exact ⟨n, 0, ⟨y, (hreturn hw).mpr ⟨hleaves, hend⟩, hw⟩, rfl, rfl⟩

theorem returning_measures_iff {m : Method} (hf : v.flow m = .ok f) (hm : f.method = m) :
    (∀ x ∈ f, ∃ d, v.returning [⟨m, x⟩] = .ok d ∧ d.Measures (v.LeavesAfter x)) ↔
      v.ReturnsEnd m := by
  have hmethod : ∀ x ∈ f, x.method = m := fun x hx => hx.1.trans hm
  have hflow : ∀ x ∈ f, v.flow x.method = .ok f := fun x hx => hmethod x hx ▸ hf
  rw [returnsEnd_iff hf hm]
  constructor
  · -- From where an execution leaves the distance is zero, so the statement is itself an end.
    intro h x hx hleaves
    obtain ⟨d, hd, hmeasures⟩ := h x hx
    obtain ⟨e, he, hends⟩ := returning_measures (hflow x hx) hx
    rw [hmethod x hx, hd] at he
    cases he
    obtain ⟨y, -, hy, hw⟩ := hends.eq_zero_iff.mp (hmeasures.eq_zero_iff.mpr ⟨x, hleaves, .here⟩)
    cases hw
    exact hy
  · intro hend x hx
    obtain ⟨d, hd, hends⟩ := returning_measures (hflow x hx) hx
    refine ⟨d, hmethod x hx ▸ hd, hends.congr fun n => ⟨?_, ?_⟩⟩
    · rintro ⟨y, hleaves, -, hw⟩
      exact ⟨y, hleaves, hw⟩
    · rintro ⟨y, hleaves, hw⟩
      exact ⟨y, hleaves, hend y (mem_of_walk (hflow x hx) hx hw) hleaves, hw⟩

end Distance

end View

namespace TaintDistance

/-- How far it is from where a level stands until it has returned, as the weighting counts it. -/
def returnDistance (t : TaintDistance) (level : Level) : Except Fault Distance :=
  ((returning t.view [level]).run t.memo).1

theorem Agrees.returnDistance {v : View} {goals : Registry} {c : Coefficients} {t : TaintDistance}
    (h : t.Agrees v goals c) (level : Level) : t.returnDistance level = v.returning [level] := by
  obtain ⟨rfl, -, -, hmemo⟩ := h
  obtain ⟨memo, hrun, -⟩ := Answers.returning t.view [level] t.memo hmemo
  rw [TaintDistance.returnDistance, hrun]

end TaintDistance

namespace View

/-- Executions leave a method from every return, and what a step leads to is in the caller exactly
if it leaves.  The control flow counts those of them as returns that nothing follows, and the return
distance goes to these.  So the two agree on where the method returns, and the distance is that to
the nearest statement from which an execution leaves, exactly where the method does not go on behind
a return. -/
theorem leaves_by_returns {method : Method} {kinds : List Kind} {start : Nat}
    {edges : List (Nat × Nat)} {f : Flow} (hb : Flow.build method kinds start edges = .ok f)
    {v : View} (hf : v.flow method = .ok f) :
    (∀ x ∈ f, v.LeavesAt x ↔ f.kind x = .ok .ret) ∧
      (∀ s r t : State, s.resume? = some r → v.Next s t →
        (t.stack = r.stack ↔ v.LeavesAt s.stmt)) ∧
      (∀ x ∈ f, x ∈ f.returns ↔ v.LeavesAt x ∧ f.next x.index = []) ∧
      ((∀ x ∈ f, v.LeavesAt x ↔ x ∈ f.returns) ↔ v.ReturnsEnd method) ∧
      ∀ goals settings t, TaintDistance.ofSettings v goals settings = .ok t → ∀ asked,
        (∀ x ∈ f, ∃ d, (t.after asked).returnDistance ⟨method, x⟩ = .ok d ∧
          d.Measures fun n => ∃ y, v.LeavesAt y ∧ f.next y.index = [] ∧ Walk v.Leads x y n) ∧
        ((∀ x ∈ f, ∃ d, (t.after asked).returnDistance ⟨method, x⟩ = .ok d ∧
          d.Measures (v.LeavesAfter x)) ↔ v.ReturnsEnd method) := by
  obtain ⟨hm, -⟩ := Draft.build_method hb
  have hmethod : ∀ x ∈ f, x.method = method := fun x hx => hx.1.trans hm
  have hflow : ∀ x ∈ f, v.flow x.method = .ok f := fun x hx => hmethod x hx ▸ hf
  refine ⟨fun x hx => leavesAt_iff (hflow x hx) hx, fun s r t => stack_eq_iff_leavesAt,
    fun x hx => mem_returns_iff (hflow x hx) hx, ?agree, fun goals settings t ht asked => ?distance⟩
  case agree =>
    rw [returnsEnd_iff hf hm]
    refine forall₂_congr fun x hx => ?_
    rw [mem_returns_iff (hflow x hx) hx]
    rw [iff_self_and]
  case distance =>
    have hagrees := (TaintDistance.Agrees.ofSettings ht).after asked
    simp only [hagrees.returnDistance]
    refine ⟨fun x hx => ?_, returning_measures_iff hf hm⟩
    exact hmethod x hx ▸ returning_measures (hflow x hx) hx

/-- Its control flow has a statement from which executions leave and that is none of its returns. -/
theorem leaves_by_returns_returnGoesOn :
    ∃ f, Flow.build ⟨1⟩ [.ret, .plain] 0 [(0, 1)] = .ok f ∧
      returnGoesOn.view.flow ⟨1⟩ = .ok f ∧
      ¬ ∀ x ∈ f, returnGoesOn.view.LeavesAt x ↔ x ∈ f.returns := by
  have hb : Flow.build ⟨1⟩ [.ret, .plain] 0 [(0, 1)] = .ok _ := rfl
  have hf : returnGoesOn.view.flow ⟨1⟩ = .ok _ := rfl
  have hgoesOn : ¬ returnGoesOn.view.ReturnsEnd ⟨1⟩ := fun h =>
    h ⟨⟨1⟩, 0⟩ ⟨⟨1⟩, 1⟩ rfl ⟨_, hf, rfl⟩ ⟨_, hf, by decide, by decide⟩
  obtain ⟨-, -, -, hagree, -⟩ := leaves_by_returns hb hf
  exact ⟨_, hb, hf, fun h => hgoesOn (hagree.mp h)⟩

def behindGoesOn : Registry := ⟨⟨[⟨⟨⟨⟨0⟩, 1⟩⟩, ⟨⟨⟨0⟩, 2⟩⟩⟩], by simp⟩⟩

def onReturn : State where
  stmt := ⟨⟨1⟩, 0⟩
  stack := .push (.root ⟨0⟩) ⟨1⟩ ⟨⟨0⟩, 0⟩

/-- From there one step leads to the source, which by the weight cannot be reached. -/
theorem returnGoesOn_unreachable :
    (∃ f, returnGoesOn.view.flow ⟨1⟩ = .ok f ∧ onReturn.stmt ∈ f ∧ onReturn.stmt ∉ f.returns) ∧
    returnGoesOn.view.LeavesAt onReturn.stmt ∧
    (∃ t, returnGoesOn.view.Next onReturn t ∧ t.stmt ∈ behindGoesOn.targets onReturn) ∧
    ∃ t, TaintDistance.ofSettings returnGoesOn.view behindGoesOn {} = .ok t ∧
      (Weighting.weigh onReturn t).1 = .ok .negInfinity := by
  have hf : returnGoesOn.view.flow ⟨1⟩ = .ok _ := rfl
  have ht : TaintDistance.ofSettings returnGoesOn.view behindGoesOn {} = .ok _ := rfl
  let caller := onReturn.follow ⟨⟨0⟩, 0⟩ (.root ⟨0⟩)
  refine ⟨⟨_, hf, by decide, by decide⟩, leavesAt_of_is ⟨_, hf, rfl⟩, ?_, _, ht, by rfl⟩
  exact ⟨caller.advance ⟨⟨0⟩, 1⟩, by decide, by decide⟩

end View

end PathExplorer
