import PathExplorer.Proofs.Memo.Sound
import PathExplorer.Proofs.Program.Graph
import PathExplorer.Proofs.Result
import PathExplorer.Weighting.TaintDistance

namespace PathExplorer

namespace View

variable (v : View)

def returning : List Level → Except Fault Distance
  | [] => return .zero
  | level :: levels => do
    let flow ← v.flow level.method
    let tree ← v.searchTree level.stand
    return tree.nearest flow.returns + (← returning levels)

def startIn (m : Method) (stand : Option Stmt) : Except Fault Stmt :=
  match stand with
  | some s => return s
  | none => return (← v.flow m).entry

def along (targets : Ascending Stmt) (stand : Option Stmt) (m : Method) :
    List Method → Except Fault Distance
  | [] => do
    let tree ← v.searchTree (← v.startIn m stand)
    return tree.nearest (targets.toList.filter (·.method = m))
  | next :: rest => do
    let sites ← v.sitesInto m next
    sites.forM fun site => v.joinable ⟨site, next⟩
    let tree ← v.searchTree (← v.startIn m stand)
    return tree.nearest sites + (← along targets none next rest)

def alongRoute (targets : Ascending Stmt) (level : Level) (route : Route) : Except Fault Distance :=
  match route.methods with
  | m :: rest => v.along targets (some level.stand) m rest
  | [] => return .zero

def estimate (goals : Registry) (c : Coefficients) (s : State) : Except Fault Estimate := do
  let levels ← s.levels
  let targets := goals.targets s
  match v.firstRoute (targets.map (·.method)) levels with
  | none => return .unreachable
  | some (inner, level, route) =>
    let inside ← v.returning inner
    let outside ← v.alongRoute targets level route
    let total := inside + outside
    return ⟨some route, inner.length, total,
      TaintDistance.Coefficients.combine c total route.hops⟩

end View

namespace Answers

variable (v : View)

theorem returning (levels : List Level) :
    Answers v (TaintDistance.returning v levels) (v.returning levels) := by
  induction levels with
  | nil => exact pure _
  | cons level levels ih =>
    unfold TaintDistance.returning View.returning
    apply (lift _).bind
    intro flow _
    apply (tree v _).bind
    intro found _
    exact ih.bind fun d _ => pure _

theorem startIn (m : Method) (stand : Option Stmt) :
    Answers v (TaintDistance.startIn v m stand) (v.startIn m stand) := by
  cases stand with
  | some s => exact pure s
  | none => exact (lift _).bind fun flow _ => pure _

theorem along (targets : Ascending Stmt) (stand : Option Stmt) (m : Method) (rest : List Method) :
    Answers v (TaintDistance.along v targets stand m rest) (v.along targets stand m rest) := by
  induction rest generalizing stand m with
  | nil =>
    unfold TaintDistance.along View.along
    apply (startIn v m stand).bind
    intro start _
    exact (tree v start).bind fun found _ => pure _
  | cons next rest ih =>
    unfold TaintDistance.along View.along
    apply (sitesInto v m next).bind
    intro sites _
    refine (forIn fun site _ => join v ⟨site, next⟩).bind fun _ _ => ?_
    apply (startIn v m stand).bind
    intro start _
    apply (tree v start).bind
    intro found _
    exact (ih none next).bind fun d _ => pure _

theorem alongRoute (targets : Ascending Stmt) (level : Level) (route : Route) :
    Answers v (TaintDistance.alongRoute v targets level route)
      (v.alongRoute targets level route) := by
  unfold TaintDistance.alongRoute View.alongRoute
  cases route.methods with
  | nil => exact pure _
  | cons m rest => exact along v targets _ m rest

theorem estimating (goals : Registry) (c : Coefficients) (s : State) :
    Answers v (TaintDistance.estimating v goals c s) (v.estimate goals c s) := by
  unfold TaintDistance.estimating View.estimate
  apply (lift _).bind
  intro levels _
  dsimp only
  cases v.firstRoute ((goals.targets s).map (·.method)) levels with
  | none => exact pure _
  | some found =>
    obtain ⟨inner, level, route⟩ := found
    apply (returning v inner).bind
    intro inside _
    exact (alongRoute v _ level route).bind fun outside _ => pure _

end Answers

inductive Question where
  | estimate (s : State)
  | weigh (s : State)

namespace TaintDistance

def ask (t : TaintDistance) : Question → TaintDistance
  | .estimate s => (t.estimate s).2
  | .weigh s => (Weighting.weigh s t).2

def after (t : TaintDistance) (asked : List Question) : TaintDistance := asked.foldl ask t

/-- Weightings of the same program, goals and costs, with what they remember sound. -/
structure Agrees (v : View) (goals : Registry) (c : Coefficients) (t : TaintDistance) : Prop where
  view : t.view = v
  goals : t.goals = goals
  coefficients : t.coefficients = c
  memo : t.memo.Sound v

variable {v : View} {goals : Registry} {c : Coefficients} {t : TaintDistance}

theorem ofSettings_eq_ok_iff {settings : SelectorSettings} :
    ofSettings v goals settings = .ok t ↔ settings.validate = .ok () ∧
      t = ⟨v, goals, ⟨settings.inner, settings.inter⟩, .ofCapacity settings.capacity.toNat⟩ := by
  have hvalidate : Checked.validate settings = settings.validate := rfl
  unfold ofSettings accept
  rw [hvalidate]
  cases settings.validate with
  | error fault => simp [bind, Except.bind]
  | ok _ => exact pure_eq_ok_iff.trans (and_iff_right rfl).symm

namespace Agrees

theorem ofSettings {settings : SelectorSettings}
    (h : TaintDistance.ofSettings v goals settings = .ok t) :
    t.Agrees v goals ⟨settings.inner, settings.inter⟩ := by
  obtain ⟨-, rfl⟩ := ofSettings_eq_ok_iff.mp h
  exact ⟨rfl, rfl, rfl, .ofCapacity v _⟩

theorem estimate (h : t.Agrees v goals c) (s : State) :
    (t.estimate s).1 = v.estimate goals c s ∧ (t.estimate s).2.Agrees v goals c := by
  obtain ⟨rfl, rfl, rfl, hm⟩ := h
  obtain ⟨memo, hr, hs⟩ := Answers.estimating t.view t.goals t.coefficients s t.memo hm
  unfold TaintDistance.estimate
  rw [hr]
  exact ⟨rfl, rfl, rfl, rfl, hs⟩

theorem weigh (h : t.Agrees v goals c) (s : State) :
    (Weighting.weigh s t).1 = (v.estimate goals c s).map Estimate.weight ∧
      (Weighting.weigh s t).2.Agrees v goals c := by
  obtain ⟨he, ha⟩ := h.estimate s
  exact ⟨congrArg (Except.map Estimate.weight) he, ha⟩

theorem ask (h : t.Agrees v goals c) (q : Question) : (t.ask q).Agrees v goals c := by
  cases q with
  | estimate s => exact (h.estimate s).2
  | weigh s => exact (h.weigh s).2

theorem after (h : t.Agrees v goals c) (asked : List Question) :
    (t.after asked).Agrees v goals c := by
  induction asked generalizing t with
  | nil => exact h
  | cons q asked ih => exact ih (h.ask q)

end Agrees

end TaintDistance

/-- An estimate reads nothing of a state but its statement, its stack and its visited sources. -/
theorem View.estimate_congr (v : View) (goals : Registry) (c : Coefficients) {s s' : State}
    (hstmt : s.stmt = s'.stmt) (hstack : s.stack = s'.stack)
    (hvisited : ∀ x ∈ goals.sources, x.stmt ∈ s.path ↔ x.stmt ∈ s'.path) :
    v.estimate goals c s = v.estimate goals c s' := by
  have hl : s.levels = s'.levels := by
    unfold State.levels State.method
    rw [hstmt, hstack]
  have hv : goals.visitedSources s = goals.visitedSources s' := by
    apply Ascending.ext_mem
    intro x
    simp only [Registry.visitedSources, Ascending.mem_filter, State.hasVisited_iff]
    exact and_congr_right fun hx => hvisited x hx
  simp only [View.estimate, hl, Registry.targets, hv]

namespace TaintDistance

def behindCall : Registry := ⟨⟨[⟨⟨⟨⟨0⟩, 2⟩⟩, ⟨⟨⟨1⟩, 1⟩⟩⟩], by simp⟩⟩

def insideCall : State where
  stmt := ⟨⟨1⟩, 0⟩
  stack := .push (.root ⟨0⟩) ⟨1⟩ ⟨⟨0⟩, 1⟩

/-- The answer of a weighting is a function of the statement, the stack and the visited sources of
the state.  Room for trees, earlier questions and their failures, and the rest of the path do not
matter. -/
theorem estimate_history_free (v : View) (goals : Registry) (a b : SelectorSettings)
    (hinner : a.inner = b.inner) (hinter : a.inter = b.inter) (t u : TaintDistance)
    (ht : ofSettings v goals a = .ok t) (hu : ofSettings v goals b = .ok u)
    (asked asked' : List Question) (s s' : State) (hstmt : s.stmt = s'.stmt)
    (hstack : s.stack = s'.stack)
    (hvisited : ∀ x ∈ goals.sources, x.stmt ∈ s.path ↔ x.stmt ∈ s'.path) :
    ((t.after asked).estimate s).1 = ((u.after asked').estimate s').1 ∧
      (Weighting.weigh s (t.after asked)).1 = (Weighting.weigh s' (u.after asked')).1 := by
  have ha := (Agrees.ofSettings ht).after asked
  have hb := (Agrees.ofSettings hu).after asked'
  rw [hinner, hinter] at ha
  have hs := v.estimate_congr goals ⟨b.inner, b.inter⟩ hstmt hstack hvisited
  constructor
  · rw [(ha.estimate s).1, (hb.estimate s').1, hs]
  · rw [(ha.weigh s).1, (hb.weigh s').1, hs]

theorem estimate_history_free_insideCall :
    ∃ t u, ofSettings twoMethods.view behindCall { capacity := 1 } = .ok t ∧
      ofSettings twoMethods.view behindCall {} = .ok u ∧
      ((t.after [.weigh insideCall, .estimate (.root ⟨⟨0⟩, 0⟩)]).estimate insideCall).1 =
        (u.estimate (insideCall.withHistory [⟨⟨0⟩, 0⟩, ⟨⟨0⟩, 1⟩])).1 := by
  refine ⟨_, _, rfl, rfl, ?_⟩
  exact (estimate_history_free twoMethods.view behindCall { capacity := 1 } {} rfl rfl _ _ rfl rfl
    [.weigh insideCall, .estimate (.root ⟨⟨0⟩, 0⟩)] [] insideCall
    (insideCall.withHistory [⟨⟨0⟩, 0⟩, ⟨⟨0⟩, 1⟩]) rfl rfl (by decide)).1

end TaintDistance

end PathExplorer
