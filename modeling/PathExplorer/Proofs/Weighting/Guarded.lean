import PathExplorer.Proofs.Weighting.Estimate

namespace PathExplorer

/-- Why a guarded estimate fails. -/
inductive Lapse where
  | fault (f : Fault)
  /-- The frame inside one that has to return resumes nowhere. -/
  | returningNowhere (inner : Method)
  | startingNowhere (inner : Method)
  /-- No route is left of those to the targets that were reached. -/
  | routeless (start : Method)
  | targetless (start : Method)

def Lapse.reported (here : Stmt) : Lapse → Fault
  | fault f => f
  | returningNowhere inner | startingNowhere inner => .inconsistentStack here inner
  | routeless start | targetless start => .methodNotFound start

abbrev Guarded := ExceptT Lapse (StateM (Memo Trees))

def Recall.guarded {α : Type} (x : Recall Trees α) : Guarded α := ExceptT.adapt Lapse.fault x

def State.levelFrames (s : State) : Except Fault (List Frame) :=
  match s.stack.frames with
  | [] => .ok [⟨s.method, none⟩]
  | top :: outer =>
    if top.method = s.method then .ok (top :: outer)
    else if top.site? = some s.stmt then
      match outer with
      | [] => .ok [⟨s.method, none⟩]
      | outer => .ok outer
    else .error (.inconsistentStack s.stmt top.method)

def View.firstReaching (v : View) (targets : Ascending Method) :
    List Frame → Option (List Frame × Frame × List Route)
  | [] => none
  | frame :: outer =>
    match v.routes frame.method targets with
    | [] => (v.firstReaching targets outer).map fun (inner, found) => (frame :: inner, found)
    | routes => some ([], frame, routes)

namespace TaintDistance

def standOutside (lapse : Method → Lapse) (here : Stmt) (inner? : Option Frame) : Guarded Stmt :=
  match inner? with
  | none => return here
  | some inner =>
    match inner.site? with
    | some site => return site
    | none => throw (lapse inner.method)

variable (v : View)

def guardedReturning (here : Stmt) (inner? : Option Frame) : List Frame → Guarded Distance
  | [] => return .zero
  | frame :: frames => do
    let start ← standOutside .returningNowhere here inner?
    let flow ← Recall.guarded (v.flow frame.method)
    let tree ← Recall.guarded (Memo.tree v start)
    return tree.nearest flow.returns + (← guardedReturning here (some frame) frames)

def guardedAlong (targets : Ascending Stmt) (start : Stmt) (route : Route) : Guarded Distance :=
  match route.target? with
  | none => throw (.targetless start.method)
  | some _ => Recall.guarded (alongRoute v targets ⟨start.method, start⟩ route)

def guardedEstimating (goals : Registry) (c : Coefficients) (s : State) : Guarded Estimate := do
  let frames ← Recall.guarded s.levelFrames
  let targets := goals.targets s
  match v.firstReaching (targets.map (·.method)) frames with
  | none => return .unreachable
  | some (inner, frame, routes) =>
    match routes.minOn? Route.length with
    | none => throw (.routeless frame.method)
    | some route =>
      let inside ← guardedReturning v s.stmt none inner
      let start ← standOutside .startingNowhere s.stmt inner.getLast?
      let outside ← guardedAlong v targets start route
      let total := inside + outside
      return ⟨some route, inner.length, total, Coefficients.combine c total route.hops⟩

def guardedEstimate (s : State) (t : TaintDistance) : Except Lapse Estimate × TaintDistance :=
  let (result, memo) := (guardedEstimating t.view t.goals t.coefficients s).run t.memo
  (result, { t with memo })

end TaintDistance

namespace Recall

variable {α β : Type}

theorem run_guarded (x : Recall Trees α) (memo : Memo Trees) :
    x.guarded.run memo = ((x.run memo).1.mapError Lapse.fault, (x.run memo).2) := rfl

theorem guarded_pure (a : α) : guarded (pure a) = pure a := rfl

theorem guarded_lift_ok (a : α) : guarded (liftM (Except.ok a : Except Fault α)) = pure a := rfl

theorem guarded_bind (x : Recall Trees α) (f : α → Recall Trees β) :
    guarded (x >>= f) = x.guarded >>= fun a => (f a).guarded := by
  funext memo
  change (x >>= f).guarded.run memo =
    match x.guarded.run memo with
    | (r, memo) => (ExceptT.bindCont (fun a => (f a).guarded) r).run memo
  rw [run_guarded, run_guarded, run_bind]
  cases x.run memo with
  | mk r memo => cases r <;> rfl

end Recall

/-- Frames beside levels: the innermost level stands where the execution does, and each other one
where the frame inside it resumes. -/
inductive Aligned : Stmt → List Frame → List Level → Prop
  | outermost {here : Stmt} (m : Method) (site? : Option Stmt) :
      Aligned here [⟨m, site?⟩] [⟨m, here⟩]
  | inside {here site : Stmt} {frames : List Frame} {levels : List Level} (m : Method) :
      Aligned site frames levels → Aligned here (⟨m, some site⟩ :: frames) (⟨m, here⟩ :: levels)

inductive Unwinds : Stmt → List Frame → List Level → Stmt → Prop
  | nil (here : Stmt) : Unwinds here [] [] here
  | cons {here site last : Stmt} {frames : List Frame} {levels : List Level} (m : Method) :
      Unwinds site frames levels last →
      Unwinds here (⟨m, some site⟩ :: frames) (⟨m, here⟩ :: levels) last

theorem Stack.aligned {st : Stack} (h : st.frames ≠ []) (here : Stmt) :
    Aligned here st.frames (st.levels here) := by
  induction st generalizing here with
  | empty => exact absurd rfl h
  | root m => exact .outermost m none
  | push below m site ih =>
    cases below with
    | empty => exact .outermost m (some site)
    | root k => exact .inside m (ih (List.cons_ne_nil _ _) site)
    | push lower k under => exact .inside m (ih (List.cons_ne_nil _ _) site)

namespace State

variable {s : State}

/-- The frames that a way can start from are found when the levels are, and stand beside them. -/
theorem aligned_levels (s : State) :
    (∃ frames levels, s.levelFrames = .ok frames ∧ s.levels = .ok levels ∧
      Aligned s.stmt frames levels) ∨
    ∃ e, s.levelFrames = .error e ∧ s.levels = .error e := by
  unfold levelFrames State.levels
  cases s.stack with
  | empty => exact .inl ⟨_, _, rfl, rfl, .outermost s.method none⟩
  | root m =>
    dsimp only [Stack.frames, Stack.top?]
    by_cases hm : m = s.method
    · rw [if_pos hm, if_pos hm]
      exact .inl ⟨_, _, rfl, rfl, .outermost m none⟩
    · rw [if_neg hm, if_neg hm]
      exact .inr ⟨_, rfl, rfl⟩
  | push below m site =>
    dsimp only [Stack.frames, Stack.top?, Stack.pop]
    by_cases hm : m = s.method
    · rw [if_pos hm, if_pos hm]
      exact .inl ⟨_, _, rfl, rfl, (below.push m site).aligned (List.cons_ne_nil _ _) s.stmt⟩
    · rw [if_neg hm, if_neg hm]
      by_cases hsite : some site = some s.stmt
      · rw [if_pos hsite, if_pos hsite]
        cases below with
        | empty => exact .inl ⟨_, _, rfl, rfl, .outermost s.method none⟩
        | root k => exact .inl ⟨_, _, rfl, rfl, .outermost k none⟩
        | push lower k under =>
          exact .inl ⟨_, _, rfl, rfl, (lower.push k under).aligned (List.cons_ne_nil _ _) s.stmt⟩
      · rw [if_neg hsite, if_neg hsite]
        exact .inr ⟨_, rfl, rfl⟩

theorem levels_eq_error_iff {e : Fault} : s.levels = .error e ↔
    ∃ top, s.stack.top? = some top ∧ top.method ≠ s.method ∧ top.site? ≠ some s.stmt ∧
      e = .inconsistentStack s.stmt top.method := by
  unfold State.levels
  cases s.stack.top? with
  | none => simp
  | some top =>
    dsimp only
    by_cases hm : top.method = s.method
    · simp [hm]
    · rw [if_neg hm]
      by_cases hsite : top.site? = some s.stmt
      · rw [if_pos hsite]
        split <;> simp [hsite]
      · rw [if_neg hsite]
        simp [hm, hsite, eq_comm]

end State

namespace Unwinds

variable {here last : Stmt} {frames : List Frame} {levels : List Level}

theorem last_eq (h : Unwinds here frames levels last) :
    (frames = [] ∧ last = here) ∨ ∃ m, frames.getLast? = some ⟨m, some last⟩ := by
  induction h with
  | nil here => exact .inl ⟨rfl, rfl⟩
  | @cons here site last frames levels m _ ih =>
    obtain ⟨rfl, rfl⟩ | ⟨k, hk⟩ := ih
    · exact .inr ⟨m, rfl⟩
    · exact .inr ⟨k, by rw [List.getLast?_cons, hk]; rfl⟩

theorem standOutside (h : Unwinds here frames levels last) (lapse : Method → Lapse) :
    TaintDistance.standOutside lapse here frames.getLast? = pure last := by
  obtain ⟨rfl, rfl⟩ | ⟨m, hm⟩ := h.last_eq
  · rfl
  · rw [hm]
    rfl

/-- No frame that returns resumes nowhere. -/
theorem guardedReturning (h : Unwinds here frames levels last) {begun : Stmt}
    {inner? : Option Frame}
    (hinner : TaintDistance.standOutside .returningNowhere begun inner? = pure here) (v : View) :
    TaintDistance.guardedReturning v begun inner? frames =
      (TaintDistance.returning v levels).guarded := by
  induction h generalizing inner? with
  | nil here => rfl
  | @cons here site last frames levels m _ ih =>
    unfold TaintDistance.guardedReturning TaintDistance.returning
    rw [hinner, pure_bind]
    simp only [Recall.guarded_bind, Recall.guarded_pure]
    rw [ih rfl]

end Unwinds

namespace View

variable {v : View} {targets : Ascending Method} {here : Stmt} {frames : List Frame}
  {levels : List Level}

theorem firstReaching_cons_of_nil {m : Method} (h : v.routes m targets = []) (site? : Option Stmt)
    (frames : List Frame) : v.firstReaching targets (⟨m, site?⟩ :: frames) =
      (v.firstReaching targets frames).map fun (inner, found) => (⟨m, site?⟩ :: inner, found) := by
  rw [firstReaching]
  simp only [h]

theorem firstRoute_cons_of_nil {m : Method} (h : v.routes m targets = []) (here : Stmt)
    (levels : List Level) : v.firstRoute targets (⟨m, here⟩ :: levels) =
      (v.firstRoute targets levels).map fun (inner, found) => (⟨m, here⟩ :: inner, found) := by
  rw [firstRoute]
  simp only [h, List.minOn?_nil]

theorem first_of_routes {m : Method} (h : v.routes m targets ≠ []) (site? : Option Stmt)
    (frames : List Frame) (here : Stmt) (levels : List Level) :
    ∃ route, (v.routes m targets).minOn? Route.length = some route ∧
      v.firstReaching targets (⟨m, site?⟩ :: frames) =
        some ([], ⟨m, site?⟩, v.routes m targets) ∧
      v.firstRoute targets (⟨m, here⟩ :: levels) = some ([], ⟨m, here⟩, route) := by
  cases hr : (v.routes m targets).minOn? Route.length with
  | none => exact absurd (minOn?_eq_none hr) h
  | some route =>
    refine ⟨route, rfl, ?_, ?_⟩
    · rw [firstReaching]
      split
      · contradiction
      · rfl
    · rw [firstRoute]
      simp only [hr]

/-- The first frame that reaches a target is at the first level that does, and of the routes from it
one is the shortest. -/
theorem firstReaching_eq (h : Aligned here frames levels) :
    (v.firstReaching targets frames = none ∧ v.firstRoute targets levels = none) ∨
    ∃ inner frame routes before level route,
      v.firstReaching targets frames = some (inner, frame, routes) ∧
      v.firstRoute targets levels = some (before, level, route) ∧
      routes.minOn? Route.length = some route ∧ inner.length = before.length ∧
      Unwinds here inner before level.stand := by
  induction h with
  | @outermost here m site? =>
    by_cases hr : v.routes m targets = []
    · rw [firstReaching_cons_of_nil hr, firstRoute_cons_of_nil hr]
      exact .inl ⟨rfl, rfl⟩
    · obtain ⟨route, hroute, hframe, hlevel⟩ := first_of_routes hr site? [] here []
      exact .inr ⟨_, _, _, _, _, _, hframe, hlevel, hroute, rfl, .nil here⟩
  | @inside here site frames levels m _ ih =>
    by_cases hr : v.routes m targets = []
    · rw [firstReaching_cons_of_nil hr, firstRoute_cons_of_nil hr]
      obtain ⟨hframes, hlevels⟩ |
        ⟨_, _, _, _, _, _, hframes, hlevels, hroute, hlength, hreturns⟩ := ih
      · rw [hframes, hlevels]
        exact .inl ⟨rfl, rfl⟩
      · rw [hframes, hlevels]
        exact .inr ⟨_, _, _, _, _, _, rfl, rfl, hroute, congrArg (· + 1) hlength, hreturns.cons m⟩
    · obtain ⟨route, hroute, hframe, hlevel⟩ := first_of_routes hr (some site) frames here levels
      exact .inr ⟨_, _, _, _, _, _, hframe, hlevel, hroute, rfl, .nil here⟩

end View

namespace TaintDistance

variable (v : View)

/-- A route leads through a method when it is one of those that were found. -/
theorem guardedAlong_eq {targets : Ascending Stmt} {level : Level} {route : Route}
    (h : route.methods ≠ []) : guardedAlong v targets level.stand route =
      (alongRoute v targets level route).guarded := by
  unfold guardedAlong Route.target?
  rw [List.getLast?_eq_some_getLast h]
  rfl

/-- With its guards the estimate answers as without them, and remembers the same. -/
theorem guardedEstimating_eq (goals : Registry) (c : Coefficients) (s : State) :
    guardedEstimating v goals c s = (estimating v goals c s).guarded := by
  unfold guardedEstimating estimating
  rw [Recall.guarded_bind]
  obtain ⟨frames, levels, hframes, hlevels, haligned⟩ | ⟨e, hframes, hlevels⟩ := s.aligned_levels
  · rw [hframes, hlevels, Recall.guarded_lift_ok, Recall.guarded_lift_ok, pure_bind, pure_bind]
    dsimp only
    obtain ⟨hframe, hroute⟩ | ⟨inner, frame, routes, before, level, route, hframe, hroute, hleast,
        hlength, hreturns⟩ := v.firstReaching_eq haligned
    · rw [hframe, hroute]
      rfl
    · have hmethods : route.methods ≠ [] := by
        obtain ⟨-, -, t, hnearest⟩ := View.firstRoute_eq_some hroute
        rw [hnearest.methods_eq]
        exact List.cons_ne_nil _ _
      rw [hframe, hroute]
      dsimp only
      rw [hleast]
      dsimp only
      rw [hreturns.guardedReturning rfl, hreturns.standOutside, hlength]
      simp only [Recall.guarded_bind, Recall.guarded_pure, pure_bind, guardedAlong_eq v hmethods]
  · rw [hframes, hlevels]
    rfl

end TaintDistance

end PathExplorer
