import PathExplorer.Proofs.Metric.Rounding
import PathExplorer.Proofs.Result
import PathExplorer.Proofs.Weighting.Direct

namespace PathExplorer

open Distance

namespace SearchTree

variable {N : Type} [DecidableEq N]

def stepsTo (t : SearchTree N) (n : N) : ℕ∞ :=
  match t.visit? n with
  | some v => v.distance
  | none => ⊤

theorem distanceTo_eq_clamp (t : SearchTree N) (n : N) : t.distanceTo n = clamp (t.stepsTo n) := by
  unfold distanceTo stepsTo
  cases t.visit? n <;> rfl

end SearchTree

/-- A part of a way inside one method, from the start of the tree to the nearest of its ends. -/
structure Stretch where
  tree : SearchTree Stmt
  ends : List Stmt

namespace Stretch

noncomputable def steps (w : Stretch) : ℕ∞ := ⨅ s ∈ w.ends, w.tree.stepsTo s

theorem nearest_eq (w : Stretch) : w.tree.nearest w.ends = clamp w.steps := by
  have hdistance : w.tree.distanceTo = fun s => clamp (w.tree.stepsTo s) := by
    funext s
    exact w.tree.distanceTo_eq_clamp s
  rw [SearchTree.nearest, hdistance, least_map_clamp]
  rfl

noncomputable def total (way : List Stretch) : ℕ∞ := (way.map steps).sum

noncomputable def distance (way : List Stretch) : Distance := clamp (total way)

theorem nearest_eq_distance (w : Stretch) : w.tree.nearest w.ends = distance [w] := by
  rw [nearest_eq, distance, total, List.map_singleton, List.sum_singleton]

theorem nearest_add (w : Stretch) (way : List Stretch) :
    w.tree.nearest w.ends + distance way = distance (w :: way) := by
  rw [nearest_eq, distance, distance, clamp_add, total, total, List.map_cons, List.sum_cons]

theorem distance_append (way way' : List Stretch) :
    distance way + distance way' = distance (way ++ way') := by
  rw [distance, distance, distance, clamp_add, total, total, total, List.map_append,
    List.sum_append]

/-- Rounding before a stretch is added, or after. -/
theorem map_distance_cons (w : Stretch) (x : Except Fault (List Stretch)) :
    (do return w.tree.nearest w.ends + (← x.map distance)) =
      (do return w :: (← x)).map distance := by
  cases x with
  | error fault => rfl
  | ok way => exact congrArg Except.ok (w.nearest_add way)

end Stretch

structure Course where
  framesToReturn : Nat
  stretches : List Stretch
  route : Route

namespace Course

noncomputable def cost (c : Coefficients) (w : Course) : ℕ∞ :=
  Stretch.total w.stretches * c.inner.toNat + w.route.hops * c.inter.toNat

theorem combine_distance {c : Coefficients} (hc : 1 ≤ c.inner) (w : Course) :
    TaintDistance.Coefficients.combine c (Stretch.distance w.stretches) w.route.hops =
      clamp (w.cost c) := by
  have hinner : 1 ≤ c.inner.toUInt64 := by
    rw [UInt64.le_iff_toNat_le, UInt32.toNat_toUInt64]
    exact UInt32.le_iff_toNat_le.mp hc
  have hcalls : Distance.ofNat (w.route.hops * c.inter.toNat) =
      clamp (w.route.hops * c.inter.toNat) := by
    rw [← Nat.cast_mul, clamp_coe]
  rw [TaintDistance.Coefficients.combine, Stretch.distance, clamp_scale _ hinner, hcalls,
    clamp_add, UInt32.toNat_toUInt64, cost]

noncomputable def estimate (c : Coefficients) : Option Course → Estimate
  | none => .unreachable
  | some w => ⟨some w.route, w.framesToReturn, Stretch.distance w.stretches, clamp (w.cost c)⟩

end Course

namespace View

variable (v : View)

def stretchesBack : List Level → Except Fault (List Stretch)
  | [] => return []
  | level :: levels => do
    let flow ← v.flow level.method
    let tree ← v.searchTree level.stand
    return ⟨tree, flow.returns⟩ :: (← stretchesBack levels)

def stretchesAlong (targets : Ascending Stmt) (stand : Option Stmt) (m : Method) :
    List Method → Except Fault (List Stretch)
  | [] => do
    let tree ← v.searchTree (← v.startIn m stand)
    return [⟨tree, targets.toList.filter (·.method = m)⟩]
  | next :: rest => do
    let sites ← v.sitesInto m next
    sites.forM fun site => v.joinable ⟨site, next⟩
    let tree ← v.searchTree (← v.startIn m stand)
    return ⟨tree, sites⟩ :: (← stretchesAlong targets none next rest)

def stretchesAlongRoute (targets : Ascending Stmt) (level : Level) (route : Route) :
    Except Fault (List Stretch) :=
  match route.methods with
  | m :: rest => v.stretchesAlong targets (some level.stand) m rest
  | [] => return []

/-- The way from a state to its next goal; none when no level reaches the method of a target. -/
def course (goals : Registry) (s : State) : Except Fault (Option Course) := do
  let levels ← s.levels
  let targets := goals.targets s
  match v.firstRoute (targets.map (·.method)) levels with
  | none => return none
  | some (before, level, route) =>
    let back ← v.stretchesBack before
    let along ← v.stretchesAlongRoute targets level route
    return some ⟨before.length, back ++ along, route⟩

theorem returning_rounds (levels : List Level) :
    v.returning levels = (v.stretchesBack levels).map Stretch.distance := by
  induction levels with
  | nil => rfl
  | cons level levels ih =>
    unfold returning stretchesBack
    apply bind_eq_map_bind
    intro flow _
    apply bind_eq_map_bind
    intro tree _
    rw [ih]
    exact Stretch.map_distance_cons ⟨tree, flow.returns⟩ _

theorem along_rounds (targets : Ascending Stmt) (stand : Option Stmt) (m : Method)
    (rest : List Method) : v.along targets stand m rest =
      (v.stretchesAlong targets stand m rest).map Stretch.distance := by
  induction rest generalizing stand m with
  | nil =>
    unfold along stretchesAlong
    apply bind_eq_map_bind
    intro start _
    apply bind_eq_map_bind
    intro tree _
    exact congrArg Except.ok (Stretch.nearest_eq_distance ⟨tree, _⟩)
  | cons next rest ih =>
    unfold along stretchesAlong
    apply bind_eq_map_bind
    intro sites _
    apply bind_eq_map_bind
    intro _ _
    apply bind_eq_map_bind
    intro start _
    apply bind_eq_map_bind
    intro tree _
    rw [ih]
    exact Stretch.map_distance_cons ⟨tree, sites⟩ _

theorem alongRoute_rounds (targets : Ascending Stmt) (level : Level) (route : Route) :
    v.alongRoute targets level route =
      (v.stretchesAlongRoute targets level route).map Stretch.distance := by
  unfold alongRoute stretchesAlongRoute
  cases route.methods with
  | nil => rfl
  | cons m rest => exact v.along_rounds targets _ m rest

theorem estimate_rounds (goals : Registry) {c : Coefficients} (hc : 1 ≤ c.inner) (s : State) :
    v.estimate goals c s = (v.course goals s).map (Course.estimate c) := by
  unfold estimate course
  apply bind_eq_map_bind
  intro levels _
  dsimp only
  cases v.firstRoute ((goals.targets s).map (·.method)) levels with
  | none => rfl
  | some found =>
    obtain ⟨before, level, route⟩ := found
    dsimp only
    rw [returning_rounds, alongRoute_rounds]
    cases v.stretchesBack before with
    | error fault => rfl
    | ok back =>
      cases v.stretchesAlongRoute (goals.targets s) level route with
      | error fault => rfl
      | ok along =>
        have htotal := Stretch.distance_append back along
        have hcost := Course.combine_distance hc ⟨before.length, back ++ along, route⟩
        change Except.ok _ = Except.ok _
        rw [Course.estimate, ← hcost, ← htotal]

end View

theorem SelectorSettings.one_le_inner {settings : SelectorSettings}
    (h : settings.validate = .ok ()) : 1 ≤ settings.inner := by
  obtain ⟨_, hinner, -⟩ := bind_eq_ok_iff.mp h
  unfold checkRange at hinner
  split at hinner
  · rename_i hle
    exact UInt32.le_iff_toNat_le.mpr hle
  · cases hinner

namespace TaintDistance

variable {v : View} {goals : Registry} {settings : SelectorSettings} {t : TaintDistance}

theorem weigh_rounds (h : ofSettings v goals settings = .ok t) (asked : List Question)
    (s : State) : (Weighting.weigh s (t.after asked)).1 = (v.course goals s).map fun way =>
      (Course.estimate ⟨settings.inner, settings.inter⟩ way).weight := by
  have hinner := SelectorSettings.one_le_inner (ofSettings_eq_ok_iff.mp h).1
  have ha := (Agrees.ofSettings h).after asked
  rw [(ha.weigh s).1, v.estimate_rounds goals hinner s]
  cases v.course goals s <;> rfl

/-- Reckoning with distances rounds the exact result, and weights reverse the order of distances.
So the weight of a state is the negated cost of the way from it, if that is below `Weight.bound`,
and otherwise, as without any way, the least weight.  Nothing fails but looking up the way. -/
theorem weigh_exact : Reckons clamp ∧ Weight.Reverses Weight.ofDistance ∧
    ∀ (v : View) (goals : Registry) (settings : SelectorSettings) (t : TaintDistance),
      ofSettings v goals settings = .ok t → ∀ (asked : List Question) (s : State),
        let result := (Weighting.weigh s (t.after asked)).1
        (∀ fault, result = .error fault ↔ v.course goals s = .error fault) ∧
        (v.course goals s = .ok none → result = .ok .negInfinity) ∧
        ∀ way, v.course goals s = .ok (some way) → ∃ weight, result = .ok weight ∧
          (∀ n : ℕ, way.cost ⟨settings.inner, settings.inter⟩ = n → n < Weight.bound →
            weight.value.toInt = -n) ∧
          (Weight.bound ≤ way.cost ⟨settings.inner, settings.inter⟩ →
            weight = .negInfinity) := by
  refine ⟨clamp_reckons, Weight.ofDistance_reverses, ?_⟩
  intro v goals settings t h asked s result
  have hresult : result = _ := weigh_rounds h asked s
  refine ⟨fun fault => ?_, fun hnone => ?_, fun way hway => ?_⟩
  · rw [hresult]
    cases v.course goals s <;> simp [Except.map]
  · rw [hresult, hnone]
    rfl
  · rw [hway] at hresult
    refine ⟨_, hresult, fun n hn hlt => ?_, fun hle => Weight.ofDistance_clamp_of_le hle⟩
    rw [← Weight.toInt_clamp hlt, ← hn]
    rfl

theorem weigh_exact_greatest :
    let settings : SelectorSettings := { inner := 4294967295, inter := 4294967295 }
    let s := (State.root ⟨⟨0⟩, 0⟩).withHistory [⟨⟨0⟩, 2⟩]
    ∃ t weight, ofSettings twoMethods.view behindCall settings = .ok t ∧
      (Weighting.weigh s (t.after [.weigh insideCall])).1 = .ok weight ∧
      weight.value.toInt = -12884901885 := by
  intro settings s
  have ht : ofSettings twoMethods.view behindCall settings = .ok _ := rfl
  let outer : SearchTree Stmt := ⟨⟨⟨0⟩, 0⟩,
    [⟨⟨⟨0⟩, 0⟩, []⟩, ⟨⟨⟨0⟩, 1⟩, [⟨⟨0⟩, 0⟩]⟩, ⟨⟨⟨0⟩, 2⟩, [⟨⟨0⟩, 1⟩, ⟨⟨0⟩, 0⟩]⟩]⟩
  let inner : SearchTree Stmt := ⟨⟨⟨1⟩, 0⟩, [⟨⟨⟨1⟩, 0⟩, []⟩, ⟨⟨⟨1⟩, 1⟩, [⟨⟨1⟩, 0⟩]⟩]⟩
  let way : Course := ⟨0, [⟨outer, [⟨⟨0⟩, 1⟩]⟩, ⟨inner, [⟨⟨1⟩, 1⟩]⟩], ⟨[⟨0⟩, ⟨1⟩]⟩⟩
  have hway : twoMethods.view.course behindCall s = .ok (some way) := rfl
  have hcost : way.cost ⟨settings.inner, settings.inter⟩ = (12884901885 : ℕ) := by
    have houter : outer.stepsTo ⟨⟨0⟩, 1⟩ = 1 := rfl
    have hinner : inner.stepsTo ⟨⟨1⟩, 1⟩ = 1 := rfl
    have htotal : Stretch.total way.stretches = (2 : ℕ) := by
      simp [Stretch.total, Stretch.steps, way, houter, hinner, one_add_one_eq_two]
    have hsum : 2 * settings.inner.toNat + way.route.hops * settings.inter.toNat = 12884901885 := by
      decide
    rw [Course.cost, htotal]
    exact_mod_cast hsum
  obtain ⟨-, -, h⟩ := weigh_exact
  obtain ⟨-, -, hexact⟩ := h twoMethods.view behindCall settings _ ht [.weigh insideCall] s
  obtain ⟨weight, hweight, hvalue, -⟩ := hexact way hway
  exact ⟨_, weight, ht, hweight, hvalue _ hcost (by decide)⟩

end TaintDistance

end PathExplorer
