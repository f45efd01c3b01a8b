import PathExplorer.Proofs.Exploration.Schedule

namespace PathExplorer

theorem TaintFrontier.ofSettings_isOk (v : View) (goals : Registry) {selector : SelectorSettings}
    (hs : selector.validate = .ok ()) : ∃ t, TaintDistance.ofSettings v goals selector = .ok t ∧
      TaintFrontier.ofSettings v goals selector = .ok (.start t {} {}) := by
  have ht : TaintDistance.ofSettings v goals selector = .ok _ :=
    TaintDistance.ofSettings_eq_ok_iff.mpr ⟨hs, rfl⟩
  refine ⟨_, ht, ?_⟩
  rw [TaintFrontier.ofSettings, ht]
  rfl

namespace Session

def guided (v : View) (goals : Registry) (exploration : ExplorationSettings)
    (frontier : TaintFrontier) :
    Session (Frontier TaintDistance HighestWeight NeverStop) Walker where
  settings := exploration
  goals := goals
  frontier := frontier
  interpreter := ⟨v⟩

/-- Whatever program, goals and settings in order it is given, a guided exploration of statements of
the program ends with a report. -/
theorem guided_reports (p : Program) (goals : Registry) {selector : SelectorSettings}
    (hs : selector.validate = .ok ()) (exploration : ExplorationSettings) {initial : List Stmt}
    (hi : ∀ x ∈ initial, p.view.Locates x) :
    ∃ frontier, TaintFrontier.ofSettings p.view goals selector = .ok frontier ∧
      ∃ n report, ∀ rounds ≥ n,
        ((guided p.view goals exploration frontier).explore rounds (initial.map State.root)).1 =
          some (.ok report) := by
  obtain ⟨t, ht, hfrontier⟩ := TaintFrontier.ofSettings_isOk p.view goals hs
  refine ⟨_, hfrontier, ?_⟩
  have hroots : ∀ s ∈ initial.map State.root, s.Placed p.view :=
    List.forall_mem_map.mpr fun x hx => State.placed_root (hi x hx)
  obtain ⟨all, hall⟩ := View.exists_unfolds hroots
  have hready : (Frontier.start t HighestWeight.mk NeverStop.mk).Ready (·.Placed p.view) :=
    .start (TaintDistance.tireless ht) decisive_highestWeight _
  have hunrolls := unrolls_offerAll
    (s := guided p.view goals exploration (.start t {} {})) rfl hready rfl hroots hall
  obtain ⟨_, he, ⟨reason, rfl, -⟩, -⟩ :=
    hunrolls.run_ends (fun hx hn => hx.next p.flow_lawful hn) (Nat.lt_succ_self _)
  exact ⟨_, _, fun rounds hle => congrArg Prod.fst (explore_of_le hle he)⟩

/-- A goal of which `helperTwice` has the sink but not the source. -/
def strayGoal : Registry := ⟨⟨[⟨⟨⟨⟨9⟩, 0⟩⟩, ⟨⟨⟨0⟩, 2⟩⟩⟩], by simp⟩⟩

theorem guided_reports_strayGoal :
    ∃ frontier, TaintFrontier.ofSettings helperTwice.view strayGoal {} = .ok frontier ∧
      ∃ n report, ∀ rounds ≥ n, ((guided helperTwice.view strayGoal { stepsLimit := none }
        frontier).explore rounds [.root ⟨⟨0⟩, 1⟩]).1 = some (.ok report) := by
  have hs : SelectorSettings.validate {} = .ok () := rfl
  have hi : ∀ x ∈ [Stmt.mk ⟨0⟩ 1], helperTwice.view.Locates x :=
    List.forall_mem_singleton.mpr ⟨_, rfl, by decide⟩
  exact guided_reports helperTwice strayGoal hs { stepsLimit := none } hi

end Session

end PathExplorer
