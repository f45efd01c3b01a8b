import PathExplorer.Proofs.Weighting.Guarded

namespace PathExplorer

namespace View

def NamesMissing (v : View) : Prop := ∀ m e, v.flow m = .error e → e = .methodNotFound m

/-- Some lookup of control flow fails like this, or the fault is that one of the statements at which
to start is not in its method. -/
def Lacks (v : View) (starts : List Stmt) (e : Fault) : Prop :=
  (∃ m, v.flow m = .error e) ∨
    ∃ x ∈ starts, e = .stmtNotFound x ∧ v.Has x.method ∧ ¬ v.Locates x

variable {v : View} {starts more : List Stmt} {e : Fault} {m next : Method} {x : Stmt}

theorem Lacks.mono (h : v.Lacks starts e) (hs : starts ⊆ more) : v.Lacks more e :=
  h.imp_right fun ⟨x, hx, hfault⟩ => ⟨x, hs hx, hfault⟩

theorem not_has_of_flow (h : v.flow m = .error e) : ¬ v.Has m := by
  rintro ⟨f, hf⟩
  rw [h] at hf
  cases hf

theorem NamesMissing.hide (h : v.NamesMissing) (hidden : List Method) :
    (v.hide hidden).NamesMissing := by
  intro m e he
  dsimp only [View.hide] at he
  split at he
  · cases he
    rfl
  · exact h m e he

theorem searchTree_lacks (h : v.searchTree x = .error e) : v.Lacks [x] e := by
  obtain hf | ⟨f, hf, ht⟩ := bind_eq_error_iff.mp h
  · exact .inl ⟨_, hf⟩
  · have hlocates : ¬ v.Locates x := fun hx => by
      obtain ⟨tree, htree⟩ := searchTree_isOk.mpr hx
      rw [h] at htree
      cases htree
    have hx : x ∉ f := fun hx => hlocates ⟨f, hf, hx⟩
    rw [Flow.tree_of_not_mem hx] at ht
    cases ht
    exact .inr ⟨x, List.mem_singleton_self x, rfl, ⟨f, hf⟩, hlocates⟩

theorem returning_lacks {before : List Level} (h : v.returning before = .error e) :
    v.Lacks (before.map (·.stand)) e := by
  induction before with
  | nil => cases h
  | cons inner before ih =>
    obtain hf | ⟨f, -, h⟩ := bind_eq_error_iff.mp h
    · exact .inl ⟨_, hf⟩
    · obtain ht | ⟨tree, -, h⟩ := bind_eq_error_iff.mp h
      · exact (searchTree_lacks ht).mono (by simp)
      · obtain hrest | ⟨d, -, h⟩ := bind_eq_error_iff.mp h
        · exact (ih hrest).mono (List.subset_cons_self ..)
        · cases h

section Along

variable {targets : Ascending Stmt} {stand : Option Stmt} {rest : List Method}

/-- A search fails to start only where the way was to start, since an entry is in its method. -/
theorem startIn_lacks (hv : v.Lawful) (h : (v.startIn m stand >>= v.searchTree) = .error e) :
    v.Lacks stand.toList e := by
  cases stand with
  | some x => exact searchTree_lacks h
  | none =>
    obtain hs | ⟨s, hs, ht⟩ := bind_eq_error_iff.mp h
    · obtain hf | ⟨f, -, hpure⟩ := bind_eq_error_iff.mp hs
      · exact .inl ⟨_, hf⟩
      · cases hpure
    · obtain ⟨f, hf, rfl⟩ := startIn_none_eq_ok_iff.mp hs
      obtain ⟨tree, htree⟩ := searchTree_isOk.mpr (locates_entry hv hf)
      rw [ht] at htree
      cases htree

theorem sitesInto_lacks (h : v.sitesInto m next = .error e) : v.flow m = .error e := by
  obtain hf | ⟨f, -, hpure⟩ := bind_eq_error_iff.mp h
  · exact hf
  · cases hpure

theorem joinable_lacks (hv : v.Lawful) {f : Flow} (hf : v.flow m = .ok f) (hx : x ∈ f)
    (h : v.joinable ⟨x, next⟩ = .error e) : v.flow next = .error e := by
  obtain hnext | ⟨g, hg, -⟩ := bind_eq_error_iff.mp h
  · exact hnext
  · rw [joinable_of_mem hv hf ⟨g, hg⟩ hx] at h
    cases h

theorem along_lacks (hv : v.Lawful) (h : v.along targets stand m rest = .error e) :
    v.Lacks stand.toList e := by
  induction rest generalizing stand m with
  | nil =>
    rw [along, ← bind_assoc] at h
    obtain hstart | ⟨tree, -, hpure⟩ := bind_eq_error_iff.mp h
    · exact startIn_lacks hv hstart
    · cases hpure
  | cons next rest ih =>
    obtain hsites | ⟨sites, hsites, h⟩ := bind_eq_error_iff.mp h
    · exact .inl ⟨_, sitesInto_lacks hsites⟩
    · obtain hjoin | ⟨_, -, h⟩ := bind_eq_error_iff.mp h
      · obtain ⟨f, hf, rfl⟩ := sitesInto_eq_ok_iff.mp hsites
        obtain ⟨site, hsite, hjoin⟩ := exists_of_forM_eq_error hjoin
        exact .inl ⟨_, joinable_lacks hv hf (mem_sites_iff.mp hsite).1 hjoin⟩
      · rw [← bind_assoc] at h
        obtain hstart | ⟨tree, -, h⟩ := bind_eq_error_iff.mp h
        · exact startIn_lacks hv hstart
        · obtain hrest | ⟨d, -, hpure⟩ := bind_eq_error_iff.mp h
          · exact (ih hrest).mono (List.nil_subset _)
          · cases hpure

end Along

theorem estimate_lacks (hv : v.Lawful) {goals : Registry} {c : Coefficients} {s : State}
    (h : v.estimate goals c s = .error e) :
    s.levels = .error e ∨
      ∃ levels, s.levels = .ok levels ∧ v.Lacks (levels.map (·.stand)) e := by
  obtain hl | ⟨levels, hl, h⟩ := bind_eq_error_iff.mp h
  · exact .inl hl
  · refine .inr ⟨levels, hl, ?_⟩
    dsimp only at h
    cases hf : v.firstRoute ((goals.targets s).map (·.method)) levels with
    | none =>
      rw [hf] at h
      cases h
    | some found =>
      obtain ⟨before, level, route⟩ := found
      obtain ⟨⟨outer, rfl⟩, -, t, hnearest⟩ := firstRoute_eq_some hf
      rw [hf] at h
      obtain hinside | ⟨d, -, h⟩ := bind_eq_error_iff.mp h
      · exact (returning_lacks hinside).mono (by simp)
      · obtain houtside | ⟨d, -, hpure⟩ := bind_eq_error_iff.mp h
        · rw [alongRoute_eq hnearest] at houtside
          exact (along_lacks hv houtside).mono (by simp)
        · cases hpure

end View

theorem Program.view_namesMissing (p : Program) : p.view.NamesMissing := by
  intro m e he
  change p.flow m = .error e at he
  unfold Program.flow at he
  split at he
  · cases he
  · cases he
    rfl

namespace TaintDistance

theorem mapError_reported {α : Type} (x : Except Fault α) (here : Stmt) :
    (x.mapError Lapse.fault).mapError (·.reported here) = x := by
  cases x <;> rfl

theorem guardedEstimate_eq (t : TaintDistance) (s : State) :
    t.guardedEstimate s = ((t.estimate s).1.mapError .fault, (t.estimate s).2) := by
  unfold guardedEstimate estimate
  rw [guardedEstimating_eq, Recall.run_guarded]
  rfl

/-- Over a program of which some methods cannot be looked up, whatever was asked before: the guarded
estimate answers as the estimate does, and so by none of its guards.  The stack does not fit exactly
when the innermost frame is in another method than the state and resumes at another statement, and
every other failure is of a lookup, of a method or of a statement at which to start. -/
theorem estimate_fails_by_lookup {p : Program} {v : View} (hv : v.Shows p) (hnames : v.NamesMissing)
    {goals : Registry} {settings : SelectorSettings} {t : TaintDistance}
    (ht : ofSettings v goals settings = .ok t) (asked : List Question) (s : State) :
    let u := t.after asked
    u.guardedEstimate s = ((u.estimate s).1.mapError .fault, (u.estimate s).2) ∧
    (u.guardedEstimate s).1.mapError (·.reported s.stmt) = (u.estimate s).1 ∧
    (∀ current top, (u.estimate s).1 = .error (.inconsistentStack current top) ↔
      s.levels = .error (.inconsistentStack current top)) ∧
    (∀ e, s.levels = .error e ↔ ∃ top, s.stack.top? = some top ∧ top.method ≠ s.method ∧
      top.site? ≠ some s.stmt ∧ e = .inconsistentStack s.stmt top.method) ∧
    ∀ e, (u.estimate s).1 = .error e → s.levels = .error e ∨
      (∃ m, e = .methodNotFound m ∧ ¬ v.Has m) ∨
      ∃ levels x, s.levels = .ok levels ∧ x ∈ levels.map (·.stand) ∧ e = .stmtNotFound x ∧
        v.Has x.method ∧ ¬ v.Locates x := by
  intro u
  have hestimate : (u.estimate s).1 = v.estimate goals ⟨settings.inner, settings.inter⟩ s :=
    (((Agrees.ofSettings ht).after asked).estimate s).1
  have hother : ∀ e, (u.estimate s).1 = .error e → s.levels = .error e ∨
      (∃ m, e = .methodNotFound m ∧ ¬ v.Has m) ∨
      ∃ levels x, s.levels = .ok levels ∧ x ∈ levels.map (·.stand) ∧ e = .stmtNotFound x ∧
        v.Has x.method ∧ ¬ v.Locates x := by
    intro e he
    rw [hestimate] at he
    obtain hl | ⟨levels, hl, ⟨m, hm⟩ | ⟨x, hx, hstart⟩⟩ := View.estimate_lacks hv.lawful he
    · exact .inl hl
    · exact .inr (.inl ⟨m, hnames m e hm, View.not_has_of_flow hm⟩)
    · exact .inr (.inr ⟨levels, x, hl, hx, hstart⟩)
  refine ⟨u.guardedEstimate_eq s, ?reported,
    fun current top => ⟨fun he => ?misfit, fun hl => ?stray⟩,
    fun e => State.levels_eq_error_iff, hother⟩
  case reported =>
    rw [u.guardedEstimate_eq]
    exact mapError_reported _ _
  case misfit =>
    obtain hl | ⟨m, hm, -⟩ | ⟨levels, x, -, -, hx, -⟩ := hother _ he
    · exact hl
    · cases hm
    · cases hx
  case stray =>
    rw [hestimate, View.estimate, hl]
    rfl

theorem estimate_fails_by_lookup_hidden :
    let v := twoMethods.view.hide [⟨0⟩]
    ∃ t, ofSettings v behindCall {} = .ok t ∧
      (t.guardedEstimate insideCall).1 = .error (.fault (.methodNotFound ⟨0⟩)) ∧ ¬ v.Has ⟨0⟩ := by
  intro v
  have hv : v.Shows twoMethods := twoMethods.hide_shows [⟨0⟩]
  have hnames : v.NamesMissing := twoMethods.view_namesMissing.hide [⟨0⟩]
  have ht : ofSettings v behindCall {} = .ok _ := rfl
  obtain ⟨hguarded, -, -, -, hother⟩ := estimate_fails_by_lookup hv hnames ht [] insideCall
  refine ⟨_, ht, congrArg Prod.fst hguarded, ?_⟩
  obtain hl | ⟨m, hm, hhas⟩ | ⟨levels, x, -, -, hx, -⟩ := hother (.methodNotFound ⟨0⟩) rfl
  · cases hl
  · cases hm
    exact hhas
  · cases hx

end TaintDistance

end PathExplorer
