import PathExplorer.Proofs.Exploration.Coverage
import PathExplorer.Proofs.Metric.Rounding
import PathExplorer.Proofs.Program.Adjacency
import PathExplorer.Proofs.Weighting.Tireless

namespace PathExplorer

@[simp] theorem Stack.length_levels (st : Stack) (here : Stmt) :
    (st.levels here).length = st.depth := by
  rw [← st.length_frames, ← List.length_map (·.method), st.map_method_levels, List.length_map]

namespace View

variable (v : View)

/-- Levels on top of `l`, the innermost first.  The outermost of them is `l`, which has gone on from
where it stood; every other was entered at the call at which the one below it stands. -/
inductive Above (l : Level) : List Level → Prop
  | on {here : Stmt} {k : Nat} : Walk v.Leads l.stand here k → Above l [⟨l.method, here⟩]
  | enter {b : Level} {bs : List Level} {m : Method} {f : Flow} {here : Stmt} {k : Nat} :
      Above l (b :: bs) → m ∈ v.callees b.stand → v.flow m = .ok f →
      Walk v.Leads f.entry here k → Above l (⟨m, here⟩ :: b :: bs)

/-- The exploration comes from `s` to `u`, and the stack is never less than `d` deep on the way. -/
def StaysDeep (d : Nat) : State → State → Prop :=
  Relation.ReflTransGen fun x y => v.Next x y ∧ d ≤ y.stack.depth

/-- Between `s` and `u` the level at depth `d` of `s` was left at the return `r`. -/
def LeftAt (d : Nat) (r : Stmt) (s u : State) : Prop :=
  d ≤ s.stack.depth ∧ v.Is .ret r ∧ ∃ x y, v.StaysDeep d s x ∧ x.stack.depth = d ∧ x.stmt = r ∧
    v.Next x y ∧ v.Explored y u

def CameBack (d : Nat) (s u : State) : Prop :=
  ∃ x, v.Explored s x ∧ v.Explored x u ∧ x.stack.depth ≤ d

def Returned (d : Nat) (s x : State) (g : Level) : Prop :=
  ∃ r k c, Walk v.Leads g.stand r k ∧ d < c ∧ v.LeftAt c r s x

/-- What has become of the levels of `s` in `x`: those in `gone` have returned, `l` is the innermost
that has not, and `above` is what stands on the levels in `rest`. -/
structure Leaves (s x : State) (gone : List Level) (l : Level) (rest above : List Level) :
    Prop where
  before : s.stack.levels s.stmt = gone ++ l :: rest
  after : x.stack.levels x.stmt = above ++ rest
  upon : v.Above l above
  deep : v.StaysDeep (rest.length + 1) s x
  returned : ∀ g ∈ gone, v.Returned (rest.length + 1) s x g
  cameBack : gone ≠ [] → v.CameBack (rest.length + 1) s x

variable {v} {l a : Level} {as rest outer before gone above : List Level} {s t u x : State}
  {targets : Ascending Stmt} {ahead : List Method}

theorem method_eq_of_walk (hv : v.Lawful) {x y : Stmt} {k : Nat} (h : Walk v.Leads x y k) :
    y.method = x.method := by
  induction h with
  | here => rfl
  | step _ hl ih => exact (hl.method_eq hv).trans ih

namespace Above

theorem refl (l : Level) : v.Above l [l] := .on .here

theorem stand_method (hv : v.Lawful) (hl : l.stand.method = l.method) (h : v.Above l (a :: as)) :
    a.stand.method = a.method := by
  cases h with
  | on hw => exact (method_eq_of_walk hv hw).trans hl
  | enter _ _ hf hw =>
    exact (method_eq_of_walk hv hw).trans (mem_of_lawful hv hf (Flow.entry_mem _))

theorem step {m : Method} {here next : Stmt} (h : v.Above l (⟨m, here⟩ :: as))
    (hl : v.Leads here next) : v.Above l (⟨m, next⟩ :: as) := by
  cases h with
  | on h => exact .on (h.step hl)
  | enter hb hc hf h => exact hb.enter hc hf (h.step hl)

theorem call {m : Method} {f : Flow} (h : v.Above l (a :: as)) (hc : m ∈ v.callees a.stand)
    (hf : v.flow m = .ok f) : v.Above l (⟨m, f.entry⟩ :: a :: as) := h.enter hc hf .here

theorem walk (h : v.Above l [a]) : ∃ k, Walk v.Leads l.stand a.stand k := by
  cases h with
  | on h => exact ⟨_, h⟩

theorem pop {b : Level} {bs : List Level} (h : v.Above l (a :: b :: bs)) : v.Above l (b :: bs) := by
  cases h with
  | enter hb _ _ _ => exact hb

theorem path (hv : v.Lawful) (hl : l.stand.method = l.method) (h : v.Above l (a :: as)) :
    IsPath v.Calls l.method a.method ((a :: as).map (·.method)).reverse := by
  generalize hs : a :: as = st at h
  induction h generalizing a as with
  | on _ =>
    cases hs
    exact .singleton _ _
  | @enter b bs m f here k hb hc hf hw ih =>
    cases hs
    have hcall : v.Calls b.method m := by
      rw [← hb.stand_method hv hl]
      exact calls_of_mem_callees hc
    rw [List.map_cons, List.reverse_cons]
    exact (ih rfl).snoc hcall

end Above

/-- Levels that can return go before a trip. -/
theorem Trip.returning (hreturn : ∀ g ∈ before, ∃ f r k, v.flow g.method = .ok f ∧ r ∈ f.returns ∧
    Walk v.Leads g.stand r k) {n : Nat} (ht : v.Trip targets ⟨l, [], ahead⟩ n) :
    ∃ k, v.Trip targets (.start before l ahead) k := by
  induction before with
  | nil => exact ⟨n, ht⟩
  | cons g before ih =>
    obtain ⟨⟨f, r, i, hf, hr, hw⟩, hbefore⟩ := List.forall_mem_cons.mp hreturn
    obtain ⟨j, hj⟩ := ih hbefore
    rw [Spot.start_cons]
    exact ⟨i + j, trip_back_iff.mpr ⟨f, r, i, j, hf, hr, hw, hj, rfl⟩⟩

theorem GoesOn.levels (hs : s.Standing) (h : v.GoesOn s t) : ∃ as,
    s.stack.levels s.stmt = ⟨s.method, s.stmt⟩ :: as ∧
      t.stack.levels t.stmt = ⟨s.method, t.stmt⟩ :: as := by
  obtain ⟨-, top, htop, hm⟩ := hs
  cases h with
  | @advance f n _ _ _ _ =>
    obtain ⟨here, stack, earlier, resource⟩ := s
    cases stack with
    | empty => cases htop
    | root m | push below m site =>
      cases htop
      change m = here.method at hm
      subst hm
      exact ⟨_, rfl, rfl⟩

theorem CameBack.tail {d : Nat} (h : v.CameBack d s t) (hn : v.Next t u) : v.CameBack d s u := by
  obtain ⟨x, hsx, hxt, hd⟩ := h
  exact ⟨x, hsx, hxt.tail hn, hd⟩

theorem CameBack.mono {c d : Nat} (h : v.CameBack c s t) (hcd : c ≤ d) : v.CameBack d s t := by
  obtain ⟨x, hsx, hxt, hd⟩ := h
  exact ⟨x, hsx, hxt, hd.trans hcd⟩

theorem StaysDeep.explored {d : Nat} (h : v.StaysDeep d s t) : v.Explored s t :=
  h.lift id fun _ _ => And.left

theorem StaysDeep.mono {c d : Nat} (h : v.StaysDeep d s t) (hcd : c ≤ d) : v.StaysDeep c s t :=
  h.lift id fun _ _ hn => ⟨hn.1, hcd.trans hn.2⟩

theorem Returned.tail {d : Nat} {g : Level} (h : v.Returned d s t g) (hn : v.Next t u) :
    v.Returned d s u g := by
  obtain ⟨r, k, c, hw, hc, hd, hr, x, y, hsx, hx, hxr, hxy, hyt⟩ := h
  exact ⟨r, k, c, hw, hc, hd, hr, x, y, hsx, hx, hxr, hxy, hyt.tail hn⟩

theorem Returned.mono {c d : Nat} {g : Level} (h : v.Returned d s t g) (hcd : c ≤ d) :
    v.Returned c s t g := by
  obtain ⟨r, k, b, hw, hb, hleft⟩ := h
  exact ⟨r, k, b, hw, hcd.trans_lt hb, hleft⟩

namespace Leaves

theorem refl (hs : s.Standing) : ∃ l rest, v.Leaves s s [] l rest [l] := by
  obtain ⟨-, top, htop, -⟩ := hs
  have hl := Stack.levels_eq_cons htop s.stmt
  exact ⟨_, _, hl, hl, .refl _, .refl, by simp, fun h => absurd rfl h⟩

theorem top (h : v.Leaves s x gone l rest above) (hx : x.Standing) :
    ∃ as, above = ⟨x.method, x.stmt⟩ :: as := by
  obtain ⟨-, top, htop, hm⟩ := hx
  have hafter := h.after
  rw [Stack.levels_eq_cons htop, hm] at hafter
  cases above with
  | nil => exact absurd h.upon (nomatch ·)
  | cons a as => exact ⟨as, by rw [(List.cons.inj hafter).1]⟩

theorem tail (h : v.Leaves s x gone l rest above) (hn : v.Next x t) {top : Level}
    (hafter : t.stack.levels t.stmt = (top :: as) ++ rest) (hupon : v.Above l (top :: as)) :
    v.Leaves s t gone l rest (top :: as) where
  before := h.before
  after := hafter
  upon := hupon
  deep := by
    refine h.deep.tail ⟨hn, ?_⟩
    rw [← t.stack.length_levels t.stmt, hafter]
    simp
  returned g hg := (h.returned g hg).tail hn
  cameBack hne := (h.cameBack hne).tail hn

theorem on (h : v.Leaves s x gone l rest above) (hx : x.Standing) (hn : v.Next x t)
    (hg : v.GoesOn x t) : ∃ above', v.Leaves s t gone l rest above' := by
  obtain ⟨as, rfl⟩ := h.top hx
  obtain ⟨bs, hlevels, hnext⟩ := hg.levels hx
  obtain rfl := (List.cons.inj (hlevels.symm.trans h.after)).2
  exact ⟨_, h.tail hn hnext (h.upon.step hg.leads)⟩

theorem enter (hv : v.Lawful) (h : v.Leaves s x gone l rest above) (hx : x.Standing)
    (hn : v.Next x t) (he : v.Enters x t) : ∃ above', v.Leaves s t gone l rest above' := by
  obtain ⟨as, rfl⟩ := h.top hx
  obtain ⟨hstack, -, hcallee, -⟩ := he.frame hv
  cases he with
  | @enter m f _ _ hf =>
    have hem : f.entry.method = m := mem_of_lawful hv hf f.entry_mem
    subst hem
    refine ⟨⟨f.entry.method, f.entry⟩ :: _, h.tail hn ?_ (h.upon.call hcallee hf)⟩
    rw [hstack]
    exact congrArg _ h.after

theorem leave {next b : Level}
    (h : v.Leaves s x gone l (next :: rest) [⟨x.method, x.stmt⟩]) (hn : v.Next x t)
    (hk : v.Is .ret x.stmt) (hafter : t.stack.levels t.stmt = b :: rest)
    (hupon : v.Above next [b]) : v.Leaves s t (gone ++ [l]) next rest [b] := by
  have hdepth : x.stack.depth = rest.length + 2 := by
    rw [← x.stack.length_levels x.stmt, h.after]
    simp
  have hdeep : rest.length + 2 ≤ s.stack.depth := by
    rw [← s.stack.length_levels s.stmt, h.before]
    simp
  have hnext : t.stack.depth = rest.length + 1 := by
    rw [← t.stack.length_levels t.stmt, hafter]
    simp
  refine ⟨by simpa using h.before, hafter, hupon, ?deep, fun g hgone => ?returned, fun _ => ?back⟩
  case deep => exact (h.deep.mono (Nat.le_succ _)).tail ⟨hn, hnext.ge⟩
  case returned =>
    obtain hgone | hgone := List.mem_append.mp hgone
    · exact ((h.returned g hgone).tail hn).mono (Nat.le_succ _)
    · cases List.mem_singleton.mp hgone
      obtain ⟨k, hw⟩ := h.upon.walk
      exact ⟨_, k, _, hw, Nat.lt_succ_self _, hdeep, hk, x, t, h.deep, hdepth, rfl, hn, .refl⟩
  case back => exact ⟨t, h.deep.explored.tail hn, .refl, hnext.le⟩

/-- A return leaves the last of the levels on top, and the state comes back to the one below, or
there are some left. -/
theorem back (h : v.Leaves s x gone l rest above) (hx : x.Standing) (hn : v.Next x t) {r : State}
    (hk : v.Is .ret x.stmt) (hr : x.resume? = some r) (hg : v.GoesOn r t) :
    ∃ gone l rest above, v.Leaves s t gone l rest above := by
  obtain ⟨as, rfl⟩ := h.top hx
  have hresumes := State.resumes_of_resume? hr
  obtain ⟨m, hstack⟩ := hresumes.frame
  obtain ⟨bs, hlevels, hnext⟩ := hg.levels (hx.resumes hresumes)
  have hafter := h.after
  rw [hstack] at hafter
  have hbelow : as ++ rest = ⟨r.method, r.stmt⟩ :: bs :=
    (List.cons.inj hafter).2.symm.trans hlevels
  cases as with
  | nil =>
    cases hbelow
    exact ⟨_, _, _, _, h.leave hn hk hnext ((Above.refl _).step hg.leads)⟩
  | cons a as =>
    obtain ⟨rfl, rfl⟩ := List.cons.inj hbelow
    exact ⟨gone, l, rest, _, h.tail hn hnext (h.upon.pop.step hg.leads)⟩

theorem next (hv : v.Lawful) (h : v.Leaves s x gone l rest above) (hx : x.Standing)
    (hn : v.Next x t) : ∃ gone l rest above, v.Leaves s t gone l rest above := by
  cases moves_of_next hv hn with
  | on _ hg => exact ⟨gone, l, rest, h.on hx hn hg⟩
  | enter _ he => exact ⟨gone, l, rest, h.enter hv hx hn he⟩
  | back hk hr hg => exact h.back hx hn hk hr hg

end Leaves

section Target

variable {level : Level} {route : Route}

theorem Leaves.stand_method (hs : s.Standing) (h : v.Leaves s u gone l rest above) :
    (∀ g ∈ gone, g.stand.method = g.method) ∧ l.stand.method = l.method := by
  obtain ⟨top, htop, hm⟩ := hs.inside
  have hstand := hs.linked.stand_method htop hm.symm
  rw [h.before] at hstand
  exact ⟨fun g hg => hstand g (by simp [hg]), hstand l (by simp)⟩

theorem Leaves.path (hv : v.Lawful) (hs : s.Standing) (hu : u.Standing)
    (h : v.Leaves s u gone l rest above) :
    IsPath v.Calls l.method u.method (above.map (·.method)).reverse := by
  obtain ⟨as, rfl⟩ := h.top hu
  exact h.upon.path hv (h.stand_method hs).2

theorem Leaves.not_hopeless (hv : v.Lawful) (hs : s.Standing) (hu : u.Standing)
    (h : v.Leaves s u gone l rest above) (ht : u.stmt ∈ targets) {levels : List Level}
    (hl : l ∈ levels) : ¬ v.Hopeless levels (targets.map (·.method)) := by
  intro hh
  exact hh l hl _ (Ascending.mem_map.mpr ⟨_, ht, rfl⟩) _ (h.path hv hs hu).walk

end Target

end View

namespace TaintDistance

end TaintDistance

end PathExplorer
