import PathExplorer.Memo.Basic
import PathExplorer.Proofs.Result

namespace PathExplorer

variable {σ α β : Type} {v : View}

namespace View

variable (v : View)

def searchTree (start : Stmt) : Except Fault (SearchTree Stmt) := do
  let flow ← v.flow start.method
  flow.tree start

def sitesInto (caller callee : Method) : Except Fault (List Stmt) := do
  let flow ← v.flow caller
  return flow.stmts.filter fun s => callee ∈ v.callees s

def joint (c : Call) : Except Fault (Flow × List Stmt) := do
  let callee ← v.flow c.callee
  let caller ← v.flow c.caller
  let resume ← caller.successors c.site
  return (callee, resume)

def joinable (c : Call) : Except Fault Unit := do
  let _ ← v.flow c.callee
  let caller ← v.flow c.caller
  let _ ← caller.successors c.site
  return ()

end View

theorem View.joint_eq_ok_iff {v : View} {c : Call} {callee : Flow} {resume : List Stmt} :
    v.joint c = .ok (callee, resume) ↔ v.flow c.callee = .ok callee ∧
      ∃ caller, v.flow c.caller = .ok caller ∧ caller.successors c.site = .ok resume := by
  simp only [View.joint, bind_eq_ok_iff, pure_eq_ok_iff, Prod.mk.injEq]
  constructor
  · rintro ⟨_, hcallee, caller, hcaller, _, hresume, rfl, rfl⟩
    exact ⟨hcallee, caller, hcaller, hresume⟩
  · rintro ⟨hcallee, caller, hcaller, hresume⟩
    exact ⟨_, hcallee, caller, hcaller, _, hresume, rfl, rfl⟩

theorem View.joinable_eq (v : View) (c : Call) : v.joinable c = (v.joint c).map fun _ => () := by
  unfold View.joinable View.joint
  rw [map_bind]
  refine bind_congr fun callee _ => ?_
  rw [map_bind]
  refine bind_congr fun caller _ => ?_
  rw [map_bind]
  rfl

/-- What is remembered is what would be computed anew. -/
structure Memo.Sound [Cache σ Stmt (SearchTree Stmt)] (v : View) (memo : Memo σ) : Prop where
  trees : ∀ e ∈ Cache.entries memo.trees, v.searchTree e.1 = .ok e.2
  sites : ∀ e ∈ memo.sites, v.sitesInto e.1.1 e.1.2 = .ok e.2
  joined : ∀ c ∈ memo.joined, v.joinable c = .ok ()

theorem mem_of_lookup {κ : Type} [BEq κ] [LawfulBEq κ] {l : List (κ × α)} {k : κ} {a : α}
    (h : l.lookup k = some a) : (k, a) ∈ l := by
  obtain ⟨l₁, l₂, rfl, -⟩ := List.lookup_eq_some_iff.mp h
  simp

namespace Memo.Sound

variable [Cache σ Stmt (SearchTree Stmt)] {memo : Memo σ}

theorem ofCapacity [LawfulCache σ] (v : View) (n : Nat) : (Memo.ofCapacity n : Memo σ).Sound v := by
  constructor <;> simp [Memo.ofCapacity, LawfulCache.entries_withRoom]

theorem hit [LawfulCache σ] (h : memo.Sound v) (start : Stmt) :
    (memo.hit (Cache.get? memo.trees start).2).Sound v where
  trees e he := h.trees e (LawfulCache.mem_of_mem_get? he)
  sites := h.sites
  joined := h.joined

theorem miss (h : memo.Sound v) : (memo.miss memo.trees).Sound v := ⟨h.trees, h.sites, h.joined⟩

theorem store [LawfulCache σ] (h : memo.Sound v) {start : Stmt} {tree : SearchTree Stmt}
    (hnew : (Cache.entries memo.trees).lookup start = none)
    (ht : v.searchTree start = .ok tree) : (memo.store start tree).Sound v where
  trees e he := by
    obtain rfl | he := LawfulCache.mem_of_mem_push hnew he
    · exact ht
    · exact h.trees e he
  sites := h.sites
  joined := h.joined

theorem keep (h : memo.Sound v) {caller callee : Method} {found : List Stmt}
    (hs : v.sitesInto caller callee = .ok found) :
    Memo.Sound v { memo with sites := ((caller, callee), found) :: memo.sites } where
  trees := h.trees
  sites e he := by
    obtain rfl | he := List.mem_cons.mp he
    · exact hs
    · exact h.sites e he
  joined := h.joined

theorem stitch (h : memo.Sound v) {c : Call} (hc : v.joinable c = .ok ()) (callee : Flow)
    (resume : List Stmt) : (memo.stitch c callee resume).Sound v where
  trees := h.trees
  sites := h.sites
  joined d hd := by
    obtain rfl | hd := List.mem_cons.mp hd
    · exact hc
    · exact h.joined d hd

end Memo.Sound

namespace Recall

theorem run_bind (x : Recall σ α) (f : α → Recall σ β) (memo : Memo σ) :
    (x >>= f).run memo =
      match x.run memo with
      | (.ok a, memo) => (f a).run memo
      | (.error fault, memo) => (.error fault, memo) := by
  change (match x.run memo with | (r, memo) => (ExceptT.bindCont f r).run memo) = _
  cases x.run memo with
  | mk r memo => cases r <;> rfl

theorem run_pure (a : α) (memo : Memo σ) : (pure a : Recall σ α).run memo = (.ok a, memo) := rfl

theorem run_lift (e : Except Fault α) (memo : Memo σ) :
    (liftM e : Recall σ α).run memo = (e, memo) := rfl

theorem run_get (memo : Memo σ) : (get : Recall σ (Memo σ)).run memo = (.ok memo, memo) := rfl

theorem run_modify (f : Memo σ → Memo σ) (memo : Memo σ) :
    (modify f : Recall σ Unit).run memo = (.ok (), f memo) := rfl

section Trees

variable [Cache σ Stmt (SearchTree Stmt)]

theorem run_tree (v : View) (start : Stmt) (memo : Memo σ) :
    (Memo.tree v start).run memo = match Cache.get? memo.trees start with
      | (some found, trees) => (.ok found, memo.hit trees)
      | (none, trees) => match v.searchTree start with
        | .ok found => (.ok found, (memo.miss trees).store start found)
        | .error fault => (.error fault, memo.miss trees) := by
  unfold Memo.tree View.searchTree
  rw [run_bind, run_get]
  dsimp only
  generalize Cache.get? memo.trees start = got
  obtain ⟨found?, trees⟩ := got
  cases found? with
  | some found => simp only [run_bind, run_modify, run_pure]
  | none =>
    simp only [run_bind, run_modify, run_lift, run_pure]
    cases v.flow start.method with
    | error fault => rfl
    | ok flow =>
      rw [ok_bind]
      dsimp only
      cases flow.tree start <;> rfl

theorem run_tree_hit [LawfulCache σ] (v : View) {start : Stmt} {memo : Memo σ}
    {found : SearchTree Stmt} (h : (Cache.entries memo.trees).lookup start = some found) :
    (Memo.tree v start).run memo = (.ok found, memo.hit (Cache.get? memo.trees start).2) := by
  have hfound := LawfulCache.get?_hit h
  rw [run_tree]
  split
  · rename_i hg
    rw [hg] at hfound ⊢
    cases hfound
    rfl
  · rename_i hg
    rw [hg] at hfound
    cases hfound

theorem run_tree_miss [LawfulCache σ] (v : View) {start : Stmt} {memo : Memo σ}
    (h : (Cache.entries memo.trees).lookup start = none) :
    (Memo.tree v start).run memo = match v.searchTree start with
      | .ok found => (.ok found, (memo.miss memo.trees).store start found)
      | .error fault => (.error fault, memo.miss memo.trees) := by
  rw [run_tree, LawfulCache.get?_miss h]

end Trees

theorem run_sitesInto (v : View) (caller callee : Method) (memo : Memo σ) :
    (Memo.sitesInto v caller callee).run memo = match memo.sites.lookup (caller, callee) with
      | some found => (.ok found, memo)
      | none => match v.sitesInto caller callee with
        | .ok found => (.ok found, { memo with sites := ((caller, callee), found) :: memo.sites })
        | .error fault => (.error fault, memo) := by
  unfold Memo.sitesInto View.sitesInto
  rw [run_bind, run_get]
  cases hg : memo.sites.lookup (caller, callee) with
  | some found => simp only [hg, run_pure]
  | none =>
    simp only [hg, run_bind, run_modify, run_lift, run_pure]
    cases v.flow caller <;> rfl

theorem run_join (v : View) (c : Call) (memo : Memo σ) :
    (Memo.join v c).run memo = if c ∈ memo.joined then (.ok false, memo) else
      match v.joint c with
      | .ok (callee, resume) => (.ok true, memo.stitch c callee resume)
      | .error fault => (.error fault, memo) := by
  unfold Memo.join View.joint
  rw [run_bind, run_get]
  by_cases hc : c ∈ memo.joined
  · simp only [Memo.isJoined, hc, decide_true, if_true, run_pure]
  · simp only [Memo.isJoined, hc, decide_false, Bool.false_eq_true, if_false, run_bind, run_modify,
      run_lift, run_pure]
    cases v.flow c.callee with
    | error fault => rfl
    | ok callee =>
      cases v.flow c.caller with
      | error fault => rfl
      | ok caller =>
        rw [ok_bind, ok_bind]
        dsimp only
        cases caller.successors c.site <;> rfl

end Recall

variable [Cache σ Stmt (SearchTree Stmt)]

/-- Whatever a sound memo holds, the computation gives this answer and leaves a sound memo. -/
def Answers (v : View) (x : Recall σ α) (r : Except Fault α) : Prop :=
  ∀ memo : Memo σ, memo.Sound v → ∃ after : Memo σ, x.run memo = (r, after) ∧ after.Sound v

namespace Answers

theorem pure (a : α) : Answers v (pure a : Recall σ α) (.ok a) := fun memo h => ⟨memo, rfl, h⟩

theorem lift (e : Except Fault α) : Answers v (liftM e : Recall σ α) e :=
  fun memo h => ⟨memo, rfl, h⟩

theorem bind {x : Recall σ α} {r : Except Fault α} {f : α → Recall σ β} {g : α → Except Fault β}
    (hx : Answers v x r) (hf : ∀ a, r = .ok a → Answers v (f a) (g a)) :
    Answers v (x >>= f) (r >>= g) := by
  intro memo h
  obtain ⟨after, hr, ha⟩ := hx memo h
  rw [Recall.run_bind, hr]
  cases r with
  | error fault => exact ⟨after, rfl, ha⟩
  | ok a => exact hf a rfl after ha

theorem forIn {l : List α} {f : α → Recall σ Unit} {g : α → Except Fault Unit}
    (hf : ∀ a ∈ l, Answers v (f a) (g a)) :
    Answers v (ForIn.forIn l PUnit.unit fun a _ => do f a; Pure.pure (.yield PUnit.unit))
      (l.forM g) := by
  induction l with
  | nil => exact pure _
  | cons a l ih =>
    rw [List.forIn_cons]
    simp only [bind_assoc, pure_bind]
    exact (hf a (List.mem_cons_self ..)).bind fun _ _ =>
      ih fun b hb => hf b (List.mem_cons_of_mem _ hb)

/-- A remembered tree is the one that a search would find. -/
theorem tree [LawfulCache σ] (v : View) (start : Stmt) :
    Answers v (Memo.tree v start : Recall σ _) (v.searchTree start) := by
  intro memo h
  cases hg : (Cache.entries memo.trees).lookup start with
  | some found =>
    rw [Recall.run_tree_hit v hg, h.trees _ (mem_of_lookup hg)]
    exact ⟨_, rfl, h.hit start⟩
  | none =>
    rw [Recall.run_tree_miss v hg]
    cases hs : v.searchTree start with
    | error fault => exact ⟨_, rfl, h.miss⟩
    | ok found => exact ⟨_, rfl, h.miss.store hg hs⟩

theorem sitesInto (v : View) (caller callee : Method) :
    Answers v (Memo.sitesInto v caller callee : Recall σ _) (v.sitesInto caller callee) := by
  intro memo h
  rw [Recall.run_sitesInto]
  cases hg : memo.sites.lookup (caller, callee) with
  | some found =>
    rw [h.sites _ (mem_of_lookup hg)]
    exact ⟨_, rfl, h⟩
  | none =>
    cases hs : v.sitesInto caller callee with
    | error fault => exact ⟨_, rfl, h⟩
    | ok found => exact ⟨_, rfl, h.keep hs⟩

/-- A call that is joined already can be joined, so that skipping it hides no failure. -/
theorem join (v : View) (c : Call) :
    Answers v (discard (Memo.join v c) : Recall σ Unit) (v.joinable c) := by
  intro memo h
  change ∃ after, (Memo.join v c >>= fun _ => Pure.pure ()).run memo = _ ∧ _
  rw [Recall.run_bind, Recall.run_join]
  by_cases hc : c ∈ memo.joined
  · rw [if_pos hc, h.joined c hc]
    exact ⟨_, rfl, h⟩
  · rw [if_neg hc, v.joinable_eq]
    cases hj : v.joint c with
    | error fault => exact ⟨_, rfl, h⟩
    | ok joint => exact ⟨_, rfl, h.stitch (by rw [v.joinable_eq, hj]; rfl) joint.1 joint.2⟩

end Answers

end PathExplorer
