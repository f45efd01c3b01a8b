import Mathlib.Data.List.Nodup
import PathExplorer.Distinct
import PathExplorer.Proofs.Memo.Sound

namespace PathExplorer

/-- Where the calls lead from `x`: to the entry of a callee that is called there, and behind the
call of a callee that returns there. -/
inductive View.Stitches (v : View) (calls : List Call) (x : Stmt) : Stmt → Prop
  | enter {m : Method} {f : Flow} : ⟨x, m⟩ ∈ calls → v.flow m = .ok f → Stitches v calls x f.entry
  | back {site y : Stmt} {m : Method} {f g : Flow} {resume : List Stmt} : ⟨site, m⟩ ∈ calls →
      v.flow m = .ok f → x ∈ f.returns → v.flow site.method = .ok g →
      g.successors site = .ok resume → y ∈ resume → Stitches v calls x y

theorem View.Stitches.mono {v : View} {calls more : List Call} {x y : Stmt}
    (h : v.Stitches calls x y) (hm : ∀ c ∈ calls, c ∈ more) : v.Stitches more x y := by
  cases h with
  | enter hc hf => exact .enter (hm _ hc) hf
  | back hc hf hx hg hr hy => exact .back (hm _ hc) hf hx hg hr hy

namespace Memo

inductive Request where
  | tree (start : Stmt)
  | sites (caller callee : Method)
  | join (c : Call)
deriving DecidableEq

variable {σ : Type} (v : View)

section Asking

variable [Cache σ Stmt (SearchTree Stmt)]

def ask (memo : Memo σ) : Request → Memo σ
  | .tree start => ((tree v start).run memo).2
  | .sites caller callee => ((sitesInto v caller callee).run memo).2
  | .join c => ((join v c).run memo).2

def after (memo : Memo σ) (asked : List Request) : Memo σ := asked.foldl (ask v) memo

end Asking

/-- What is joined is what was asked for and can be looked up, and what is stitched is where it
leads. -/
structure Woven (asked : List Request) (memo : Memo σ) : Prop where
  joined : ∀ c, c ∈ memo.joined ↔ .join c ∈ asked ∧ ∃ ends, v.joint c = .ok ends
  joined_nodup : memo.joined.Nodup
  joins : memo.stats.joins = memo.joined.length
  stitches : ∀ x y, (x, y) ∈ memo.stitches ↔ v.Stitches memo.joined x y
  stitches_nodup : memo.stitches.Nodup

variable {v} {memo other : Memo σ} {asked : List Request} {c : Call} {x y : Stmt} {callee : Flow}
  {resume : List Stmt}

theorem mem_seams_iff :
    (x, y) ∈ seams c.site callee resume ↔
      x = c.site ∧ y = callee.entry ∨ x ∈ callee.returns ∧ y ∈ resume := by
  simp [seams]

theorem mem_stitchedFrom_iff : y ∈ memo.stitchedFrom x ↔ (x, y) ∈ memo.stitches := by
  simp [stitchedFrom]

theorem nodup_stitchedFrom (h : memo.stitches.Nodup) (x : Stmt) : (memo.stitchedFrom x).Nodup := by
  refine (h.filter _).map_on fun a ha b hb hab => ?_
  have hax : a.1 = x := of_decide_eq_true (List.mem_filter.mp ha).2
  have hbx : b.1 = x := of_decide_eq_true (List.mem_filter.mp hb).2
  exact Prod.ext (hax.trans hbx.symm) hab

theorem stitches_cons_iff {calls : List Call} (h : v.joint c = .ok (callee, resume)) :
    v.Stitches (c :: calls) x y ↔
      v.Stitches calls x y ∨ (x, y) ∈ seams c.site callee resume := by
  obtain ⟨hcallee, caller, hcaller, hresume⟩ := View.joint_eq_ok_iff.mp h
  have hc : ⟨c.site, c.callee⟩ ∈ c :: calls := List.mem_cons_self ..
  rw [mem_seams_iff]
  constructor
  · intro hs
    cases hs with
    | @enter m f hm hf =>
      obtain rfl | hm := List.mem_cons.mp hm
      · obtain rfl := Except.ok.inj (hf.symm.trans hcallee)
        exact .inr (.inl ⟨rfl, rfl⟩)
      · exact .inl (.enter hm hf)
    | @back site _ m f g rs hm hf hx hg hrs hy =>
      obtain rfl | hm := List.mem_cons.mp hm
      · obtain rfl := Except.ok.inj (hf.symm.trans hcallee)
        obtain rfl := Except.ok.inj (hg.symm.trans hcaller)
        obtain rfl := Except.ok.inj (hrs.symm.trans hresume)
        exact .inr (.inr ⟨hx, hy⟩)
      · exact .inl (.back hm hf hx hg hrs hy)
  · rintro (hs | ⟨rfl, rfl⟩ | ⟨hx, hy⟩)
    · exact hs.mono fun _ => List.mem_cons_of_mem _
    · exact .enter hc hcallee
    · exact .back hc hcallee hx hcaller hresume hy

namespace Woven

theorem keep (h : Woven v asked memo) {r : Request}
    (hr : ∀ c, r = .join c → (∃ ends, v.joint c = .ok ends) → c ∈ memo.joined)
    (hjoined : other.joined = memo.joined) (hstitches : other.stitches = memo.stitches)
    (hjoins : other.stats.joins = memo.stats.joins) : Woven v (asked ++ [r]) other where
  joined c := by
    rw [hjoined, List.mem_append, List.mem_singleton]
    constructor
    · intro hc
      obtain ⟨hasked, hends⟩ := (h.joined c).mp hc
      exact ⟨.inl hasked, hends⟩
    · rintro ⟨hasked | rfl, hends⟩
      · exact (h.joined c).mpr ⟨hasked, hends⟩
      · exact hr c rfl hends
  joined_nodup := hjoined ▸ h.joined_nodup
  joins := by rw [hjoins, hjoined, h.joins]
  stitches x y := by rw [hstitches, hjoined, h.stitches]
  stitches_nodup := hstitches ▸ h.stitches_nodup

theorem stitch (h : Woven v asked memo) (hc : c ∉ memo.joined)
    (hends : v.joint c = .ok (callee, resume)) :
    Woven v (asked ++ [.join c]) (memo.stitch c callee resume) where
  joined d := by
    change d ∈ c :: memo.joined ↔ _
    rw [List.mem_cons, List.mem_append, List.mem_singleton, Request.join.injEq, h.joined]
    constructor
    · rintro (rfl | ⟨hasked, hd⟩)
      · exact ⟨.inr rfl, _, hends⟩
      · exact ⟨.inl hasked, hd⟩
    · rintro ⟨hasked | rfl, hd⟩
      · exact .inr ⟨hasked, hd⟩
      · exact .inl rfl
  joined_nodup := List.nodup_cons.mpr ⟨hc, h.joined_nodup⟩
  joins := congrArg (· + 1) h.joins
  stitches x y := by
    change (x, y) ∈ (memo.stitches ++ seams c.site callee resume).eraseDups ↔
      v.Stitches (c :: memo.joined) x y
    rw [List.mem_eraseDups, List.mem_append, h.stitches, stitches_cons_iff hends]
  stitches_nodup := nodup_eraseDups _

variable [Cache σ Stmt (SearchTree Stmt)]

theorem start (v : View) (n : Nat) : Woven v [] (.ofCapacity n : Memo σ) where
  joined c := by simp [ofCapacity]
  joined_nodup := .nil
  joins := rfl
  stitches x y := by
    constructor
    · intro h
      cases h
    · intro h
      cases h with
      | enter hm _ | back hm _ _ _ _ _ => cases hm
  stitches_nodup := .nil

theorem ask (h : Woven v asked memo) (r : Request) : Woven v (asked ++ [r]) (memo.ask v r) := by
  cases r with
  | tree start =>
    unfold Memo.ask
    dsimp only
    rw [Recall.run_tree]
    obtain ⟨found?, trees⟩ := Cache.get? memo.trees start
    cases found? with
    | some found => exact h.keep (fun _ hr => nomatch hr) rfl rfl rfl
    | none => cases v.searchTree start <;> exact h.keep (fun _ hr => nomatch hr) rfl rfl rfl
  | sites caller callee =>
    unfold Memo.ask
    dsimp only
    rw [Recall.run_sitesInto]
    cases memo.sites.lookup (caller, callee) with
    | some found => exact h.keep (fun _ hr => nomatch hr) rfl rfl rfl
    | none => cases v.sitesInto caller callee <;> exact h.keep (fun _ hr => nomatch hr) rfl rfl rfl
  | join c =>
    unfold Memo.ask
    dsimp only
    rw [Recall.run_join]
    by_cases hc : c ∈ memo.joined
    · rw [if_pos hc]
      refine h.keep (fun d hd _ => ?_) rfl rfl rfl
      cases hd
      exact hc
    · rw [if_neg hc]
      cases hends : v.joint c with
      | ok ends => exact h.stitch hc hends
      | error fault =>
        refine h.keep (fun d hd hok => ?_) rfl rfl rfl
        cases hd
        rw [hends] at hok
        obtain ⟨_, hok⟩ := hok
        cases hok

theorem after (h : Woven v asked memo) (more : List Request) :
    Woven v (asked ++ more) (memo.after v more) := by
  induction more generalizing asked memo with
  | nil =>
    rw [List.append_nil]
    exact h
  | cons r more ih =>
    rw [List.append_cons]
    exact ih (h.ask r)

end Woven

/-- After any requests a further join fails as looking up its ends does, and leaves the memo alone;
or it succeeds, and tells whether it is the first.  What is stitched behind a statement is where the
calls lead that were joined, each once, so the order of the requests does not matter. -/
theorem stitching_exact (σ : Type) [Cache σ Stmt (SearchTree Stmt)] (v : View) (n : Nat)
    (asked : List Request) :
    let memo : Memo σ := (ofCapacity n).after v asked
    (∀ c fault, v.joint c = .error fault → (join v c).run memo = (.error fault, memo)) ∧
      (∀ c ends, v.joint c = .ok ends → .join c ∉ asked →
        (join v c).run memo = (.ok true, memo.stitch c ends.1 ends.2)) ∧
      (∀ c ends, v.joint c = .ok ends → .join c ∈ asked →
        (join v c).run memo = (.ok false, memo)) ∧
      (∀ c, memo.isJoined c = true ↔ .join c ∈ asked ∧ ∃ ends, v.joint c = .ok ends) ∧
      memo.joined.Nodup ∧ memo.stats.joins = memo.joined.length ∧
      (∀ x, (memo.stitchedFrom x).Nodup ∧
        ∀ y, y ∈ memo.stitchedFrom x ↔ v.Stitches memo.joined x y) ∧
      ∀ n' asked', (∀ c, Request.join c ∈ asked' ↔ .join c ∈ asked) →
        let other : Memo σ := (ofCapacity n').after v asked'
        (∀ c, other.isJoined c = memo.isJoined c) ∧
          ∀ x, (other.stitchedFrom x).Perm (memo.stitchedFrom x) := by
  intro memo
  have hw : Woven v asked memo := (Woven.start v n).after asked
  have hjoined : ∀ c, memo.isJoined c = true ↔ .join c ∈ asked ∧ ∃ ends, v.joint c = .ok ends :=
    fun c => decide_eq_true_iff.trans (hw.joined c)
  refine ⟨fun c fault hfault => ?fails, fun c ends hends hnew => ?first,
    fun c ends hends hold => ?again, hjoined, hw.joined_nodup, hw.joins,
    fun x => ⟨nodup_stitchedFrom hw.stitches_nodup x,
      fun y => mem_stitchedFrom_iff.trans (hw.stitches x y)⟩, fun n' asked' hsame => ?order⟩
  case fails =>
    have hc : c ∉ memo.joined := fun hc => by
      obtain ⟨-, ends, hends⟩ := (hw.joined c).mp hc
      rw [hfault] at hends
      cases hends
    rw [Recall.run_join, if_neg hc, hfault]
  case first =>
    have hc : c ∉ memo.joined := fun hc => hnew ((hw.joined c).mp hc).1
    rw [Recall.run_join, if_neg hc, hends]
  case again =>
    rw [Recall.run_join, if_pos ((hw.joined c).mpr ⟨hold, ends, hends⟩)]
  case order =>
    have ho : Woven v asked' ((ofCapacity n').after v asked' : Memo σ) :=
      (Woven.start v n').after asked'
    have hmem : ∀ c, c ∈ ((ofCapacity n').after v asked' : Memo σ).joined ↔ c ∈ memo.joined := by
      intro c
      rw [ho.joined, hw.joined, hsame]
    refine ⟨fun c => decide_eq_decide.mpr (hmem c), fun x => ?_⟩
    refine (List.perm_ext_iff_of_nodup (nodup_stitchedFrom ho.stitches_nodup x)
      (nodup_stitchedFrom hw.stitches_nodup x)).mpr fun y => ?_
    rw [mem_stitchedFrom_iff, mem_stitchedFrom_iff, ho.stitches, hw.stitches]
    exact ⟨fun h => h.mono fun c => (hmem c).mp, fun h => h.mono fun c => (hmem c).mpr⟩

end Memo

end PathExplorer
