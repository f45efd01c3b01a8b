import Mathlib.Algebra.BigOperators.Group.Finset.Basic
import Mathlib.Algebra.GroupWithZero.Nat
import PathExplorer.Program.Draft
import PathExplorer.Proofs.Program.Adjacency
import PathExplorer.Proofs.Program.Graph
import PathExplorer.Proofs.Result

namespace PathExplorer

/-- The sites of calls, and what each statement may enter, in the order in which they are noted. -/
structure Targets where
  sites : List Stmt := []
  callees : Stmt → List Method := fun _ => []

namespace Targets

def add (t : Targets) (c : Call) : Targets where
  sites := if c.site ∈ t.sites then t.sites else t.sites ++ [c.site]
  callees :=
    if c.callee ∈ t.callees c.site then t.callees
    else Function.update t.callees c.site (t.callees c.site ++ [c.callee])

def gather (fs : List Flow) : Targets → List Call → Except Fault Targets
  | t, [] => .ok t
  | t, c :: calls =>
    match Draft.callFault? fs c with
    | some fault => .error fault
    | none => gather fs (t.add c) calls

def count (t : Targets) : Nat := (t.sites.map fun s => (t.callees s).length).sum

structure Notes (t : Targets) (calls : List Call) : Prop where
  sites_nodup : t.sites.Nodup
  sites : ∀ s, s ∈ t.sites ↔ ∃ c ∈ calls, c.site = s
  callees : ∀ s, t.callees s = (calls.eraseDups.filter (·.site = s)).map (·.callee)

variable {t : Targets} {calls : List Call} {fs : List Flow} {fault : Fault}

theorem Notes.mem_callees (h : t.Notes calls) {c : Call} :
    c.callee ∈ t.callees c.site ↔ c ∈ calls := by
  rw [h.callees]
  simp only [List.mem_map, List.mem_filter, List.mem_eraseDups, decide_eq_true_eq]
  constructor
  · rintro ⟨d, ⟨hd, hsite⟩, hcallee⟩
    cases c
    cases d
    cases hsite
    cases hcallee
    exact hd
  · exact fun hc => ⟨c, ⟨hc, rfl⟩, rfl⟩

theorem Notes.add (h : t.Notes calls) (c : Call) : (t.add c).Notes (calls ++ [c]) where
  sites_nodup := by
    unfold Targets.add
    dsimp only
    split
    · exact h.sites_nodup
    · rename_i hs
      refine List.nodup_append.mpr ⟨h.sites_nodup, List.nodup_singleton _, ?_⟩
      rintro s hmem _ hc rfl
      cases List.mem_singleton.mp hc
      exact hs hmem
  sites s := by
    simp only [List.mem_append, List.mem_singleton, or_and_right, exists_or, exists_eq_left,
      ← h.sites]
    unfold Targets.add
    dsimp only
    split
    · rename_i hs
      exact ⟨.inl, fun h => h.elim id fun hc => hc ▸ hs⟩
    · rw [List.mem_append, List.mem_singleton, eq_comm]
  callees s := by
    have hconcat := eraseDups_concat calls c
    unfold Targets.add
    dsimp only
    by_cases hc : c ∈ calls
    · rw [if_pos hc] at hconcat
      rw [if_pos (h.mem_callees.mpr hc), hconcat, h.callees]
    · rw [if_neg hc] at hconcat
      rw [if_neg fun hn => hc (h.mem_callees.mp hn), hconcat]
      exact update_concat h.callees c s

theorem Notes.gather_eq_ok (h : t.Notes calls) {more : List Call}
    (hmore : more.findSome? (Draft.callFault? fs) = none) :
    ∃ t', gather fs t more = .ok t' ∧ t'.Notes (calls ++ more) := by
  induction more generalizing t calls with
  | nil => exact ⟨t, rfl, (List.append_nil calls).symm ▸ h⟩
  | cons c more ih =>
    obtain ⟨hc, hmore⟩ := List.forall_mem_cons.mp (List.findSome?_eq_none_iff.mp hmore)
    obtain ⟨t', ht', hnotes⟩ := ih (h.add c) (List.findSome?_eq_none_iff.mpr hmore)
    refine ⟨t', ?_, List.append_cons calls c more ▸ hnotes⟩
    rw [gather, hc]
    exact ht'

theorem gather_eq_error_iff : gather fs t calls = .error fault ↔
    calls.findSome? (Draft.callFault? fs) = some fault := by
  induction calls generalizing t with
  | nil => simp [gather]
  | cons c calls ih =>
    rw [gather, List.findSome?_cons]
    cases Draft.callFault? fs c with
    | none => exact ih
    | some _ => simp

end Targets

structure Tables where
  flows : List Flow
  targets : Targets

/-- The calls out of a method are found in a walk over its statements. -/
def Tables.callsFrom (t : Tables) (m : Method) : List Call :=
  match t.flows[m.index]? with
  | none => []
  | some f => f.stmts.flatMap fun s => (t.targets.callees s).map (Call.mk s)

def Draft.tables (d : Draft) : Except Fault Tables :=
  match d.undeclared with
  | m :: _ => .error (.methodNotFound m)
  | [] => do
    let fs ← flows 0 d.bodies
    let targets ← Targets.gather fs {} d.calls
    return ⟨fs, targets⟩

/-- Whatever is asked of the program, the tables have the same answer. -/
structure Program.Reads (p : Program) (t : Tables) : Prop where
  flows : p.flows = t.flows
  callees : ∀ s, p.view.callees s = t.targets.callees s
  callsFrom : ∀ m, p.view.callsFrom m = t.callsFrom m
  callCount : p.callCount = t.targets.count

theorem Stmt.index_lt_or_eq {s t : Stmt} (hm : s.method = t.method)
    (h : (compare s t).isLE) : s.index < t.index ∨ s = t := by
  have hcompare : compare s t = compare s.index t.index := by
    change (compare s.method.index t.method.index).then (compare s.index t.index) = _
    rw [hm, Nat.compare_eq_eq.mpr rfl]
    rfl
  rw [hcompare, Nat.isLE_compare] at h
  refine (Nat.lt_or_eq_of_le h).imp_right fun hi => ?_
  cases s
  cases t
  cases hm
  cases hi
  rfl

theorem Stmt.isLE_total (s t : Stmt) : (compare s t).isLE || (compare t s).isLE := by
  have hswap : compare t s = (compare s t).swap := Std.OrientedCmp.eq_swap
  rw [hswap]
  cases compare s t <;> rfl

namespace Draft

variable {d : Draft} {p : Program} {fault : Fault} {calls : List Call}

/-- A draft is built in one way, from bodies that are all in order and calls between them. -/
theorem build_eq_ok_iff : d.build = .ok p ↔ d.undeclared = [] ∧ flows 0 d.bodies = .ok p.flows ∧
    d.calls.findSome? (callFault? p.flows) = none ∧ p.names = d.names ∧
    p.calls = arrange d.calls := by
  unfold build
  constructor
  · intro h
    split at h
    · cases h
    · rename_i hu
      split at h
      · cases h
      · rename_i fs hf
        split at h
        · cases h
        · rename_i hc
          cases h
          exact ⟨hu, hf, hc, rfl, rfl⟩
  · rintro ⟨hu, hf, hc, hnames, hcalls⟩
    obtain ⟨names, fs, calls⟩ := p
    dsimp only at hf hc hnames hcalls
    subst hnames hcalls
    split
    · rename_i hu'
      cases hu.symm.trans hu'
    · split
      · rename_i hf'
        cases hf.symm.trans hf'
      · rename_i hf'
        cases Except.ok.inj (hf.symm.trans hf')
        split
        · rename_i hc'
          cases hc.symm.trans hc'
        · rfl

theorem mem_calls (h : d.build = .ok p) {c : Call} : c ∈ p.calls ↔ c ∈ d.calls := by
  rw [(build_eq_ok_iff.mp h).2.2.2.2, mem_arrange]

theorem build_eq_error_iff : d.build = .error fault ↔
    (∃ m, d.undeclared.head? = some m ∧ fault = .methodNotFound m) ∨
      d.undeclared = [] ∧ (flows 0 d.bodies = .error fault ∨
        ∃ fs, flows 0 d.bodies = .ok fs ∧ d.calls.findSome? (callFault? fs) = some fault) := by
  unfold build
  split
  · rename_i hu
    simp [hu, eq_comm]
  · rename_i hu
    split
    · rename_i hf
      simp [hu, hf]
    · rename_i hf
      split
      · rename_i hc
        simp [hu, hf, hc]
      · rename_i hc
        simp [hu, hf, hc]

/-- Ordering the calls by site leaves those of one site as they were. -/
theorem filter_site_arrange (calls : List Call) (s : Stmt) :
    (arrange calls).filter (·.site = s) = calls.eraseDups.filter (·.site = s) := by
  have hperm : (arrange calls).Perm calls.eraseDups := List.mergeSort_perm ..
  have hsorted : (calls.eraseDups.filter (·.site = s)).Pairwise
      fun a b => (compare a.site b.site).isLE := by
    refine List.pairwise_of_forall_mem_list fun a ha b hb => ?_
    have ha : a.site = s := of_decide_eq_true (List.mem_filter.mp ha).2
    have hb : b.site = s := of_decide_eq_true (List.mem_filter.mp hb).2
    rw [ha, hb, Std.ReflOrd.compare_self]
    rfl
  have hsub : (calls.eraseDups.filter (·.site = s)).Sublist (arrange calls) :=
    List.sublist_mergeSort (fun _ _ _ => Std.TransCmp.isLE_trans)
      (fun a b => Stmt.isLE_total a.site b.site) hsorted List.filter_sublist
  have hfilter := hsub.filter (·.site = s)
  rw [List.filter_filter] at hfilter
  simp only [Bool.and_self] at hfilter
  exact (hfilter.eq_of_length (hperm.filter _).length_eq.symm).symm

theorem arrange_order (calls : List Call) : (arrange calls).Pairwise fun a b =>
    a.site = b.site → calls.idxOf a < calls.idxOf b := by
  refine List.pairwise_iff_forall_sublist.mpr fun {a b} hab hsite => ?_
  have hsub := hab.filter (·.site = b.site)
  rw [filter_site_arrange, List.filter_cons_of_pos (by simp [hsite]),
    List.filter_cons_of_pos (by simp), List.filter_nil] at hsub
  exact List.pairwise_iff_forall_sublist.mp (pairwise_idxOf_eraseDups calls)
    (hsub.trans List.filter_sublist)

/-- At a statement the callees are found in the order in which they were first given. -/
theorem callees_eq (hcalls : p.calls = arrange calls) (s : Stmt) :
    p.view.callees s = (calls.eraseDups.filter (·.site = s)).map (·.callee) := by
  rw [← filter_site_arrange, ← hcalls]
  rfl

theorem callees_order (hcalls : p.calls = arrange calls) (s : Stmt) :
    (p.view.callees s).Pairwise fun a b => calls.idxOf ⟨s, a⟩ < calls.idxOf ⟨s, b⟩ := by
  have hsite {c : Call} (hc : c ∈ calls.eraseDups.filter (·.site = s)) : ⟨s, c.callee⟩ = c := by
    rw [← of_decide_eq_true (List.mem_filter.mp hc).2]
  rw [callees_eq hcalls]
  refine List.pairwise_map.mpr (List.Pairwise.imp_of_mem (fun ha hb hlt => ?_)
    ((pairwise_idxOf_eraseDups calls).filter _))
  rwa [hsite ha, hsite hb]

/-- Earlier in the body, or given earlier at the same statement. -/
def Precedes (calls : List Call) (a b : Call) : Prop :=
  a.site.index < b.site.index ∨ a.site = b.site ∧ calls.idxOf a < calls.idxOf b

theorem callsFrom_order (hcalls : p.calls = arrange calls) (m : Method) :
    (p.view.callsFrom m).Pairwise (Precedes calls) := by
  have horder := (arrange_sorted calls).and (arrange_order calls)
  rw [← hcalls] at horder
  refine (horder.filter _).imp_of_mem fun {a b} ha hb hab => ?_
  have ha : a.site.method = m := (View.mem_callsFrom.mp ha).2
  have hb : b.site.method = m := (View.mem_callsFrom.mp hb).2
  exact (Stmt.index_lt_or_eq (ha.trans hb.symm) hab.1).imp_right fun h => ⟨h, hab.2 h⟩

/-- Lists in this order are the same as soon as they have the same members. -/
theorem eq_of_precedes {as bs : List Call} (ha : as.Pairwise (Precedes calls))
    (hb : bs.Pairwise (Precedes calls)) (hmem : ∀ c, c ∈ as ↔ c ∈ bs) : as = bs := by
  have hirrefl (a : Call) : ¬ Precedes calls a a := by
    rintro (h | ⟨-, h⟩)
    · exact Nat.lt_irrefl _ h
    · exact Nat.lt_irrefl _ h
  have hasymm (a b : Call) (hab : Precedes calls a b) (hba : Precedes calls b a) : a = b := by
    obtain hab | ⟨hsite, hab⟩ := hab
    · obtain hba | ⟨hsite, -⟩ := hba
      · exact absurd hba (Nat.not_lt_of_lt hab)
      · exact absurd hab (by simp [hsite])
    · obtain hba | ⟨-, hba⟩ := hba
      · exact absurd hba (by simp [hsite])
      · exact absurd hba (Nat.not_lt_of_lt hab)
  have hnodup {cs : List Call} (h : cs.Pairwise (Precedes calls)) : cs.Nodup := by
    refine h.imp ?_
    rintro a _ haa rfl
    exact hirrefl a haa
  exact List.Perm.eq_of_pairwise (fun a b _ _ => hasymm a b) ha hb
    ((List.perm_ext_iff_of_nodup (hnodup ha) (hnodup hb)).mpr hmem)

theorem callsFrom_eq_flatMap (hcalls : p.calls = arrange calls) {m : Method} {f : Flow}
    (hf : p.view.flow m = .ok f) :
    p.view.callsFrom m = f.stmts.flatMap fun s => (p.view.callees s).map (Call.mk s) := by
  refine eq_of_precedes (callsFrom_order hcalls m) ?ordered fun c => ?members
  case ordered =>
    refine List.pairwise_flatMap.mpr ⟨fun s _ => ?_, f.pairwise_stmts.imp fun hst a ha b hb => ?_⟩
    · exact List.pairwise_map.mpr ((callees_order hcalls s).imp fun h => .inr ⟨rfl, h⟩)
    · obtain ⟨_, -, rfl⟩ := List.mem_map.mp ha
      obtain ⟨_, -, rfl⟩ := List.mem_map.mp hb
      exact .inl hst
  case members =>
    rw [View.mem_callsFrom, List.mem_flatMap]
    constructor
    · rintro ⟨hc, rfl⟩
      obtain ⟨g, hg, hs⟩ := p.site_mem c hc
      cases hf.symm.trans (Program.flow_eq_ok_iff.mpr hg)
      exact ⟨c.site, Flow.mem_stmts.mpr hs,
        List.mem_map.mpr ⟨c.callee, View.mem_callees.mpr hc, rfl⟩⟩
    · rintro ⟨s, hs, hc⟩
      obtain ⟨callee, hcallee, rfl⟩ := List.mem_map.mp hc
      exact ⟨View.mem_callees.mp hcallee,
        (Flow.mem_stmts.mp hs).1.trans (p.flow_lawful m f hf)⟩

/-- Each call is counted at its site. -/
theorem callCount_eq {t : Targets} (h : t.Notes calls) (hcalls : p.calls = arrange calls) :
    p.callCount = t.count := by
  have hmaps : Set.MapsTo Call.site p.calls.toFinset t.sites.toFinset := fun c hc => by
    rw [List.coe_toFinset] at hc
    rw [List.coe_toFinset]
    exact (h.sites c.site).mpr ⟨c, mem_arrange.mp (hcalls ▸ hc), rfl⟩
  have hfiber (s : Stmt) : {c ∈ p.calls.toFinset | c.site = s}.card = (t.callees s).length := by
    have hfilter := List.toFinset_filter p.calls (·.site = s)
    simp only [decide_eq_true_eq] at hfilter
    rw [← hfilter, List.toFinset_card_of_nodup (p.calls_nodup.filter _), h.callees,
      ← callees_eq hcalls]
    exact List.length_map ..|>.symm
  calc p.callCount
    _ = p.calls.toFinset.card := (List.toFinset_card_of_nodup p.calls_nodup).symm
    _ = ∑ s ∈ t.sites.toFinset, {c ∈ p.calls.toFinset | c.site = s}.card :=
      Finset.card_eq_sum_card_fiberwise hmaps
    _ = ∑ s ∈ t.sites.toFinset, (t.callees s).length :=
      Finset.sum_congr rfl fun s _ => hfiber s
    _ = t.count := List.sum_toFinset _ h.sites_nodup

theorem tables_eq_error_iff : d.tables = .error fault ↔ d.build = .error fault := by
  rw [build_eq_error_iff]
  unfold tables
  split
  · rename_i hu
    simp [hu, eq_comm]
  · rename_i hu
    simp only [hu, List.head?_nil, reduceCtorEq, false_and, exists_false, false_or, true_and]
    rw [bind_eq_error_iff]
    simp only [bind_eq_error_iff, Targets.gather_eq_error_iff, pure, Except.pure, reduceCtorEq,
      and_false, exists_false, or_false]

theorem reads_of_build (h : d.build = .ok p) : ∃ t, d.tables = .ok t ∧ p.Reads t := by
  obtain ⟨hu, hf, hc, -, hcalls⟩ := build_eq_ok_iff.mp h
  have hempty : Targets.Notes {} [] := ⟨List.nodup_nil, by simp, fun _ => rfl⟩
  obtain ⟨targets, htargets, hnotes⟩ := hempty.gather_eq_ok hc
  have hcallees (s : Stmt) : p.view.callees s = targets.callees s :=
    (callees_eq hcalls s).trans (hnotes.callees s).symm
  refine ⟨⟨p.flows, targets⟩, ?_, rfl, hcallees, fun m => ?_, callCount_eq hnotes hcalls⟩
  · unfold tables
    rw [hu]
    exact bind_eq_ok_iff.mpr ⟨_, hf, bind_eq_ok_iff.mpr ⟨_, htargets, rfl⟩⟩
  · unfold Tables.callsFrom
    cases hg : p.flows[m.index]? with
    | none =>
      refine List.eq_nil_iff_forall_not_mem.mpr fun c hmem => ?_
      obtain ⟨hc, rfl⟩ := View.mem_callsFrom.mp hmem
      obtain ⟨g, hflow, -⟩ := p.site_mem c hc
      cases hg.symm.trans hflow
    | some f =>
      simp only [callsFrom_eq_flatMap hcalls (Program.flow_eq_ok_iff.mpr hg), hcallees]

end Draft

end PathExplorer
