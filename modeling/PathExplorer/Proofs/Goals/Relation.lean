import Mathlib.Data.Set.Card
import PathExplorer.Proofs.Goals.Merging

namespace PathExplorer

namespace Ascending

variable {α : Type} [Ord α] [Std.TransOrd α] [Std.LawfulEqOrd α] {s : Ascending α} {a : α}

omit [Std.TransOrd α] in
theorem isLE_of_toList {l : List α} (h : s.toList = a :: l) :
    ∀ b ∈ s, (compare a b).isLE := by
  intro b hb
  have hsorted := s.sorted
  rw [h] at hsorted
  rw [mem_iff, h] at hb
  obtain rfl | hb := List.mem_cons.mp hb
  · simp [Std.ReflCmp.compare_self]
  · rw [(List.pairwise_cons.mp hsorted).1 b hb]
    rfl

theorem eq_of_isLE {b : α} (h : (compare a b).isLE) (h' : (compare b a).isLE) : a = b :=
  Std.LawfulEqOrd.eq_of_compare (Std.OrientedCmp.isLE_antisymm h h')

omit [Std.LawfulEqOrd α] in
theorem size_eq_ncard [DecidableEq α] (s : Ascending α) : s.size = {a | a ∈ s}.ncard := by
  have hset : {a | a ∈ s} = (s.toList.toFinset : Set α) := by
    ext a
    simp [mem_iff]
  rw [hset, Set.ncard_coe_finset, List.toFinset_card_of_nodup s.nodup_toList]
  rfl

end Ascending

namespace Registry

def Gives (entries : List (Source × List Sink)) (g : Goal) : Prop :=
  ∃ e ∈ entries, e.1 = g.source ∧ g.sink ∈ e.2

/-- The source occurs, and in none of its entries with a sink. -/
def IsBarren (entries : List (Source × List Sink)) (s : Source) : Prop :=
  (∃ e ∈ entries, e.1 = s) ∧ ∀ e ∈ entries, e.1 = s → e.2 = []

variable {entries others : List (Source × List Sink)} {r : Registry} {s : Source} {k : Sink}
  {g : Goal}

theorem mem_listed_iff : g ∈ listed entries ↔ Gives entries g := mem_listed

theorem isBarren_iff : IsBarren entries s ↔
    (∃ e ∈ entries, e.1 = s) ∧ ∀ k, ¬ Gives entries ⟨s, k⟩ := by
  refine and_congr_right fun _ => ⟨fun h k => ?_, fun h e he hs => ?_⟩
  · rintro ⟨e, he, hs, hk⟩
    rw [h e he hs] at hk
    cases hk
  · exact List.eq_nil_iff_forall_not_mem.mpr fun k hk => h k ⟨e, he, hs, hk⟩

theorem mem_barren : s ∈ barren entries ↔ IsBarren entries s := by
  rw [barren, Ascending.mem_filter, Ascending.mem_ofList, isBarren_iff, List.mem_map]
  refine and_congr_right fun _ => ?_
  simp only [List.all_eq_true, mem_listed_iff, decide_eq_true_eq]
  constructor
  · exact fun h k hg => h ⟨s, k⟩ hg rfl
  · rintro h ⟨_, k⟩ hg rfl
    exact h k hg

theorem not_isBarren (h : (barren entries).toList = []) (s : Source) : ¬ IsBarren entries s := by
  rw [← mem_barren, Ascending.mem_iff, h]
  exact List.not_mem_nil

/-- The least source without a sink is at fault. -/
theorem ofEntries_eq_error_iff {fault : Fault} : ofEntries entries = .error fault ↔
    ∃ s, fault = .emptySinkSet s ∧ IsBarren entries s ∧
      ∀ other, IsBarren entries other → (compare s other).isLE := by
  unfold ofEntries
  cases hb : (barren entries).toList with
  | nil =>
    constructor
    · intro h
      cases h
    · rintro ⟨s, -, hs, -⟩
      exact absurd hs (not_isBarren hb s)
  | cons least rest =>
    have hleast : IsBarren entries least :=
      mem_barren.mp (Ascending.mem_iff.mpr (hb ▸ List.mem_cons_self ..))
    have hle : ∀ other, IsBarren entries other → (compare least other).isLE :=
      fun other ho => Ascending.isLE_of_toList hb other (mem_barren.mpr ho)
    constructor
    · intro h
      cases h
      exact ⟨least, rfl, hleast, hle⟩
    · rintro ⟨s, rfl, hs, hs'⟩
      rw [Ascending.eq_of_isLE (hle s hs) (hs' least hleast)]

theorem ofEntries_isOk_iff : (∃ r, ofEntries entries = .ok r) ↔ ∀ s, ¬ IsBarren entries s := by
  constructor
  · rintro ⟨r, hr⟩
    unfold ofEntries at hr
    split at hr
    · cases hr
    · rename_i hb
      exact not_isBarren hb
  · intro hnone
    cases h : ofEntries entries with
    | error fault =>
      obtain ⟨s, -, hs, -⟩ := ofEntries_eq_error_iff.mp h
      exact absurd hs (hnone s)
    | ok r => exact ⟨r, rfl⟩

theorem ofEntries_eq_ok_iff : ofEntries entries = .ok r ↔
    (∀ s, ¬ IsBarren entries s) ∧ ∀ g, g ∈ r.goals ↔ Gives entries g := by
  constructor
  · exact fun h => ⟨ofEntries_isOk_iff.mp ⟨r, h⟩, fun g => mem_of_ofEntries h⟩
  · rintro ⟨hnone, hgoals⟩
    obtain ⟨r', h⟩ := ofEntries_isOk_iff.mpr hnone
    have hsame : r'.goals = r.goals :=
      Ascending.ext_mem fun g => (mem_of_ofEntries h).trans (hgoals g).symm
    cases r
    cases r'
    cases hsame
    exact h

section Answers

variable (h : ∀ g, g ∈ r.goals ↔ Gives entries g)
include h

theorem mem_sinksFor_iff {visited : List Source} :
    k ∈ r.sinksFor visited ↔ ∃ s ∈ visited, Gives entries ⟨s, k⟩ := by
  rw [mem_sinksFor]
  constructor
  · rintro ⟨g, hg, hs, rfl⟩
    exact ⟨g.source, hs, (h g).mp hg⟩
  · rintro ⟨s, hs, hk⟩
    exact ⟨⟨s, k⟩, (h _).mpr hk, hs, rfl⟩

theorem isGoal_iff : r.isGoal s k = true ↔ Gives entries ⟨s, k⟩ :=
  decide_eq_true_iff.trans (h ⟨s, k⟩)

/-- Where no source is left without a sink, the sources are all that occur. -/
theorem mem_sources_iff (hnone : ∀ s, ¬ IsBarren entries s) :
    s ∈ r.sources ↔ ∃ e ∈ entries, e.1 = s := by
  rw [mem_sources]
  constructor
  · rintro ⟨g, hg, rfl⟩
    obtain ⟨e, he, hs, -⟩ := (h g).mp hg
    exact ⟨e, he, hs⟩
  · intro hs
    by_contra hno
    refine hnone s (isBarren_iff.mpr ⟨hs, fun k hk => hno ⟨⟨s, k⟩, (h _).mpr hk, rfl⟩⟩)

theorem eq_toList_iff {goals : List Goal} : goals = r.goals.toList ↔
    goals.Pairwise (fun a b => compare a b = .lt) ∧ ∀ g, g ∈ goals ↔ Gives entries g := by
  constructor
  · rintro rfl
    exact ⟨r.goals.sorted, h⟩
  · rintro ⟨hsorted, hgoals⟩
    exact Ascending.eq_of_mem_iff hsorted r.goals.sorted fun g => (hgoals g).trans (h g).symm

end Answers

/-- Entries are merged source by source and refused for the least source that all of them leave
without a sink.  Otherwise they make a registry that depends on the given goals alone, however they
are spread over the entries.  It lists these goals in order, counts them and their sources, and
knows what any visited sources ask for. -/
theorem ofEntries_relation (entries : List (Source × List Sink)) :
    ofEntries entries = (SinkSets.build entries).map SinkSets.registry ∧
    (∀ m, SinkSets.build entries = .ok m → m.Answers m.registry) ∧
    (∀ fault, ofEntries entries = .error fault ↔ ∃ s, fault = .emptySinkSet s ∧
      IsBarren entries s ∧ ∀ other, IsBarren entries other → (compare s other).isLE) ∧
    ((∃ r, ofEntries entries = .ok r) ↔ ∀ s, ¬ IsBarren entries s) ∧
    ∀ r, ofEntries entries = .ok r →
      (∀ others, ofEntries others = .ok r ↔
        (∀ s, ¬ IsBarren others s) ∧ ∀ g, Gives others g ↔ Gives entries g) ∧
      (∀ goals, goals = r.goals.toList ↔ goals.Pairwise (fun a b => compare a b = .lt) ∧
        ∀ g, g ∈ goals ↔ Gives entries g) ∧
      r.size = {g | Gives entries g}.ncard ∧
      r.sources.size = {s | ∃ e ∈ entries, e.1 = s}.ncard ∧
      (∀ s k, r.isGoal s k = true ↔ Gives entries ⟨s, k⟩) ∧
      (∀ visited k, k ∈ r.sinksFor visited ↔ ∃ s ∈ visited, Gives entries ⟨s, k⟩) ∧
      (∀ before after, r.sinksFor (before ++ after) =
        .ofList ((r.sinksFor before).toList ++ (r.sinksFor after).toList)) ∧
      ∀ visited others, (∀ s, (∃ k, Gives entries ⟨s, k⟩) → (s ∈ others ↔ s ∈ visited)) →
        r.sinksFor others = r.sinksFor visited := by
  refine ⟨ofEntries_eq_build entries, fun _ => SinkSets.answers_of_build,
    fun _ => ofEntries_eq_error_iff, ofEntries_isOk_iff, fun r hr => ?_⟩
  obtain ⟨hnone, h⟩ := ofEntries_eq_ok_iff.mp hr
  have hsinks : ∀ visited k, k ∈ r.sinksFor visited ↔ ∃ s ∈ visited, Gives entries ⟨s, k⟩ :=
    fun _ _ => mem_sinksFor_iff h
  refine ⟨fun others => ?same, fun _ => eq_toList_iff h, ?size, ?sources, fun _ _ => isGoal_iff h,
    hsinks, fun before after => ?concat, fun visited others hs => ?known⟩
  case same =>
    rw [ofEntries_eq_ok_iff]
    refine and_congr_right fun _ => forall_congr' fun g => ?_
    rw [h g]
    exact iff_comm
  case size => exact r.goals.size_eq_ncard.trans (congrArg Set.ncard (Set.ext h))
  case sources =>
    exact r.sources.size_eq_ncard.trans
      (congrArg Set.ncard (Set.ext fun _ => mem_sources_iff h hnone))
  case concat =>
    apply Ascending.ext_mem
    intro k
    rw [Ascending.mem_ofList, List.mem_append, ← Ascending.mem_iff, ← Ascending.mem_iff, hsinks,
      hsinks, hsinks]
    simp only [List.mem_append, or_and_right, exists_or]
  case known =>
    apply Ascending.ext_mem
    intro k
    rw [hsinks, hsinks]
    exact exists_congr fun s => and_congr_left fun hk => hs s ⟨k, hk⟩

def scattered : List (Source × List Sink) :=
  [(⟨⟨⟨0⟩, 1⟩⟩, []), (⟨⟨⟨0⟩, 0⟩⟩, [⟨⟨⟨1⟩, 0⟩⟩, ⟨⟨⟨1⟩, 0⟩⟩]), (⟨⟨⟨0⟩, 1⟩⟩, [⟨⟨⟨1⟩, 0⟩⟩]),
    (⟨⟨⟨0⟩, 0⟩⟩, [])]

theorem ofEntries_relation_scattered :
    let gathered := [(⟨⟨⟨0⟩, 0⟩⟩, [⟨⟨⟨1⟩, 0⟩⟩]), (⟨⟨⟨0⟩, 1⟩⟩, [⟨⟨⟨1⟩, 0⟩⟩])]
    (∀ g, Gives gathered g ↔ Gives scattered g) ∧ ∃ r, ofEntries scattered = .ok r ∧
      ofEntries gathered = .ok r ∧ r.size = 2 ∧
      (r.sinksFor [⟨⟨⟨0⟩, 1⟩⟩, ⟨⟨⟨9⟩, 9⟩⟩, ⟨⟨⟨0⟩, 1⟩⟩]) = r.sinksFor [⟨⟨⟨0⟩, 1⟩⟩] := by
  intro gathered
  have hr : ofEntries scattered = .ok _ := rfl
  obtain ⟨hsame, -, -, -, -, -, -, hknown⟩ := (ofEntries_relation scattered).2.2.2.2 _ hr
  obtain ⟨-, hgives⟩ := (hsame gathered).mp rfl
  have hother : ∀ e ∈ scattered, e.1 ≠ ⟨⟨⟨9⟩, 9⟩⟩ := by decide
  refine ⟨hgives, _, hr, rfl, rfl, hknown _ _ ?_⟩
  rintro s ⟨k, e, he, rfl, -⟩
  simp [hother e he]

end Registry

end PathExplorer
