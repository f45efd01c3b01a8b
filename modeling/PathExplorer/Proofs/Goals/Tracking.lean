import Mathlib.Data.List.Nodup
import Mathlib.Data.List.Perm.Basic
import Mathlib.Tactic.Tauto
import PathExplorer.Goals.Tracker
import PathExplorer.Proofs.Exploration.Reached

namespace PathExplorer

open scoped List

/-- A state is observed, which answers with the news, or visited, which answers nothing. -/
inductive Feed where
  | observe (s : State)
  | visit (s : State)

namespace Feed

def state : Feed → State
  | observe s | visit s => s

def answers : Feed → Bool
  | observe _ => true
  | visit _ => false

end Feed

namespace GoalTracker

variable (t : GoalTracker)

def feed : Feed → GoalTracker
  | .observe s => t.observe s
  | .visit s => StopRule.onVisit s t

def after (feeds : List Feed) : GoalTracker := feeds.foldl feed t

def news : List Feed → GoalTracker → List (Feed × List Goal)
  | [], _ => []
  | f :: feeds, t => (f, t.fresh f.state) :: news feeds (t.feed f)

def answered (feeds : List Feed) : List (List Goal) :=
  ((news feeds t).filter (·.1.answers)).map (·.2)

/-- What the visits make of the goals without saying so. -/
def consumed (feeds : List Feed) : List (List Goal) :=
  ((news feeds t).filter (!·.1.answers)).map (·.2)

structure Knows (goals : Registry) (states : List State) (t : GoalTracker) : Prop where
  pending : ∀ g, g ∈ t.pending ↔ g ∈ goals.goals ∧ ∀ s ∈ states, ¬ g.CompletedBy s
  reached : ∀ g, g ∈ t.reached ↔ g ∈ goals.goals ∧ ∃ s ∈ states, g.CompletedBy s

variable {t} {goals : Registry} {states : List State} {feeds : List Feed}

theorem feed_eq (f : Feed) : t.feed f = t.observe f.state := by
  cases f <;> rfl

theorem knows_ofRegistry (goals : Registry) : (ofRegistry goals).Knows goals [] where
  pending := by simp [ofRegistry]
  reached := by simp [ofRegistry]

namespace Knows

theorem feed (h : t.Knows goals states) (f : Feed) :
    (t.feed f).Knows goals (states ++ [f.state]) := by
  rw [feed_eq]
  refine ⟨fun g => ?pending, fun g => ?reached⟩
  case pending =>
    rw [mem_pending_observe, h.pending, Goal.reachedBy_eq_false_iff]
    simp [or_imp, forall_and, and_assoc]
  case reached =>
    rw [mem_reached_observe, h.reached, h.pending, Goal.reachedBy_iff]
    simp only [List.mem_append, List.mem_singleton, or_and_right, exists_or, exists_eq_left]
    constructor
    · rintro (⟨hg, hs⟩ | ⟨⟨hg, -⟩, hf⟩)
      · exact ⟨hg, .inl hs⟩
      · exact ⟨hg, .inr hf⟩
    · rintro ⟨hg, hs | hf⟩
      · exact .inl ⟨hg, hs⟩
      · by_cases hs : ∃ s ∈ states, g.CompletedBy s
        · exact .inl ⟨hg, hs⟩
        · exact .inr ⟨⟨hg, fun s hmem hc => hs ⟨s, hmem, hc⟩⟩, hf⟩

theorem after (h : t.Knows goals states) (feeds : List Feed) :
    (t.after feeds).Knows goals (states ++ feeds.map Feed.state) := by
  induction feeds generalizing t states with
  | nil => simpa [GoalTracker.after] using h
  | cons f feeds ih => simpa [GoalTracker.after] using ih (h.feed f)

theorem mem_pending_iff (h : t.Knows goals states) {g : Goal} :
    g ∈ t.pending ↔ g ∈ goals.goals ∧ g ∉ t.reached := by
  rw [h.pending, h.reached]
  simp +contextual

theorem unique {u : GoalTracker} {others : List State} (h : t.Knows goals states)
    (hu : u.Knows goals others) (hsame : ∀ s, s ∈ others ↔ s ∈ states) : u = t := by
  have hpending : u.pending = t.pending := Ascending.ext_mem fun g => by
    simp only [h.pending, hu.pending, hsame]
  have hreached : u.reached = t.reached := Ascending.ext_mem fun g => by
    simp only [h.reached, hu.reached, hsame]
  cases t
  cases u
  cases hpending
  cases hreached
  rfl

theorem partition (h : t.Knows goals states) :
    t.pending.toList ++ t.reached.toList ~ goals.goals.toList := by
  have hdisjoint : t.pending.toList.Disjoint t.reached.toList :=
    fun g hp hr => (h.mem_pending_iff.mp hp).2 hr
  refine (List.perm_ext_iff_of_nodup
    (t.pending.nodup_toList.append t.reached.nodup_toList hdisjoint)
    goals.goals.nodup_toList).mpr fun g => ?_
  simp only [List.mem_append, ← Ascending.mem_iff, h.mem_pending_iff]
  constructor
  · rintro (⟨hg, -⟩ | hr)
    · exact hg
    · exact ((h.reached g).mp hr).1
  · intro hg
    by_cases hr : g ∈ t.reached
    · exact .inr hr
    · exact .inl ⟨hg, hr⟩

theorem reached_feed (h : t.Knows goals states) (f : Feed) :
    (t.feed f).reached.toList ~ t.fresh f.state ++ t.reached.toList := by
  have hdisjoint : (t.fresh f.state).Disjoint t.reached.toList :=
    fun g hf hr => (h.mem_pending_iff.mp (mem_fresh.mp hf).1).2 hr
  have hnodup : (t.fresh f.state).Nodup := Ascending.nodup_toList _
  refine (List.perm_ext_iff_of_nodup (t.feed f).reached.nodup_toList
    (hnodup.append t.reached.nodup_toList hdisjoint)).mpr fun g => ?_
  rw [List.mem_append, mem_fresh, ← Ascending.mem_iff, ← Ascending.mem_iff, feed_eq,
    mem_reached_observe, or_comm]

theorem reached_after (h : t.Knows goals states) (feeds : List Feed) :
    (t.after feeds).reached.toList ~
      ((news feeds t).map (·.2)).flatten ++ t.reached.toList := by
  induction feeds generalizing t states with
  | nil => exact .refl _
  | cons f feeds ih =>
    have hrest := ih (h.feed f)
    have hfirst := (h.reached_feed f).append_left ((news feeds (t.feed f)).map (·.2)).flatten
    refine hrest.trans (hfirst.trans ?_)
    rw [news, List.map_cons, List.flatten_cons, ← List.append_assoc]
    exact List.perm_append_comm.append_right _

end Knows

theorem news_perm (feeds : List Feed) (t : GoalTracker) :
    (t.answered feeds).flatten ++ (t.consumed feeds).flatten ~
      ((news feeds t).map (·.2)).flatten := by
  rw [answered, consumed, ← List.flatten_append, ← List.map_append]
  exact ((List.filter_append_perm _ _).map _).flatten

theorem sorted_news {entry : Feed × List Goal} (h : entry ∈ news feeds t) :
    entry.2.Pairwise fun a b => compare a b = .lt := by
  induction feeds generalizing t with
  | nil => cases h
  | cons f feeds ih =>
    obtain rfl | h := List.mem_cons.mp h
    · exact Ascending.sorted _
    · exact ih h

theorem stops_after (h : StopRule.stops t = true) (feeds : List Feed) :
    StopRule.stops (t.after feeds) = true := by
  induction feeds generalizing t with
  | nil => exact h
  | cons f feeds ih =>
    refine ih ?_
    have hnone : t.pending.toList = [] := List.isEmpty_iff.mp h
    rw [feed_eq]
    exact List.isEmpty_iff.mpr (by simp [observe, Ascending.filter, hnone])

/-- The goals reached are those that some state completed, and the others are pending.  The answers
to observations share no goal and are sorted, and with what visits took they are all that is
reached.  The outcome is the same for the same set of states, and once it is over it stays over. -/
theorem tracks_states (goals : Registry) (feeds : List Feed) :
    let begun := ofRegistry goals
    let t := begun.after feeds
    (∀ g, g ∈ t.reached ↔ g ∈ goals.goals ∧ ∃ s ∈ feeds.map Feed.state, g.CompletedBy s) ∧
      (∀ g, g ∈ t.pending ↔ g ∈ goals.goals ∧ g ∉ t.reached) ∧
      t.pending.toList ++ t.reached.toList ~ goals.goals.toList ∧
      (begun.answered feeds).Pairwise List.Disjoint ∧
      (∀ gs ∈ begun.answered feeds, gs.Pairwise fun a b => compare a b = .lt) ∧
      (begun.answered feeds).flatten ++ (begun.consumed feeds).flatten ~ t.reached.toList ∧
      (∀ others, (∀ s, s ∈ others.map Feed.state ↔ s ∈ feeds.map Feed.state) →
        begun.after others = t) ∧
      ∀ more, StopRule.stops t = true → StopRule.stops (begun.after (feeds ++ more)) = true := by
  intro begun t
  have hbegun : begun.Knows goals [] := knows_ofRegistry goals
  have h : t.Knows goals (feeds.map Feed.state) := hbegun.after feeds
  have hall : (begun.answered feeds).flatten ++ (begun.consumed feeds).flatten ~
      t.reached.toList := by
    have hreached := hbegun.reached_after feeds
    rw [show begun.reached.toList = [] from rfl, List.append_nil] at hreached
    exact (news_perm feeds begun).trans hreached.symm
  refine ⟨h.reached, fun g => h.mem_pending_iff, h.partition, ?disjoint, ?sorted, hall, ?same,
    ?ended⟩
  case disjoint =>
    have hnodup := hall.nodup_iff.mpr t.reached.nodup_toList
    exact (List.nodup_flatten.mp hnodup.of_append_left).2
  case sorted =>
    intro gs hgs
    obtain ⟨entry, hentry, rfl⟩ := List.mem_map.mp hgs
    exact sorted_news (List.mem_filter.mp hentry).1
  case same =>
    intro others hsame
    exact h.unique (hbegun.after others) hsame
  case ended =>
    intro more hstops
    rw [after, List.foldl_append]
    exact stops_after hstops more

def thereAndBack : Registry where
  goals := ⟨[⟨⟨⟨⟨0⟩, 0⟩⟩, ⟨⟨⟨1⟩, 0⟩⟩⟩, ⟨⟨⟨⟨1⟩, 0⟩⟩, ⟨⟨⟨0⟩, 1⟩⟩⟩], by decide⟩

theorem tracks_states_repeated :
    let inside := (State.root ⟨⟨0⟩, 0⟩).enter ⟨⟨1⟩, 0⟩
    let behind := { inside with stack := .root ⟨0⟩ }.advance ⟨⟨0⟩, 1⟩
    let begun := ofRegistry thereAndBack
    let feeds := [.visit inside, .observe behind, .observe inside, .visit behind]
    begun.answered feeds = [[⟨⟨⟨⟨1⟩, 0⟩⟩, ⟨⟨⟨0⟩, 1⟩⟩⟩], []] ∧
      begun.consumed feeds = [[⟨⟨⟨⟨0⟩, 0⟩⟩, ⟨⟨⟨1⟩, 0⟩⟩⟩], []] ∧
      begun.after [.observe behind, .observe inside] = begun.after feeds ∧
      StopRule.stops (begun.after feeds) = true ∧
      StopRule.stops (begun.after (feeds ++ [.visit (.root ⟨⟨0⟩, 0⟩)])) = true := by
  intro inside behind begun feeds
  obtain ⟨-, -, -, -, -, -, hsame, hover⟩ := tracks_states thereAndBack feeds
  have hstops : StopRule.stops (begun.after feeds) = true := by decide
  refine ⟨by decide, by decide, hsame _ fun s => ?_, hstops, hover _ hstops⟩
  simp only [feeds, Feed.state, List.map_cons, List.map_nil, List.mem_cons]
  tauto

end GoalTracker

end PathExplorer
