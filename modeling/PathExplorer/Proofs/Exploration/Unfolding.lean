import PathExplorer.Proofs.Exploration.Placed
import PathExplorer.Proofs.Exploration.Termination

namespace PathExplorer

open scoped List

namespace View

/-- The second list has each state of the first and, behind it, what comes of it. -/
inductive Unfolds (v : View) : List State → List State → Prop
  | nil : Unfolds v [] []
  | cons {s : State} {rest next below beside : List State} : v.successors s = .ok next →
      Unfolds v next below → Unfolds v rest beside → Unfolds v (s :: rest) (s :: (below ++ beside))

namespace Unfolds

variable {v : View} {l m a b all : List State} {s : State}

theorem append (hl : v.Unfolds l a) (hm : v.Unfolds m b) : v.Unfolds (l ++ m) (a ++ b) := by
  induction hl with
  | nil => exact hm
  | cons hs hnext _ _ ih =>
    rw [List.cons_append, List.cons_append, List.append_assoc]
    exact .cons hs hnext ih

theorem split (h : v.Unfolds (l ++ m) all) :
    ∃ a b, all = a ++ b ∧ v.Unfolds l a ∧ v.Unfolds m b := by
  induction l generalizing all with
  | nil => exact ⟨[], all, rfl, .nil, h⟩
  | cons s l ih =>
    cases h with
    | cons hs hnext hrest =>
      obtain ⟨a, b, rfl, hl, hm⟩ := ih hrest
      exact ⟨_, b, by simp, .cons hs hnext hl, hm⟩

theorem take (h : v.Unfolds (l ++ s :: m) all) : ∃ next left, v.successors s = .ok next ∧
    v.Unfolds (l ++ m ++ next) left ∧ all ~ s :: left := by
  obtain ⟨a, _, rfl, hl, hsm⟩ := h.split
  cases hsm with
  | @cons _ _ next below beside hs hnext hm =>
    refine ⟨next, a ++ beside ++ below, hs, (hl.append hm).append hnext, ?_⟩
    calc a ++ s :: (below ++ beside)
      _ ~ s :: (a ++ (below ++ beside)) := List.perm_middle
      _ ~ s :: (a ++ (beside ++ below)) := (List.perm_append_comm.append_left a).cons s
      _ = s :: (a ++ beside ++ below) := by simp

theorem of_each (h : ∀ s ∈ l, ∃ all, v.Unfolds [s] all) : ∃ all, v.Unfolds l all := by
  induction l with
  | nil => exact ⟨[], .nil⟩
  | cons s l ih =>
    obtain ⟨⟨a, ha⟩, hl⟩ := List.forall_mem_cons.mp h
    obtain ⟨b, hb⟩ := ih hl
    exact ⟨a ++ b, ha.append hb⟩

end Unfolds

variable {p : Program}

theorem exists_unfolds_one {s : State} (hs : s.Placed p.view) : ∃ all, p.view.Unfolds [s] all := by
  have hacc := acc_of_standing p.flow_lawful hs.standing
  induction hacc with
  | intro s _ ih =>
    obtain ⟨next, hnext⟩ := successors_isOk hs
    have heach : ∀ t ∈ next, ∃ all, p.view.Unfolds [t] all := by
      intro t ht
      have hn : p.view.Next s t := ⟨next, hnext, ht⟩
      exact ih t hn (hs.next p.flow_lawful hn)
    obtain ⟨below, hbelow⟩ := Unfolds.of_each heach
    exact ⟨_, .cons hnext hbelow .nil⟩

theorem exists_unfolds {l : List State} (hl : ∀ s ∈ l, s.Placed p.view) :
    ∃ all, p.view.Unfolds l all :=
  Unfolds.of_each fun s hs => exists_unfolds_one (hl s hs)

end View

end PathExplorer
