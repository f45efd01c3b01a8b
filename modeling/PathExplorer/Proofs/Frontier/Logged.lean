import Mathlib.Data.List.Perm.Subperm
import PathExplorer.Proofs.Frontier.Stock

namespace PathExplorer

open scoped List

variable {ω χ τ : Type}

/-- A weighting with a log of the states that it weighed without a fault, the latest first. -/
structure Logged (ω : Type) where
  inner : ω
  log : List State := []

def Logged.enter (s : State) (log : List State) : Except Fault Weight → List State
  | .ok _ => s :: log
  | .error _ => log

instance [Weighting ω] : Weighting (Logged ω) where
  name w := Weighting.name w.inner
  weigh s w :=
    let (result, inner) := Weighting.weigh s w.inner
    (result, ⟨inner, Logged.enter s w.log result⟩)

theorem Logged.log_weigh [Weighting ω] {s : State} {v w : Logged ω} {result : Except Fault Weight}
    (h : Weighting.weigh s v = (result, w)) : w.log = Logged.enter s v.log result := by
  have hlog : (Weighting.weigh s v).2.log = Logged.enter s v.log (Weighting.weigh s v).1 := rfl
  rwa [h] at hlog

def Operation.offered : Operation → List State
  | .offer s => [s]
  | _ => []

def unweighed (held : List Held) : List State := (held.filter (·.weight.isNone)).map (·.state)

def Weighed.forget (r : Weighed (Logged ω)) : Weighed ω :=
  ⟨r.held, r.count, r.fault, r.weighting.inner⟩

namespace Frontier

def forget (f : Frontier (Logged ω) χ τ) : Frontier ω χ τ where
  weighting := f.weighting.inner
  choice := f.choice
  stop := f.stop
  held := f.held
  next := f.next
  closed := f.closed
  stats := f.stats
  released := f.released

/-- What is in the log and what is yet to be weighed are different offers. -/
structure WeighedOnce (offered : List State) (f : Frontier (Logged ω) χ τ) : Prop where
  log : f.weighting.log ++ unweighed f.held <+~ offered
  count : f.weighting.log.length = f.stats.weighted

end Frontier

section Forget

namespace Frontier

variable {f : Frontier (Logged ω) χ τ}

theorem forget_offer (s : State) : (f.offer s).2.forget = (f.forget.offer s).2 := by
  unfold offer
  by_cases hc : f.closed <;> simp [hc, forget]

theorem forget_remove (t : Ticket) : (f.remove t).2.forget = (f.forget.remove t).2 := by
  have hfind : f.forget.find? t = f.find? t := rfl
  unfold remove
  rw [hfind]
  cases f.find? t <;> rfl

theorem forget_close : f.close.forget = f.forget.close := by
  unfold close
  by_cases hc : f.closed <;> simp [hc, forget]

variable [Weighting ω]

theorem forget_weighAll (held : List Held) (w : Logged ω) :
    weighAll held w.inner = (weighAll held w).forget := by
  induction held generalizing w with
  | nil => rfl
  | cons h held ih =>
    by_cases hw : h.weight.isSome
    · rw [weighAll, weighAll, if_pos hw, if_pos hw, ih]
      rfl
    · rw [weighAll, weighAll, if_neg hw, if_neg hw]
      simp only [Weighting.weigh]
      cases Weighting.weigh h.state w.inner with
      | mk result inner =>
        cases result with
        | error fault => rfl
        | ok weight =>
          have ih := ih ⟨inner, h.state :: w.log⟩
          dsimp only [Logged.enter] at ih ⊢
          rw [ih]
          rfl

theorem forget_weightOf (t : Ticket) : (f.weightOf t).2.forget = (f.forget.weightOf t).2 := by
  have hfind : f.forget.find? t = f.find? t := rfl
  unfold weightOf
  rw [hfind]
  cases f.find? t with
  | none => rfl
  | some h =>
    dsimp only
    cases h.weight with
    | some weight => rfl
    | none =>
      dsimp only
      have hr : Weighting.weigh h.state f.forget.weighting =
        Weighting.weigh h.state f.weighting.inner := rfl
      rw [hr]
      simp only [Weighting.weigh]
      cases Weighting.weigh h.state f.weighting.inner with
      | mk result inner => cases result <;> rfl

variable [ChoiceRule χ]

theorem forget_prepare : (f.prepare.1, f.prepare.2.forget) = f.forget.prepare := by
  have hw := forget_weighAll f.held f.weighting
  unfold prepare
  by_cases hu : ChoiceRule.usesWeights f.choice
  · have hu' : ChoiceRule.usesWeights f.forget.choice := hu
    rw [if_pos hu, if_pos hu']
    change _ = ((weighAll f.held f.weighting.inner).fault,
      f.forget.settle (weighAll f.held f.weighting.inner))
    rw [hw]
    rfl
  · have hu' : ¬ ChoiceRule.usesWeights f.forget.choice := hu
    rw [if_neg hu, if_neg hu']

theorem forget_choose : (f.choose.1, f.choose.2.forget) = f.forget.choose := by
  by_cases hn : f.entries = []
  · have hn' : f.forget.entries = [] := hn
    rw [choose_of_isEmpty hn, choose_of_isEmpty hn']
  · have hn' : f.forget.entries ≠ [] := hn
    have hp := f.forget_prepare
    rw [choose_of_not_isEmpty hn, choose_of_not_isEmpty hn', ← hp]
    cases f.prepare with
    | mk fault g => cases fault <;> rfl

theorem forget_poll : f.poll.2.forget = f.forget.poll.2 := by
  have hc := f.forget_choose
  unfold poll
  rw [← hc]
  cases f.choose with
  | mk result g =>
    rcases result with _ | _ | _ <;> rfl

theorem forget_act (op : Operation) : (f.act op).forget = f.forget.act op := by
  cases op with
  | offer s => exact forget_offer s
  | poll => exact forget_poll
  | peek => exact congrArg Prod.snd forget_choose
  | remove t => exact forget_remove t
  | weightOf t => exact forget_weightOf t
  | close => exact forget_close

theorem forget_after (ops : List Operation) : (f.after ops).forget = f.forget.after ops := by
  induction ops generalizing f with
  | nil => rfl
  | cons op ops ih =>
    change ((f.act op).after ops).forget = (f.forget.act op).after ops
    rw [ih, forget_act]

end Frontier

end Forget

section Unweighed

theorem unweighed_cons (h : Held) (held : List Held) : unweighed (h :: held) =
    if h.weight.isNone then h.state :: unweighed held else unweighed held := by
  by_cases hw : h.weight.isNone <;> simp [unweighed, hw]

theorem unweighed_append (a b : List Held) : unweighed (a ++ b) = unweighed a ++ unweighed b := by
  simp [unweighed]

theorem unweighed_sublist {a b : List Held} (h : a <+ b) : unweighed a <+ unweighed b :=
  (h.filter _).map _

/-- A weight that is remembered leaves fewer states to be weighed. -/
theorem unweighed_remember (t : Ticket) (weight : Weight) (held : List Held) :
    unweighed (held.map (Held.remember t weight)) <+ unweighed held := by
  induction held with
  | nil => exact .refl _
  | cons h held ih =>
    rw [List.map_cons, unweighed_cons, unweighed_cons, Held.remember]
    by_cases ht : h.ticket = t
    · rw [if_pos ht, if_neg (by simp)]
      by_cases hw : h.weight.isNone
      · rw [if_pos hw]
        exact ih.cons _
      · rwa [if_neg hw]
    · rw [if_neg ht]
      by_cases hw : h.weight.isNone
      · rw [if_pos hw, if_pos hw]
        exact ih.cons_cons _
      · rwa [if_neg hw, if_neg hw]

theorem unweighed_remember_mem {x : Held} {held : List Held} (hx : x ∈ held)
    (hw : x.weight = none) (weight : Weight) :
    x.state :: unweighed (held.map (Held.remember x.ticket weight)) <+~ unweighed held := by
  obtain ⟨l₁, l₂, rfl⟩ := List.append_of_mem hx
  have hless := unweighed_remember x.ticket weight
  have hself : x.remember x.ticket weight = { x with weight := some weight } := if_pos rfl
  have hn : x.weight.isNone := by simp [hw]
  rw [List.map_append, List.map_cons, hself, unweighed_append, unweighed_append,
    unweighed_cons, unweighed_cons, if_neg (by simp), if_pos hn]
  exact (((hless l₁).append (hless l₂)).cons_cons _).subperm.trans List.perm_middle.symm.subperm

theorem log_weighAll [Weighting ω] (held : List Held) (w : Logged ω) :
    let r := Frontier.weighAll held w
    r.weighting.log ++ unweighed r.held ~ w.log ++ unweighed held ∧
      r.weighting.log.length = w.log.length + r.count := by
  induction held generalizing w with
  | nil => exact ⟨.refl _, rfl⟩
  | cons h held ih =>
    by_cases hw : h.weight.isSome
    · have hn : ¬ h.weight.isNone := by simpa [Option.isSome_iff_ne_none] using hw
      rw [Frontier.weighAll, if_pos hw]
      simp only [unweighed_cons, if_neg hn]
      exact ih w
    · have hn : h.weight.isNone := by simpa using hw
      rw [Frontier.weighAll, if_neg hw]
      simp only [Weighting.weigh]
      cases Weighting.weigh h.state w.inner with
      | mk result inner =>
        cases result with
        | error fault => exact ⟨.refl _, rfl⟩
        | ok weight =>
          obtain ⟨hlog, hcount⟩ := ih ⟨inner, h.state :: w.log⟩
          simp only [unweighed_cons, if_pos hn, Logged.enter]
          refine ⟨hlog.trans ?_, ?_⟩
          · exact List.perm_middle.symm
          · rw [hcount, List.length_cons]
            omega

end Unweighed

namespace Frontier.WeighedOnce

variable {offered : List State} {f g : Frontier (Logged ω) χ τ}

theorem sublist (h : f.WeighedOnce offered) (hw : g.weighting = f.weighting)
    (hs : g.held <+ f.held) (hn : g.stats.weighted = f.stats.weighted) :
    g.WeighedOnce offered where
  log := by
    rw [hw]
    exact (((unweighed_sublist hs).append_left _).subperm).trans h.log
  count := by rw [hw, hn, h.count]

theorem offer (h : f.WeighedOnce offered) (s : State) :
    (f.offer s).2.WeighedOnce (offered ++ [s]) := by
  unfold Frontier.offer
  by_cases hc : f.closed
  · simp only [hc, if_true]
    exact ⟨h.log.trans (List.sublist_append_left ..).subperm, h.count⟩
  · simp only [hc]
    refine ⟨?_, h.count⟩
    change f.weighting.log ++ unweighed (f.held ++ [_]) <+~ _
    rw [unweighed_append, ← List.append_assoc]
    exact (List.subperm_append_right _).mpr h.log

theorem remove (h : f.WeighedOnce offered) (t : Ticket) : (f.remove t).2.WeighedOnce offered := by
  unfold Frontier.remove
  split
  · exact h
  · exact h.sublist rfl List.eraseP_sublist rfl

theorem close (h : f.WeighedOnce offered) : f.close.WeighedOnce offered := by
  unfold Frontier.close
  split
  · exact h
  · exact h.sublist rfl (List.nil_sublist _) rfl

variable [Weighting ω]

theorem weightOf (h : f.WeighedOnce offered) (t : Ticket) :
    (f.weightOf t).2.WeighedOnce offered := by
  have ha := f.weightOf_spec t
  generalize f.weightOf t = r at ha ⊢
  cases ha with
  | missing | known => exact h
  | @fault x _ w _ _ _ hr =>
    have hlog : w.log = f.weighting.log := Logged.log_weigh hr
    refine ⟨?log, ?count⟩
    case log =>
      change w.log ++ _ <+~ _
      rw [hlog]
      exact h.log
    case count => exact (congrArg List.length hlog).trans h.count
  | @weighed x weight w hx hxt hw hr =>
    subst hxt
    have hlog : w.log = x.state :: f.weighting.log := Logged.log_weigh hr
    have hless := unweighed_remember_mem hx hw weight
    refine ⟨?log, ?count⟩
    case log =>
      change w.log ++ _ <+~ _
      rw [hlog]
      exact List.perm_middle.symm.subperm.trans
        (((List.subperm_append_left _).mpr hless).trans h.log)
    case count =>
      change w.log.length = f.stats.weighted + 1
      rw [hlog, List.length_cons, h.count]

theorem settle (h : f.WeighedOnce offered) :
    (f.settle (weighAll f.held f.weighting)).WeighedOnce offered := by
  obtain ⟨hlog, hcount⟩ := log_weighAll f.held f.weighting
  refine ⟨hlog.subperm.trans h.log, ?_⟩
  rw [Frontier.settle, hcount, h.count]

variable [ChoiceRule χ]

theorem choose (h : f.WeighedOnce offered) : f.choose.2.WeighedOnce offered := by
  by_cases hn : f.entries = []
  · rwa [choose_of_isEmpty hn]
  · have hp : f.prepare.2.WeighedOnce offered := by
      unfold Frontier.prepare
      split
      · exact h.settle
      · exact h
    rw [choose_of_not_isEmpty hn]
    cases hc : f.prepare with
    | mk fault g =>
      rw [hc] at hp
      cases fault with
      | some fault => exact hp
      | none => exact ⟨hp.log, hp.count⟩

theorem poll (h : f.WeighedOnce offered) : f.poll.2.WeighedOnce offered := by
  have hchoose := h.choose
  have hp := f.poll_spec
  generalize f.poll = r at hp ⊢
  cases hp with
  | fault hc | nothing hc =>
    rw [hc] at hchoose
    exact hchoose
  | hands hc hheld =>
    rw [hc] at hchoose
    refine hchoose.sublist rfl ?_ rfl
    rw [hheld]
    exact (List.sublist_cons_self ..).append_left _

theorem act (h : f.WeighedOnce offered) (op : Operation) :
    (f.act op).WeighedOnce (offered ++ op.offered) := by
  cases op with
  | offer s => exact h.offer s
  | poll => exact (List.append_nil offered).symm ▸ h.poll
  | peek => exact (List.append_nil offered).symm ▸ h.choose
  | remove t => exact (List.append_nil offered).symm ▸ h.remove t
  | weightOf t => exact (List.append_nil offered).symm ▸ h.weightOf t
  | close => exact (List.append_nil offered).symm ▸ h.close

theorem after (h : f.WeighedOnce offered) (ops : List Operation) :
    (f.after ops).WeighedOnce (offered ++ ops.flatMap Operation.offered) := by
  induction ops generalizing f offered with
  | nil => exact (List.append_nil offered).symm ▸ h
  | cons op ops ih =>
    rw [List.flatMap_cons, ← List.append_assoc]
    exact ih (h.act op)

end Frontier.WeighedOnce

/-- However often a choice or a request needs weights, no offer is weighed twice. -/
theorem Frontier.weighed_once [Weighting ω] [ChoiceRule χ] (w : ω) (rule : χ) (stop : τ)
    (ops : List Operation) :
    let f := (start (Logged.mk w []) rule stop).after ops
    f.forget = (start w rule stop).after ops ∧
      f.weighting.log <+~ ops.flatMap Operation.offered ∧
      f.weighting.log.length = f.stats.weighted := by
  intro f
  have hstart : (start (Logged.mk w []) rule stop).WeighedOnce [] := ⟨.refl _, rfl⟩
  have h : f.WeighedOnce (ops.flatMap Operation.offered) := hstart.after ops
  exact ⟨forget_after ops, (List.sublist_append_left ..).subperm.trans h.log, h.count⟩

end PathExplorer
