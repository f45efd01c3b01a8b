import Mathlib.Data.List.Nodup
import Mathlib.Data.List.Perm.Basic
import PathExplorer.State.Shelf

namespace PathExplorer

open scoped List

namespace Shelf

/-- What can be done with states: a new one, one after another history, with a resource, gone on
from a state at some place, without its resource, or gone. -/
inductive Act where
  | create (place : Nat) (stmt : Stmt) (stack : Stack)
  | remember (place : Nat) (history : List Stmt)
  | attach (place : Nat) (r : Resource)
  | go (place source : Nat) (m : Move)
  | release (place : Nat)
  | discard (place : Nat)

def Act.place : Act → Nat
  | create place .. | remember place _ | attach place _ | go place .. | release place
  | discard place => place

section Acts

variable (shelf : Shelf)

def perform : Act → Shelf
  | .create place stmt stack => shelf.put place { stmt, stack }
  | .remember place history => shelf.alter place (·.withHistory history)
  | .attach place r => shelf.attach place r
  | .go place source m => shelf.go place source m
  | .release place => shelf.release place
  | .discard place => shelf.discard place

def held : List Resource := shelf.places.flatMap fun p => p.2.toRelease

def carried (place : Nat) : List Resource := (shelf.get? place).elim [] State.toRelease

def given : Act → List Resource
  | .attach place r => (shelf.get? place).elim [] fun _ => [r]
  | _ => []

def lost : Act → List Resource
  | .attach place _ => shelf.carried place
  | _ => []

def Single : Prop := (shelf.places.map (·.1)).Nodup

end Acts

/-- A shelf with the resources that its states were given, and those that were replaced. -/
structure Account where
  shelf : Shelf := {}
  given : List Resource := []
  replaced : List Resource := []

namespace Account

variable (a : Account)

def act (act : Act) : Account where
  shelf := a.shelf.perform act
  given := a.shelf.given act ++ a.given
  replaced := a.shelf.lost act ++ a.replaced

def after (acts : List Act) : Account := acts.foldl act a

structure Balanced : Prop where
  single : a.shelf.Single
  all : a.shelf.held ++ a.shelf.log ++ a.replaced ~ a.given

end Account

variable {shelf : Shelf} {place : Nat} {s : State}

theorem lookup_eq_none {ps : List (Nat × State)} (h : ∀ p ∈ ps, p.1 ≠ place) :
    ps.lookup place = none :=
  List.lookup_eq_none_iff.mpr fun p hp => bne_iff_ne.mpr (h p hp).symm

theorem Single.empty_or_holds (h : shelf.Single) (place : Nat) :
    (∀ p ∈ shelf.places, p.1 ≠ place) ∨ ∃ before s after,
      shelf.places = before ++ (place, s) :: after ∧
      (∀ p ∈ before, p.1 ≠ place) ∧ (∀ p ∈ after, p.1 ≠ place) := by
  by_cases hp : place ∈ shelf.places.map (·.1)
  · obtain ⟨⟨_, s⟩, hs, rfl⟩ := List.mem_map.mp hp
    obtain ⟨before, after, hplaces⟩ := List.append_of_mem hs
    rw [Single, hplaces, List.map_append, List.map_cons] at h
    obtain ⟨-, hafter, hbefore⟩ := List.nodup_append.mp h
    refine .inr ⟨before, s, after, hplaces, fun p hp => ?_, fun p hp he => ?_⟩
    · exact hbefore p.1 (List.mem_map_of_mem hp) _ (List.mem_cons_self ..)
    · exact (List.nodup_cons.mp hafter).1 (List.mem_map.mpr ⟨p, hp, he⟩)
  · exact .inl fun p hmem he => hp (he ▸ List.mem_map_of_mem hmem)

theorem get?_of_places {before after : List (Nat × State)}
    (h : shelf.places = before ++ (place, s) :: after) (hb : ∀ p ∈ before, p.1 ≠ place) :
    shelf.get? place = some s := by
  rw [get?, h, List.lookup_append, lookup_eq_none hb, List.lookup_cons_self, Option.none_or]

theorem map_eq_self {ps : List (Nat × State)} (h : ∀ p ∈ ps, p.1 ≠ place) (f : State → State) :
    ps.map (fun p => if p.1 = place then (p.1, f p.2) else p) = ps :=
  (List.map_congr_left fun p hp => if_neg (h p hp)).trans (List.map_id _)

theorem filter_eq_self {ps : List (Nat × State)} (h : ∀ p ∈ ps, p.1 ≠ place) :
    ps.filter (·.1 ≠ place) = ps :=
  List.filter_eq_self.mpr fun p hp => decide_eq_true (h p hp)

theorem held_discard (h : shelf.Single) (place : Nat) :
    (shelf.discard place).held ++ shelf.carried place ~ shelf.held := by
  obtain hnone | ⟨before, s, after, hplaces, hb, ha⟩ := h.empty_or_holds place
  · rw [carried, get?, lookup_eq_none hnone, held, discard, filter_eq_self hnone]
    exact (List.append_nil _).symm ▸ .refl _
  · rw [carried, get?_of_places hplaces hb, held, held, discard, hplaces, List.filter_append,
      filter_eq_self hb, List.filter_cons_of_neg (by simp), filter_eq_self ha]
    simp only [List.flatMap_append, List.flatMap_cons, Option.elim_some, List.append_assoc]
    exact List.perm_append_comm.append_left _

theorem held_alter (h : shelf.Single) (place : Nat) (f : State → State) :
    (shelf.alter place f).held ++ shelf.carried place ~
      shelf.held ++ (shelf.get? place).elim [] fun s => (f s).toRelease := by
  obtain hnone | ⟨before, s, after, hplaces, hb, ha⟩ := h.empty_or_holds place
  · rw [carried, get?, lookup_eq_none hnone, held, alter, map_eq_self hnone]
    exact .refl _
  · rw [carried, get?_of_places hplaces hb, held, held, alter, hplaces, List.map_append,
      map_eq_self hb, List.map_cons, map_eq_self ha, if_pos rfl]
    simp only [List.flatMap_append, List.flatMap_cons, Option.elim_some]
    rw [List.perm_iff_count]
    intro r
    simp only [List.count_append]
    omega

theorem Single.discard (h : shelf.Single) (place : Nat) : (shelf.discard place).Single :=
  (List.filter_sublist.map _).nodup h

theorem Single.put (h : shelf.Single) (place : Nat) (s : State) : (shelf.put place s).Single := by
  refine List.nodup_cons.mpr ⟨fun hmem => ?_, h.discard place⟩
  obtain ⟨p, hp, he⟩ := List.mem_map.mp hmem
  exact of_decide_eq_true (List.mem_filter.mp hp).2 he

theorem Single.alter (h : shelf.Single) (place : Nat) (f : State → State) :
    (shelf.alter place f).Single := by
  have hkeys : (shelf.alter place f).places.map (·.1) = shelf.places.map (·.1) := by
    rw [Shelf.alter, List.map_map]
    refine List.map_congr_left fun p _ => ?_
    dsimp only [Function.comp]
    split <;> rfl
  rwa [Single, hkeys]

theorem go_eq (place source : Nat) (m : Move) : shelf.go place source m = shelf ∨
    ∃ t, t.resource = none ∧ shelf.go place source m = shelf.put place t := by
  unfold go
  split
  · rename_i t ht
    obtain ⟨s, -, ht⟩ := Option.bind_eq_some_iff.mp ht
    exact .inr ⟨t, State.resource_of_next ht, rfl⟩
  · exact .inl rfl

theorem Single.perform (h : shelf.Single) (act : Act) : (shelf.perform act).Single := by
  cases act with
  | create place stmt stack => exact Single.put h place _
  | remember place _ | attach place _ | release place => exact Single.alter h place _
  | discard place => exact Single.discard h place
  | go place source m =>
    rw [Shelf.perform]
    obtain hgo | ⟨t, -, hgo⟩ := shelf.go_eq place source m
    · rwa [hgo]
    · rw [hgo]
      exact Single.put h place t

theorem held_put (h : shelf.Single) (place : Nat) (hs : s.resource = none) :
    (shelf.put place s).held ++ (shelf.put place s).log ~ shelf.held ++ shelf.log := by
  have hput : (shelf.put place s).held = (shelf.discard place).held := by
    change s.toRelease ++ (shelf.discard place).held = _
    rw [State.toRelease, hs]
    rfl
  have hlog : (shelf.put place s).log = shelf.carried place ++ shelf.log := rfl
  rw [hput, hlog, ← List.append_assoc]
  exact (held_discard h place).append_right _

/-- What is with the states or released stays so, but for what comes in and what is replaced. -/
theorem held_perform (h : shelf.Single) (act : Act) :
    (shelf.perform act).held ++ (shelf.perform act).log ++ shelf.lost act ~
      shelf.given act ++ (shelf.held ++ shelf.log) := by
  cases act with
  | create place stmt stack => exact List.append_nil _ ▸ held_put h place rfl
  | remember place history =>
    have hheld := held_alter h place (·.withHistory history)
    rw [List.perm_iff_count] at hheld ⊢
    intro r
    have hcount := hheld r
    simp only [List.count_append] at hcount ⊢
    change _ = _ + (shelf.carried place).count r at hcount
    change (shelf.alter place (·.withHistory history)).held.count r + shelf.log.count r + 0 = 0 + _
    omega
  | attach place r =>
    have hheld := held_alter h place (·.attach r)
    rw [List.perm_iff_count] at hheld ⊢
    intro x
    have hcount := hheld x
    simp only [List.count_append] at hcount ⊢
    change _ = _ + (shelf.given (.attach place r)).count x at hcount
    change (shelf.alter place (·.attach r)).held.count x + shelf.log.count x +
      (shelf.carried place).count x = _
    omega
  | release place =>
    have hheld := held_alter h place State.released
    have hnone : (shelf.get? place).elim [] (fun s => s.released.toRelease) = [] := by
      cases shelf.get? place <;> rfl
    rw [hnone, List.append_nil] at hheld
    change (shelf.alter place State.released).held ++ (shelf.carried place ++ shelf.log) ++ [] ~ _
    rw [List.append_nil, ← List.append_assoc]
    exact hheld.append_right _
  | discard place =>
    change (shelf.discard place).held ++ (shelf.carried place ++ shelf.log) ++ [] ~ _
    rw [List.append_nil, ← List.append_assoc]
    exact (held_discard h place).append_right _
  | go place source m =>
    change (shelf.go place source m).held ++ (shelf.go place source m).log ++ [] ~ _
    rw [List.append_nil]
    obtain hgo | ⟨t, ht, hgo⟩ := shelf.go_eq place source m
    · rw [hgo]
      exact .refl _
    · rw [hgo]
      exact held_put h place ht

section Frame

variable {other : Nat}

theorem lookup_cons_of_ne {ps : List (Nat × State)} (p : Nat × State) (hne : other ≠ p.1) :
    List.lookup other (p :: ps) = ps.lookup other := by
  rw [List.lookup_cons, beq_false_of_ne hne]

theorem lookup_filter_of_ne (ps : List (Nat × State)) (hne : other ≠ place) :
    (ps.filter (·.1 ≠ place)).lookup other = ps.lookup other := by
  induction ps with
  | nil => rfl
  | cons p ps ih =>
    by_cases hp : p.1 = place
    · rw [List.filter_cons_of_neg (by simpa using hp), ih, lookup_cons_of_ne p (hp ▸ hne)]
    · rw [List.filter_cons_of_pos (by simpa using hp), List.lookup_cons, List.lookup_cons, ih]

theorem lookup_map_of_ne (ps : List (Nat × State)) (f : State → State) (hne : other ≠ place) :
    (ps.map fun p => if p.1 = place then (p.1, f p.2) else p).lookup other = ps.lookup other := by
  induction ps with
  | nil => rfl
  | cons p ps ih =>
    rw [List.map_cons]
    by_cases hp : p.1 = place
    · rw [if_pos hp, lookup_cons_of_ne _ (hp ▸ hne), lookup_cons_of_ne p (hp ▸ hne), ih]
    · rw [if_neg hp, List.lookup_cons, List.lookup_cons, ih]

theorem get?_put_of_ne (shelf : Shelf) (s : State) (hne : other ≠ place) :
    (shelf.put place s).get? other = shelf.get? other := by
  change List.lookup other ((place, s) :: shelf.places.filter (·.1 ≠ place)) = _
  rw [lookup_cons_of_ne (place, s) hne, lookup_filter_of_ne _ hne]
  rfl

theorem get?_perform_of_ne (shelf : Shelf) (act : Act) (hne : other ≠ act.place) :
    (shelf.perform act).get? other = shelf.get? other := by
  cases act with
  | create place stmt stack => exact shelf.get?_put_of_ne _ hne
  | remember place history => exact lookup_map_of_ne _ (·.withHistory history) hne
  | attach place r => exact lookup_map_of_ne _ (·.attach r) hne
  | release place => exact lookup_map_of_ne _ State.released hne
  | discard place => exact lookup_filter_of_ne _ hne
  | go place source m =>
    rw [perform]
    obtain hgo | ⟨t, -, hgo⟩ := shelf.go_eq place source m
    · rw [hgo]
    · rw [hgo]
      exact shelf.get?_put_of_ne t hne

theorem log_perform (shelf : Shelf) (act : Act) : (shelf.perform act).log = shelf.log ∨
    (shelf.perform act).log = shelf.carried act.place ++ shelf.log := by
  cases act with
  | remember place _ | attach place _ => exact .inl rfl
  | create place _ _ | release place | discard place => exact .inr rfl
  | go place source m =>
    rw [perform]
    obtain hgo | ⟨t, -, hgo⟩ := shelf.go_eq place source m
    · exact .inl (by rw [hgo])
    · exact .inr (by rw [hgo]; rfl)

end Frame

namespace Account

variable {a : Account}

theorem Balanced.act (h : a.Balanced) (act : Act) : (a.act act).Balanced := by
  refine ⟨Single.perform h.single act, ?_⟩
  have hstep := held_perform h.single act
  have hall := h.all
  rw [List.perm_iff_count] at hstep hall ⊢
  intro r
  have hstep := hstep r
  have hall := hall r
  simp only [Account.act, List.count_append] at hstep hall ⊢
  omega

theorem Balanced.after (h : a.Balanced) (acts : List Act) : (a.after acts).Balanced := by
  induction acts generalizing a with
  | nil => exact h
  | cons act acts ih => exact ih (h.act act)

theorem balanced_after (acts : List Act) : (({} : Account).after acts).Balanced :=
  Balanced.after ⟨by simp [Single], .refl _⟩ acts

theorem after_append (before more : List Act) :
    a.after (before ++ more) = (a.after before).after more := List.foldl_append

theorem get?_after_of_ne {place : Nat} {acts : List Act} (h : ∀ act ∈ acts, act.place ≠ place) :
    (a.after acts).shelf.get? place = a.shelf.get? place := by
  induction acts generalizing a with
  | nil => rfl
  | cons act acts ih =>
    obtain ⟨hact, hacts⟩ := List.forall_mem_cons.mp h
    exact (ih hacts).trans (a.shelf.get?_perform_of_ne act hact.symm)

theorem Balanced.not_mem_log (h : a.Balanced) (hgiven : a.given.Nodup) {place : Nat} {s : State}
    {r : Resource} (hs : a.shelf.get? place = some s) (hr : s.resource = some r) :
    r ∉ a.shelf.log := by
  have hheld : r ∈ a.shelf.held := by
    obtain ⟨before, after, hplaces, -⟩ := List.lookup_eq_some_iff.mp hs
    exact List.mem_flatMap.mpr ⟨(place, s), by simp [hplaces], by simp [State.toRelease, hr]⟩
  have hnodup := (h.all.nodup_iff.mpr hgiven).of_append_left
  exact fun hlog => (List.nodup_append.mp hnodup).2.2 r hheld r hlog rfl

theorem Balanced.released_perm (h : a.Balanced) (hgone : a.shelf.places = []) :
    a.shelf.log ++ a.replaced ~ a.given := by
  have hall := h.all
  rwa [held, hgone, List.flatMap_nil, List.nil_append] at hall

/-- When all states are gone, of resources given once each those are released that were not
replaced. -/
theorem Balanced.count_log (h : a.Balanced) (hgone : a.shelf.places = []) (hgiven : a.given.Nodup)
    {r : Resource} (hr : r ∈ a.given) :
    a.shelf.log.count r = if r ∈ a.replaced then 0 else 1 := by
  have hcount := (h.released_perm hgone).count_eq r
  rw [List.count_append, List.count_eq_one_of_mem hgiven hr] at hcount
  split
  · have := List.count_pos_iff.mpr ‹r ∈ a.replaced›
    omega
  · have := List.count_eq_zero.mpr ‹r ∉ a.replaced›
    omega

theorem Balanced.released_once_iff (h : a.Balanced) (hgone : a.shelf.places = [])
    (hgiven : a.given.Nodup) :
    (∀ r ∈ a.given, a.shelf.log.count r = 1) ↔ a.replaced = [] := by
  rw [List.eq_nil_iff_forall_not_mem]
  constructor
  · intro hall r hr
    have hmem : r ∈ a.given := (h.released_perm hgone).subset (List.mem_append_right _ hr)
    have hcount := h.count_log hgone hgiven hmem
    rw [hall r hmem, if_pos hr] at hcount
    cases hcount
  · intro hnone r hr
    rw [h.count_log hgone hgiven hr, if_neg (hnone r)]

/-- A resource is with the state it was given to until it is released or another one replaces it,
and one that is replaced is never released.  What is done to one state releases at most what that
state carries, and a state that comes of another carries nothing, so that nobody but itself releases
what a state was given. -/
theorem released_unless_replaced (acts : List Act) :
    let a := ({} : Account).after acts
    a.shelf.held ++ a.shelf.log ++ a.replaced ~ a.given ∧
      (a.shelf.places = [] → a.given.Nodup →
        (∀ r ∈ a.given, a.shelf.log.count r = if r ∈ a.replaced then 0 else 1) ∧
        ((∀ r ∈ a.given, a.shelf.log.count r = 1) ↔ a.replaced = [])) ∧
      (∀ act, (a.act act).shelf.log = a.shelf.log ∨
        (a.act act).shelf.log = a.shelf.carried act.place ++ a.shelf.log) ∧
      (∀ source m t, a.shelf.get? source >>= Move.next? m = some t → t.resource = none) ∧
      ∀ before more place s, acts = before ++ more →
        (({} : Account).after before).shelf.get? place = some s →
        (∀ act ∈ more, act.place ≠ place) →
        a.shelf.get? place = some s ∧
          ∀ r, s.resource = some r → a.given.Nodup → r ∉ a.shelf.log := by
  intro a
  have h : a.Balanced := balanced_after acts
  refine ⟨h.all, fun hgone hgiven => ⟨fun r => h.count_log hgone hgiven,
    h.released_once_iff hgone hgiven⟩, a.shelf.log_perform, ?comes, ?apart⟩
  case comes =>
    intro source m t ht
    obtain ⟨s, -, ht⟩ := Option.bind_eq_some_iff.mp ht
    exact State.resource_of_next ht
  case apart =>
    rintro before more place s rfl hs hmore
    have hstays : a.shelf.get? place = some s := by
      change (({} : Account).after (before ++ more)).shelf.get? place = some s
      rw [after_append, get?_after_of_ne hmore, hs]
    exact ⟨hstays, fun r hr hgiven => h.not_mem_log hgiven hstays hr⟩

def threeGiven : List Act :=
  [.create 0 ⟨⟨0⟩, 0⟩ (.root ⟨0⟩), .attach 0 ⟨1⟩, .go 1 0 (.advance ⟨⟨0⟩, 1⟩), .attach 1 ⟨2⟩,
    .release 1, .release 1, .attach 1 ⟨3⟩, .remember 1 [⟨⟨0⟩, 2⟩], .discard 1, .discard 0]

theorem released_unless_replaced_threeGiven :
    let a := ({} : Account).after threeGiven
    a.shelf.places = [] ∧ a.given = [⟨3⟩, ⟨2⟩, ⟨1⟩] ∧ a.replaced = [] ∧
      (∀ r ∈ a.given, a.shelf.log.count r = 1) ∧
      ⟨1⟩ ∉ (({} : Account).after (threeGiven.take 9)).shelf.log := by
  intro a
  obtain ⟨-, hgone, -⟩ := released_unless_replaced threeGiven
  obtain ⟨-, hiff⟩ := hgone rfl (by decide)
  obtain ⟨-, -, -, -, hapart⟩ := released_unless_replaced (threeGiven.take 9)
  obtain ⟨-, hlog⟩ := hapart (threeGiven.take 2) ((threeGiven.take 9).drop 2) 0
    { stmt := ⟨⟨0⟩, 0⟩, stack := .root ⟨0⟩, resource := some ⟨1⟩ } rfl rfl (by decide)
  exact ⟨rfl, rfl, rfl, hiff.mpr rfl, hlog _ rfl (by decide)⟩

/-- Of two resources that are given to a state in turn, the first is never released. -/
theorem attach_twice_loses :
    let a := ({} : Account).after
      [.create 0 ⟨⟨0⟩, 0⟩ (.root ⟨0⟩), .attach 0 ⟨1⟩, .attach 0 ⟨2⟩, .discard 0]
    a.shelf.places = [] ∧ a.given = [⟨2⟩, ⟨1⟩] ∧ a.shelf.log = [⟨2⟩] ∧
      ¬ ∀ r ∈ a.given, a.shelf.log.count r = 1 := by
  intro a
  refine ⟨rfl, rfl, rfl, fun hall => ?_⟩
  have hfirst := hall ⟨1⟩ (by decide)
  cases hfirst

end Account

end Shelf

end PathExplorer
