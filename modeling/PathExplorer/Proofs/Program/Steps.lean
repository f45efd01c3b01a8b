import Mathlib.Data.List.Infix
import PathExplorer.Program.Draft

namespace PathExplorer

inductive Step where
  | declare (name : String)
  | define (m : Method) (body : Body)
  | method (name : String) (body : Body)
  | call (site : Stmt) (callee : Method)

namespace Step

def linear (name : String) (kinds : List Kind) : Step := .method name (.linear kinds)

def perform : Step → Draft → Draft
  | declare name => Draft.declare name
  | define m body => Draft.define m body
  | method name body => Draft.method name body
  | call site callee => Draft.call site callee

def declares : Step → Bool
  | declare _ | method .. => true
  | _ => false

def call? : Step → Option Call
  | call site callee => some ⟨site, callee⟩
  | _ => none

def isCall (step : Step) : Bool := step.call?.isSome

def declared (steps : List Step) : Nat := steps.countP declares

def calls (steps : List Step) : List Call := steps.filterMap call?

def At (steps before : List Step) (step : Step) : Prop := before ++ [step] <+: steps

/-- The step gives a method its body, which is declared before or in the same step. -/
def Gives (before : List Step) (m : Method) (body : Body) : Step → Prop
  | define n b => n = m ∧ b = body ∧ m.index < declared before
  | method _ b => m.index = declared before ∧ b = body
  | _ => False

def Strays (before : List Step) (m : Method) : Step → Prop
  | define n _ => n = m ∧ declared before ≤ m.index
  | _ => False

def NoStray (steps : List Step) : Prop := ∀ before step m, At steps before step →
  ¬ step.Strays before m

def FirstStray (steps : List Step) (m : Method) : Prop :=
  ∃ before step, At steps before step ∧ step.Strays before m ∧ NoStray before

/-- No step behind the one that gives the method this body gives it another one. -/
def LastBody (steps : List Step) (m : Method) (body : Body) : Prop :=
  ∃ before step, At steps before step ∧ step.Gives before m body ∧
    ∀ before' step' body', At steps before' step' → step'.Gives before' m body' →
      before'.length ≤ before.length

variable {steps before : List Step} {s step : Step} {m : Method} {body body' : Body}

theorem at_concat : At (steps ++ [s]) before step ↔
    At steps before step ∨ before = steps ∧ step = s := by
  rw [At, At, List.prefix_concat_iff, or_comm, List.append_singleton_inj]

theorem At.length_lt (h : At steps before step) : before.length < steps.length := by
  have hle := h.length_le
  rwa [List.length_append, List.length_singleton] at hle

theorem not_at_nil : ¬ At [] before step := fun h => absurd h.length_lt (Nat.not_lt_zero _)

theorem noStray_concat : NoStray (steps ++ [s]) ↔ NoStray steps ∧ ∀ m, ¬ s.Strays steps m := by
  constructor
  · intro h
    exact ⟨fun before step m hat => h before step m (at_concat.mpr (.inl hat)),
      fun m => h steps s m (at_concat.mpr (.inr ⟨rfl, rfl⟩))⟩
  · rintro ⟨hold, hnew⟩ before step m hat
    obtain hat | ⟨rfl, rfl⟩ := at_concat.mp hat
    · exact hold before step m hat
    · exact hnew m

theorem firstStray_concat : FirstStray (steps ++ [s]) m ↔
    FirstStray steps m ∨ NoStray steps ∧ s.Strays steps m := by
  constructor
  · rintro ⟨before, step, hat, hstray, hbefore⟩
    obtain hat | ⟨rfl, rfl⟩ := at_concat.mp hat
    · exact .inl ⟨before, step, hat, hstray, hbefore⟩
    · exact .inr ⟨hbefore, hstray⟩
  · rintro (⟨before, step, hat, hstray, hbefore⟩ | ⟨hbefore, hstray⟩)
    · exact ⟨before, step, at_concat.mpr (.inl hat), hstray, hbefore⟩
    · exact ⟨steps, s, at_concat.mpr (.inr ⟨rfl, rfl⟩), hstray, hbefore⟩

theorem Gives.unique (h : s.Gives before m body) (h' : s.Gives before m body') : body' = body := by
  cases s with
  | define n b =>
    obtain ⟨-, rfl, -⟩ := h
    exact h'.2.1.symm
  | method name b =>
    obtain ⟨-, rfl⟩ := h
    exact h'.2.symm
  | declare _ | call _ _ => exact absurd h id

theorem lastBody_concat_of_gives (h : s.Gives steps m body) :
    LastBody (steps ++ [s]) m body' ↔ body' = body := by
  constructor
  · rintro ⟨before, step, hat, hgives, hlast⟩
    have hle := hlast steps s body (at_concat.mpr (.inr ⟨rfl, rfl⟩)) h
    obtain hat | ⟨rfl, rfl⟩ := at_concat.mp hat
    · exact absurd hat.length_lt (Nat.not_lt_of_le hle)
    · exact h.unique hgives
  · rintro rfl
    refine ⟨steps, s, at_concat.mpr (.inr ⟨rfl, rfl⟩), h, fun before' step' _ hat _ => ?_⟩
    have hlt := hat.length_lt
    rw [List.length_append, List.length_singleton] at hlt
    exact Nat.le_of_lt_succ hlt

theorem lastBody_concat_of_not (h : ∀ body, ¬ s.Gives steps m body) :
    LastBody (steps ++ [s]) m body ↔ LastBody steps m body := by
  constructor
  · rintro ⟨before, step, hat, hgives, hlast⟩
    obtain hat | ⟨rfl, rfl⟩ := at_concat.mp hat
    · exact ⟨before, step, hat, hgives, fun b t x hbt => hlast b t x (at_concat.mpr (.inl hbt))⟩
    · exact absurd hgives (h body)
  · rintro ⟨before, step, hat, hgives, hlast⟩
    refine ⟨before, step, at_concat.mpr (.inl hat), hgives, fun b t x hbt hx => ?_⟩
    obtain hbt | ⟨rfl, rfl⟩ := at_concat.mp hbt
    · exact hlast b t x hbt hx
    · exact absurd hx (h x)

theorem calls_concat : calls (steps ++ [s]) = calls steps ++ s.call?.toList := by
  rw [calls, calls, List.filterMap_append]
  cases h : s.call? <;> simp [h]

theorem calls_filter (steps : List Step) : calls (steps.filter isCall) = calls steps := by
  rw [calls, calls, List.filterMap_filter]
  refine List.filterMap_congr fun s _ => ?_
  rw [isCall]
  cases s.call? <;> rfl

end Step

namespace Draft

open Step (LastBody NoStray FirstStray declared)

theorem length_names_nil : ([] : List String).length = ([] : List (Option Body)).length := rfl

def ofSteps (steps : List Step) : Draft :=
  steps.foldl (fun d step => step.perform d) { names_length := length_names_nil }

structure Bodies (steps : List Step) (bodies : List (Option Body)) : Prop where
  length : bodies.length = declared steps
  body : ∀ (i : Nat) body, bodies[i]? = some (some body) ↔ LastBody steps ⟨i⟩ body

structure Strays (steps : List Step) (undeclared : List Method) : Prop where
  clean : undeclared = [] ↔ NoStray steps
  first : ∀ m, undeclared.head? = some m ↔ FirstStray steps m

variable {steps : List Step} {s : Step} {bodies bodies' : List (Option Body)} {m : Method}
  {undeclared : List Method}

theorem bodies_nil : Bodies [] [] where
  length := rfl
  body i body := by
    refine ⟨fun h => by simp at h, ?_⟩
    rintro ⟨_, _, hat, -⟩
    exact absurd hat Step.not_at_nil

theorem Bodies.keep (h : Bodies steps bodies) (hlength : bodies'.length = declared (steps ++ [s]))
    (hbodies : ∀ (i : Nat) body, bodies'[i]? = some (some body) ↔ bodies[i]? = some (some body))
    (hgives : ∀ m body, ¬ s.Gives steps m body) : Bodies (steps ++ [s]) bodies' where
  length := hlength
  body i body := by rw [hbodies, h.body, Step.lastBody_concat_of_not (hgives ⟨i⟩)]

theorem Bodies.give (h : Bodies steps bodies) {body : Body}
    (hlength : bodies'.length = declared (steps ++ [s]))
    (hbody : bodies'[m.index]? = some (some body))
    (hbodies : ∀ i : Nat, i ≠ m.index → bodies'[i]? = bodies[i]?)
    (hgives : ∀ n b, s.Gives steps n b ↔ n = m ∧ b = body) : Bodies (steps ++ [s]) bodies' where
  length := hlength
  body i b := by
    by_cases hi : i = m.index
    · subst hi
      rw [hbody, Step.lastBody_concat_of_gives ((hgives m body).mpr ⟨rfl, rfl⟩)]
      simp [eq_comm]
    · rw [hbodies i hi, h.body, Step.lastBody_concat_of_not]
      exact fun b hb => hi (congrArg Method.index ((hgives _ b).mp hb).1)

theorem strays_nil : Strays [] [] where
  clean := ⟨fun _ _ _ _ hat => absurd hat Step.not_at_nil, fun _ => rfl⟩
  first m := by
    refine ⟨fun h => by simp at h, ?_⟩
    rintro ⟨_, _, hat, -⟩
    exact absurd hat Step.not_at_nil

theorem Strays.keep (h : Strays steps undeclared) (hs : ∀ m, ¬ s.Strays steps m) :
    Strays (steps ++ [s]) undeclared where
  clean := by
    rw [h.clean, Step.noStray_concat]
    exact (and_iff_left hs).symm
  first m := by
    rw [h.first, Step.firstStray_concat]
    exact (or_iff_left fun hm => hs m hm.2).symm

theorem Strays.add (h : Strays steps undeclared) (hs : ∀ n, s.Strays steps n ↔ n = m) :
    Strays (steps ++ [s]) (undeclared ++ [m]) where
  clean := by
    rw [Step.noStray_concat]
    refine ⟨fun hnil => by simp at hnil, fun hnone => absurd ((hs m).mpr rfl) (hnone.2 m)⟩
  first n := by
    rw [Step.firstStray_concat, ← h.first, ← h.clean, hs, List.head?_append]
    cases undeclared <;> simp [eq_comm]

structure Records (steps : List Step) (d : Draft) : Prop where
  bodies : Bodies steps d.bodies
  undeclared : Strays steps d.undeclared

theorem declared_concat (steps : List Step) (s : Step) :
    declared (steps ++ [s]) = declared steps + if s.declares then 1 else 0 := by
  rw [declared, declared, List.countP_append, List.countP_singleton]

theorem getElem?_concat_of_ne {α : Type} {l : List α} {a : α} {i : Nat} (hi : i ≠ l.length) :
    (l ++ [a])[i]? = l[i]? := by
  rw [List.getElem?_append]
  split
  · rfl
  · rw [List.getElem?_eq_none, List.getElem?_eq_none]
    · omega
    · rw [List.length_singleton]
      omega

namespace Records

variable {d : Draft} (h : d.Records steps)
include h

theorem declare (name : String) : (d.declare name).Records (steps ++ [.declare name]) := by
  have hlength : (d.declare name).bodies.length = declared (steps ++ [.declare name]) := by
    rw [declared_concat, ← h.bodies.length]
    exact List.length_append
  refine ⟨h.bodies.keep hlength (fun i body => ?_) fun _ _ => id, h.undeclared.keep fun _ => id⟩
  change (d.bodies ++ [none])[i]? = _ ↔ _
  by_cases hi : i = d.bodies.length
  · subst hi
    rw [List.getElem?_concat_length, List.getElem?_eq_none (Nat.le_refl _)]
    simp
  · rw [getElem?_concat_of_ne hi]

theorem define (m : Method) (body : Body) :
    (d.define m body).Records (steps ++ [.define m body]) := by
  have hsame : declared (steps ++ [.define m body]) = declared steps := declared_concat ..
  have hlength := h.bodies.length.trans hsame.symm
  unfold Draft.define
  split
  · rename_i hm
    rw [h.bodies.length] at hm
    refine ⟨h.bodies.give ((List.length_set ..).trans hlength)
      (List.getElem?_set_self (h.bodies.length.symm ▸ hm))
      (fun i hi => List.getElem?_set_ne hi.symm) fun n b => ?_, h.undeclared.keep ?_⟩
    · constructor
      · rintro ⟨rfl, rfl, -⟩
        exact ⟨rfl, rfl⟩
      · rintro ⟨rfl, rfl⟩
        exact ⟨rfl, rfl, hm⟩
    · rintro n ⟨rfl, hle⟩
      exact absurd hm (Nat.not_lt_of_le hle)
  · rename_i hm
    rw [h.bodies.length, Nat.not_lt] at hm
    refine ⟨h.bodies.keep hlength (fun _ _ => .rfl) ?_, h.undeclared.add fun n => ?_⟩
    · rintro n b ⟨rfl, -, hlt⟩
      exact absurd hlt (Nat.not_lt_of_le hm)
    · constructor
      · exact fun hn => hn.1.symm
      · rintro rfl
        exact ⟨rfl, hm⟩

theorem method (name : String) (body : Body) :
    (d.method name body).Records (steps ++ [.method name body]) := by
  have hnext : d.nextMethod.index < (d.declare name).bodies.length := by
    simp [Draft.declare, nextMethod]
  have hbodies : (d.method name body).bodies = d.bodies ++ [some body] := by
    rw [Draft.method, Draft.define, if_pos hnext]
    change (d.bodies ++ [none]).set d.bodies.length (some body) = _
    rw [List.set_append_right _ _ (Nat.le_refl _), Nat.sub_self]
    rfl
  have hundeclared : (d.method name body).undeclared = d.undeclared := by
    rw [Draft.method, Draft.define, if_pos hnext]
    rfl
  refine ⟨hbodies ▸ h.bodies.give (m := d.nextMethod) ?length List.getElem?_concat_length
    (fun i hi => getElem?_concat_of_ne hi) fun n b => ?gives,
    hundeclared ▸ h.undeclared.keep fun _ => id⟩
  case length =>
    rw [declared_concat, ← h.bodies.length]
    exact List.length_append
  case gives =>
    constructor
    · rintro ⟨hn, rfl⟩
      exact ⟨by rw [nextMethod, h.bodies.length, ← hn], rfl⟩
    · rintro ⟨rfl, rfl⟩
      exact ⟨h.bodies.length, rfl⟩

theorem call (site : Stmt) (callee : Method) :
    (d.call site callee).Records (steps ++ [.call site callee]) := by
  have hsame : declared (steps ++ [.call site callee]) = declared steps := declared_concat ..
  exact ⟨h.bodies.keep (h.bodies.length.trans hsame.symm) (fun _ _ => .rfl) fun _ _ => id,
    h.undeclared.keep fun _ => id⟩

theorem perform (s : Step) : (s.perform d).Records (steps ++ [s]) := by
  cases s with
  | declare name => exact h.declare name
  | define m body => exact h.define m body
  | method name body => exact h.method name body
  | call site callee => exact h.call site callee

end Records

theorem ofSteps_concat (steps : List Step) (s : Step) :
    ofSteps (steps ++ [s]) = s.perform (ofSteps steps) := by
  rw [ofSteps, ofSteps, List.foldl_append]
  rfl

theorem records_ofSteps (steps : List Step) : (ofSteps steps).Records steps := by
  induction steps using List.reverseRecOn with
  | nil => exact ⟨bodies_nil, strays_nil⟩
  | append_singleton steps s ih =>
    rw [ofSteps_concat]
    exact ih.perform s

theorem define_calls (m : Method) (body : Body) (d : Draft) (calls : List Call) :
    Draft.define m body { d with calls } = { Draft.define m body d with calls } := by
  unfold Draft.define
  dsimp only
  split <;> rfl

theorem perform_calls (hs : s.isCall = false) (d : Draft) (calls : List Call) :
    s.perform { d with calls } = { s.perform d with calls } := by
  cases s with
  | declare name => rfl
  | define m body => exact define_calls m body d calls
  | method name body => exact define_calls d.nextMethod body (d.declare name) calls
  | call site callee => cases hs

theorem ofSteps_eq (steps : List Step) : ofSteps steps =
    { ofSteps (steps.filter (!·.isCall)) with calls := Step.calls steps } := by
  induction steps using List.reverseRecOn with
  | nil => rfl
  | append_singleton steps s ih =>
    rw [ofSteps_concat, ih, List.filter_append, Step.calls_concat]
    cases hs : s.isCall with
    | true =>
      rw [List.filter_cons_of_neg (by simp [hs]), List.filter_nil, List.append_nil]
      cases s with
      | call site callee => rfl
      | _ => cases hs
    | false =>
      have hnone : s.call? = none := by simpa [Step.isCall] using hs
      rw [List.filter_cons_of_pos (by simp [hs]), List.filter_nil, ofSteps_concat,
        perform_calls hs, hnone, Option.toList_none, List.append_nil]

theorem calls_ofSteps (steps : List Step) : (ofSteps steps).calls = Step.calls steps := by
  rw [ofSteps_eq]

theorem ofSteps_eq_of_filter_eq {steps others : List Step}
    (hcalls : others.filter Step.isCall = steps.filter Step.isCall)
    (hrest : others.filter (!·.isCall) = steps.filter (!·.isCall)) :
    ofSteps others = ofSteps steps := by
  have hsame : Step.calls others = Step.calls steps := by
    rw [← Step.calls_filter, hcalls, Step.calls_filter]
  rw [ofSteps_eq others, ofSteps_eq steps, hrest, hsame]

end Draft

end PathExplorer
