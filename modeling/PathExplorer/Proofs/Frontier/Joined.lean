import PathExplorer.Proofs.Exploration.Tally

namespace PathExplorer

instance {ι : Type} {σ : ι → Type} [∀ i, StopRule (σ i)] : StopRule (Sigma σ) where
  name rule := StopRule.name rule.2
  onVisit s rule := ⟨rule.1, StopRule.onVisit s rule.2⟩
  onTraversed s rule := ⟨rule.1, StopRule.onTraversed s rule.2⟩
  stops rule := StopRule.stops rule.2

theorem foldl_hear_sigma {ι : Type} {σ : ι → Type} [∀ i, StopRule (σ i)] (rule : Sigma σ)
    (events : List Event) :
    events.foldl StopRule.hear rule = ⟨rule.1, events.foldl StopRule.hear rule.2⟩ := by
  induction events generalizing rule with
  | nil => rfl
  | cons event events ih =>
    rw [List.foldl_cons, List.foldl_cons, ih]
    cases event <;> rfl

namespace AnyOf

variable {τ : Type}

def push (r rule : AnyOf τ) : AnyOf τ := any (r.parts ++ [rule])

/-- The part of a tree at an address, which says what part to take at every level. -/
def at? (r : AnyOf τ) : List Nat → Option (AnyOf τ)
  | [] => some r
  | i :: address => r.parts[i]? >>= fun part => part.at? address

section Shape

variable (f g : τ → τ)

theorem mapAll_eq (rules : List (AnyOf τ)) : mapAll f rules = rules.map (map f) := by
  induction rules with
  | nil => rfl
  | cons r rules ih => rw [mapAll, ih, List.map_cons]

theorem leavesAll_eq (rules : List (AnyOf τ)) : leavesAll rules = rules.flatMap leaves := by
  induction rules with
  | nil => rfl
  | cons r rules ih => rw [leavesAll, ih, List.flatMap_cons]

theorem stopsAny_eq [StopRule τ] (rules : List (AnyOf τ)) : stopsAny rules = rules.any stops := by
  induction rules with
  | nil => rfl
  | cons r rules ih => rw [stopsAny, ih, List.any_cons]

theorem map_any (rules : List (AnyOf τ)) : map f (any rules) = any (rules.map (map f)) := by
  rw [map, mapAll_eq]

theorem leaves_any (rules : List (AnyOf τ)) : leaves (any rules) = rules.flatMap leaves := by
  rw [leaves, leavesAll_eq]

theorem stops_any [StopRule τ] (rules : List (AnyOf τ)) : stops (any rules) = rules.any stops := by
  rw [stops, stopsAny_eq]

@[elab_as_elim]
theorem treeInduction {motive : AnyOf τ → Prop} (one : ∀ rule, motive (one rule))
    (any : ∀ rules, (∀ r ∈ rules, motive r) → motive (any rules)) : ∀ r, motive r
  | .one rule => one rule
  | .any rules => any rules fun r _ => treeInduction one any r

theorem map_map (r : AnyOf τ) : map g (map f r) = map (fun rule => g (f rule)) r := by
  induction r using treeInduction with
  | one rule => rfl
  | any rules ih =>
    rw [map_any, map_any, map_any, List.map_map]
    exact congrArg any (List.map_congr_left ih)

theorem map_id (r : AnyOf τ) : map (fun rule => rule) r = r := by
  induction r using treeInduction with
  | one rule => rfl
  | any rules ih =>
    rw [map_any]
    exact congrArg any ((List.map_congr_left ih).trans (List.map_id _))

theorem leaves_map (r : AnyOf τ) : (map f r).leaves = r.leaves.map f := by
  induction r using treeInduction with
  | one rule => rfl
  | any rules ih =>
    rw [map_any, leaves_any, leaves_any, List.flatMap_map, List.map_flatMap]
    exact List.flatMap_congr ih

theorem parts_map (r : AnyOf τ) : (map f r).parts = r.parts.map (map f) := by
  cases r with
  | one rule => rfl
  | any rules => rw [map_any, parts, parts]

theorem at?_map (r : AnyOf τ) (address : List Nat) :
    (map f r).at? address = (r.at? address).map (map f) := by
  induction address generalizing r with
  | nil => rfl
  | cons i address ih =>
    rw [at?, at?, parts_map, List.getElem?_map]
    cases r.parts[i]? with
    | none => rfl
    | some part => exact ih part

theorem at?_one_eq_some_iff {rule : τ} {part : AnyOf τ} {address : List Nat} :
    (one rule).at? address = some part ↔ address = [] ∧ part = one rule := by
  cases address with
  | nil => simp [at?, eq_comm]
  | cons i address =>
    have hnone : (one rule).at? (i :: address) = none := rfl
    simp [hnone]

theorem at?_any_eq_one_iff {rules : List (AnyOf τ)} {rule : τ} {address : List Nat} :
    (any rules).at? address = some (one rule) ↔ ∃ i rest part, address = i :: rest ∧
      rules[i]? = some part ∧ part.at? rest = some (one rule) := by
  cases address with
  | nil => simp [at?]
  | cons i address =>
    rw [at?, parts]
    constructor
    · intro h
      obtain ⟨part, hpart, hrule⟩ := Option.bind_eq_some_iff.mp h
      exact ⟨i, address, part, rfl, hpart, hrule⟩
    · rintro ⟨_, _, part, ⟨⟩, hpart, hrule⟩
      exact Option.bind_eq_some_iff.mpr ⟨part, hpart, hrule⟩

theorem mem_leaves_iff {r : AnyOf τ} {rule : τ} :
    rule ∈ r.leaves ↔ ∃ address, r.at? address = some (one rule) := by
  induction r using treeInduction with
  | one other =>
    simp only [leaves, List.mem_singleton, at?_one_eq_some_iff, one.injEq, exists_eq_left]
  | any rules ih =>
    rw [leaves_any, List.mem_flatMap]
    simp only [at?_any_eq_one_iff]
    constructor
    · rintro ⟨part, hpart, hrule⟩
      obtain ⟨rest, hrest⟩ := (ih part hpart).mp hrule
      obtain ⟨i, hi⟩ := List.mem_iff_getElem?.mp hpart
      exact ⟨_, i, rest, part, rfl, hi, hrest⟩
    · rintro ⟨_, i, rest, part, rfl, hi, hrest⟩
      have hpart := List.mem_of_getElem? hi
      exact ⟨part, hpart, (ih part hpart).mpr ⟨rest, hrest⟩⟩

theorem foldl_push (rules before : List (AnyOf τ)) :
    rules.foldl push (any before) = any (before ++ rules) := by
  induction rules generalizing before with
  | nil => rw [List.append_nil, List.foldl_nil]
  | cons r rules ih =>
    rw [List.foldl_cons, push, ih, parts, List.append_assoc, List.singleton_append]

end Shape

section Told

variable [StopRule τ] {r : AnyOf τ}

theorem hear_eq (r : AnyOf τ) (event : Event) :
    StopRule.hear r event = map (fun rule => StopRule.hear rule event) r := by
  cases event <;> rfl

/-- Each rule of a tree hears all that the tree is told, whether or not another one stops. -/
theorem foldl_hear (r : AnyOf τ) (events : List Event) :
    events.foldl StopRule.hear r = map (fun rule => events.foldl StopRule.hear rule) r := by
  induction events generalizing r with
  | nil => exact (map_id r).symm
  | cons event events ih =>
    rw [List.foldl_cons, ih, hear_eq, map_map]
    rfl

theorem stops_eq_any_leaves (r : AnyOf τ) : StopRule.stops r = r.leaves.any StopRule.stops := by
  change r.stops = _
  induction r using treeInduction with
  | one rule => simp [stops, leaves]
  | any rules ih =>
    rw [stops_any, leaves_any, List.any_flatMap, Bool.eq_iff_iff, List.any_eq_true,
      List.any_eq_true]
    exact exists_congr fun r => and_congr_right fun hr => by rw [ih r hr]

theorem stoppedBy?_eq_some_iff {name : String} : r.stoppedBy? = some name ↔
    ∃ before part after, r.parts = before ++ part :: after ∧
      (∀ other ∈ before, StopRule.stops other = false) ∧ StopRule.stops part = true ∧
      StopRule.name part = name := by
  rw [stoppedBy?, Option.map_eq_some_iff]
  constructor
  · rintro ⟨part, hfind, hname⟩
    obtain ⟨hstops, before, after, hparts, hbefore⟩ := List.find?_eq_some_iff_append.mp hfind
    refine ⟨before, part, after, hparts, fun other ho => ?_, hstops, hname⟩
    exact (Bool.not_eq_true' _).mp (hbefore other ho)
  · rintro ⟨before, part, after, hparts, hbefore, hstops, hname⟩
    refine ⟨part, List.find?_eq_some_iff_append.mpr ⟨hstops, before, after, hparts, ?_⟩, hname⟩
    exact fun other ho => (Bool.not_eq_true' _).mpr (hbefore other ho)

theorem stops_iff_stoppedBy? (rules : List (AnyOf τ)) :
    StopRule.stops (any rules) = true ↔ ∃ name, (any rules).stoppedBy? = some name := by
  change (any rules).stops = true ↔ _
  rw [stops_any, List.any_eq_true, stoppedBy?, parts]
  simp only [Option.map_eq_some_iff]
  constructor
  · intro h
    obtain ⟨part, hpart⟩ := Option.isSome_iff_exists.mp (List.find?_isSome.mpr h)
    exact ⟨_, part, hpart, rfl⟩
  · rintro ⟨_, part, hpart, -⟩
    exact ⟨part, List.mem_of_find?_eq_some hpart, List.find?_some hpart⟩

end Told

section Kinds

variable {ι : Type} {σ : ι → Type} [∀ i, StopRule (σ i)]

/-- Whatever a tree of rules of any kinds is told, each rule in it becomes what it becomes alone,
and the tree stops when one of them does.  A joined rule stops when it can say by which of its
parts, and that is the first, in order, that stops.  Joining rules one by one is joining them at
once. -/
theorem joins_undisturbed (r : AnyOf (Sigma σ)) (events : List Event) :
    let alone (rule : Sigma σ) : Sigma σ := ⟨rule.1, events.foldl StopRule.hear rule.2⟩
    let t := events.foldl StopRule.hear r
    (∀ rule, rule ∈ r.leaves ↔ ∃ address, r.at? address = some (one rule)) ∧
      (∀ address rule, r.at? address = some (one rule) →
        t.at? address = some (one (alone rule))) ∧
      t.leaves = r.leaves.map alone ∧
      StopRule.stops t = (r.leaves.map alone).any StopRule.stops ∧
      (∀ address rules, t.at? address = some (any rules) →
        (StopRule.stops (any rules) = true ↔ ∃ name, (any rules).stoppedBy? = some name) ∧
        ∀ name, (any rules).stoppedBy? = some name ↔ ∃ before part after,
          rules = before ++ part :: after ∧ (∀ other ∈ before, StopRule.stops other = false) ∧
          StopRule.stops part = true ∧ StopRule.name part = name) ∧
      ∀ rules : List (AnyOf (Sigma σ)), rules.foldl push (any []) = any rules := by
  intro alone t
  have hrule : (fun rule : Sigma σ => events.foldl StopRule.hear rule) = alone :=
    funext fun rule => foldl_hear_sigma rule events
  have ht : t = map alone r := hrule ▸ foldl_hear r events
  have hleaves : t.leaves = r.leaves.map alone := ht ▸ leaves_map alone r
  refine ⟨fun _ => mem_leaves_iff, fun address rule hat => ?_, hleaves, ?_, ?_,
    fun rules => foldl_push rules []⟩
  · rw [ht, at?_map, hat]
    rfl
  · rw [stops_eq_any_leaves, hleaves]
  · exact fun _ rules _ => ⟨stops_iff_stoppedBy? rules, fun _ => stoppedBy?_eq_some_iff⟩

end Kinds

inductive Kind where
  | never
  | stepsLimit
  | goals

def Kind.Rule : Kind → Type
  | never => NeverStop
  | stepsLimit => StepsLimit
  | goals => GoalTracker

instance : ∀ kind : Kind, StopRule kind.Rule
  | .never => inferInstanceAs (StopRule NeverStop)
  | .stepsLimit => inferInstanceAs (StopRule StepsLimit)
  | .goals => inferInstanceAs (StopRule GoalTracker)

def limitInside : AnyOf (Sigma Kind.Rule) :=
  any [one ⟨.never, NeverStop.mk⟩, any [one ⟨.stepsLimit, StepsLimit.mk 1 0⟩,
    one ⟨.goals, .ofRegistry ⟨⟨[⟨⟨⟨⟨0⟩, 0⟩⟩, ⟨⟨⟨0⟩, 1⟩⟩⟩], by simp⟩⟩⟩], any []]

theorem joins_undisturbed_limitInside :
    let s := State.root ⟨⟨0⟩, 1⟩
    let t := [Event.visited s, .traversed s, .visited s].foldl StopRule.hear limitInside
    t.at? [1, 0] = some (one ⟨.stepsLimit, StepsLimit.mk 1 2⟩) ∧ t.stoppedBy? = some "any-of" ∧
      (t.at? [1]).bind stoppedBy? = some "steps-limit" := by
  intro s t
  obtain ⟨-, hat, -, -, hjoined, -⟩ :=
    joins_undisturbed limitInside [.visited s, .traversed s, .visited s]
  refine ⟨hat [1, 0] _ rfl, ((hjoined [] _ rfl).2 _).mpr ?_, ((hjoined [1] _ rfl).2 _).mpr ?_⟩
  · exact ⟨[one ⟨.never, NeverStop.mk⟩], _, _, rfl, List.forall_mem_singleton.mpr rfl, rfl, rfl⟩
  · exact ⟨[], _, _, rfl, by simp, rfl, rfl⟩

end AnyOf

end PathExplorer
