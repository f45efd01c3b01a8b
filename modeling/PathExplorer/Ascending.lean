namespace PathExplorer

/-- A finite set, listed in strictly ascending order. -/
structure Ascending (α : Type) [Ord α] where
  toList : List α
  sorted : toList.Pairwise (fun a b => compare a b = .lt)

namespace Ascending

variable {α β : Type} [Ord α] [Ord β]

def empty : Ascending α := ⟨[], .nil⟩

def size (s : Ascending α) : Nat := s.toList.length

def isEmpty (s : Ascending α) : Bool := s.toList.isEmpty

def filter (p : α → Bool) (s : Ascending α) : Ascending α :=
  ⟨s.toList.filter p, s.sorted.filter p⟩

instance : Membership α (Ascending α) := ⟨fun s a => a ∈ s.toList⟩

instance [DecidableEq α] (a : α) (s : Ascending α) : Decidable (a ∈ s) :=
  inferInstanceAs (Decidable (a ∈ s.toList))

instance : EmptyCollection (Ascending α) := ⟨empty⟩

theorem mem_iff {a : α} {s : Ascending α} : a ∈ s ↔ a ∈ s.toList := Iff.rfl

theorem ext_toList {s t : Ascending α} (h : s.toList = t.toList) : s = t := by
  cases s; cases t; cases h; rfl

instance [DecidableEq α] : DecidableEq (Ascending α) := fun s t =>
  if h : s.toList = t.toList then isTrue (ext_toList h)
  else isFalse fun e => h (e ▸ rfl)

@[simp] theorem not_mem_empty (a : α) : a ∉ (empty : Ascending α) := by
  simp [mem_iff, empty]

@[simp] theorem mem_filter {p : α → Bool} {a : α} {s : Ascending α} :
    a ∈ s.filter p ↔ a ∈ s ∧ p a = true := by
  simp [mem_iff, filter]

def place (a : α) : List α → List α
  | [] => [a]
  | b :: l =>
    match compare a b with
    | .lt => a :: b :: l
    | .eq => b :: l
    | .gt => b :: place a l

section Laws

variable [Std.TransOrd α] [Std.LawfulEqOrd α]

omit [Std.LawfulEqOrd α] in
theorem compare_self_ne_lt (a : α) : compare a a ≠ .lt := by
  simp [Std.ReflCmp.compare_self]

omit [Std.LawfulEqOrd α] in
theorem nodup_toList (s : Ascending α) : s.toList.Nodup :=
  s.sorted.imp fun {a b} h (he : a = b) => compare_self_ne_lt b (he ▸ h)

omit [Std.TransOrd α] in
theorem mem_place {a c : α} {l : List α} : c ∈ place a l ↔ c = a ∨ c ∈ l := by
  induction l with
  | nil => simp [place]
  | cons b l ih =>
    unfold place
    split
    · simp
    · rename_i h
      have hab : a = b := Std.LawfulEqOrd.eq_of_compare h
      subst hab
      simp
    · simp [ih, or_left_comm]

theorem sorted_place (a : α) {l : List α} (h : l.Pairwise (fun a b => compare a b = .lt)) :
    (place a l).Pairwise (fun a b => compare a b = .lt) := by
  induction l with
  | nil => simp [place]
  | cons b l ih =>
    obtain ⟨hb, hl⟩ := List.pairwise_cons.mp h
    unfold place
    split
    · rename_i hab
      refine List.pairwise_cons.mpr ⟨fun c hc => ?_, h⟩
      rcases List.mem_cons.mp hc with rfl | hc
      · exact hab
      · exact Std.TransCmp.lt_trans hab (hb c hc)
    · exact h
    · rename_i hab
      refine List.pairwise_cons.mpr ⟨fun c hc => ?_, ih hl⟩
      rcases mem_place.mp hc with rfl | hc
      · exact Std.OrientedCmp.gt_iff_lt.mp hab
      · exact hb c hc

def insert (a : α) (s : Ascending α) : Ascending α :=
  ⟨place a s.toList, sorted_place a s.sorted⟩

def ofList (l : List α) : Ascending α := l.foldr insert empty

@[simp] theorem mem_insert {a c : α} {s : Ascending α} : c ∈ s.insert a ↔ c = a ∨ c ∈ s :=
  mem_place

@[simp] theorem mem_ofList {a : α} {l : List α} : a ∈ ofList l ↔ a ∈ l := by
  induction l with
  | nil => simp [ofList]
  | cons b l ih =>
    have h : ofList (b :: l) = (ofList l).insert b := rfl
    simp [h, ih]

theorem eq_of_mem_iff {l m : List α} (hl : l.Pairwise (fun a b => compare a b = .lt))
    (hm : m.Pairwise (fun a b => compare a b = .lt)) (h : ∀ a, a ∈ l ↔ a ∈ m) : l = m := by
  induction l generalizing m with
  | nil =>
    cases m with
    | nil => rfl
    | cons b m => exact absurd ((h b).mpr (List.mem_cons_self ..)) (by simp)
  | cons a l ih =>
    cases m with
    | nil => exact absurd ((h a).mp (List.mem_cons_self ..)) (by simp)
    | cons b m =>
      obtain ⟨ha, hl'⟩ := List.pairwise_cons.mp hl
      obtain ⟨hb, hm'⟩ := List.pairwise_cons.mp hm
      have irrefl : ∀ x : α, compare x x ≠ .lt := fun x hx => by
        simp [Std.ReflCmp.compare_self] at hx
      have hab : a = b := by
        rcases List.mem_cons.mp ((h a).mp (List.mem_cons_self ..)) with e | ham
        · exact e
        · rcases List.mem_cons.mp ((h b).mpr (List.mem_cons_self ..)) with e | hbl
          · exact e.symm
          · exact absurd (Std.TransCmp.lt_trans (ha b hbl) (hb a ham)) (irrefl a)
      subst hab
      congr 1
      refine ih hl' hm' fun c => ⟨fun hc => ?_, fun hc => ?_⟩
      · rcases List.mem_cons.mp ((h c).mp (List.mem_cons_of_mem _ hc)) with e | hc'
        · exact absurd (e ▸ ha c hc) (irrefl a)
        · exact hc'
      · rcases List.mem_cons.mp ((h c).mpr (List.mem_cons_of_mem _ hc)) with e | hc'
        · exact absurd (e ▸ hb c hc) (irrefl a)
        · exact hc'

theorem ext_mem {s t : Ascending α} (h : ∀ a, a ∈ s ↔ a ∈ t) : s = t :=
  ext_toList (eq_of_mem_iff s.sorted t.sorted h)

end Laws

def map [Std.TransOrd β] [Std.LawfulEqOrd β] (f : α → β) (s : Ascending α) : Ascending β :=
  ofList (s.toList.map f)

@[simp] theorem mem_map [Std.TransOrd β] [Std.LawfulEqOrd β] {f : α → β} {s : Ascending α} {b : β} :
    b ∈ s.map f ↔ ∃ a, a ∈ s ∧ f a = b := by
  rw [map, mem_ofList, List.mem_map]
  rfl

end Ascending

end PathExplorer
