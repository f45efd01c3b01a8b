import PathExplorer.Proofs.Exploration.Step

namespace PathExplorer

theorem concat_unique {α : Type} {l path : List α} {a b : α} (ha : l ++ [a] <+: path)
    (hb : l ++ [b] <+: path) : a = b := by
  have hsame := List.prefix_of_prefix_length_le ha hb (by simp)
  simpa using hsame.eq_of_length (by simp)

theorem State.path_extends_of_resume? {s r : State} (h : s.resume? = some r) :
    s.path <+: r.path := by
  unfold resume? at h
  split at h
  · cases h
    rw [path_follow]
    exact List.prefix_append ..
  · cases h

namespace View

variable {v : View} {a b s t u : State}

theorem follow_of_fallThrough {ts : List State} (h : v.fallThrough s = .ok ts) (ht : t ∈ ts) :
    ∃ n, t = s.follow n s.stack := by
  obtain ⟨f, -, h⟩ := bind_eq_ok_iff.mp h
  obtain ⟨next, -, h⟩ := bind_eq_ok_iff.mp h
  cases h
  obtain ⟨n, -, rfl⟩ := List.mem_map.mp ht
  exact ⟨n, rfl⟩

theorem follow_of_enterAll {callees : List Method} {ts : List State}
    (h : v.enterAll s callees = .ok ts) (ht : t ∈ ts) :
    ∃ n, t = s.follow n (s.stack.push n.method s.stmt) := by
  obtain ⟨m, -, h⟩ := mem_of_mapM_eq_ok h ht
  obtain ⟨f, -, h⟩ := bind_eq_ok_iff.mp h
  cases h
  exact ⟨f.entry, rfl⟩

theorem follow_of_successors {ts : List State} (h : v.successors s = .ok ts) :
    ∃ (r : State) (stack : Stmt → Stack), s.path <+: r.path ∧
      ∀ t ∈ ts, ∃ n, t = r.follow n (stack n) := by
  obtain ⟨f, -, h⟩ := bind_eq_ok_iff.mp h
  obtain ⟨k, -, h⟩ := bind_eq_ok_iff.mp h
  cases k with
  | plain => exact ⟨s, fun _ => s.stack, List.prefix_rfl, fun t => follow_of_fallThrough h⟩
  | call =>
    dsimp only at h
    split at h
    · exact ⟨s, fun _ => s.stack, List.prefix_rfl, fun t => follow_of_fallThrough h⟩
    · exact ⟨s, fun n => s.stack.push n.method s.stmt, List.prefix_rfl,
        fun t => follow_of_enterAll h⟩
  | ret =>
    dsimp only at h
    cases hr : s.resume? with
    | none =>
      rw [hr] at h
      cases h
      exact ⟨s, fun _ => s.stack, List.prefix_rfl, nofun⟩
    | some r =>
      rw [hr] at h
      exact ⟨r, fun _ => r.stack, State.path_extends_of_resume? hr,
        fun t => follow_of_fallThrough h⟩
  | throw =>
    cases h
    exact ⟨s, fun _ => s.stack, List.prefix_rfl, nofun⟩

theorem Next.path_extends (h : v.Next s t) : s.path <+: t.path ∧ s.depth < t.depth := by
  obtain ⟨ts, hts, ht⟩ := h
  obtain ⟨r, stack, hr, hts⟩ := follow_of_successors hts
  obtain ⟨n, rfl⟩ := hts t ht
  have hle := hr.length_le
  rw [State.path_follow, ← State.length_path, ← State.length_path, State.path_follow,
    List.length_append, List.length_singleton]
  exact ⟨hr.trans (List.prefix_append ..), by omega⟩

/-- Of the states that follow one, only one has a path with which a given path begins. -/
theorem Next.unique {path : List Stmt} (ht : v.Next s t) (hu : v.Next s u)
    (htp : t.path <+: path) (hup : u.path <+: path) : t = u := by
  obtain ⟨ts, hts, ht⟩ := ht
  obtain ⟨us, hus, hu⟩ := hu
  cases hts.symm.trans hus
  obtain ⟨r, stack, -, hts⟩ := follow_of_successors hts
  obtain ⟨n, rfl⟩ := hts t ht
  obtain ⟨n', rfl⟩ := hts u hu
  rw [State.path_follow] at htp hup
  rw [concat_unique htp hup]

theorem Explored.path_extends (h : v.Explored s t) : s.path <+: t.path := by
  induction h with
  | refl => exact List.prefix_rfl
  | tail _ hn ih => exact ih.trans hn.path_extends.1

theorem depth_lt_of_next (hn : v.Next s b) (h : v.Explored b t) : s.depth < t.depth := by
  have hle := (Explored.path_extends h).length_le
  rw [State.length_path, State.length_path] at hle
  exact Nat.lt_of_lt_of_le hn.path_extends.2 hle

/-- The way to a state is the beginning of the way to any with a path that begins with its path. -/
theorem explored_of_extends (hs : v.Explored a s) (ht : v.Explored a t) (h : s.path <+: t.path) :
    v.Explored s t := by
  induction hs using Relation.ReflTransGen.head_induction_on with
  | refl => exact ht
  | @head a b hab hbs ih =>
    obtain rfl | ⟨c, hac, hct⟩ := ht.cases_head
    · have hle := h.length_le
      rw [State.length_path, State.length_path] at hle
      exact absurd (depth_lt_of_next hab hbs) (Nat.not_lt_of_le hle)
    · obtain rfl := hab.unique hac ((Explored.path_extends hbs).trans h) (Explored.path_extends hct)
      exact ih hct

/-- States that come of one and have the same path are the same. -/
theorem eq_of_path_eq (hs : v.Explored a s) (ht : v.Explored a t) (h : s.path = t.path) :
    s = t := by
  obtain rfl | ⟨c, hsc, hct⟩ := (explored_of_extends hs ht (h ▸ List.prefix_rfl)).cases_head
  · rfl
  · have hlt := depth_lt_of_next hsc hct
    rw [← State.length_path, ← State.length_path, h] at hlt
    exact absurd hlt (Nat.lt_irrefl _)

end View

end PathExplorer
