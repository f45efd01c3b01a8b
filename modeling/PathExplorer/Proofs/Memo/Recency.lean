import PathExplorer.Memo.Lru
import PathExplorer.Proofs.Memo.Stitching
import PathExplorer.Proofs.Program.Graph
import PathExplorer.Proofs.Search.Route

namespace PathExplorer

section Lists

variable {α : Type} [DecidableEq α] {a : α} {l : List α} {n : Nat}

theorem eraseDups_filter (p : α → Bool) (l : List α) :
    (l.filter p).eraseDups = l.eraseDups.filter p := by
  match l with
  | [] => rfl
  | a :: l =>
    have ih := eraseDups_filter p (l.filter fun b => !b == a)
    rw [List.eraseDups_cons, List.filter_cons, List.filter_cons, ← ih]
    by_cases ha : p a
    · rw [if_pos ha, if_pos ha, List.eraseDups_cons, List.filter_filter, List.filter_filter]
      simp only [Bool.and_comm]
    · have hp : ∀ b, (p b && !b == a) = p b := fun b => by
        by_cases hb : b = a
        · simp [hb, ha]
        · simp [hb]
      rw [if_neg ha, if_neg ha, List.filter_filter]
      simp only [hp]
termination_by l.length
decreasing_by exact Nat.lt_succ_of_le (List.length_filter_le ..)

theorem take_filter_of_mem (hl : l.Nodup) (h : a ∈ l.take (n + 1)) :
    (l.filter (· ≠ a)).take n = (l.take (n + 1)).filter (· ≠ a) := by
  induction l generalizing n with
  | nil => simp at h
  | cons b l ih =>
    obtain ⟨hb, hl⟩ := List.nodup_cons.mp hl
    rw [List.take_succ_cons] at h ⊢
    by_cases hba : b = a
    · subst hba
      have hself : ∀ m : List α, m ⊆ l → m.filter (· ≠ b) = m := fun m hm =>
        List.filter_eq_self.mpr fun c hc => by
          simpa using fun he : c = b => hb (he ▸ hm hc)
      rw [List.filter_cons_of_neg (by simp), List.filter_cons_of_neg (by simp),
        hself l (List.Subset.refl l), hself _ (List.take_subset n l)]
    · obtain h | h := List.mem_cons.mp h
      · exact absurd h.symm hba
      · cases n with
        | zero => simp at h
        | succ n =>
          rw [List.filter_cons_of_pos (by simpa using hba), List.take_succ_cons, ih hl h,
            List.filter_cons_of_pos (by simpa using hba)]

theorem take_filter_of_not_mem (h : a ∉ l.take (n + 1)) :
    (l.filter (· ≠ a)).take n = l.take n := by
  induction l generalizing n with
  | nil => rfl
  | cons b l ih =>
    rw [List.take_succ_cons, List.mem_cons, not_or] at h
    obtain ⟨hab, h⟩ := h
    rw [List.filter_cons_of_pos (by simpa using Ne.symm hab)]
    cases n with
    | zero => rfl
    | succ n => rw [List.take_succ_cons, List.take_succ_cons, ih h]

end Lists

def Cache.keys {σ κ α : Type} [Cache σ κ α] (s : σ) : List κ := (Cache.entries s).map (·.1)

namespace LawfulCache

open Cache (keys)

variable {σ κ α : Type} [DecidableEq κ] [Cache σ κ α] {s : σ} {k : κ}

theorem lookup_eq_none_iff : (Cache.entries s).lookup k = none ↔ k ∉ keys s := by
  rw [List.lookup_eq_none_iff, keys, List.mem_map]
  constructor
  · rintro h ⟨e, he, rfl⟩
    simpa using h e he
  · intro h e he
    simpa using fun hk : k = e.1 => h ⟨e, he, hk.symm⟩

variable [LawfulCache σ]

theorem length_keys (s : σ) : (keys s).length = Cache.size s := by
  rw [size_eq, keys, List.length_map]

theorem keys_get? (hk : k ∈ keys s) :
    keys (Cache.get? s k).2 = k :: (keys s).filter (· ≠ k) := by
  obtain ⟨a, ha⟩ := Option.ne_none_iff_exists'.mp fun h => lookup_eq_none_iff.mp h hk
  rw [keys, entries_hit ha, List.map_cons, keys, List.filter_map]
  rfl

theorem size_get? (hs : (keys s).Nodup) (hk : k ∈ keys s) :
    Cache.size (Cache.get? s k).2 = Cache.size s := by
  have hothers : (keys s).filter (· ≠ k) = (keys s).erase k := by
    simp [hs.erase_eq_filter, bne, ← beq_eq_decide]
  rw [← length_keys, keys_get? hk, hothers, List.length_cons, List.length_erase_add_one hk,
    length_keys]

/-- A new key is in front, and the last one is given up when there is no room for another. -/
theorem keys_push (hk : k ∉ keys s) (a : α) (hle : Cache.size s ≤ Cache.room s) :
    keys (Cache.push s k a).2 = k :: (keys s).take (Cache.room s - 1) := by
  have hnone := lookup_eq_none_iff.mpr hk
  have hlength := length_keys s
  by_cases hroom : Cache.size s < Cache.room s
  · rw [keys, (push_room a hnone hroom).2, List.map_cons, List.take_of_length_le (by omega)]
    rfl
  · have hlast : (keys s).take (Cache.room s - 1) = (keys s).dropLast := by
      rw [List.dropLast_eq_take]
      congr 1
      omega
    rw [keys, (push_full a hnone (Nat.not_lt.mp hroom)).2, List.map_cons, hlast, keys,
      List.map_dropLast]

theorem size_push (hk : k ∉ keys s) (a : α) (hpos : 0 < Cache.room s) :
    Cache.size (Cache.push s k a).2 + (if (Cache.push s k a).1.isSome then 1 else 0) =
      Cache.size s + 1 := by
  have hnone := lookup_eq_none_iff.mpr hk
  have hsize := size_eq s
  by_cases hroom : Cache.size s < Cache.room s
  · obtain ⟨hgiven, hentries⟩ := push_room a hnone hroom
    rw [hgiven, size_eq, hentries, List.length_cons, hsize]
    rfl
  · obtain ⟨hgiven, hentries⟩ := push_full a hnone (Nat.not_lt.mp hroom)
    have hne : Cache.entries s ≠ [] := List.ne_nil_of_length_pos (by omega)
    have hsome : (Cache.entries s).getLast?.isSome = true := by simpa using hne
    rw [hgiven, if_pos hsome, size_eq, hentries, List.length_cons, List.length_dropLast]
    omega

end LawfulCache

namespace Memo

def Request.start? : Request → Option Stmt
  | .tree start => some start
  | _ => none

def starts (asked : List Request) : List Stmt := asked.filterMap Request.start?

variable (v : View)

def served (asked : List Request) : List Stmt :=
  (starts asked).filter fun s => (v.searchTree s).isOk

def failed (asked : List Request) : List Stmt :=
  (starts asked).filter fun s => !(v.searchTree s).isOk

def recent (asked : List Request) : List Stmt := (served v asked).reverse.eraseDups

variable {σ : Type} [Cache σ Stmt (SearchTree Stmt)]

/-- What a memo with room for so many trees holds after some requests, and what it has counted. -/
structure Recalls (room : Nat) (asked : List Request) (memo : Memo σ) : Prop where
  sound : memo.Sound v
  pos : 0 < room
  room_eq : Cache.room memo.trees = room
  keys : Cache.keys memo.trees = (recent v asked).take room
  lookups : memo.stats.hits + memo.stats.misses = (starts asked).length
  misses : memo.stats.misses =
    memo.stats.evictions + (failed v asked).length + Cache.size memo.trees

variable {v} {room : Nat} {asked : List Request} {memo other : Memo σ} {s : Stmt}

theorem length_starts_concat (asked : List Request) (s : Stmt) :
    (starts (asked ++ [.tree s])).length = (starts asked).length + 1 := by
  simp [starts, Request.start?]

theorem length_failed_concat (asked : List Request) (s : Stmt) :
    (failed v (asked ++ [.tree s])).length =
      (failed v asked).length + if (v.searchTree s).isOk then 0 else 1 := by
  by_cases hs : (v.searchTree s).isOk <;> simp [failed, starts, Request.start?, hs]

theorem nodup_recent (asked : List Request) : (recent v asked).Nodup := nodup_eraseDups _

theorem isOk_of_mem_recent (h : s ∈ recent v asked) : (v.searchTree s).isOk := by
  rw [recent, List.mem_eraseDups, List.mem_reverse, served, List.mem_filter] at h
  exact h.2

theorem recent_concat (hs : (v.searchTree s).isOk) :
    recent v (asked ++ [.tree s]) = s :: (recent v asked).filter (· ≠ s) := by
  have hserved : served v (asked ++ [.tree s]) = served v asked ++ [s] := by
    simp [served, starts, Request.start?, hs]
  rw [recent, hserved, List.reverse_append, List.reverse_singleton, List.singleton_append,
    List.eraseDups_cons, eraseDups_filter]
  simp only [recent, decide_not]
  rfl

namespace Recalls

variable [LawfulCache σ]

theorem start (v : View) (n : Nat) : Recalls v (max n 1) [] (.ofCapacity n : Memo σ) where
  sound := .ofCapacity v n
  pos := by omega
  room_eq := LawfulCache.room_withRoom _ _
  keys := by simp [ofCapacity, Cache.keys, LawfulCache.entries_withRoom, recent, served, starts]
  lookups := rfl
  misses := by simp [ofCapacity, LawfulCache.size_eq, LawfulCache.entries_withRoom, failed, starts]

theorem size_eq (h : Recalls v room asked memo) :
    Cache.size memo.trees = min room (recent v asked).length := by
  rw [← LawfulCache.length_keys, h.keys, List.length_take]

omit [LawfulCache σ] in
theorem keep (h : Recalls v room asked memo) {r : Request} (hr : r.start? = none)
    (hsound : other.Sound v) (htrees : other.trees = memo.trees)
    (hhits : other.stats.hits = memo.stats.hits) (hmisses : other.stats.misses = memo.stats.misses)
    (hevictions : other.stats.evictions = memo.stats.evictions) :
    Recalls v room (asked ++ [r]) other := by
  have hstarts : starts (asked ++ [r]) = starts asked := by simp [starts, hr]
  refine ⟨hsound, h.pos, htrees ▸ h.room_eq, ?_, ?_, ?_⟩
  · rw [recent, served, hstarts, htrees]
    exact h.keys
  · rw [hstarts, hhits, hmisses, h.lookups]
  · rw [failed, hstarts, hmisses, hevictions, htrees, h.misses, failed]

theorem hit (h : Recalls v room asked memo) (hs : s ∈ (recent v asked).take room)
    (hok : (v.searchTree s).isOk) :
    Recalls v room (asked ++ [.tree s]) (memo.hit (Cache.get? memo.trees s).2) := by
  obtain ⟨n, rfl⟩ := Nat.exists_eq_succ_of_ne_zero h.pos.ne'
  have hnodup : (Cache.keys memo.trees).Nodup := by
    rw [h.keys]
    exact (nodup_recent asked).sublist (List.take_sublist ..)
  have hmem : s ∈ Cache.keys memo.trees := h.keys ▸ hs
  have hroom := (LawfulCache.room_get? memo.trees s).trans h.room_eq
  refine ⟨h.sound.hit s, h.pos, hroom, ?keys, ?lookups, ?misses⟩
  case keys =>
    -- The start moves to the front, and the others among the first `n + 1` stay those.
    rw [recent_concat hok, List.take_succ_cons, take_filter_of_mem (nodup_recent asked) hs,
      ← h.keys]
    exact LawfulCache.keys_get? hmem
  case lookups =>
    have hlookups := h.lookups
    rw [length_starts_concat]
    simp only [Memo.hit]
    omega
  case misses =>
    have hsize := LawfulCache.size_get? hnodup hmem
    rw [length_failed_concat, if_pos hok]
    simp only [Memo.hit, hsize]
    exact h.misses

omit [LawfulCache σ] in
theorem miss (h : Recalls v room asked memo) {fault : Fault} (hs : v.searchTree s = .error fault) :
    Recalls v room (asked ++ [.tree s]) (memo.miss memo.trees) := by
  have hno : (v.searchTree s).isOk = false := by rw [hs]; rfl
  have hserved : served v (asked ++ [.tree s]) = served v asked := by
    simp [served, starts, Request.start?, hno]
  refine ⟨h.sound.miss, h.pos, h.room_eq, ?_, ?_, ?_⟩
  · rw [recent, hserved]
    exact h.keys
  · have hlookups := h.lookups
    rw [length_starts_concat]
    simp only [Memo.miss]
    omega
  · have hmisses := h.misses
    rw [length_failed_concat, if_neg (by simp [hno])]
    simp only [Memo.miss]
    omega

theorem store (h : Recalls v room asked memo) (hs : s ∉ (recent v asked).take room)
    {found : SearchTree Stmt} (hfound : v.searchTree s = .ok found) :
    Recalls v room (asked ++ [.tree s]) ((memo.miss memo.trees).store s found) := by
  obtain ⟨n, rfl⟩ := Nat.exists_eq_succ_of_ne_zero h.pos.ne'
  have hok : (v.searchTree s).isOk := by rw [hfound]; rfl
  have hnew : s ∉ Cache.keys memo.trees := h.keys ▸ hs
  have hpos : 0 < Cache.room memo.trees := h.room_eq ▸ h.pos
  have hle : Cache.size memo.trees ≤ Cache.room memo.trees := by
    rw [h.size_eq, h.room_eq]
    exact Nat.min_le_left ..
  have hroom := (LawfulCache.room_push memo.trees s found).trans h.room_eq
  have hsound := h.sound.miss.store (LawfulCache.lookup_eq_none_iff.mpr hnew) hfound
  refine ⟨hsound, h.pos, hroom, ?keys, ?lookups, ?misses⟩
  case keys =>
    -- The key is new, so only the last of `n + 1` is given up for it.
    rw [recent_concat hok, List.take_succ_cons, take_filter_of_not_mem hs]
    refine (LawfulCache.keys_push hnew found hle).trans ?_
    rw [h.room_eq, h.keys, Nat.succ_sub_one, List.take_take, Nat.min_eq_left (Nat.le_succ n)]
  case lookups =>
    have hlookups := h.lookups
    rw [length_starts_concat]
    simp only [Memo.miss, Memo.store]
    omega
  case misses =>
    have hmisses := h.misses
    have hsize := LawfulCache.size_push hnew found hpos
    have hevictions : ((memo.miss memo.trees).store s found).stats.evictions =
        memo.stats.evictions + if (Cache.push memo.trees s found).1.isSome then 1 else 0 := rfl
    have hcount : ((memo.miss memo.trees).store s found).stats.misses = memo.stats.misses + 1 := rfl
    have htrees :
        ((memo.miss memo.trees).store s found).trees = (Cache.push memo.trees s found).2 := rfl
    rw [length_failed_concat, if_pos hok, hcount, hevictions, htrees]
    omega

/-- What comes of asking for a tree: it is used if it is among the recent ones, and otherwise
searched and stored, unless the search fails. -/
theorem run_tree (h : Recalls v room asked memo) (s : Stmt) :
    (tree v s).run memo = match v.searchTree s with
      | .error fault => (.error fault, memo.miss memo.trees)
      | .ok found => (.ok found,
          if s ∈ (recent v asked).take room then memo.hit (Cache.get? memo.trees s).2
          else (memo.miss memo.trees).store s found) := by
  cases hg : (Cache.entries memo.trees).lookup s with
  | some found =>
    have hs : s ∈ (recent v asked).take room := by
      rw [← h.keys]
      by_contra hs
      rw [LawfulCache.lookup_eq_none_iff.mpr hs] at hg
      cases hg
    have hfound : v.searchTree s = .ok found := h.sound.trees _ (mem_of_lookup hg)
    rw [Recall.run_tree_hit v hg, hfound]
    dsimp only
    rw [if_pos hs]
  | none =>
    have hs : s ∉ (recent v asked).take room := h.keys ▸ LawfulCache.lookup_eq_none_iff.mp hg
    rw [Recall.run_tree_miss v hg]
    cases v.searchTree s with
    | error fault => rfl
    | ok found =>
      dsimp only
      rw [if_neg hs]

theorem ask (h : Recalls v room asked memo) (r : Request) :
    Recalls v room (asked ++ [r]) (memo.ask v r) := by
  cases r with
  | tree s =>
    unfold Memo.ask
    dsimp only
    rw [h.run_tree]
    cases hfound : v.searchTree s with
    | error fault => exact h.miss hfound
    | ok found =>
      dsimp only
      split
      · exact h.hit ‹_› (by rw [hfound]; rfl)
      · exact h.store ‹_› hfound
  | sites caller callee =>
    unfold Memo.ask
    dsimp only
    rw [Recall.run_sitesInto]
    cases memo.sites.lookup (caller, callee) with
    | some found => exact h.keep rfl h.sound rfl rfl rfl rfl
    | none =>
      cases hfound : v.sitesInto caller callee with
      | error fault => exact h.keep rfl h.sound rfl rfl rfl rfl
      | ok found => exact h.keep rfl (h.sound.keep hfound) rfl rfl rfl rfl
  | join c =>
    unfold Memo.ask
    dsimp only
    rw [Recall.run_join]
    by_cases hc : c ∈ memo.joined
    · rw [if_pos hc]
      exact h.keep rfl h.sound rfl rfl rfl rfl
    · rw [if_neg hc]
      cases hends : v.joint c with
      | error fault => exact h.keep rfl h.sound rfl rfl rfl rfl
      | ok ends =>
        have hjoinable : v.joinable c = .ok () := by rw [v.joinable_eq, hends]; rfl
        exact h.keep rfl (h.sound.stitch hjoinable ends.1 ends.2) rfl rfl rfl rfl

theorem after (h : Recalls v room asked memo) (more : List Request) :
    Recalls v room (asked ++ more) (memo.after v more) := by
  induction more generalizing asked memo with
  | nil =>
    rw [List.append_nil]
    exact h
  | cons r more ih =>
    rw [List.append_cons]
    exact ih (h.ask r)

theorem counts (h : Recalls v room asked memo) (s : Stmt) :
    ((memo.ask v (.tree s)).stats.hits =
      memo.stats.hits + if s ∈ (recent v asked).take room then 1 else 0) ∧
    (memo.ask v (.tree s)).stats.misses =
      memo.stats.misses + if s ∈ (recent v asked).take room then 0 else 1 := by
  have hask : memo.ask v (.tree s) = ((tree v s).run memo).2 := rfl
  rw [hask, h.run_tree]
  cases hfound : v.searchTree s with
  | error fault =>
    -- A start whose search fails is never among the recent ones.
    have hs : s ∉ (recent v asked).take room := fun hs => by
      have hok := isOk_of_mem_recent (List.mem_of_mem_take hs)
      rw [hfound] at hok
      cases hok
    rw [if_neg hs, if_neg hs]
    exact ⟨rfl, rfl⟩
  | ok found =>
    by_cases hs : s ∈ (recent v asked).take room
    · simp only [if_pos hs]
      exact ⟨rfl, rfl⟩
    · simp only [if_neg hs]
      exact ⟨rfl, rfl⟩

end Recalls

/-- How a memo with room for `n` trees, at least one, reads through to the program after some
requests.  `recent` are the starts whose trees were asked for and found, and the first of them as
many as there is room for are those of the trees that are there. -/
structure ReadsThrough (v : View) (n : Nat) (asked : List Request) (memo : Memo σ) :
    Prop where
  answers : ∀ s, ((tree v s).run memo).1 = v.searchTree s
  distances : ∀ s found, ((tree v s).run memo).1 = .ok found → ∃ f, v.flow s.method = .ok f ∧
    s ∈ f ∧ ∀ x, (found.distanceTo x).Measures (Walk f.Leads s x)
  hits : ∀ s, (memo.ask v (.tree s)).stats.hits =
    memo.stats.hits + if s ∈ (recent v asked).take (max n 1) then 1 else 0
  misses : ∀ s, (memo.ask v (.tree s)).stats.misses =
    memo.stats.misses + if s ∈ (recent v asked).take (max n 1) then 0 else 1
  fails : ∀ s fault, v.searchTree s = .error fault → (tree v s).run memo =
    (.error fault, memo.miss memo.trees)
  lookups : memo.stats.hits + memo.stats.misses = (starts asked).length
  size : Cache.size memo.trees = min (max n 1) (recent v asked).length
  evictions : memo.stats.misses =
    memo.stats.evictions + (failed v asked).length + Cache.size memo.trees
  clear : Cache.room memo.clear.trees = max n 1 ∧ Cache.entries memo.clear.trees = [] ∧
    memo.clear.sites = [] ∧ memo.clear.joined = [] ∧ memo.clear.stitches = [] ∧
    memo.clear.stats = memo.stats

theorem Recalls.readsThrough [LawfulCache σ] {n : Nat} (h : Recalls v (max n 1) asked memo) :
    ReadsThrough v n asked memo where
  answers s := by
    rw [h.run_tree]
    cases v.searchTree s <;> rfl
  distances s found hfound := by
    rw [h.run_tree] at hfound
    cases hs : v.searchTree s with
    | error fault =>
      rw [hs] at hfound
      cases hfound
    | ok tree =>
      rw [hs] at hfound
      cases hfound
      obtain ⟨f, hf, htree⟩ := bind_eq_ok_iff.mp hs
      obtain ⟨hmem, hspans⟩ := Flow.tree_spans htree
      exact ⟨f, hf, hmem, hspans.measures_distanceTo⟩
  hits s := (h.counts s).1
  misses s := (h.counts s).2
  fails s fault hs := by rw [h.run_tree, hs]
  lookups := h.lookups
  size := h.size_eq
  evictions := h.misses
  clear := ⟨(LawfulCache.room_clear _).trans h.room_eq, LawfulCache.entries_clear _, rfl, rfl, rfl,
    rfl⟩

/-- Whatever was asked before, trees are answered as a search finds them, and the memo keeps those
that were asked for last. -/
theorem trees_recent (σ : Type) [Cache σ Stmt (SearchTree Stmt)] [LawfulCache σ] (v : View)
    (n : Nat) (asked : List Request) :
    ReadsThrough v n asked ((ofCapacity n : Memo σ).after v asked) :=
  ((Recalls.start v n).after asked).readsThrough

theorem trees_recent_twoMethods :
    let asked := [.tree ⟨⟨0⟩, 0⟩, .tree ⟨⟨0⟩, 2⟩, .tree ⟨⟨0⟩, 9⟩, .tree ⟨⟨0⟩, 2⟩, .tree ⟨⟨0⟩, 0⟩]
    let memo : Memo (Lru Stmt (SearchTree Stmt)) := (ofCapacity 0).after twoMethods.view asked
    ReadsThrough twoMethods.view 0 asked memo ∧
      memo.stats = { hits := 1, misses := 4, evictions := 2 } ∧
      Cache.keys memo.trees = [⟨⟨0⟩, 0⟩] :=
  ⟨trees_recent _ twoMethods.view 0 _, by decide, by decide⟩

end Memo

end PathExplorer
