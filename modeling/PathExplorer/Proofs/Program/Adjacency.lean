import Mathlib.Data.List.Induction
import Mathlib.Logic.Function.Basic
import PathExplorer.Program.Flow

namespace PathExplorer

/-- What is left of a list without its repetitions is in the order in which it first occurred. -/
theorem pairwise_idxOf_eraseDups {α : Type} [BEq α] [LawfulBEq α] (l : List α) :
    l.eraseDups.Pairwise fun a b => l.idxOf a < l.idxOf b := by
  induction l using List.reverseRecOn with
  | nil => simp
  | append_singleton l x ih =>
    have hold : ∀ a ∈ l, (l ++ [x]).idxOf a = l.idxOf a := fun a ha => by
      rw [List.idxOf_append, if_pos ha]
    have hsame : l.eraseDups.Pairwise fun a b => (l ++ [x]).idxOf a < (l ++ [x]).idxOf b :=
      ih.imp_of_mem fun ha hb hlt => by
        rwa [hold _ (List.mem_eraseDups.mp ha), hold _ (List.mem_eraseDups.mp hb)]
    rw [eraseDups_concat]
    split
    · exact hsame
    · rename_i hx
      refine List.pairwise_append.mpr ⟨hsame, by simp, fun a ha b hb => ?_⟩
      cases List.mem_singleton.mp hb
      have ha : a ∈ l := List.mem_eraseDups.mp ha
      rw [hold a ha, List.idxOf_append, if_neg hx]
      exact Nat.lt_of_lt_of_le (List.idxOf_lt_length_of_mem ha) (Nat.le_add_left ..)

/-- Where the members of a list are kept by their keys, one more is put behind those of its key. -/
theorem update_concat {α β κ : Type} [DecidableEq κ] {key : α → κ} {value : α → β} {l : List α}
    {kept : κ → List β} (h : ∀ k, kept k = (l.filter (key · = k)).map value) (a : α) (k : κ) :
    Function.update kept (key a) (kept (key a) ++ [value a]) k =
      ((l ++ [a]).filter (key · = k)).map value := by
  rw [List.filter_append, List.map_append, ← h]
  by_cases hk : k = key a
  · subst hk
    simp
  · simp [Function.update_of_ne hk, Ne.symm hk]

/-- What follows each position, and what each position follows, in the order in which it is
noted. -/
structure Links where
  next : Nat → List Nat := fun _ => []
  previous : Nat → List Nat := fun _ => []

namespace Links

/-- Note an edge at both of its ends, unless the one end has a note of the other already. -/
def add (l : Links) (e : Nat × Nat) : Links :=
  if e.2 ∈ l.next e.1 then l
  else {
    next := Function.update l.next e.1 (l.next e.1 ++ [e.2])
    previous := Function.update l.previous e.2 (l.previous e.2 ++ [e.1]) }

def ofEdges (edges : List (Nat × Nat)) : Links := edges.foldl add {}

structure Notes (l : Links) (edges : List (Nat × Nat)) : Prop where
  next : ∀ i, l.next i = (edges.eraseDups.filter (·.1 = i)).map (·.2)
  previous : ∀ i, l.previous i = (edges.eraseDups.filter (·.2 = i)).map (·.1)

variable {l : Links} {edges : List (Nat × Nat)} {e : Nat × Nat}

theorem Notes.mem_next (h : l.Notes edges) {i j : Nat} : j ∈ l.next i ↔ (i, j) ∈ edges := by
  rw [h.next]
  simp

theorem Notes.add (h : l.Notes edges) (e : Nat × Nat) : (l.add e).Notes (edges ++ [e]) := by
  have hconcat := eraseDups_concat edges e
  unfold Links.add
  by_cases he : e ∈ edges
  · rw [if_pos he] at hconcat
    rw [if_pos (h.mem_next.mpr he)]
    exact ⟨fun i => hconcat ▸ h.next i, fun i => hconcat ▸ h.previous i⟩
  · rw [if_neg he] at hconcat
    rw [if_neg fun hn => he (h.mem_next.mp hn)]
    constructor
    · rw [hconcat]
      exact update_concat h.next e
    · rw [hconcat]
      exact update_concat h.previous e

theorem Notes.addAll (h : l.Notes edges) (more : List (Nat × Nat)) :
    (more.foldl Links.add l).Notes (edges ++ more) := by
  induction more generalizing l edges with
  | nil => simpa using h
  | cons e more ih => simpa using ih (h.add e)

theorem notes_ofEdges (edges : List (Nat × Nat)) : (ofEdges edges).Notes edges := by
  have hempty : Links.Notes {} [] := ⟨fun _ => rfl, fun _ => rfl⟩
  exact hempty.addAll edges

end Links

namespace Flow

inductive Strays (size : Nat) (e : Nat × Nat) : Nat → Prop
  | tail : size ≤ e.1 → Strays size e e.1
  | head : e.1 < size → size ≤ e.2 → Strays size e e.2

/-- The first position outside a body of this size: the entry, or that of the first edge that leaves
the body. -/
inductive FirstStray (size start : Nat) (edges : List (Nat × Nat)) : Nat → Prop
  | entry : size ≤ start → FirstStray size start edges start
  | edge {before after : List (Nat × Nat)} {e : Nat × Nat} {stray : Nat} : start < size →
      edges = before ++ e :: after → (∀ d ∈ before, d.1 < size ∧ d.2 < size) →
      Strays size e stray → FirstStray size start edges stray

/-- The statements of the body for which there is an edge, each once, in the order in which these
edges were first given. -/
structure Lists (f : Flow) (edges : List (Nat × Nat)) (edge : Stmt → Nat × Nat)
    (ts : List Stmt) : Prop where
  mem : ∀ t, t ∈ ts ↔ t ∈ f ∧ edge t ∈ edges
  nodup : ts.Nodup
  order : ts.Pairwise fun a b => edges.idxOf (edge a) < edges.idxOf (edge b)

structure Draws (f : Flow) (method : Method) (kinds : List Kind) (start : Nat)
    (edges : List (Nat × Nat)) : Prop where
  entry : f.entry = method.stmt start
  mem : ∀ s, s ∈ f ↔ s.method = method ∧ s.index < kinds.length
  kind : ∀ s ∈ f, ∃ h : s.index < kinds.length, f.kind s = .ok kinds[s.index]
  successors : ∀ s ∈ f, ∃ ts, f.successors s = .ok ts ∧
    f.Lists edges (fun t => (s.index, t.index)) ts ∧
    ts = ((Links.ofEdges edges).next s.index).map method.stmt
  predecessors : ∀ s ∈ f, ∃ ts, f.predecessors s = .ok ts ∧
    f.Lists edges (fun t => (t.index, s.index)) ts ∧
    ts = ((Links.ofEdges edges).previous s.index).map method.stmt
  foreign : ∀ s, s ∉ f → f.kind s = .error (.stmtNotFound s) ∧
    f.successors s = .error (.stmtNotFound s) ∧ f.predecessors s = .error (.stmtNotFound s)
  exits : ∀ s, s ∈ f.exits ↔ f.successors s = .ok []
  returns : ∀ s, s ∈ f.returns ↔ s ∈ f.exits ∧ f.kind s = .ok .ret
  order : f.exits.Pairwise (·.index < ·.index) ∧ f.returns.Pairwise (·.index < ·.index)

section Stray

variable {size start stray : Nat} {edges : List (Nat × Nat)} {e : Nat × Nat}

theorem strays_iff : [e.1, e.2].find? (size ≤ ·) = some stray ↔ Strays size e stray := by
  rw [List.find?_cons, List.find?_singleton]
  constructor
  · intro h
    by_cases h₁ : size ≤ e.1
    · simp only [h₁, decide_true, Option.some.injEq] at h
      exact h ▸ .tail h₁
    · simp only [h₁, decide_false, Option.ite_none_right_eq_some, decide_eq_true_eq,
        Option.some.injEq] at h
      exact h.2 ▸ .head (Nat.lt_of_not_le h₁) h.1
  · rintro (h | ⟨h₁, h₂⟩)
    · simp [h]
    · simp [Nat.not_le_of_lt h₁, h₂]

theorem not_strays_iff : [e.1, e.2].find? (size ≤ ·) = none ↔ e.1 < size ∧ e.2 < size := by
  simp

theorem find?_named_iff :
    (named start edges).find? (size ≤ ·) = some stray ↔ FirstStray size start edges stray := by
  rw [named, List.find?_cons, List.find?_flatMap]
  constructor
  · intro h
    by_cases hs : size ≤ start
    · simp only [hs, decide_true, Option.some.injEq] at h
      exact h ▸ .entry hs
    · simp only [hs, decide_false] at h
      obtain ⟨before, e, after, hedges, he, hbefore⟩ := List.findSome?_eq_some_iff.mp h
      exact .edge (Nat.lt_of_not_le hs) hedges (fun d hd => not_strays_iff.mp (hbefore d hd))
        (strays_iff.mp he)
  · rintro (h | ⟨hs, hedges, hbefore, he⟩)
    · simp [h]
    · simp only [Nat.not_le_of_lt hs, decide_false]
      exact List.findSome?_eq_some_iff.mpr ⟨_, _, _, hedges, strays_iff.mpr he,
        fun d hd => not_strays_iff.mpr (hbefore d hd)⟩

theorem find?_named_eq_none_iff : (named start edges).find? (size ≤ ·) = none ↔
    start < size ∧ ∀ e ∈ edges, e.1 < size ∧ e.2 < size := by
  refine ⟨named_lt, fun ⟨hs, hedges⟩ => ?_⟩
  cases h : (named start edges).find? (size ≤ ·) with
  | none => rfl
  | some stray =>
    cases find?_named_iff.mp h with
    | entry hle => exact absurd hs (Nat.not_lt_of_le hle)
    | edge _ he _ hstray =>
      have hlt := hedges _ (he ▸ List.mem_append_right _ (List.mem_cons_self ..))
      cases hstray with
      | tail hle => exact absurd hlt.1 (Nat.not_lt_of_le hle)
      | head _ hle => exact absurd hlt.2 (Nat.not_lt_of_le hle)

end Stray

section Build

variable {method : Method} {kinds : List Kind} {start : Nat} {edges : List (Nat × Nat)} {f : Flow}

theorem exists_build_iff : (∃ f, build method kinds start edges = .ok f) ↔
    start < kinds.length ∧ ∀ e ∈ edges, e.1 < kinds.length ∧ e.2 < kinds.length := by
  rw [← find?_named_eq_none_iff]
  unfold build
  split
  · rename_i h
    simp [h]
  · rename_i h
    simp [h]

theorem fields_of_build (h : build method kinds start edges = .ok f) :
    f.method = method ∧ f.kinds = kinds ∧ f.start = start ∧ f.edges = edges.eraseDups := by
  unfold build at h
  split at h
  · cases h
  · cases h
    exact ⟨rfl, rfl, rfl, rfl⟩

theorem mem_next_iff {i : Nat} {t : Stmt} : t ∈ f.next i ↔ t ∈ f ∧ (i, t.index) ∈ f.edges := by
  rw [mem_next, mem_iff]
  exact ⟨fun ⟨hm, he⟩ => ⟨⟨hm, (f.edges_lt _ he).2⟩, he⟩, fun ⟨ht, he⟩ => ⟨ht.1, he⟩⟩

theorem mem_previous_iff {i : Nat} {t : Stmt} :
    t ∈ f.previous i ↔ t ∈ f ∧ (t.index, i) ∈ f.edges := by
  rw [mem_previous, mem_iff]
  exact ⟨fun ⟨hm, he⟩ => ⟨⟨hm, (f.edges_lt _ he).1⟩, he⟩, fun ⟨ht, he⟩ => ⟨ht.1, he⟩⟩

theorem lists_of_filter (hedges : f.edges = edges.eraseDups) {p : Nat × Nat → Bool}
    {far : Nat × Nat → Nat} {edge : Stmt → Nat × Nat}
    (hedge : ∀ e, p e → edge (f.method.stmt (far e)) = e)
    (hmem : ∀ t, t ∈ (f.edges.filter p).map (fun e => f.method.stmt (far e)) ↔
      t ∈ f ∧ edge t ∈ f.edges) :
    f.Lists edges edge ((f.edges.filter p).map fun e => f.method.stmt (far e)) := by
  have horder : ((f.edges.filter p).map fun e => f.method.stmt (far e)).Pairwise
      fun a b => edges.idxOf (edge a) < edges.idxOf (edge b) := by
    refine List.pairwise_map.mpr (List.Pairwise.imp_of_mem (fun ha hb hlt => ?_)
      ((hedges ▸ pairwise_idxOf_eraseDups edges).filter p))
    rwa [hedge _ (List.mem_filter.mp ha).2, hedge _ (List.mem_filter.mp hb).2]
  refine ⟨fun t => ?_, horder.imp ?_, horder⟩
  · rw [hmem, hedges, List.mem_eraseDups]
  · rintro a _ hlt rfl
    exact Nat.lt_irrefl _ hlt

theorem lists_next (hedges : f.edges = edges.eraseDups) (i : Nat) :
    f.Lists edges (fun t => (i, t.index)) (f.next i) :=
  lists_of_filter hedges (fun _ he => by rw [← of_decide_eq_true he]; rfl) fun _ => mem_next_iff

theorem lists_previous (hedges : f.edges = edges.eraseDups) (i : Nat) :
    f.Lists edges (fun t => (t.index, i)) (f.previous i) :=
  lists_of_filter hedges (fun _ he => by rw [← of_decide_eq_true he]; rfl)
    fun _ => mem_previous_iff

theorem next_eq_links (hedges : f.edges = edges.eraseDups) (i : Nat) :
    f.next i = ((Links.ofEdges edges).next i).map f.method.stmt := by
  rw [(Links.notes_ofEdges edges).next, List.map_map, next, hedges]
  rfl

theorem previous_eq_links (hedges : f.edges = edges.eraseDups) (i : Nat) :
    f.previous i = ((Links.ofEdges edges).previous i).map f.method.stmt := by
  rw [(Links.notes_ofEdges edges).previous, List.map_map, previous, hedges]
  rfl

theorem pairwise_stmts (f : Flow) : f.stmts.Pairwise (·.index < ·.index) :=
  List.pairwise_map.mpr List.pairwise_lt_range

theorem mem_exits_iff {s : Stmt} : s ∈ f.exits ↔ f.successors s = .ok [] := by
  rw [exits, List.mem_filter, mem_stmts, List.isEmpty_iff]
  constructor
  · rintro ⟨hs, hn⟩
    rw [successors_of_mem hs, hn]
  · intro h
    by_cases hs : s ∈ f
    · rw [successors_of_mem hs, Except.ok.injEq] at h
      exact ⟨hs, h⟩
    · rw [successors, locate_of_not_mem hs] at h
      cases h

theorem mem_returns_iff {x : Stmt} :
    x ∈ f.returns ↔ f.kind x = .ok .ret ∧ f.next x.index = [] := by
  by_cases hx : x ∈ f
  · rw [kind_of_mem hx, Except.ok.injEq, List.get_eq_getElem]
    simp only [returns, exits, List.mem_filter, mem_stmts, hx, true_and, List.isEmpty_iff,
      decide_eq_true_eq, List.getElem?_eq_getElem hx.2, Option.some.injEq]
    exact and_comm
  · rw [kind, locate_of_not_mem hx]
    simp [returns, exits, hx]

theorem mem_returns_iff_mem_exits {s : Stmt} :
    s ∈ f.returns ↔ s ∈ f.exits ∧ f.kind s = .ok .ret := by
  rw [mem_returns_iff, mem_exits_iff, and_comm]
  refine and_congr_left fun hk => ?_
  by_cases hs : s ∈ f
  · rw [successors_of_mem hs, Except.ok.injEq]
  · rw [kind, locate_of_not_mem hs] at hk
    cases hk

theorem draws_of_build (h : build method kinds start edges = .ok f) :
    f.Draws method kinds start edges := by
  obtain ⟨hm, hk, hs, he⟩ := fields_of_build h
  subst hm hk hs
  refine ⟨rfl, fun s => .rfl, fun s hs => ⟨hs.2, kind_of_mem hs⟩, ?successors, ?predecessors,
    ?foreign, fun s => mem_exits_iff, fun s => mem_returns_iff_mem_exits, ?order⟩
  case successors =>
    exact fun s hs => ⟨_, successors_of_mem hs, lists_next he s.index, next_eq_links he s.index⟩
  case predecessors =>
    exact fun s hs => ⟨_, locate_of_mem hs, lists_previous he s.index, previous_eq_links he s.index⟩
  case foreign =>
    exact fun s hs => ⟨locate_of_not_mem hs, locate_of_not_mem hs, locate_of_not_mem hs⟩
  case order =>
    have hexits := f.pairwise_stmts.filter fun s => (f.next s.index).isEmpty
    exact ⟨hexits, hexits.filter _⟩

/-- A body with an entry and edges is refused exactly for the first position outside it that they
name, and otherwise becomes the flow that has these edges and no others. -/
theorem build_draws (method : Method) (kinds : List Kind) (start : Nat)
    (edges : List (Nat × Nat)) :
    ((∃ f, build method kinds start edges = .ok f) ↔
      start < kinds.length ∧ ∀ e ∈ edges, e.1 < kinds.length ∧ e.2 < kinds.length) ∧
    (∀ fault, build method kinds start edges = .error fault ↔
      ∃ stray, FirstStray kinds.length start edges stray ∧
        fault = .stmtNotFound (method.stmt stray)) ∧
    ∀ f, build method kinds start edges = .ok f → f.Draws method kinds start edges := by
  refine ⟨exists_build_iff, fun fault => ?_, fun f => draws_of_build⟩
  rw [build_eq_error_iff]
  exact exists_congr fun stray => and_congr_left' find?_named_iff

theorem build_draws_repeated :
    let kinds : List Kind := [.plain, .ret, .ret]
    let edges := [(0, 1), (2, 2), (0, 2), (0, 1), (2, 0)]
    (∃ f, build ⟨7⟩ kinds 0 edges = .ok f ∧ f.Draws ⟨7⟩ kinds 0 edges ∧
      f.successors ⟨⟨7⟩, 0⟩ = .ok [⟨⟨7⟩, 1⟩, ⟨⟨7⟩, 2⟩] ∧
      f.predecessors ⟨⟨7⟩, 2⟩ = .ok [⟨⟨7⟩, 2⟩, ⟨⟨7⟩, 0⟩] ∧ f.returns = [⟨⟨7⟩, 1⟩]) ∧
    build ⟨7⟩ kinds 0 [(0, 1), (1, 2), (4, 3), (5, 0)] = .error (.stmtNotFound ⟨⟨7⟩, 4⟩) := by
  intro kinds edges
  obtain ⟨-, -, hdraws⟩ := build_draws ⟨7⟩ kinds 0 edges
  have hf : build ⟨7⟩ kinds 0 edges = .ok _ := rfl
  refine ⟨⟨_, hf, hdraws _ hf, by decide, by decide, by decide⟩, ?_⟩
  obtain ⟨-, hfault, -⟩ := build_draws ⟨7⟩ kinds 0 [(0, 1), (1, 2), (4, 3), (5, 0)]
  refine (hfault _).mpr ⟨4, ?_, rfl⟩
  have hbefore : ∀ d ∈ [(0, 1), (1, 2)], d.1 < kinds.length ∧ d.2 < kinds.length := by decide
  exact .edge (by decide) rfl hbefore (.tail (by decide))

end Build

end Flow

end PathExplorer
