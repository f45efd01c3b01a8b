import Mathlib.Data.List.Chain
import Mathlib.Order.Bounds.Basic

namespace PathExplorer

variable {N : Type} {r : N → N → Prop} {a b c : N}

inductive Walk (r : N → N → Prop) (a : N) : N → Nat → Prop
  | here : Walk r a a 0
  | step {b c : N} {k : Nat} : Walk r a b k → r b c → Walk r a c (k + 1)

structure IsPath (r : N → N → Prop) (a b : N) (p : List N) : Prop where
  head : p.head? = some a
  last : p.getLast? = some b
  chain : p.IsChain r

/-- A path that no walk between its ends undercuts. -/
structure IsShortest (r : N → N → Prop) (a b : N) (p : List N) : Prop extends IsPath r a b p where
  le : ∀ k, Walk r a b k → p.length ≤ k + 1

namespace Walk

theorem trans {j k : Nat} (hab : Walk r a b j) (hbc : Walk r b c k) : Walk r a c (j + k) := by
  induction hbc with
  | here => exact hab
  | step _ h ih => exact ih.step h

theorem cons {k : Nat} (h : r a b) (hbc : Walk r b c k) : Walk r a c (k + 1) := by
  have hab : Walk r a b 1 := here.step h
  exact Nat.add_comm k 1 ▸ hab.trans hbc

theorem mem {p : N → Prop} {k : Nat} (h : Walk r a b k) (ha : p a)
    (hp : ∀ x y, p x → r x y → p y) : p b := by
  induction h with
  | here => exact ha
  | step _ hr ih => exact hp _ _ ih hr

end Walk

namespace IsPath

theorem singleton (r : N → N → Prop) (a : N) : IsPath r a a [a] := ⟨rfl, rfl, .singleton a⟩

theorem snoc {p : List N} (h : IsPath r a b p) (hr : r b c) : IsPath r a c (p ++ [c]) where
  head := by rw [List.head?_append, h.head, Option.some_or]
  last := by simp
  chain := List.isChain_append.mpr
    ⟨h.chain, .singleton c, fun x hx y hy => by
      rw [h.last] at hx
      cases hx
      cases hy
      exact hr⟩

theorem length_pos {p : List N} (h : IsPath r a b p) : 0 < p.length := by
  cases p with
  | nil => cases h.head
  | cons x p => exact Nat.succ_pos _

theorem walk {p : List N} (h : IsPath r a b p) : Walk r a b (p.length - 1) := by
  induction p generalizing a with
  | nil => cases h.head
  | cons x p ih =>
    obtain ⟨hx, hl, hc⟩ := h
    cases hx
    cases p with
    | nil =>
      cases hl
      exact .here
    | cons y p =>
      have hc := List.isChain_cons_cons.mp hc
      have hp := ih ⟨rfl, by rwa [List.getLast?_cons_cons] at hl, hc.2⟩
      exact Walk.cons hc.1 hp

theorem split {l m : List N} (h : IsPath r a b (l ++ c :: m)) :
    IsPath r a c (l ++ [c]) ∧ IsPath r c b (c :: m) := by
  obtain ⟨hl, hm⟩ := List.isChain_split.mp h.chain
  refine ⟨⟨?_, by simp, hl⟩, ⟨rfl, ?_, hm⟩⟩
  · have hhead := h.head
    cases l with
    | nil => exact hhead
    | cons x l => exact hhead
  · have hlast := h.last
    rwa [List.getLast?_append_of_ne_nil _ (List.cons_ne_nil c m)] at hlast

end IsPath

theorem IsShortest.isLeast {p : List N} (h : IsShortest r a b p) :
    IsLeast {k | Walk r a b k} (p.length - 1) :=
  ⟨h.walk, fun k hk => Nat.sub_le_of_le_add (h.le k hk)⟩

/-- A shortest path comes by no node twice, for it could be cut short there. -/
theorem IsShortest.nodup {p : List N} (h : IsShortest r a b p) : p.Nodup := by
  refine List.pairwise_iff_forall_sublist.mpr ?_
  rintro c _ hc rfl
  obtain ⟨l, m, rfl, hl, hm⟩ := List.cons_sublist_iff.mp hc
  obtain ⟨before, l', rfl⟩ := List.append_of_mem hl
  obtain ⟨m', behind, rfl⟩ := List.append_of_mem (List.singleton_sublist.mp hm)
  have hto : Walk r a c before.length := by
    have hp := h.toIsPath
    rw [List.append_assoc] at hp
    simpa using hp.split.1.walk
  have hfrom : Walk r c b behind.length := by
    have hp := h.toIsPath
    rw [← List.append_assoc] at hp
    simpa using hp.split.2.walk
  have hle := h.le _ (hto.trans hfrom)
  simp only [List.length_append, List.length_cons] at hle
  omega

theorem IsShortest.eq_singleton {p : List N} (h : IsShortest r a a p) : p = [a] := by
  have hle := h.le 0 .here
  have hhead := h.head
  cases p with
  | nil => cases hhead
  | cons x p =>
    cases hhead
    have hnil : p = [] := List.length_eq_zero_iff.mp (Nat.le_zero.mp (Nat.le_of_succ_le_succ hle))
    rw [hnil]

end PathExplorer
