/-
Sorting by a key.

`sortByKey key` is a stable sort (`slice::sort_by_key`); the iteration of an
ordered map is its entries sorted by key (`HashMap.inOrder`).

* `sortByKey_eq` — a rearrangement of a list with increasing keys sorts to it;
* `pairwise_lt_sortByKey` — distinct keys come out in increasing order.
-/
import MoonPprof.HashMap
import MoonPprof.Lists
import Mathlib.Data.List.Sort

universe u v

variable {α : Type u} {β : Type v} [LinearOrder β]

/-- A stable sort by `key`. -/
def sortByKey (key : α → β) (l : List α) : List α := l.insertionSort fun a b => key a ≤ key b

theorem sortByKey_perm (key : α → β) (l : List α) : (sortByKey key l).Perm l :=
  List.perm_insertionSort _ l

theorem pairwise_sortByKey (key : α → β) (l : List α) :
    (sortByKey key l).Pairwise fun a b => key a ≤ key b := by
  have : Std.Total fun a b : α => key a ≤ key b := ⟨fun a b => le_total (key a) (key b)⟩
  have : IsTrans α fun a b => key a ≤ key b := ⟨fun _ _ _ => le_trans⟩
  exact List.pairwise_insertionSort _ l

/-- A rearrangement of a list with increasing keys sorts to that list. -/
theorem sortByKey_eq {key : α → β} {l m : List α} (h : l.Perm m)
    (hm : m.Pairwise fun a b => key a < key b) : sortByKey key l = m := by
  refine List.Perm.eq_of_pairwise ?_ (pairwise_sortByKey key l) (hm.imp le_of_lt)
    ((sortByKey_perm key l).trans h)
  intro a b ha hb hab hba
  have ha' : a ∈ m := h.mem_iff.mp ((sortByKey_perm key l).mem_iff.mp ha)
  by_contra hne
  rcases List.pairwise_iff_getElem.mp hm with hlt
  obtain ⟨i, hi, rfl⟩ := List.getElem_of_mem ha'
  obtain ⟨j, hj, rfl⟩ := List.getElem_of_mem hb
  rcases Nat.lt_trichotomy i j with hij | rfl | hij
  · exact absurd hba (not_le_of_gt (hlt i j hi hj hij))
  · exact hne rfl
  · exact absurd hab (not_le_of_gt (hlt j i hj hi hij))

theorem pairwise_lt_sortByKey {key : α → β} {l : List α} (h : (l.map key).Nodup) :
    (sortByKey key l).Pairwise fun a b => key a < key b := by
  have hnodup : ((sortByKey key l).map key).Nodup :=
    ((sortByKey_perm key l).map key).nodup_iff.mpr h
  have hne : (sortByKey key l).Pairwise fun a b => key a ≠ key b := List.pairwise_map.mp hnodup
  exact ((pairwise_sortByKey key l).and hne).imp fun h => lt_of_le_of_ne h.1 h.2

namespace HashMap

variable {K : Type u} {V : Type v} [LinearOrder K]

/-- The entries of an ordered map, in key order. -/
def inOrder (m : HashMap K V) : List (Sigma fun _ : K => V) := sortByKey Sigma.fst m.entries

theorem pairwise_lt_inOrder (m : HashMap K V) :
    m.inOrder.Pairwise fun e e' => e.1 < e'.1 :=
  pairwise_lt_sortByKey m.nodupKeys

theorem mem_inOrder {m : HashMap K V} {k : K} {v : V} :
    (⟨k, v⟩ : Sigma fun _ : K => V) ∈ m.inOrder ↔ m.lookup k = some v := by
  rw [inOrder, (sortByKey_perm _ _).mem_iff, ← AList.mem_lookup_iff, Option.mem_def]

end HashMap
