/-
Interning tables.

An `InternTable` is a list of distinct items with the map from each item to its
position; `lookup_iff` is the invariant that ties the two.  `intern` returns the
position of an item, and appends it when it is new:

* `intern_get` — the item stands at the position returned;
* `intern_isPrefix` — what was in the table stays where it was;
* `intern_of_get` — interning an item again changes nothing.
-/
import MoonPprof.HashMap
import MoonPprof.Lists

universe u

structure InternTable (K : Type u) [DecidableEq K] where
  items : List K
  index : HashMap K Nat
  lookup_iff : ∀ k i, index.lookup k = some i ↔ items[i]? = some k

namespace InternTable

variable {K : Type u} [DecidableEq K]

def empty : InternTable K where
  items := []
  index := ∅
  lookup_iff := by simp

/-- A table never holds an item twice. -/
theorem get_inj (t : InternTable K) {i j : Nat} {k : K} (hi : t.items[i]? = some k)
    (hj : t.items[j]? = some k) : i = j := by
  rw [← t.lookup_iff] at hi hj
  exact Option.some.inj (hi.symm.trans hj)

theorem nodup (t : InternTable K) : t.items.Nodup := by
  rw [List.nodup_iff_getElem?_ne_getElem?]
  intro i j hij hj heq
  have hget := List.getElem?_eq_getElem hj
  exact absurd (t.get_inj (heq.trans hget) hget) (Nat.ne_of_lt hij)

theorem lookup_push_iff (t : InternTable K) {k : K} (h : t.index.lookup k = none) (k' : K)
    (i : Nat) :
    (t.index.insert k t.items.length).lookup k' = some i ↔ (t.items ++ [k])[i]? = some k' := by
  rw [getElem?_concat_eq_some, ← t.lookup_iff]
  by_cases hk : k' = k
  · subst hk
    rw [AList.lookup_insert, h]
    simp [eq_comm]
  · rw [AList.lookup_insert_ne hk]
    exact (or_iff_left fun heq => hk heq.2.symm).symm

/-- Append an item that is not in the table. -/
def push (t : InternTable K) (k : K) (h : t.index.lookup k = none) : InternTable K where
  items := t.items ++ [k]
  index := t.index.insert k t.items.length
  lookup_iff := t.lookup_push_iff h

/-- The position of an item, which is appended when it is new. -/
def intern (t : InternTable K) (k : K) : Nat × InternTable K :=
  match h : t.index.lookup k with
  | some i => (i, t)
  | none => (t.items.length, t.push k h)

theorem intern_of_get {t : InternTable K} {i : Nat} {k : K} (h : t.items[i]? = some k) :
    t.intern k = (i, t) := by
  rw [← t.lookup_iff] at h
  rw [intern]
  split
  · rename_i j hj
    rw [Option.some.inj (hj.symm.trans h)]
  · rename_i hnone
    rw [hnone] at h
    cases h

theorem intern_items_of_not_mem {t : InternTable K} {k : K} (h : k ∉ t.items) :
    (t.intern k).1 = t.items.length ∧ (t.intern k).2.items = t.items ++ [k] := by
  rw [intern]
  split
  · rename_i i hi
    rw [t.lookup_iff] at hi
    exact absurd (List.mem_of_getElem? hi) h
  · exact ⟨rfl, rfl⟩

theorem intern_get (t : InternTable K) (k : K) :
    (t.intern k).2.items[(t.intern k).1]? = some k := by
  rw [intern]
  split
  · rename_i i hi
    exact (t.lookup_iff k i).mp hi
  · show (t.items ++ [k])[t.items.length]? = some k
    exact List.getElem?_concat_length

theorem intern_isPrefix (t : InternTable K) (k : K) : t.items <+: (t.intern k).2.items := by
  rw [intern]
  split
  · exact List.prefix_refl _
  · exact List.prefix_append _ _

end InternTable
