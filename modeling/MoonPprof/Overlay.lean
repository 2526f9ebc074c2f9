/-
Changes laid over a map.

A change gives a key a value (`some v`) or takes its value away (`none`).

* `lookup_collect` — what a map collects from a list, in which keys may come again;
* `lookup_overlay` — what a map holds after one change at each of some keys;
* `updated_apply` — after changes in any number, the last one at a key counts;
* `updated_eq_iff` — so what was held before matters at the other keys only;
* `IsListing.lookup` — a key is found in the sorted list of what a map holds.
-/
import MoonPprof.SortByKey
import Mathlib.Logic.Function.Basic

universe u v

namespace HashMap

variable {K : Type u} {V : Type v} [DecidableEq K]

/-- `iter.collect()`: a repeated key keeps its last value. -/
def collect (kvs : List (K × V)) : HashMap K V := kvs.foldl (fun m kv => m.insert kv.1 kv.2) ∅

theorem lookup_foldl_insert (kvs : List (K × V)) (m : HashMap K V) (k : K) :
    (kvs.foldl (fun m kv => m.insert kv.1 kv.2) m).lookup k =
      (kvs.reverse.lookup k).or (m.lookup k) := by
  induction kvs using List.reverseRecOn with
  | nil => rfl
  | append_singleton kvs kv ih =>
    rw [List.foldl_append, List.reverse_append, List.reverse_singleton, List.singleton_append,
      List.lookup_cons, List.foldl_cons, List.foldl_nil]
    by_cases hk : k = kv.1
    · rw [hk, AList.lookup_insert, beq_self_eq_true]
      rfl
    · rw [AList.lookup_insert_ne hk, beq_false_of_ne hk, ih]

/-- The map holds what is found last in the list. -/
theorem lookup_collect (kvs : List (K × V)) (k : K) :
    (collect kvs).lookup k = kvs.reverse.lookup k := by
  rw [collect, lookup_foldl_insert, AList.lookup_empty, Option.or_none]

/-- A key that occurs once at most is found from both ends. -/
theorem lookup_reverse {kvs : List (K × V)} {k : K} (h : (kvs.map Prod.fst).count k ≤ 1) :
    kvs.reverse.lookup k = kvs.lookup k := by
  cases hlookup : kvs.lookup k with
  | none =>
    rw [List.lookup_eq_none_iff] at hlookup ⊢
    exact fun kv hkv => hlookup kv (List.mem_reverse.mp hkv)
  | some v =>
    obtain ⟨l₁, l₂, rfl, -⟩ := List.lookup_eq_some_iff.mp hlookup
    rw [List.map_append, List.map_cons, List.count_append, List.count_cons_self] at h
    have hnot : k ∉ l₂.map Prod.fst := List.count_eq_zero.mp (by omega)
    refine List.lookup_eq_some_iff.mpr ⟨l₂.reverse, l₁.reverse, by simp, fun kv hkv => ?_⟩
    refine bne_iff_ne.mpr fun heq => hnot ?_
    exact heq ▸ List.mem_map_of_mem (List.mem_reverse.mp hkv)

/-- One change. -/
def change (m : HashMap K V) (k : K) : Option V → HashMap K V
  | some v => m.insert k v
  | none => m.erase k

theorem lookup_change_self (m : HashMap K V) (k : K) (v : Option V) :
    (m.change k v).lookup k = v := by
  cases v with
  | none => exact AList.lookup_erase k m
  | some v => exact AList.lookup_insert m

theorem lookup_change_ne {m : HashMap K V} {k k' : K} (v : Option V) (h : k' ≠ k) :
    (m.change k v).lookup k' = m.lookup k' := by
  cases v with
  | none => exact AList.lookup_erase_ne h
  | some v => exact AList.lookup_insert_ne h

/-- The changes, one after the other. -/
def overlay (m : HashMap K V) (changes : List (Sigma fun _ : K => Option V)) : HashMap K V :=
  changes.foldl (fun m e => m.change e.1 e.2) m

/-- A key that is changed once holds what it is changed to, and any other what it held. -/
theorem lookup_overlay {changes : List (Sigma fun _ : K => Option V)} (h : changes.NodupKeys)
    (m : HashMap K V) (k : K) :
    (m.overlay changes).lookup k = (changes.dlookup k).getD (m.lookup k) := by
  induction changes generalizing m with
  | nil => rfl
  | cons e changes ih =>
    rw [List.nodupKeys_cons] at h
    rw [overlay, List.foldl_cons, ← overlay, ih h.2]
    by_cases hk : k = e.1
    · -- no later change is at this key
      subst hk
      rw [List.dlookup_eq_none.mpr h.1, List.dlookup_cons_eq, Option.getD_none, Option.getD_some,
        lookup_change_self]
    · rw [List.dlookup_cons_ne _ _ hk, lookup_change_ne _ hk]

end HashMap

/-! ### What is held, as a function of the key -/

section

variable {K : Type u} {V : Type v} [DecidableEq K]

/-- The changes in their order. -/
def updated (e : K → Option V) (changes : List (K × Option V)) : K → Option V :=
  changes.foldl (fun e c => Function.update e c.1 c.2) e

theorem updated_append (e : K → Option V) (changes changes' : List (K × Option V)) :
    updated e (changes ++ changes') = updated (updated e changes) changes' :=
  List.foldl_append

/-- The last change at a key counts. -/
theorem updated_apply (e : K → Option V) (changes : List (K × Option V)) (k : K) :
    updated e changes k = (changes.reverse.lookup k).getD (e k) := by
  -- the last change is met first in both
  induction changes using List.reverseRecOn with
  | nil => rfl
  | append_singleton changes c ih =>
    rw [updated_append, List.reverse_append, List.reverse_singleton, List.singleton_append,
      List.lookup_cons]
    show Function.update (updated e changes) c.1 c.2 k = _
    by_cases hk : k = c.1
    · rw [hk, Function.update_self, beq_self_eq_true]
      rfl
    · rw [Function.update_of_ne hk, beq_false_of_ne hk, ih]

/-- Changes hide what was held before at their keys, and nowhere else. -/
theorem updated_eq_iff {e e' : K → Option V} (changes : List (K × Option V)) (k : K) :
    updated e changes k = updated e' changes k ↔ k ∈ changes.map Prod.fst ∨ e k = e' k := by
  rw [updated_apply, updated_apply]
  cases hlookup : changes.reverse.lookup k with
  | none =>
    have hnot : k ∉ changes.map Prod.fst := by
      intro hk
      obtain ⟨c, hc, rfl⟩ := List.mem_map.mp hk
      exact absurd (List.lookup_eq_none_iff.mp hlookup c (List.mem_reverse.mpr hc)) (by simp)
    rw [or_iff_right hnot]
    exact Iff.rfl
  | some v =>
    obtain ⟨l₁, l₂, heq, -⟩ := List.lookup_eq_some_iff.mp hlookup
    have hmem : (k, v) ∈ changes := List.mem_reverse.mp (by rw [heq]; simp)
    exact iff_of_true rfl (Or.inl (List.mem_map_of_mem hmem))

end

/-! ### Listings -/

section

variable {K : Type u} {V : Type v} [LinearOrder K]

/-- All keys that hold a value, each once and in their order, with their values. -/
structure IsListing (e : K → Option V) (l : List (K × V)) : Prop where
  sorted : l.Pairwise fun a b => a.1 < b.1
  mem_iff : ∀ k v, (k, v) ∈ l ↔ e k = some v

/-- The value of a key is found in the list. -/
theorem IsListing.lookup {e : K → Option V} {l : List (K × V)} (h : IsListing e l) (k : K) :
    l.lookup k = e k := by
  cases hlookup : l.lookup k with
  | some v =>
    obtain ⟨l₁, l₂, rfl, -⟩ := List.lookup_eq_some_iff.mp hlookup
    exact ((h.mem_iff k v).mp (by simp)).symm
  | none =>
    rw [List.lookup_eq_none_iff] at hlookup
    cases hk : e k with
    | none => rfl
    | some v => exact absurd (hlookup _ ((h.mem_iff k v).mpr hk)) (by simp)

/-- The keys in the list are those that hold a value. -/
theorem IsListing.mem_keys {e : K → Option V} {l : List (K × V)} (h : IsListing e l) {k : K} :
    k ∈ l.map Prod.fst ↔ (e k).isSome := by
  rw [Option.isSome_iff_exists, List.mem_map]
  constructor
  · rintro ⟨⟨k, v⟩, hmem, rfl⟩
    exact ⟨v, (h.mem_iff k v).mp hmem⟩
  · rintro ⟨v, hv⟩
    exact ⟨(k, v), (h.mem_iff k v).mpr hv, rfl⟩

/-- The iteration of an ordered map lists it. -/
theorem HashMap.isListing_inOrder (m : HashMap K V) :
    IsListing m.lookup (m.inOrder.map fun e => (e.1, e.2)) where
  sorted := List.pairwise_map.mpr m.pairwise_lt_inOrder
  mem_iff k v := by
    rw [List.mem_map, ← HashMap.mem_inOrder]
    constructor
    · rintro ⟨e, he, heq⟩
      cases heq
      exact he
    · intro hmem
      exact ⟨_, hmem, rfl⟩

end
