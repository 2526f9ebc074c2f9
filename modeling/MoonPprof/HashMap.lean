/-
Hash maps, as far as a program can see them.

A hash map is an association list without repeated keys; the order in which it
yields its entries is not specified, so iteration goes through an `IterOrder`,
any rearrangement at all.

`indexBy key rows` collects rows under their keys, the last one of each key.
`groupFold key step init xs` is the loop

    for x in xs { let e = map.entry(key(x)).or_default(); *e = step(*e, x) }

and `lookup_groupFold` says what it leaves at each key: the elements with that
key, folded in their order.
-/
import Mathlib.Data.List.AList
import Mathlib.Data.List.Induction
import Mathlib.Tactic.Common

universe u v w

/-- A map from `K` to `V`, each key at most once. -/
abbrev HashMap (K : Type u) (V : Type v) := AList (fun _ : K => V)

/-- The order in which a hash map happens to yield its entries. -/
structure IterOrder (α : Type u) where
  order : List α → List α
  perm : ∀ l, (order l).Perm l

/-- Any rearrangement of the entries may come up. -/
theorem IterOrder.exists_order {α : Type u} {l l' : List α} (h : l'.Perm l) :
    ∃ it : IterOrder α, it.order l = l' := by
  classical
  refine ⟨⟨fun m => if m = l then l' else m, fun m => ?_⟩, if_pos rfl⟩
  by_cases hm : m = l
  · rw [if_pos hm, hm]
    exact h
  · rw [if_neg hm]

namespace HashMap

variable {K : Type u} {V : Type v}

/-- The values, in whatever order iteration takes. -/
def intoValues (it : IterOrder V) (m : HashMap K V) : List V :=
  it.order (m.entries.map Sigma.snd)

theorem intoValues_perm (it : IterOrder V) (m : HashMap K V) :
    (intoValues it m).Perm (m.entries.map Sigma.snd) :=
  it.perm _

variable [DecidableEq K]

theorem kerase_eq_filter {l : List (Sigma fun _ : K => V)} (h : l.NodupKeys) (k : K) :
    l.kerase k = l.filter (·.1 ≠ k) := by
  induction l with
  | nil => rfl
  | cons e l ih =>
    rw [List.nodupKeys_cons] at h
    by_cases hk : k = e.1
    · rw [List.kerase_cons_eq hk, List.filter_cons_of_neg (by simp [hk])]
      refine (List.filter_eq_self.mpr fun x hx => ?_).symm
      have : x.1 ≠ e.1 := fun heq => h.1 (heq ▸ List.mem_keys_of_mem hx)
      simpa [hk] using this
    · rw [List.kerase_cons_ne hk, List.filter_cons_of_pos (by simpa using Ne.symm hk), ih h.2]

theorem entries_insert (m : HashMap K V) (k : K) (v : V) :
    (m.insert k v).entries = ⟨k, v⟩ :: m.entries.filter (·.1 ≠ k) := by
  rw [AList.entries_insert, kerase_eq_filter m.nodupKeys]

theorem entries_erase (m : HashMap K V) (k : K) :
    (m.erase k).entries = m.entries.filter (·.1 ≠ k) :=
  kerase_eq_filter m.nodupKeys k

/-- A new key hides nothing. -/
theorem lookup_insert_of_lookup {m : HashMap K V} {k k' : K} {v v' : V} (hnone : m.lookup k = none)
    (h : m.lookup k' = some v') : (m.insert k v).lookup k' = some v' := by
  have hne : k' ≠ k := by
    rintro rfl
    rw [hnone] at h
    cases h
  exact (AList.lookup_insert_ne hne).trans h

theorem lookup_insert_cases {m : HashMap K V} {k k' : K} {v v' : V}
    (h : (m.insert k v).lookup k' = some v') : (k' = k ∧ v' = v) ∨ m.lookup k' = some v' := by
  by_cases hk : k' = k
  · subst hk
    rw [AList.lookup_insert, Option.some.injEq] at h
    exact Or.inl ⟨rfl, h.symm⟩
  · exact Or.inr ((AList.lookup_insert_ne hk).symm.trans h)

/-- Keys with different values have different values still after a new value is added. -/
theorem lookup_insert_inj {m : HashMap K V} {k : K} {v : V}
    (hinj : ∀ k₁ k₂ v', m.lookup k₁ = some v' → m.lookup k₂ = some v' → k₁ = k₂)
    (hnew : ∀ k', m.lookup k' ≠ some v) {k₁ k₂ : K} {v' : V}
    (h₁ : (m.insert k v).lookup k₁ = some v') (h₂ : (m.insert k v).lookup k₂ = some v') :
    k₁ = k₂ := by
  rcases lookup_insert_cases h₁ with ⟨rfl, rfl⟩ | hold₁
  · rcases lookup_insert_cases h₂ with ⟨rfl, -⟩ | hold₂
    · rfl
    · exact absurd hold₂ (hnew k₂)
  · rcases lookup_insert_cases h₂ with ⟨-, rfl⟩ | hold₂
    · exact absurd hold₁ (hnew k₁)
    · exact hinj k₁ k₂ v' hold₁ hold₂

/-- A map that holds `f v` wherever another holds `v` has the same entries, up
to order. -/
theorem entries_perm_of_lookup {W : Type w} {m : HashMap K V} {m' : HashMap K W}
    {f : W → Option V} (h : ∀ k, m.lookup k = (m'.lookup k).bind f) :
    m.entries.Perm (m'.entries.filterMap fun e => (f e.2).map (Sigma.mk e.1)) := by
  refine (List.perm_ext_iff_of_nodup m.nodupKeys.nodup ?_).mpr fun x => ?_
  · refine List.Pairwise.filterMap _ (fun e e' hne x hx x' hx' heq => hne ?_)
      (List.nodupKeys_iff_pairwise.mp m'.nodupKeys)
    obtain ⟨v, -, rfl⟩ := Option.map_eq_some_iff.mp hx
    obtain ⟨v', -, rfl⟩ := Option.map_eq_some_iff.mp hx'
    exact (Sigma.mk.inj heq).1
  · obtain ⟨k, v⟩ := x
    rw [← AList.mem_lookup_iff, h, Option.mem_def, Option.bind_eq_some_iff, List.mem_filterMap]
    constructor
    · rintro ⟨w, hw, hv⟩
      exact ⟨⟨k, w⟩, AList.mem_lookup_iff.mp hw, by rw [hv, Option.map_some]⟩
    · rintro ⟨⟨k', w⟩, hmem, hx⟩
      obtain ⟨v', hv', heq⟩ := Option.map_eq_some_iff.mp hx
      cases heq
      exact ⟨w, AList.mem_lookup_iff.mpr hmem, hv'⟩

/-- A map that holds `f k` at the keys `ks` and nothing elsewhere. -/
theorem entries_perm_map {m : HashMap K V} {ks : List K} {f : K → V} (hks : ks.Nodup)
    (h : ∀ k, m.lookup k = if k ∈ ks then some (f k) else none) :
    m.entries.Perm (ks.map fun k => ⟨k, f k⟩) := by
  refine (List.perm_ext_iff_of_nodup m.nodupKeys.nodup ?_).mpr fun x => ?_
  · exact hks.map fun k k' heq => (Sigma.mk.inj heq).1
  · obtain ⟨k, v⟩ := x
    rw [← AList.mem_lookup_iff, h, Option.mem_def, List.mem_map]
    constructor
    · intro hv
      split at hv
      · rename_i hk
        cases hv
        exact ⟨k, hk, rfl⟩
      · cases hv
    · rintro ⟨k', hk', heq⟩
      cases heq
      rw [if_pos hk']

/-- `rows.iter().map(|r| (key(r), r)).collect()`: a repeated key keeps its last row. -/
def indexBy (key : V → K) (rows : List V) : HashMap K V :=
  rows.foldl (fun m r => m.insert (key r) r) ∅

theorem indexBy_concat (key : V → K) (rows : List V) (r : V) :
    indexBy key (rows ++ [r]) = (indexBy key rows).insert (key r) r := by
  rw [indexBy, List.foldl_append, List.foldl_cons, List.foldl_nil, ← indexBy]

theorem lookup_indexBy {key : V → K} {rows : List V} {k : K} {r : V}
    (h : (indexBy key rows).lookup k = some r) : r ∈ rows ∧ key r = k := by
  induction rows using List.reverseRecOn with
  | nil => cases h
  | append_singleton rows x ih =>
    rw [indexBy_concat] at h
    rcases lookup_insert_cases h with ⟨rfl, rfl⟩ | hold
    · exact ⟨by simp, rfl⟩
    · obtain ⟨hmem, hk⟩ := ih hold
      exact ⟨by simp [hmem], hk⟩

/-- With distinct keys every row is found under its own. -/
theorem indexBy_of_mem {key : V → K} {rows : List V} (hnodup : (rows.map key).Nodup) {r : V}
    (h : r ∈ rows) : (indexBy key rows).lookup (key r) = some r := by
  induction rows using List.reverseRecOn with
  | nil => cases h
  | append_singleton rows x ih =>
    rw [indexBy_concat]
    rw [List.map_append, List.nodup_append] at hnodup
    rcases List.mem_append.mp h with h | h
    · have hne : key r ≠ key x := hnodup.2.2 (key r) (List.mem_map_of_mem h) (key x) (by simp)
      rw [AList.lookup_insert_ne hne]
      exact ih hnodup.1 h
    · rw [List.mem_singleton.mp h, AList.lookup_insert]

/-- `*map.entry(k).or_insert(init)` updated by `f`. -/
def entryOr (m : HashMap K V) (k : K) (init : V) (f : V → V) : HashMap K V :=
  m.insert k (f ((m.lookup k).getD init))

theorem lookup_entryOr_self (m : HashMap K V) (k : K) (init : V) (f : V → V) :
    (m.entryOr k init f).lookup k = some (f ((m.lookup k).getD init)) := by
  rw [entryOr, AList.lookup_insert]

theorem lookup_entryOr_ne {m : HashMap K V} {k k' : K} {init : V} {f : V → V} (h : k' ≠ k) :
    (m.entryOr k init f).lookup k' = m.lookup k' := by
  rw [entryOr, AList.lookup_insert_ne h]

/-- One pass over `xs` that folds each element into the entry of its key. -/
def groupFold {α : Type w} (key : α → K) (step : V → α → V) (init : V) (xs : List α)
    (m : HashMap K V) : HashMap K V :=
  xs.foldl (fun m x => m.entryOr (key x) init (step · x)) m

/-- Each entry has taken exactly the elements of its key, in their order. -/
theorem lookup_groupFold_of {α : Type w} (key : α → K) (step : V → α → V) (init : V)
    (xs : List α) (m : HashMap K V) (k : K) :
    (groupFold key step init xs m).lookup k =
      if (xs.filter (key · = k)).isEmpty then m.lookup k
      else some ((xs.filter (key · = k)).foldl step ((m.lookup k).getD init)) := by
  induction xs generalizing m with
  | nil => rfl
  | cons x xs ih =>
    rw [groupFold, List.foldl_cons, ← groupFold, ih]
    by_cases hk : key x = k
    · subst hk
      rw [lookup_entryOr_self, List.filter_cons_of_pos (by simp)]
      simp only [List.isEmpty_cons, Bool.false_eq_true, if_false, Option.getD_some,
        List.foldl_cons]
      split
      · rename_i hnil
        rw [List.isEmpty_iff.mp hnil, List.foldl_nil]
      · rfl
    · rw [lookup_entryOr_ne (Ne.symm hk), List.filter_cons_of_neg (by simpa using hk)]

theorem lookup_groupFold {α : Type w} (key : α → K) (step : V → α → V) (init : V)
    (xs : List α) (k : K) :
    (groupFold key step init xs (∅ : HashMap K V)).lookup k =
      if (xs.filter (key · = k)).isEmpty then none
      else some ((xs.filter (key · = k)).foldl step init) := by
  rw [lookup_groupFold_of, AList.lookup_empty, Option.getD_none]

end HashMap
