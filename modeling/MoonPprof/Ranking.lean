/-
The first entries of a list in the order of a key.

* `le_of_isPrefix_sortByKey` — what is cut off comes behind what is kept;
* `sortByKey_congr`, `map_sortByKey` — the order the list came in shows in equal keys only;
* `ranked` — the largest values, up to the first that is zero.
-/
import MoonPprof.SortByKey
import Mathlib.Algebra.Order.BigOperators.Group.List
import Mathlib.Algebra.Order.Ring.Int
import Mathlib.Data.List.TakeWhile

universe u v w

/-! ### Cutting a sorted list -/

section

variable {α : Type u} {β : Type v} [LinearOrder β] {key : α → β} {l m pre : List α} {n : Nat}

theorem mem_of_isPrefix_sortByKey (h : pre <+: sortByKey key l) {a : α} (ha : a ∈ pre) : a ∈ l :=
  (sortByKey_perm key l).mem_iff.mp (h.subset ha)

/-- What is cut off comes behind what is kept. -/
theorem le_of_isPrefix_sortByKey (h : pre <+: sortByKey key l) {a b : α} (ha : a ∈ l)
    (hcut : a ∉ pre) (hb : b ∈ pre) : key b ≤ key a := by
  obtain ⟨rest, hrest⟩ := h
  have hpairwise := pairwise_sortByKey key l
  rw [← hrest, List.pairwise_append] at hpairwise
  have hmem : a ∈ pre ++ rest := hrest ▸ (sortByKey_perm key l).mem_iff.mpr ha
  exact hpairwise.2.2 b hb a ((List.mem_append.mp hmem).resolve_left hcut)

/-- Only a full list leaves something out. -/
theorem length_take_sortByKey {a : α} (ha : a ∈ l) (hcut : a ∉ (sortByKey key l).take n) :
    ((sortByKey key l).take n).length = n := by
  rw [List.length_take, Nat.min_eq_left]
  by_contra hlt
  rw [List.take_of_length_le (by omega)] at hcut
  exact hcut ((sortByKey_perm key l).mem_iff.mpr ha)

theorem take_sortByKey_perm (h : l.length ≤ n) : ((sortByKey key l).take n).Perm l := by
  rw [List.take_of_length_le ((sortByKey_perm key l).length_eq.trans_le h)]
  exact sortByKey_perm key l

/-- A list whose keys tell its elements sorts the same in every order. -/
theorem sortByKey_congr (hkey : Function.Injective key) (h : l.Perm m) :
    sortByKey key l = sortByKey key m := by
  have hperm : (sortByKey key l).Perm (sortByKey key m) :=
    ((sortByKey_perm key l).trans h).trans (sortByKey_perm key m).symm
  exact hperm.eq_of_pairwise (fun _ _ _ _ hab hba => hkey (le_antisymm hab hba))
    (pairwise_sortByKey key l) (pairwise_sortByKey key m)

/-- Sorting by what the key depends on only. -/
theorem map_sortByKey {γ : Type w} {key : γ → β} (hkey : Function.Injective key) (f : α → γ)
    (l : List α) : (sortByKey (fun a => key (f a)) l).map f = sortByKey key (l.map f) := by
  have hperm : ((sortByKey (fun a => key (f a)) l).map f).Perm (sortByKey key (l.map f)) :=
    ((sortByKey_perm _ l).map f).trans (sortByKey_perm key _).symm
  exact hperm.eq_of_pairwise (fun _ _ _ _ hab hba => hkey (le_antisymm hab hba))
    (List.pairwise_map.mpr (pairwise_sortByKey _ l)) (pairwise_sortByKey key _)

end

/-! ### The largest values -/

section

variable {α : Type u} {value : α → Int} {l m : List α} {n : Nat}

/-- The `n` largest values, up to the first that is zero. -/
def ranked (n : Nat) (value : α → Int) (l : List α) : List α :=
  ((sortByKey (fun a => -value a) l).take n).takeWhile fun a => value a ≠ 0

/-- What is left out: it comes behind what is listed, and has a positive value only when the list is
full. -/
theorem exists_rest_ranked (n : Nat) (value : α → Int) (l : List α) :
    ∃ rest, (ranked n value l ++ rest).Perm l ∧
      (∀ a ∈ rest, ∀ b ∈ ranked n value l, value a ≤ value b) ∧
      ∀ a ∈ rest, 0 < value a → (ranked n value l).length = n := by
  set sorted := sortByKey (fun a => -value a) l with hsorted
  set zeros := (sorted.take n).dropWhile fun a => value a ≠ 0 with hzeros
  have hsplit : ranked n value l ++ (zeros ++ sorted.drop n) = sorted := by
    rw [← List.append_assoc, ranked, hzeros, List.takeWhile_append_dropWhile,
      List.take_append_drop]
  have hpairwise := pairwise_sortByKey (fun a => -value a) l
  rw [← hsorted, ← hsplit, List.pairwise_append] at hpairwise
  obtain ⟨-, hrest, hle⟩ := hpairwise
  have hperm : (ranked n value l ++ (zeros ++ sorted.drop n)).Perm l := by
    rw [hsplit]
    exact sortByKey_perm _ l
  refine ⟨zeros ++ sorted.drop n, hperm, fun a ha b hb => ?_, fun a ha hpos => ?_⟩
  · have := hle b hb a ha
    omega
  · rcases hcases : zeros with _ | ⟨b, zeros'⟩
    · -- the list goes up to its end, and there is more
      rw [hcases, List.nil_append] at ha
      have hlen := List.length_pos_of_mem ha
      have hall : ranked n value l = sorted.take n := by
        have htake := List.takeWhile_append_dropWhile (p := fun a => decide (value a ≠ 0))
          (l := sorted.take n)
        rw [← hzeros, hcases, List.append_nil] at htake
        exact htake
      rw [hall, List.length_take]
      rw [List.length_drop] at hlen
      omega
    · -- the list stops at a zero, which nothing positive comes behind
      have hzero : value b = 0 := by
        have hne : zeros ≠ [] := hcases ▸ List.cons_ne_nil b zeros'
        have hhead := List.head_dropWhile_not (fun a => decide (value a ≠ 0)) hne
        simp only [← hzeros, hcases, List.head_cons] at hhead
        exact not_not.mp (of_decide_eq_false hhead)
      rw [hcases, List.cons_append] at ha hrest
      rcases List.mem_cons.mp ha with rfl | ha
      · omega
      · have := (List.pairwise_cons.mp hrest).1 a ha
        omega

theorem mem_of_mem_ranked {a : α} (ha : a ∈ ranked n value l) : a ∈ l := by
  obtain ⟨rest, hperm, -⟩ := exists_rest_ranked n value l
  exact hperm.mem_iff.mp (List.mem_append_left _ ha)

theorem ne_zero_of_mem_ranked {a : α} (ha : a ∈ ranked n value l) : value a ≠ 0 := by
  have hvalue := List.mem_takeWhile_imp ha
  exact of_decide_eq_true hvalue

/-- What is not listed is at most what is listed, and not positive unless the list is full. -/
theorem of_notMem_ranked {a : α} (ha : a ∈ l) (hcut : a ∉ ranked n value l) :
    (∀ b ∈ ranked n value l, value a ≤ value b) ∧
      (0 < value a → (ranked n value l).length = n) := by
  obtain ⟨rest, hperm, hle, hfull⟩ := exists_rest_ranked n value l
  have hrest : a ∈ rest := (List.mem_append.mp (hperm.mem_iff.mpr ha)).resolve_left hcut
  exact ⟨hle a hrest, hfull a hrest⟩

theorem neg_id_injective : Function.Injective fun x : Int => -id x := neg_injective

/-- The values are those that a list of values lists. -/
theorem map_ranked (n : Nat) (value : α → Int) (l : List α) :
    (ranked n value l).map value = ranked n id (l.map value) := by
  have hsorted : (sortByKey (fun a => -value a) l).map value =
      sortByKey (fun x => -id x) (l.map value) := map_sortByKey neg_id_injective value l
  rw [ranked, ranked, ← hsorted, ← List.map_take, List.takeWhile_map]
  rfl

/-- A list of values lists the same in every order. -/
theorem ranked_id_perm {xs ys : List Int} (h : xs.Perm ys) : ranked n id xs = ranked n id ys := by
  rw [ranked, ranked, sortByKey_congr neg_id_injective h]

section

variable (hnonneg : ∀ a ∈ l, 0 ≤ value a)

include hnonneg

theorem sum_ranked_le : ((ranked n value l).map value).sum ≤ (l.map value).sum := by
  obtain ⟨rest, hperm, -⟩ := exists_rest_ranked n value l
  have hsum : 0 ≤ (rest.map value).sum := by
    refine List.sum_nonneg fun v hv => ?_
    obtain ⟨a, ha, rfl⟩ := List.mem_map.mp hv
    exact hnonneg a (hperm.mem_iff.mp (List.mem_append_right _ ha))
  rw [← (hperm.map value).sum_eq, List.map_append, List.sum_append]
  omega

/-- A list that is not full lists all there is. -/
theorem sum_ranked (hlt : (ranked n value l).length < n) :
    ((ranked n value l).map value).sum = (l.map value).sum := by
  obtain ⟨rest, hperm, -, hfull⟩ := exists_rest_ranked n value l
  have hsum : (rest.map value).sum = 0 := by
    refine List.sum_eq_zero fun v hv => ?_
    obtain ⟨a, ha, rfl⟩ := List.mem_map.mp hv
    have hle := hnonneg a (hperm.mem_iff.mp (List.mem_append_right _ ha))
    by_contra hne
    exact absurd (hfull a ha (lt_of_le_of_ne hle (Ne.symm hne))) (by omega)
  rw [← (hperm.map value).sum_eq, List.map_append, List.sum_append, hsum, add_zero]

end

end
