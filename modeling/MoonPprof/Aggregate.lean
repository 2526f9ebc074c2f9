/-
Adding up the values of equal keys.

`Aggregates ord rows xs` says that `rows` are the distinct keys of `xs` with the
sums of their values, in the order of `ord`.

* `Aggregates.self` — the rows of rows are the rows themselves;
* `Aggregates.sum_eq` — nothing is lost from the total;
* `inOrder_of_lookup` — the entries of an ordered map with these sums.

`entries_groupSums` says the same of a hash map that adds two values of each key
in machine integers.
-/
import MoonPprof.HashMap
import MoonPprof.MachineInt
import MoonPprof.SortByKey
import Mathlib.Algebra.BigOperators.Group.Finset.Piecewise
import Mathlib.Algebra.Order.Ring.Int

universe u v w

variable {K : Type u} {β : Type v} [DecidableEq K] [LinearOrder β]

/-- The sum of the values of a key. -/
def sumAt (xs : List (K × Int)) (k : K) : Int := ((xs.filter (·.1 = k)).map Prod.snd).sum

structure Aggregates (ord : K → β) (rows xs : List (K × Int)) : Prop where
  ordered : rows.Pairwise fun x y => ord x.1 < ord y.1
  mem_iff : ∀ k v, (k, v) ∈ rows ↔ k ∈ xs.map Prod.fst ∧ v = sumAt xs k

/-- The keys in order, with their sums. -/
def aggregate (ord : K → β) (xs : List (K × Int)) : List (K × Int) :=
  (sortByKey ord (xs.map Prod.fst).dedup).map fun k => (k, sumAt xs k)

namespace Aggregates

variable {ord : K → β} {rows xs : List (K × Int)}

theorem nodup (h : Aggregates ord rows xs) : rows.Nodup :=
  h.ordered.imp fun hlt heq => (heq ▸ hlt).false

/-- A key has one row. -/
theorem sumAt_eq (h : Aggregates ord rows xs) {k : K} {v : Int} (hmem : (k, v) ∈ rows) :
    sumAt rows k = v := by
  have hfilter : rows.filter (·.1 = k) = [(k, v)] := by
    refine List.perm_singleton.mp ?_
    refine (List.perm_ext_iff_of_nodup (h.nodup.filter _) (List.nodup_singleton _)).mpr fun x => ?_
    rw [List.mem_filter, List.mem_singleton, decide_eq_true_eq]
    constructor
    · rintro ⟨hx, rfl⟩
      have hv := ((h.mem_iff _ _).mp hmem).2
      have hx' := ((h.mem_iff x.1 x.2).mp hx).2
      exact Prod.ext rfl (hx'.trans hv.symm)
    · rintro rfl
      exact ⟨hmem, rfl⟩
  rw [sumAt, hfilter]
  simp

theorem self (h : Aggregates ord rows xs) : Aggregates ord rows rows where
  ordered := h.ordered
  mem_iff := by
    intro k v
    constructor
    · intro hmem
      exact ⟨List.mem_map_of_mem hmem, (h.sumAt_eq hmem).symm⟩
    · rintro ⟨hk, rfl⟩
      obtain ⟨x, hx, rfl⟩ := List.mem_map.mp hk
      rw [h.sumAt_eq (show (x.1, x.2) ∈ rows from hx)]
      exact hx

end Aggregates

/-- Summing over the keys and over the values of each is summing over all. -/
theorem sum_sumAt {ks : List K} (hks : ks.Nodup) {xs : List (K × Int)}
    (h : ∀ x ∈ xs, x.1 ∈ ks) : (ks.map (sumAt xs)).sum = (xs.map Prod.snd).sum := by
  induction xs with
  | nil =>
    show (ks.map fun _ => (0 : Int)).sum = 0
    simp
  | cons x xs ih =>
    have hstep : ∀ k, sumAt (x :: xs) k = (if x.1 = k then x.2 else 0) + sumAt xs k := by
      intro k
      by_cases hk : x.1 = k
      · simp [sumAt, hk]
      · simp [sumAt, hk]
    have hone : (ks.map fun k => if x.1 = k then x.2 else 0).sum = x.2 := by
      rw [← List.sum_toFinset _ hks, Finset.sum_ite_eq,
        if_pos (List.mem_toFinset.mpr (h x List.mem_cons_self))]
    rw [List.map_congr_left fun k _ => hstep k, List.sum_map_add, hone,
      ih fun y hy => h y (List.mem_cons_of_mem _ hy), List.map_cons, List.sum_cons]

/-- Summing over some of the keys. -/
theorem sum_sumAt_filter {ks : List K} (hks : ks.Nodup) {xs : List (K × Int)} (q : K → Bool)
    (h : ∀ x ∈ xs, q x.1 → x.1 ∈ ks) :
    ((ks.filter q).map (sumAt xs)).sum = ((xs.filter (q ·.1)).map Prod.snd).sum := by
  have hsame : ∀ k ∈ ks.filter q, sumAt xs k = sumAt (xs.filter (q ·.1)) k := by
    intro k hk
    rw [sumAt, sumAt, List.filter_filter]
    refine congrArg (fun l => (List.map _ l).sum) (List.filter_congr fun x _ => ?_)
    rw [Bool.eq_iff_iff, Bool.and_eq_true, decide_eq_true_eq]
    exact ⟨fun heq => ⟨heq, heq ▸ (List.mem_filter.mp hk).2⟩, And.left⟩
  rw [List.map_congr_left hsame, sum_sumAt (hks.filter q)]
  intro x hx
  obtain ⟨hmem, hq⟩ := List.mem_filter.mp hx
  exact List.mem_filter.mpr ⟨h x hmem hq, hq⟩

namespace Aggregates

variable {ord : K → β} {rows xs : List (K × Int)}

theorem sum_eq (h : Aggregates ord rows xs) :
    (rows.map Prod.snd).sum = (xs.map Prod.snd).sum := by
  have hkeys : (rows.map Prod.fst).Nodup :=
    List.pairwise_map.mpr (h.ordered.imp fun hlt heq => (heq ▸ hlt).false)
  have hvalues : rows.map Prod.snd = (rows.map Prod.fst).map (sumAt xs) := by
    rw [List.map_map]
    exact List.map_congr_left fun x hx => ((h.mem_iff x.1 x.2).mp hx).2
  rw [hvalues, sum_sumAt hkeys]
  intro x hx
  exact List.mem_map.mpr ⟨(x.1, sumAt xs x.1),
    (h.mem_iff _ _).mpr ⟨List.mem_map_of_mem hx, rfl⟩, rfl⟩

end Aggregates

variable {ord : K → β} {xs : List (K × Int)}

theorem aggregates_aggregate
    (hinj : ∀ x ∈ xs, ∀ y ∈ xs, ord x.1 = ord y.1 → x.1 = y.1) :
    Aggregates ord (aggregate ord xs) xs where
  ordered := by
    refine List.pairwise_map.mpr (pairwise_lt_sortByKey ?_)
    refine List.Nodup.map_on (fun k hk l hl heq => ?_) (List.nodup_dedup _)
    obtain ⟨x, hx, rfl⟩ := List.mem_map.mp (List.mem_dedup.mp hk)
    obtain ⟨y, hy, rfl⟩ := List.mem_map.mp (List.mem_dedup.mp hl)
    exact hinj x hx y hy heq
  mem_iff := by
    intro k v
    rw [aggregate, List.mem_map]
    constructor
    · rintro ⟨k', hk', heq⟩
      cases heq
      rw [(sortByKey_perm _ _).mem_iff, List.mem_dedup] at hk'
      exact ⟨hk', rfl⟩
    · rintro ⟨hk, rfl⟩
      exact ⟨k, by rwa [(sortByKey_perm _ _).mem_iff, List.mem_dedup], rfl⟩

/-- An ordered map that holds the sum of each key under its `ord` lists the rows. -/
theorem Aggregates.inOrder_of_lookup {rows : List (K × Int)} (h : Aggregates ord rows xs)
    {m : HashMap β Int}
    (hm : ∀ b, m.lookup b = if (xs.filter (ord ·.1 = b)).isEmpty then none
      else some ((xs.filter (ord ·.1 = b)).map Prod.snd).sum)
    (hinj : ∀ x ∈ xs, ∀ y ∈ xs, ord x.1 = ord y.1 → x.1 = y.1) :
    m.inOrder = rows.map fun x => ⟨ord x.1, x.2⟩ := by
  have hsum : ∀ x ∈ rows, ((xs.filter (ord ·.1 = ord x.1)).map Prod.snd).sum = x.2 := by
    intro x hx
    obtain ⟨hk, hv⟩ := (h.mem_iff x.1 x.2).mp hx
    obtain ⟨y, hy, hyx⟩ := List.mem_map.mp hk
    rw [hv, sumAt]
    refine congrArg (fun l => (List.map Prod.snd l).sum) (List.filter_congr fun z hz => ?_)
    rw [decide_eq_decide]
    exact ⟨fun heq => (hinj z hz y hy (heq.trans (hyx ▸ rfl))).trans hyx, fun heq => by rw [heq]⟩
  have hnodup : (rows.map (ord ·.1)).Nodup :=
    List.pairwise_map.mpr (h.ordered.imp fun hlt => hlt.ne)
  -- the rows and the map have the same keys, with the same sums
  have hkeys : ∀ b, b ∈ rows.map (ord ·.1) ↔ ∃ x ∈ xs, ord x.1 = b := by
    intro b
    constructor
    · intro hb
      obtain ⟨x, hx, rfl⟩ := List.mem_map.mp hb
      obtain ⟨y, hy, hyx⟩ := List.mem_map.mp ((h.mem_iff x.1 x.2).mp hx).1
      exact ⟨y, hy, congrArg ord hyx⟩
    · rintro ⟨x, hx, rfl⟩
      exact List.mem_map.mpr ⟨(x.1, sumAt xs x.1),
        (h.mem_iff _ _).mpr ⟨List.mem_map_of_mem hx, rfl⟩, rfl⟩
  have hlookup : ∀ b, m.lookup b = if b ∈ rows.map (ord ·.1) then
      some ((xs.filter (ord ·.1 = b)).map Prod.snd).sum else none := by
    intro b
    rw [hm]
    by_cases hb : b ∈ rows.map (ord ·.1)
    · obtain ⟨x, hx, hxb⟩ := (hkeys b).mp hb
      rw [if_pos hb, if_neg]
      intro hempty
      exact List.filter_eq_nil_iff.mp (List.isEmpty_iff.mp hempty) x hx (by simpa using hxb)
    · rw [if_neg hb, if_pos]
      refine List.isEmpty_iff.mpr (List.filter_eq_nil_iff.mpr fun x hx hxb => hb ?_)
      exact (hkeys b).mpr ⟨x, hx, by simpa using hxb⟩
  have hperm : m.entries.Perm (rows.map fun x => ⟨ord x.1, x.2⟩) := by
    refine (HashMap.entries_perm_map hnodup hlookup).trans (List.Perm.of_eq ?_)
    rw [List.map_map]
    exact List.map_congr_left fun x hx => by rw [Function.comp_apply, hsum x hx]
  refine sortByKey_eq hperm (List.pairwise_map.mpr ?_)
  exact h.ordered

/-! ### Sums in a hash map -/

open MachineInt

section

variable {α : Type v} (key : α → K) (first second : α → Int)

theorem sumAt_map (value : α → Int) (xs : List α) (k : K) :
    sumAt (xs.map fun x => (key x, value x)) k = ((xs.filter (key · = k)).map value).sum := by
  rw [sumAt, List.filter_map, List.map_map]
  rfl

theorem foldl_sums (xs : List α) (a b : Int) :
    xs.foldl (fun (e : Int × Int) x => (wrap 64 (e.1 + first x), wrap 64 (e.2 + second x))) (a, b) =
      (xs.foldl (fun c x => wrap 64 (c + first x)) a,
        xs.foldl (fun c x => wrap 64 (c + second x)) b) := by
  induction xs generalizing a b with
  | nil => rfl
  | cons x xs ih => rw [List.foldl_cons, List.foldl_cons, List.foldl_cons, ih]

/-- `for x in xs { let e = map.entry(key(x)); e.0 += first(x); e.1 += second(x) }`. -/
def groupSums (xs : List α) : HashMap K (Int × Int) :=
  HashMap.groupFold key (fun e x => (wrap 64 (e.1 + first x), wrap 64 (e.2 + second x))) (0, 0) xs ∅

theorem groupSums_map {γ : Type w} (h : γ → α) (xs : List γ) :
    groupSums key first second (xs.map h) =
      groupSums (fun x => key (h x)) (fun x => first (h x)) (fun x => second (h x)) xs := by
  rw [groupSums, HashMap.groupFold, List.foldl_map]
  rfl

/-- The keys of the elements, each with its elements folded. -/
theorem lookup_groupFold_dedup {V : Type w} (step : V → α → V) (init : V) (xs : List α) (k : K) :
    (HashMap.groupFold key step init xs (∅ : HashMap K V)).lookup k =
      if k ∈ (xs.map key).dedup then some ((xs.filter (key · = k)).foldl step init) else none := by
  rw [HashMap.lookup_groupFold]
  by_cases hmem : k ∈ xs.map key
  · obtain ⟨x, hx, hk⟩ := List.mem_map.mp hmem
    have hne : xs.filter (key · = k) ≠ [] :=
      List.ne_nil_of_mem (List.mem_filter.mpr ⟨hx, decide_eq_true hk⟩)
    rw [if_neg (by simpa using hne), if_pos (List.mem_dedup.mpr hmem)]
  · have hnil : xs.filter (key · = k) = [] := by
      refine List.filter_eq_nil_iff.mpr fun x hx hk => hmem ?_
      exact List.mem_map.mpr ⟨x, hx, of_decide_eq_true hk⟩
    rw [hnil, List.isEmpty_nil, if_pos rfl, if_neg (by rwa [List.mem_dedup])]

theorem foldl_wrap_sumAt (value : α → Int) (xs : List α) (k : K) :
    (xs.filter (key · = k)).foldl (fun acc x => wrap 64 (acc + value x)) 0 =
      wrap 64 (sumAt (xs.map fun x => (key x, value x)) k) := by
  have htotal := foldl_wrap_add 64 value (xs.filter (key · = k)) 0
  rwa [wrap_zero, zero_add, ← sumAt_map] at htotal

theorem lookup_groupSums (xs : List α) (k : K) :
    (groupSums key first second xs).lookup k =
      if k ∈ (xs.map key).dedup then
        some (wrap 64 (sumAt (xs.map fun x => (key x, first x)) k),
          wrap 64 (sumAt (xs.map fun x => (key x, second x)) k))
      else none := by
  rw [groupSums, lookup_groupFold_dedup, foldl_sums, foldl_wrap_sumAt, foldl_wrap_sumAt]

/-- One entry for each key, with the two sums of its values. -/
theorem entries_groupSums (xs : List α) :
    (groupSums key first second xs).entries.Perm ((xs.map key).dedup.map fun k =>
      ⟨k, wrap 64 (sumAt (xs.map fun x => (key x, first x)) k),
        wrap 64 (sumAt (xs.map fun x => (key x, second x)) k)⟩) :=
  HashMap.entries_perm_map (List.nodup_dedup _) (lookup_groupSums key first second xs)

/-- Keys that another key determines: one entry for each of the others. -/
theorem entries_groupSums_map {L : Type w} [DecidableEq L] {g : L → K} {inner : α → L} {xs : List α}
    (hg : ∀ x ∈ xs, ∀ y ∈ xs, g (inner x) = g (inner y) → inner x = inner y) :
    (groupSums (fun x => g (inner x)) first second xs).entries.Perm ((xs.map inner).dedup.map fun l =>
      ⟨g l, wrap 64 (sumAt (xs.map fun x => (inner x, first x)) l),
        wrap 64 (sumAt (xs.map fun x => (inner x, second x)) l)⟩) := by
  have hinj : ∀ l ∈ xs.map inner, ∀ l' ∈ xs.map inner, g l = g l' → l = l' := by
    intro l hl l' hl' heq
    obtain ⟨x, hx, rfl⟩ := List.mem_map.mp hl
    obtain ⟨y, hy, rfl⟩ := List.mem_map.mp hl'
    exact hg x hx y hy heq
  have hkeys : (xs.map fun x => g (inner x)).dedup.Perm ((xs.map inner).dedup.map g) := by
    refine (List.perm_ext_iff_of_nodup (List.nodup_dedup _) ?_).mpr fun k => ?_
    · exact List.Nodup.map_on (fun l hl l' hl' => hinj l (List.mem_dedup.mp hl) l'
        (List.mem_dedup.mp hl')) (List.nodup_dedup _)
    · simp only [List.mem_dedup, List.mem_map]
      constructor
      · rintro ⟨x, hx, rfl⟩
        exact ⟨inner x, ⟨x, hx, rfl⟩, rfl⟩
      · rintro ⟨l, ⟨x, hx, rfl⟩, rfl⟩
        exact ⟨x, hx, rfl⟩
  refine (entries_groupSums (fun x => g (inner x)) first second xs).trans
    ((hkeys.map _).trans (List.Perm.of_eq ?_))
  rw [List.map_map]
  refine List.map_congr_left fun l hl => ?_
  have hfilter : xs.filter (fun x => decide (g (inner x) = g l)) =
      xs.filter fun x => decide (inner x = l) := by
    refine List.filter_congr fun x hx => decide_eq_decide.mpr ⟨fun heq => ?_, fun heq => heq ▸ rfl⟩
    exact hinj _ (List.mem_map_of_mem hx) l (List.mem_dedup.mp hl) heq
  simp only [Function.comp_apply, sumAt_map, hfilter]

/-- The sums of the keys are a sum over all. -/
theorem sum_sumAt_dedup (value : α → Int) (xs : List α) :
    ((xs.map key).dedup.map (sumAt (xs.map fun x => (key x, value x)))).sum =
      (xs.map value).sum := by
  rw [sum_sumAt (List.nodup_dedup _), List.map_map]
  · rfl
  · intro x hx
    obtain ⟨y, hy, rfl⟩ := List.mem_map.mp hx
    exact List.mem_dedup.mpr (List.mem_map_of_mem hy)

/-- The entries of some of the keys hold the sums of the elements of these keys. -/
theorem sum_entries_filter {A : Type w} {entries : List (Sigma fun _ : K => A)} {keys : List K}
    {agg : K → A} (hkeys : keys.Nodup) (hentries : entries.Perm (keys.map fun k => ⟨k, agg k⟩))
    (xs : List α) (q : K → Bool) (hmem : ∀ x ∈ xs, q (key x) → key x ∈ keys) (field : A → Int)
    (value : α → Int)
    (hfield : ∀ k, field (agg k) = sumAt (xs.map fun x => (key x, value x)) k) :
    ((entries.filter fun e => q e.1).map fun e => field e.2).sum =
      ((xs.filter fun x => q (key x)).map value).sum := by
  rw [((hentries.filter fun e => q e.1).map fun e => field e.2).sum_eq, List.filter_map,
    List.map_map]
  refine (congrArg List.sum (List.map_congr_left fun k _ => hfield k)).trans ?_
  refine (sum_sumAt_filter hkeys q fun x hx hqx => ?_).trans ?_
  · obtain ⟨y, hy, rfl⟩ := List.mem_map.mp hx
    exact hmem y hy hqx
  · rw [List.filter_map, List.map_map]
    rfl

end
