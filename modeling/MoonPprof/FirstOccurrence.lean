/-
Numbering elements by their first occurrence.

`firsts key xs` are the elements of `xs` whose key has not occurred before them;
`number key fs x` is the place of the key of `x` among the keys of `fs`.

* `firsts_of_split` — the first element of a key stands at its number;
* `number_of_coherent` — two lists in which the same places have the same key
  get the same numbers, and `map_firsts_of_coherent` — a property that first
  elements share is listed alike.
-/
import Mathlib.Data.List.Induction
import Mathlib.Data.List.Nodup
import Mathlib.Data.List.Infix
import Mathlib.Tactic.Common

universe u v w

variable {α : Type u} {κ : Type v} [DecidableEq κ] (key : α → κ)

/-- Keep an element if its key is new. -/
def record (fs : List α) (x : α) : List α := if key x ∈ fs.map key then fs else fs ++ [x]

def firsts (xs : List α) : List α := xs.foldl (record key) []

def number (fs : List α) (x : α) : Nat := (fs.map key).idxOf (key x)

theorem firsts_append (xs ys : List α) :
    firsts key (xs ++ ys) = ys.foldl (record key) (firsts key xs) :=
  List.foldl_append

theorem firsts_concat (xs : List α) (x : α) :
    firsts key (xs ++ [x]) = record key (firsts key xs) x :=
  firsts_append key xs [x]

theorem isPrefix_record (fs : List α) (x : α) : fs <+: record key fs x := by
  rw [record]
  split
  · exact List.prefix_refl _
  · exact List.prefix_append _ _

theorem mem_record (fs : List α) (x : α) (k : κ) :
    k ∈ (record key fs x).map key ↔ k ∈ fs.map key ∨ k = key x := by
  rw [record]
  split
  · rename_i h
    constructor
    · exact Or.inl
    · rintro (hk | rfl)
      · exact hk
      · exact h
  · rw [List.map_append, List.mem_append, List.map_singleton, List.mem_singleton]

theorem isPrefix_foldl_record (fs xs : List α) : fs <+: xs.foldl (record key) fs := by
  induction xs generalizing fs with
  | nil => exact List.prefix_refl _
  | cons x xs ih =>
    rw [List.foldl_cons]
    exact (isPrefix_record key fs x).trans (ih _)

variable {key}

theorem mem_foldl_record {fs xs : List α} {k : κ} :
    k ∈ (xs.foldl (record key) fs).map key ↔ k ∈ fs.map key ∨ k ∈ xs.map key := by
  induction xs generalizing fs with
  | nil =>
    rw [List.foldl_nil, List.map_nil]
    exact (or_iff_left List.not_mem_nil).symm
  | cons x xs ih => rw [List.foldl_cons, ih, mem_record, or_assoc, List.map_cons, List.mem_cons]

theorem mem_firsts {xs : List α} {k : κ} : k ∈ (firsts key xs).map key ↔ k ∈ xs.map key := by
  rw [firsts, mem_foldl_record, List.map_nil]
  exact or_iff_right List.not_mem_nil

/-- More elements do not change the number of one that has been recorded. -/
theorem number_of_isPrefix {fs fs' : List α} (h : fs <+: fs') {x : α} (hx : key x ∈ fs.map key) :
    number key fs' x = number key fs x := by
  obtain ⟨t, rfl⟩ := h
  rw [number, List.map_append, List.idxOf_append_of_mem hx, number]

theorem number_record {fs : List α} {x : α} (hx : key x ∉ fs.map key) :
    number key (record key fs x) x = fs.length := by
  rw [number, record, if_neg hx, List.map_append, List.idxOf_append_of_notMem hx,
    List.map_singleton,
    List.idxOf_cons_self, List.length_map, Nat.add_zero]

/-- The first element of its key is the one recorded. -/
theorem firsts_of_split {as bs : List α} {x : α} (hx : key x ∉ as.map key) :
    (firsts key (as ++ x :: bs))[number key (firsts key (as ++ x :: bs)) x]? = some x := by
  have hsplit : as ++ x :: bs = (as ++ [x]) ++ bs := by simp
  have hnew : key x ∉ (firsts key as).map key := mt mem_firsts.mp hx
  have hprefix : firsts key (as ++ [x]) <+: firsts key (as ++ x :: bs) := by
    rw [hsplit, firsts_append key (as ++ [x])]
    exact isPrefix_foldl_record key _ _
  have hmem : key x ∈ (firsts key (as ++ [x])).map key := by
    rw [mem_firsts]
    exact List.mem_map_of_mem (List.mem_append_right _ List.mem_cons_self)
  rw [number_of_isPrefix hprefix hmem, firsts_concat, number_record hnew]
  obtain ⟨t, ht⟩ := hprefix
  rw [← ht, firsts_concat, record, if_neg hnew, List.append_assoc,
    List.getElem?_append_right (le_refl _), Nat.sub_self]
  rfl

/-! ### Two lists side by side -/

/-- The same places have the same key in both. -/
def Coherent (key : α → κ) (zs : List (α × α)) : Prop :=
  ∀ z ∈ zs, ∀ w ∈ zs, key z.1 = key w.1 ↔ key z.2 = key w.2

omit [DecidableEq κ] in
/-- A pair has an old key on both sides or on neither. -/
theorem Coherent.mem_iff {zs ws : List (α × α)} (h : Coherent key zs) (hws : ws ⊆ zs) {z : α × α}
    (hz : z ∈ zs) : key z.1 ∈ (ws.map Prod.fst).map key ↔ key z.2 ∈ (ws.map Prod.snd).map key := by
  rw [List.map_map, List.map_map, List.mem_map, List.mem_map]
  constructor
  · rintro ⟨w, hw, heq⟩
    exact ⟨w, hw, (h w (hws hw) z hz).mp heq⟩
  · rintro ⟨w, hw, heq⟩
    exact ⟨w, hw, (h w (hws hw) z hz).mpr heq⟩

omit [DecidableEq κ] in
theorem Coherent.init {zs ws : List (α × α)} (h : Coherent key (zs ++ ws)) : Coherent key zs :=
  fun z hz w hw => h z (List.mem_append_left _ hz) w (List.mem_append_left _ hw)

/-- The first elements stand at the same places, and what they agree on is listed alike. -/
theorem map_firsts_of_coherent {β : Type w} {g : α → β} {zs : List (α × α)}
    (h : Coherent key zs)
    (hg : ∀ as z bs, zs = as ++ z :: bs → key z.1 ∉ (as.map Prod.fst).map key → g z.1 = g z.2) :
    (firsts key (zs.map Prod.fst)).map g = (firsts key (zs.map Prod.snd)).map g := by
  induction zs using List.reverseRecOn with
  | nil => rfl
  | append_singleton zs z ih =>
    have hiff : key z.1 ∈ (zs.map Prod.fst).map key ↔ key z.2 ∈ (zs.map Prod.snd).map key :=
      h.mem_iff (List.subset_append_left _ _) (List.mem_append_right _ List.mem_cons_self)
    have ih := ih h.init fun as w bs heq => hg as w (bs ++ [z]) (by rw [heq]; simp)
    rw [List.map_append, List.map_append, List.map_singleton, List.map_singleton, firsts_concat,
      firsts_concat, record, record]
    by_cases hnew : key z.1 ∈ (zs.map Prod.fst).map key
    · rw [if_pos (mem_firsts.mpr hnew), if_pos (mem_firsts.mpr (hiff.mp hnew)), ih]
    · rw [if_neg (mt mem_firsts.mp hnew), if_neg (mt mem_firsts.mp (mt hiff.mpr hnew)),
        List.map_append, List.map_append, ih, List.map_singleton, List.map_singleton,
        hg zs z [] rfl hnew]

theorem number_of_coherent {zs : List (α × α)} (h : Coherent key zs) {z : α × α} (hz : z ∈ zs) :
    number key (firsts key (zs.map Prod.fst)) z.1 = number key (firsts key (zs.map Prod.snd)) z.2 := by
  induction zs using List.reverseRecOn generalizing z with
  | nil => cases hz
  | append_singleton zs w ih =>
    have hmem : key z.1 ∈ (zs.map Prod.fst).map key ↔ key z.2 ∈ (zs.map Prod.snd).map key :=
      h.mem_iff (List.subset_append_left _ _) hz
    have hlength : (firsts key (zs.map Prod.fst)).length =
      (firsts key (zs.map Prod.snd)).length := by
      have hmap := congrArg List.length
        (map_firsts_of_coherent (g := fun _ => ()) h.init fun _ _ _ _ _ => rfl)
      rwa [List.length_map, List.length_map] at hmap
    rw [List.map_append, List.map_append, List.map_singleton, List.map_singleton, firsts_concat,
      firsts_concat]
    by_cases hold : key z.1 ∈ (zs.map Prod.fst).map key
    · -- the number is that of an earlier pair with the same keys
      have hold' : key z.2 ∈ (zs.map Prod.snd).map key := hmem.mp hold
      obtain ⟨y, hy, hkey⟩ : ∃ y ∈ zs, key y.1 = key z.1 := by
        simpa only [List.map_map, List.mem_map, Function.comp_apply] using hold
      have hkey' := (h y (List.mem_append_left _ hy) z hz).mp hkey
      rw [number_of_isPrefix (isPrefix_record key _ _) (mem_firsts.mpr hold),
        number_of_isPrefix (isPrefix_record key _ _) (mem_firsts.mpr hold'),
        number, ← hkey, ← number, ih h.init hy, number, hkey', ← number]
    · have hold' : key z.2 ∉ (zs.map Prod.snd).map key := mt hmem.mpr hold
      have hzw : z = w := by
        rcases List.mem_append.mp hz with hz | hz
        · exact absurd (List.mem_map_of_mem (List.mem_map_of_mem hz)) hold
        · exact List.mem_singleton.mp hz
      rw [← hzw, number_record (mt mem_firsts.mp hold), number_record (mt mem_firsts.mp hold'),
        hlength]
