/-
The memory time of the callers.

A sample that ends in a memory primitive is charged to its callers in `memCum`,
once for each of their locations.

* `memCumOf_eq` — so a caller gets the samples it is on, and the values of its
  repeated occurrences on top;
* `memCum_eq_memThrough_iff` — when a caller gets just the former;
* `memCum_part_iff` — the callers' times are parts of the total exactly when the
  total fits and these occurrences weigh nothing.
-/
import MoonPprof.SummaryBalance

open MachineInt Proto

namespace CmdSummary

section

variable (compile : String → Option (String → Bool)) (memMgmt : String → Bool) (p : Profile)

/-- The samples that end in a memory primitive and run through `f`. -/
def memThrough (f : String) : List Sample → Int :=
  sumWhere (fun s => memMgmt (leafOf compile p s) && decide (f ∈ stackNames p s))
    (valueOf (valueAxis p))

/-- The second and later occurrences of `f` on the stack of a sample that ends in a
memory primitive, each with the value of the sample. -/
def repeatedOf (f : String) : List Sample → Int :=
  sumWhere (fun s => memMgmt (leafOf compile p s))
    fun s => ((stackNames p s).count f - 1 : Nat) * valueOf (valueAxis p) s

end

variable {compile : String → Option (String → Bool)} {memMgmt : String → Bool} {p : Profile}

theorem memCumOf_eq (hheap : (valueAxis p).isHeap = false) {f : String} (hf : memMgmt f = false)
    (samples : List Sample) :
    memCumOf compile memMgmt p f samples =
      memThrough compile memMgmt p f samples + repeatedOf compile memMgmt p f samples := by
  rw [memCumOf, memThrough, repeatedOf]
  induction samples with
  | nil => rfl
  | cons s samples ih =>
    rw [sumWhere_cons, sumWhere_cons, sumWhere_cons, ih, leafIsMem, hheap, hf]
    simp only [Bool.not_false, Bool.true_and, Bool.and_true, Bool.and_eq_true, decide_eq_true_eq]
    by_cases hleaf : memMgmt (leafOf compile p s)
    · rw [if_pos hleaf, if_pos hleaf]
      by_cases hmem : f ∈ stackNames p s
      · rw [if_pos ⟨hleaf, hmem⟩]
        obtain ⟨k, hk⟩ : ∃ k, (stackNames p s).count f = k + 1 :=
          Nat.exists_eq_succ_of_ne_zero (Nat.ne_of_gt (List.count_pos_iff.mpr hmem))
        rw [hk, Nat.add_sub_cancel]
        push_cast
        ring
      · rw [if_neg fun h => hmem h.2, List.count_eq_zero.mpr hmem]
        push_cast
        ring
    · rw [if_neg hleaf, if_neg hleaf, if_neg fun h => hleaf h.1]
      ring

theorem memCumOf_primitive {f : String} (hf : memMgmt f = true) (samples : List Sample) :
    memCumOf compile memMgmt p f samples = 0 := by
  rw [memCumOf, sumWhere, hf, List.filter_eq_nil_iff.mpr (by simp)]
  rfl

theorem memOf_eq (hheap : (valueAxis p).isHeap = false) (samples : List Sample) :
    memOf compile memMgmt p samples =
      sumWhere (fun s => memMgmt (leafOf compile p s)) (valueOf (valueAxis p)) samples := by
  have hleaf : leafIsMem compile memMgmt p = fun s => memMgmt (leafOf compile p s) := by
    funext s
    rw [leafIsMem, hheap, Bool.not_false, Bool.true_and]
  rw [memOf, hleaf]

/-- Nothing is repeated where each function occurs once. -/
theorem repeatedOf_eq_zero_iff {samples : List Sample}
    (hnonneg : ∀ s ∈ samples, 0 ≤ valueOf (valueAxis p) s) (f : String) :
    repeatedOf compile memMgmt p f samples = 0 ↔
      ∀ s ∈ samples, memMgmt (leafOf compile p s) → valueOf (valueAxis p) s ≠ 0 →
        (stackNames p s).count f ≤ 1 := by
  rw [repeatedOf]
  induction samples with
  | nil => simp [sumWhere]
  | cons s samples ih =>
    rw [List.forall_mem_cons] at hnonneg ⊢
    have hterm : ∀ x ∈ samples, 0 ≤
        ((stackNames p x).count f - 1 : Nat) * valueOf (valueAxis p) x :=
      fun x hx => mul_nonneg (Int.natCast_nonneg _) (hnonneg.2 x hx)
    -- a sum of what is never negative is zero only if each term is
    have hrest := sumWhere_nonneg (P := fun x => memMgmt (leafOf compile p x)) hterm
    have hs : 0 ≤ ((stackNames p s).count f - 1 : Nat) * valueOf (valueAxis p) s :=
      mul_nonneg (Int.natCast_nonneg _) hnonneg.1
    rw [sumWhere_cons, ← ih hnonneg.2]
    by_cases hleaf : memMgmt (leafOf compile p s)
    · rw [if_pos hleaf]
      constructor
      · intro hsum
        refine ⟨fun _ hvalue => ?_, by omega⟩
        have hzero : ((stackNames p s).count f - 1 : Nat) * valueOf (valueAxis p) s = 0 := by omega
        rcases mul_eq_zero.mp hzero with hcount | hzero
        · omega
        · exact absurd hzero hvalue
      · rintro ⟨hcount, hzero⟩
        rw [hzero, add_zero]
        by_cases hvalue : valueOf (valueAxis p) s = 0
        · rw [hvalue, mul_zero]
        · rw [Nat.sub_eq_zero_of_le (hcount hleaf hvalue), Nat.cast_zero, zero_mul]
    · rw [if_neg hleaf, zero_add]
      exact ⟨fun hsum => ⟨fun h => absurd h hleaf, hsum⟩, fun h => h.2⟩

/-! ### The parts of the total -/

/-- The time of each caller is that of the samples it is on, each counted once, the
primitives themselves are charged nothing, and callers, memory primitives and all
samples have more and more time. -/
structure MemParts (compile : String → Option (String → Bool)) (memMgmt : String → Bool)
    (p : Profile) (s : Summary) : Prop where
  total : s.total = totalOf p p.sample
  memMgmtTotal : s.memMgmtTotal = memOf compile memMgmt p p.sample
  caller : ∀ f, memMgmt f = false → (s.stats.at f).memCum = memThrough compile memMgmt p f p.sample
  primitive : ∀ f, memMgmt f = true → (s.stats.at f).memCum = 0
  caller_le : ∀ f, (s.stats.at f).memCum ≤ s.memMgmtTotal
  mem_le : s.memMgmtTotal ≤ s.total

/-- What a caller is charged. -/
theorem memCum_eq (hheap : (valueAxis p).isHeap = false) {f : String} (hf : memMgmt f = false) :
    ((computeSummary compile memMgmt p).stats.at f).memCum =
      wrap 64 (memThrough compile memMgmt p f p.sample +
        repeatedOf compile memMgmt p f p.sample) := by
  rw [(computeSummary_books compile memMgmt p).at_stats, memCumOf_eq hheap hf]

/-- A memory primitive is charged nothing here. -/
theorem memCum_eq_zero {f : String} (hf : memMgmt f = true) :
    ((computeSummary compile memMgmt p).stats.at f).memCum = 0 := by
  rw [(computeSummary_books compile memMgmt p).at_stats, memCumOf_primitive hf, wrap_zero]

theorem total_eq (hnonneg : ∀ s ∈ p.sample, 0 ≤ valueOf (valueAxis p) s)
    (htotal : totalOf p p.sample < 2 ^ 63) :
    (computeSummary compile memMgmt p).total = totalOf p p.sample := by
  rw [(computeSummary_books compile memMgmt p).total]
  exact wrap_of_inRange (by omega) (inRange_sumWhere hnonneg htotal)

theorem memMgmtTotal_eq (hnonneg : ∀ s ∈ p.sample, 0 ≤ valueOf (valueAxis p) s)
    (htotal : totalOf p p.sample < 2 ^ 63) :
    (computeSummary compile memMgmt p).memMgmtTotal = memOf compile memMgmt p p.sample := by
  rw [(computeSummary_books compile memMgmt p).memMgmtTotal]
  exact wrap_of_inRange (by omega) (inRange_sumWhere hnonneg htotal)

/-- A caller is charged for the samples it is on exactly when its repeated occurrences
are lost in the 64 bits. -/
theorem memCum_eq_memThrough_iff (hheap : (valueAxis p).isHeap = false)
    (hnonneg : ∀ s ∈ p.sample, 0 ≤ valueOf (valueAxis p) s)
    (htotal : totalOf p p.sample < 2 ^ 63) {f : String} (hf : memMgmt f = false) :
    ((computeSummary compile memMgmt p).stats.at f).memCum =
        memThrough compile memMgmt p f p.sample ↔
      (2 : Int) ^ 64 ∣ repeatedOf compile memMgmt p f p.sample := by
  rw [memCum_eq hheap hf]
  exact wrap_add_eq_iff (by omega) (inRange_sumWhere hnonneg htotal) _

theorem memParts_of_dvd (hheap : (valueAxis p).isHeap = false)
    (hnonneg : ∀ s ∈ p.sample, 0 ≤ valueOf (valueAxis p) s)
    (htotal : totalOf p p.sample < 2 ^ 63)
    (hrepeated : ∀ f, memMgmt f = false →
      (2 : Int) ^ 64 ∣ repeatedOf compile memMgmt p f p.sample) :
    MemParts compile memMgmt p (computeSummary compile memMgmt p) where
  total := total_eq hnonneg htotal
  memMgmtTotal := memMgmtTotal_eq hnonneg htotal
  caller f hf := (memCum_eq_memThrough_iff hheap hnonneg htotal hf).mpr (hrepeated f hf)
  primitive _ hf := memCum_eq_zero hf
  caller_le f := by
    rw [memMgmtTotal_eq hnonneg htotal, memOf_eq hheap]
    rcases hf : memMgmt f with _ | _
    · rw [(memCum_eq_memThrough_iff hheap hnonneg htotal hf).mpr (hrepeated f hf)]
      refine sumWhere_mono hnonneg fun s _ hs => ?_
      exact (Bool.and_eq_true_iff.mp hs).1
    · rw [memCum_eq_zero hf]
      exact sumWhere_nonneg hnonneg
  mem_le := by
    rw [memMgmtTotal_eq hnonneg htotal, total_eq hnonneg htotal, memOf, totalOf]
    exact sumWhere_mono hnonneg fun _ _ _ => rfl

/-- Short of an overflow, occurrences are lost only where there are none of weight. -/
theorem dvd_repeatedOf_iff (hnonneg : ∀ s ∈ p.sample, 0 ≤ valueOf (valueAxis p) s) {f : String}
    (hlt : repeatedOf compile memMgmt p f p.sample < 2 ^ 64) :
    (2 : Int) ^ 64 ∣ repeatedOf compile memMgmt p f p.sample ↔
      ∀ s ∈ p.sample, memMgmt (leafOf compile p s) → valueOf (valueAxis p) s ≠ 0 →
        (stackNames p s).count f ≤ 1 := by
  rw [← repeatedOf_eq_zero_iff hnonneg]
  refine ⟨fun hdvd => ?_, fun hzero => hzero ▸ dvd_zero _⟩
  have hlo : 0 ≤ repeatedOf compile memMgmt p f p.sample :=
    sumWhere_nonneg fun s hs => mul_nonneg (Int.natCast_nonneg _) (hnonneg s hs)
  exact Int.eq_zero_of_dvd_of_nonneg_of_lt hlo hlt hdvd

/-- Outside heap profiles, with no negative value: the callers' times are parts of the
total exactly when the total fits in 64 bits and the repeated occurrences of each caller
weigh nothing, which short of another overflow means that no caller is twice on a stack
with a value that ends in a memory primitive. -/
theorem memCum_part_iff (compile : String → Option (String → Bool)) (memMgmt : String → Bool)
    (p : Profile) (hheap : (valueAxis p).isHeap = false)
    (hnonneg : ∀ s ∈ p.sample, 0 ≤ valueOf (valueAxis p) s) :
    (MemParts compile memMgmt p (computeSummary compile memMgmt p) ↔
      totalOf p p.sample < 2 ^ 63 ∧
        ∀ f, memMgmt f = false → (2 : Int) ^ 64 ∣ repeatedOf compile memMgmt p f p.sample) ∧
    ∀ f, repeatedOf compile memMgmt p f p.sample < 2 ^ 64 →
      ((2 : Int) ^ 64 ∣ repeatedOf compile memMgmt p f p.sample ↔
        ∀ s ∈ p.sample, memMgmt (leafOf compile p s) → valueOf (valueAxis p) s ≠ 0 →
          (stackNames p s).count f ≤ 1) := by
  refine ⟨⟨fun h => ?_, fun ⟨htotal, hrepeated⟩ => ?_⟩, fun f => dvd_repeatedOf_iff hnonneg⟩
  · -- the total is one of the 64-bit numbers
    have hrange := @wrap_inRange 64 (by omega) (totalOf p p.sample)
    rw [← (computeSummary_books compile memMgmt p).total, h.total] at hrange
    have htotal : totalOf p p.sample < 2 ^ 63 := hrange.2
    refine ⟨htotal, fun f hf => ?_⟩
    exact (memCum_eq_memThrough_iff hheap hnonneg htotal hf).mp (h.caller f hf)
  · exact memParts_of_dvd hheap hnonneg htotal hrepeated

/-- `main` calls `malloc`, with no recursion. -/
def singleCall : Profile :=
  { sampleProfile 3 with sample := [⟨[1, 2], [3], []⟩, ⟨[2, 7], [5], []⟩, ⟨[], [1], []⟩] }

/-- Its time there is the 3 of one sample, of 9 in all. -/
theorem memCum_part_iff_sample :
    let s := computeSummary (fun _ => none) (· = "malloc") singleCall
    MemParts (fun _ => none) (· = "malloc") singleCall s ∧
      (s.stats.at "main").memCum = 3 ∧ s.memMgmtTotal = 3 ∧ s.total = 9 := by
  have hzero : ∀ f, repeatedOf (fun _ => none) (· = "malloc") singleCall f singleCall.sample = 0 := by
    refine fun f => (repeatedOf_eq_zero_iff (by decide) f).mpr fun s hs _ _ => ?_
    have hnodup : ∀ s ∈ singleCall.sample, (stackNames singleCall s).Nodup := by decide
    exact List.nodup_iff_count_le_one.mp (hnodup s hs) f
  refine ⟨?_, by decide, by decide, by decide⟩
  exact (memCum_part_iff (fun _ => none) (· = "malloc") singleCall (by decide) (by decide)).1.mpr
    ⟨by decide, fun f _ => hzero f ▸ dvd_zero _⟩

/-- A recursive `main` is charged twice for its only allocation. -/
theorem memCum_recursive :
    let s := computeSummary (fun _ => none) (· = "malloc") (sampleProfile 3)
    (s.stats.at "main").memCum = 6 ∧ s.memMgmtTotal = 3 ∧
      memThrough (fun _ => none) (· = "malloc") (sampleProfile 3) "main" (sampleProfile 3).sample = 3 := by
  decide

end CmdSummary
