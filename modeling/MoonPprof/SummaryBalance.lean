/-
The books of the rollup balance.

* `sum_charged` — every sample is charged to one function;
* `selfOf_le_cumOf` — and to one it runs through, unless it has no name left;
* `rows_runDiff` — a diff has a row for each function of either profile;
* `summary_balances` — the totals are the sums over the functions, and the rows
  of a diff add up to the difference of the totals.
-/
import MoonPprof.SummaryBooks

open MachineInt Proto

namespace CmdSummary

/-! ### Sums over the samples -/

theorem sumWhere_cons (P : Sample → Bool) (value : Sample → Int) (s : Sample)
    (samples : List Sample) :
    sumWhere P value (s :: samples) = (if P s then value s else 0) + sumWhere P value samples := by
  by_cases hs : P s
  · rw [sumWhere, List.filter_cons_of_pos hs, List.map_cons, List.sum_cons, if_pos hs, sumWhere]
  · rw [sumWhere, List.filter_cons_of_neg hs, if_neg hs, zero_add, sumWhere]

/-- With values that are not negative, more samples do not lower the sum. -/
theorem sumWhere_mono {P Q : Sample → Bool} {value : Sample → Int} {samples : List Sample}
    (hnonneg : ∀ s ∈ samples, 0 ≤ value s) (h : ∀ s ∈ samples, P s → Q s) :
    sumWhere P value samples ≤ sumWhere Q value samples := by
  induction samples with
  | nil => exact le_refl _
  | cons s samples ih =>
    rw [List.forall_mem_cons] at hnonneg h
    rw [sumWhere_cons, sumWhere_cons]
    refine add_le_add ?_ (ih hnonneg.2 h.2)
    by_cases hP : P s
    · rw [if_pos hP, if_pos (h.1 hP)]
    · rw [if_neg hP]
      split
      · exact hnonneg.1
      · exact le_refl _

theorem sumWhere_nonneg {P : Sample → Bool} {value : Sample → Int} {samples : List Sample}
    (hnonneg : ∀ s ∈ samples, 0 ≤ value s) : 0 ≤ sumWhere P value samples := by
  have hnone : sumWhere (fun _ => false) value samples = 0 := by
    rw [sumWhere, List.filter_eq_nil_iff.mpr fun _ _ => Bool.false_ne_true, List.map_nil,
      List.sum_nil]
  exact hnone ▸ sumWhere_mono hnonneg fun _ _ h => absurd h Bool.false_ne_true

/-- The sums of the functions in `keys` are a sum over the samples charged to them. -/
theorem sum_sumWhere {keys : List String} (hkeys : keys.Nodup) (leaf : Sample → String)
    (value : Sample → Int) {Q : String → Bool} {samples : List Sample}
    (h : ∀ s ∈ samples, Q (leaf s) ↔ leaf s ∈ keys) :
    (keys.map fun f => sumWhere (leaf · = f) value samples).sum =
      sumWhere (fun s => Q (leaf s)) value samples := by
  set charged := samples.filter fun s => Q (leaf s)
  have hmem : ∀ x ∈ charged.map fun s => (leaf s, value s), x.1 ∈ keys := by
    intro x hx
    obtain ⟨s, hs, rfl⟩ := List.mem_map.mp hx
    obtain ⟨hs, hQ⟩ := List.mem_filter.mp hs
    exact (h s hs).mp hQ
  have hsum := sum_sumAt hkeys hmem
  rw [List.map_map] at hsum
  rw [sumWhere]
  refine Eq.trans (congrArg List.sum (List.map_congr_left fun f hf => ?_)) hsum
  rw [sumAt_map, sumWhere, List.filter_filter]
  refine congrArg (fun l => (List.map value l).sum) (List.filter_congr fun s hs => ?_)
  by_cases hleaf : leaf s = f
  · rw [decide_eq_true hleaf, Bool.true_and, (h s hs).mpr (hleaf ▸ hf)]
  · rw [decide_eq_false hleaf, Bool.false_and]

/-! ### The leaf -/

/-- The leaf is a name of the stack, unless the stack has none to show. -/
theorem pickLeaf_mem (locToName : HashMap Nat String) (drop : Option (String → Bool))
    (ids : List Nat) :
    pickLeaf locToName drop ids = "(unknown)" ∨
      pickLeaf locToName drop ids ∈ namesOf locToName ids := by
  induction ids with
  | nil => exact Or.inl rfl
  | cons id ids ih =>
    rw [pickLeaf]
    cases hname : locToName.lookup id with
    | none => rwa [namesOf_cons_none hname]
    | some name =>
      rw [namesOf_cons_some hname]
      dsimp only
      split
      · exact ih.imp_right (List.mem_cons_of_mem _)
      · exact Or.inr List.mem_cons_self

section

variable {compile : String → Option (String → Bool)} {memMgmt : String → Bool} {p : Profile}

theorem selfOf_le_cumOf (hnonneg : ∀ s ∈ p.sample, 0 ≤ valueOf (valueAxis p) s) {f : String}
    (hf : f ≠ "(unknown)") : selfOf compile p f p.sample ≤ cumOf p f p.sample := by
  refine sumWhere_mono hnonneg fun s _ hleaf => ?_
  rw [decide_eq_true_eq] at hleaf ⊢
  subst hleaf
  exact (pickLeaf_mem _ _ _).resolve_left hf

theorem cumOf_le_totalOf (hnonneg : ∀ s ∈ p.sample, 0 ≤ valueOf (valueAxis p) s) (f : String) :
    cumOf p f p.sample ≤ totalOf p p.sample :=
  sumWhere_mono hnonneg fun _ _ _ => rfl

/-! ### Without overflow -/

/-- The sums that the accumulators stand for fit in 64 bits. -/
structure NoOverflow (compile : String → Option (String → Bool)) (memMgmt : String → Bool)
    (p : Profile) : Prop where
  total : InRange 64 (totalOf p p.sample)
  total2 : InRange 64 (total2Of p p.sample)
  memMgmtTotal : InRange 64 (memOf compile memMgmt p p.sample)
  selfV : ∀ f, InRange 64 (selfOf compile p f p.sample)
  selfV2 : ∀ f, InRange 64 (self2Of compile p f p.sample)
  cum : ∀ f, InRange 64 (cumOf p f p.sample)

/-- So do the differences of two profiles. -/
structure NoOverflowDiff (compile : String → Option (String → Bool)) (base patched : Profile) :
    Prop where
  total : InRange 64 (totalOf patched patched.sample - totalOf base base.sample)
  selfV : ∀ f, InRange 64 (selfOf compile patched f patched.sample -
    selfOf compile base f base.sample)

theorem inRange_sumWhere {P : Sample → Bool} {value : Sample → Int} {samples : List Sample}
    (hnonneg : ∀ s ∈ samples, 0 ≤ value s)
    (h : sumWhere (fun _ => true) value samples < 2 ^ 63) :
    InRange 64 (sumWhere P value samples) := by
  have hlo : 0 ≤ sumWhere P value samples := sumWhere_nonneg hnonneg
  have hhi := (sumWhere_mono (P := P) (Q := fun _ => true) hnonneg fun _ _ _ => rfl)
  exact ⟨by omega, by omega⟩

/-- Values that are not negative and have small totals overflow nothing. -/
theorem noOverflow_of_nonneg (hvalue : ∀ s ∈ p.sample, 0 ≤ valueOf (valueAxis p) s)
    (hvalue2 : ∀ s ∈ p.sample, 0 ≤ value2Of (valueAxis p) s) (htotal : totalOf p p.sample < 2 ^ 63)
    (htotal2 : total2Of p p.sample < 2 ^ 63) : NoOverflow compile memMgmt p where
  total := inRange_sumWhere hvalue htotal
  total2 := inRange_sumWhere hvalue2 htotal2
  memMgmtTotal := inRange_sumWhere hvalue htotal
  selfV := fun _ => inRange_sumWhere hvalue htotal
  selfV2 := fun _ => inRange_sumWhere hvalue2 htotal2
  cum := fun _ => inRange_sumWhere hvalue htotal

theorem noOverflowDiff_of_nonneg {base patched : Profile}
    (hbase : ∀ s ∈ base.sample, 0 ≤ valueOf (valueAxis base) s)
    (hpatched : ∀ s ∈ patched.sample, 0 ≤ valueOf (valueAxis patched) s)
    (htotal : totalOf base base.sample < 2 ^ 63)
    (htotal' : totalOf patched patched.sample < 2 ^ 63) : NoOverflowDiff compile base patched := by
  have hdiff : ∀ P Q : Sample → Bool, InRange 64
      (sumWhere P (valueOf (valueAxis patched)) patched.sample -
        sumWhere Q (valueOf (valueAxis base)) base.sample) := by
    intro P Q
    have h := inRange_sumWhere (P := P) hpatched htotal'
    have h' := inRange_sumWhere (P := Q) hbase htotal
    have hlo := sumWhere_nonneg (P := P) hpatched
    have hlo' := sumWhere_nonneg (P := Q) hbase
    obtain ⟨-, hhi⟩ := h
    obtain ⟨-, hhi'⟩ := h'
    exact ⟨by omega, by omega⟩
  exact ⟨hdiff _ _, fun f => hdiff _ _⟩

/-! ### The balance -/

/-- Every sample's leaf has an entry. -/
theorem leafOf_mem_keys {s : Sample} (hs : s ∈ p.sample) :
    leafOf compile p s ∈ (computeSummary compile memMgmt p).stats.keys :=
  AList.mem_keys.mp (((computeSummary_books compile memMgmt p).mem_stats _).mpr
    ⟨s, hs, Or.inl rfl⟩)

theorem at_computeSummary (h : NoOverflow compile memMgmt p) (f : String) :
    let e := (computeSummary compile memMgmt p).stats.at f
    e.selfV = selfOf compile p f p.sample ∧ e.selfV2 = self2Of compile p f p.sample ∧
      e.cum = cumOf p f p.sample := by
  intro e
  have hat : e = _ := (computeSummary_books compile memMgmt p).at_stats f
  rw [hat]
  exact ⟨wrap_of_inRange (by omega) (h.selfV f), wrap_of_inRange (by omega) (h.selfV2 f),
    wrap_of_inRange (by omega) (h.cum f)⟩

theorem total_computeSummary (h : NoOverflow compile memMgmt p) :
    (computeSummary compile memMgmt p).total = totalOf p p.sample := by
  rw [(computeSummary_books compile memMgmt p).total, wrap_of_inRange (by omega) h.total]

/-- Functions that include every leaf are charged the whole of a value. -/
theorem sum_charged {keys : List String} (hkeys : keys.Nodup)
    (h : ∀ s ∈ p.sample, leafOf compile p s ∈ keys) (value : Sample → Int) :
    (keys.map fun f => sumWhere (leafOf compile p · = f) value p.sample).sum =
      sumWhere (fun _ => true) value p.sample :=
  sum_sumWhere hkeys (leafOf compile p) value (Q := fun _ => true)
    fun s hs => iff_of_true rfl (h s hs)

theorem selfValue_eq_at (stats : Stats) (f : String) : selfValue stats f = (stats.at f).selfV := by
  rw [selfValue, Stats.at]
  cases stats.lookup f with
  | none => rfl
  | some e => rfl

/-- The self value a diff reads for a function, listed or not. -/
theorem selfValue_computeSummary (h : NoOverflow compile memMgmt p) (f : String) :
    selfValue (computeSummary compile memMgmt p).stats f = selfOf compile p f p.sample := by
  rw [selfValue_eq_at, (at_computeSummary h f).1]

/-- A function with the sums of the samples that end in it. -/
def selfRow (compile : String → Option (String → Bool)) (base patched : Profile) (f : String) :
    DiffRow :=
  let b := selfOf compile base f base.sample
  let p := selfOf compile patched f patched.sample
  ⟨f, b, p, p - b⟩

section

variable {base patched : Profile}

theorem diffRow_eq_selfRow (hbase : NoOverflow compile memMgmt base)
    (hpatched : NoOverflow compile memMgmt patched) (hdiff : NoOverflowDiff compile base patched)
    (f : String) : diffRow (computeSummary compile memMgmt base).stats
      (computeSummary compile memMgmt patched).stats f = selfRow compile base patched f := by
  rw [diffRow, selfValue_computeSummary hbase, selfValue_computeSummary hpatched,
    wrap_of_inRange (by omega) (hdiff.selfV f)]
  rfl

/-- A diff has one row for each function of either rollup, in some order. -/
theorem rows_runDiff {it : IterOrder String} (hbase : NoOverflow compile memMgmt base)
    (hpatched : NoOverflow compile memMgmt patched) (hdiff : NoOverflowDiff compile base patched)
    {report : DiffReport} (h : runDiff compile memMgmt it base patched = .ok report) :
    report.rows.Perm (((computeSummary compile memMgmt base).stats.keys ++
      (computeSummary compile memMgmt patched).stats.keys).dedup.map
        (selfRow compile base patched)) := by
  rw [runDiff] at h
  split at h
  · cases h
  · obtain rfl := Except.ok.inj h
    refine ((it.perm _).map _).trans (List.Perm.of_eq ?_)
    exact List.map_congr_left fun f _ => diffRow_eq_selfRow hbase hpatched hdiff f

theorem totalDelta_runDiff {it : IterOrder String} (hbase : NoOverflow compile memMgmt base)
    (hpatched : NoOverflow compile memMgmt patched) (hdiff : NoOverflowDiff compile base patched)
    {report : DiffReport} (h : runDiff compile memMgmt it base patched = .ok report) :
    report.totalDelta = totalOf patched patched.sample - totalOf base base.sample := by
  rw [runDiff] at h
  split at h
  · cases h
  · obtain rfl := Except.ok.inj h
    dsimp only
    rw [total_computeSummary hbase, total_computeSummary hpatched,
      wrap_of_inRange (by omega) hdiff.total]

/-- The rows of a diff account for the whole difference. -/
theorem sum_delta {it : IterOrder String} (hbase : NoOverflow compile memMgmt base)
    (hpatched : NoOverflow compile memMgmt patched) (hdiff : NoOverflowDiff compile base patched)
    {report : DiffReport} (h : runDiff compile memMgmt it base patched = .ok report) :
    (report.rows.map DiffRow.delta).sum = report.totalDelta := by
  set bs := (computeSummary compile memMgmt base).stats
  set ps := (computeSummary compile memMgmt patched).stats
  have hkeys : (bs.keys ++ ps.keys).dedup.Nodup := List.nodup_dedup _
  have hmem : ∀ f, f ∈ (bs.keys ++ ps.keys).dedup ↔ f ∈ bs.keys ∨ f ∈ ps.keys := by
    intro f
    rw [List.mem_dedup, List.mem_append]
  -- the rows include the leaf of every sample of either profile, so nothing is left out
  have hsum : _ = totalOf base base.sample :=
    sum_charged hkeys (fun s hs => (hmem _).mpr (Or.inl (leafOf_mem_keys hs))) _
  have hsum' : _ = totalOf patched patched.sample :=
    sum_charged hkeys (fun s hs => (hmem _).mpr (Or.inr (leafOf_mem_keys hs))) _
  rw [((rows_runDiff hbase hpatched hdiff h).map _).sum_eq, totalDelta_runDiff hbase hpatched hdiff h,
    ← hsum, ← hsum', eq_sub_iff_add_eq, List.map_map, ← List.sum_map_add]
  refine congrArg List.sum (List.map_congr_left fun f _ => ?_)
  exact sub_add_cancel _ _

/-- A heap profile is not compared with another; every other pair is. -/
theorem exists_runDiff {it : IterOrder String}
    (h : (valueAxis base).isHeap = (valueAxis patched).isHeap) :
    ∃ report, runDiff compile memMgmt it base patched = .ok report := by
  have haxis : (computeSummary compile memMgmt base).axis.isHeap =
      (computeSummary compile memMgmt patched).axis.isHeap := by
    rw [(computeSummary_books compile memMgmt base).axis,
      (computeSummary_books compile memMgmt patched).axis, h]
  rw [runDiff, if_neg (not_not.mpr haxis)]
  exact ⟨_, rfl⟩

end

/-- With sums that fit in 64 bits: the totals of a rollup are the sums over its functions,
outside heap profiles the memory total is the sum over the memory primitives, a function's
cumulative value counts each sample that runs through it once, and is, when no value is
negative, between its self value and the total; and two profiles that are both heap profiles or
both not have a diff, with a row of the two self values for each function of either, whose
deltas add up to the difference of the totals. -/
theorem summary_balances (compile : String → Option (String → Bool)) (memMgmt : String → Bool)
    (it : IterOrder String) {base patched : Profile} (hbase : NoOverflow compile memMgmt base)
    (hpatched : NoOverflow compile memMgmt patched)
    (hdiff : NoOverflowDiff compile base patched) :
    let s := computeSummary compile memMgmt base
    let s' := computeSummary compile memMgmt patched
    s.total = (s.stats.entries.map fun e => e.2.selfV).sum ∧
      s.total2 = (s.stats.entries.map fun e => e.2.selfV2).sum ∧
      (s.axis.isHeap = false → s.memMgmtTotal =
        ((s.stats.entries.filter fun e => memMgmt e.1).map fun e => e.2.selfV).sum) ∧
      (∀ f, (s.stats.at f).cum = ((base.sample.filter fun x =>
        ∃ id ∈ x.locationId, (resolveTopLines base).lookup id = some f).map (valueOf s.axis)).sum) ∧
      ((∀ x ∈ base.sample, 0 ≤ valueOf s.axis x) → ∀ f, f ≠ "(unknown)" →
        (s.stats.at f).selfV ≤ (s.stats.at f).cum ∧ (s.stats.at f).cum ≤ s.total) ∧
      (s.axis.isHeap = s'.axis.isHeap →
        ∃ report, runDiff compile memMgmt it base patched = .ok report ∧
          (report.rows.map DiffRow.name).Perm (s.stats.keys ++ s'.stats.keys).dedup ∧
          (∀ r ∈ report.rows, r.base = (s.stats.at r.name).selfV ∧
            r.patched = (s'.stats.at r.name).selfV ∧ r.delta = r.patched - r.base) ∧
          report.totalDelta = s'.total - s.total ∧
          (report.rows.map DiffRow.delta).sum = report.totalDelta) := by
  intro s s'
  have hbooks := computeSummary_books compile memMgmt base
  have haxis : s.axis = valueAxis base := hbooks.axis
  have haxis' : s'.axis = valueAxis patched := (computeSummary_books compile memMgmt patched).axis
  have hkeys : s.stats.keys.Nodup := AList.keys_nodup _
  refine ⟨?_, ?_, fun hheap => ?_, fun f => ?_, fun hnonneg f hf => ?_, fun hlike => ?_⟩
  · rw [HashMap.map_entries_lookup (List.Subset.refl _) .zero, total_computeSummary hbase]
    refine (sum_charged hkeys (fun x hx => leafOf_mem_keys hx) _).symm.trans ?_
    exact congrArg List.sum (List.map_congr_left fun f _ => (at_computeSummary hbase f).1.symm)
  · rw [HashMap.map_entries_lookup (List.Subset.refl _) .zero, hbooks.total2,
      wrap_of_inRange (by omega) hbase.total2]
    refine (sum_charged hkeys (fun x hx => leafOf_mem_keys hx) _).symm.trans ?_
    exact congrArg List.sum (List.map_congr_left fun f _ => (at_computeSummary hbase f).2.1.symm)
  -- outside heap profiles the leaf decides alone whether a sample is memory management
  · have hfst : (s.stats.entries.filter fun e => memMgmt e.1).map Sigma.fst =
        s.stats.keys.filter memMgmt := by
      rw [AList.keys, List.keys, List.filter_map]
      rfl
    have hmem : memOf compile memMgmt base base.sample =
        sumWhere (fun x => memMgmt (leafOf compile base x)) (valueOf (valueAxis base))
          base.sample := by
      have hleaf : leafIsMem compile memMgmt base = fun x => memMgmt (leafOf compile base x) := by
        funext x
        rw [leafIsMem, ← haxis, hheap, Bool.not_false, Bool.true_and]
      rw [memOf, hleaf]
    rw [HashMap.map_entries_lookup (fun e he => List.mem_of_mem_filter he) .zero, hfst,
      hbooks.memMgmtTotal, wrap_of_inRange (by omega) hbase.memMgmtTotal, hmem]
    refine (sum_sumWhere (hkeys.filter memMgmt)
      (leafOf compile base) _ fun x hx => ?_).symm.trans ?_
    · rw [List.mem_filter, and_iff_right (leafOf_mem_keys hx)]
    · exact congrArg List.sum (List.map_congr_left fun f _ => (at_computeSummary hbase f).1.symm)
  · rw [(at_computeSummary hbase f).2.2, cumOf, sumWhere, haxis]
    refine congrArg (fun l => (List.map (valueOf (valueAxis base)) l).sum)
      (List.filter_congr fun x _ => ?_)
    rw [decide_eq_decide, stackNames, namesOf, List.mem_filterMap]
  · rw [haxis] at hnonneg
    rw [(at_computeSummary hbase f).1, (at_computeSummary hbase f).2.2, total_computeSummary hbase]
    exact ⟨selfOf_le_cumOf hnonneg hf, cumOf_le_totalOf hnonneg f⟩
  · rw [haxis, haxis'] at hlike
    obtain ⟨report, hrun⟩ := exists_runDiff hlike
    have hrows := rows_runDiff hbase hpatched hdiff hrun
    refine ⟨report, hrun, ?_, fun r hr => ?_, ?_, sum_delta hbase hpatched hdiff hrun⟩
    · refine (hrows.map _).trans (List.Perm.of_eq ?_)
      rw [List.map_map]
      exact List.map_id' _
    · obtain ⟨f, -, rfl⟩ := List.mem_map.mp (hrows.mem_iff.mp hr)
      exact ⟨(at_computeSummary hbase f).1.symm, (at_computeSummary hpatched f).1.symm, rfl⟩
    · rw [total_computeSummary hbase, total_computeSummary hpatched]
      exact totalDelta_runDiff hbase hpatched hdiff hrun

/-- `main` calls itself and then `malloc`, which one of the samples ends in. -/
def sampleProfile (v : Int) : Profile :=
  { sampleType := [⟨1, 2⟩]
    sample := [⟨[1, 2, 2], [v], []⟩, ⟨[2, 7], [5], []⟩, ⟨[], [1], []⟩]
    mapping := []
    location := [⟨1, 0, 0, [⟨1, 0, 0⟩], false⟩, ⟨2, 0, 0, [⟨2, 0, 0⟩], false⟩]
    function := [⟨1, 3, 3, 0, 0⟩, ⟨2, 4, 4, 0, 0⟩]
    stringTable := ["", "cpu", "nanoseconds", "malloc", "main"]
    dropFrames := 0, keepFrames := 0, timeNanos := 0, durationNanos := 0, periodType := none
    period := 0, comment := [], defaultSampleType := 0, docUrl := 0 }

/-- A nanosecond more in `malloc`, in three rows. -/
theorem summary_balances_sample :
    let s := computeSummary (fun _ => none) (· = "malloc") (sampleProfile 3)
    s.memMgmtTotal =
        ((s.stats.entries.filter fun e => e.1 = "malloc").map fun e => e.2.selfV).sum ∧
      (s.stats.at "main").selfV ≤ (s.stats.at "main").cum ∧
      ∃ report, runDiff (fun _ => none) (· = "malloc") ⟨id, fun _ => .refl _⟩ (sampleProfile 3)
          (sampleProfile 4) = .ok report ∧
        (report.rows.map DiffRow.name).Perm ["malloc", "main", "(unknown)"] ∧
        (report.rows.map DiffRow.delta).sum = 1 := by
  obtain ⟨-, -, hmem, -, hle, hdiff⟩ := summary_balances (fun _ => none) (· = "malloc")
    ⟨id, fun _ => .refl _⟩
    (noOverflow_of_nonneg (by decide) (by decide) (by decide) (by decide) :
      NoOverflow _ _ (sampleProfile 3))
    (noOverflow_of_nonneg (by decide) (by decide) (by decide) (by decide) :
      NoOverflow _ _ (sampleProfile 4))
    (noOverflowDiff_of_nonneg (by decide) (by decide) (by decide) (by decide))
  obtain ⟨report, hrun, hnames, -, htotal, hsum⟩ := hdiff (by decide)
  exact ⟨hmem (by decide), (hle (by decide) "main" (by decide)).1, report, hrun,
    hnames.trans (by decide +kernel), hsum.trans (htotal.trans (by decide +kernel))⟩

end

end CmdSummary
