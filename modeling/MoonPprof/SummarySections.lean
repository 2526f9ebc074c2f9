/-
The sections of `moon-pprof summary --diff` (`run_diff` of `cmd_summary`).

A diff lists the functions that got cheaper, that got dearer, that are gone and
that are new, each section by the size of the change and cut at a fixed number of
rows.

* `lists_take` — what a section shows of the functions it is about;
* `sum_sections` — the rows of the four sections account for all changes;
* `runDiff_shows` — the sections of a diff, whatever the order of its names.
-/
import MoonPprof.Ranking
import MoonPprof.SummaryBalance

open MachineInt Proto

namespace CmdSummary

/-! ### Sections -/

namespace DiffRow

def Improved (r : DiffRow) : Prop := r.delta < 0 ∧ r.base > 0 ∧ r.patched > 0

def Regressed (r : DiffRow) : Prop := r.delta > 0 ∧ r.base > 0 ∧ r.patched > 0

def Gone (r : DiffRow) : Prop := r.base > 0 ∧ r.patched = 0

def Novel (r : DiffRow) : Prop := r.base = 0 ∧ r.patched > 0

instance : DecidablePred Improved := fun r =>
  inferInstanceAs (Decidable (r.delta < 0 ∧ r.base > 0 ∧ r.patched > 0))

instance : DecidablePred Regressed := fun r =>
  inferInstanceAs (Decidable (r.delta > 0 ∧ r.base > 0 ∧ r.patched > 0))

instance : DecidablePred Gone := fun r => inferInstanceAs (Decidable (r.base > 0 ∧ r.patched = 0))

instance : DecidablePred Novel := fun r => inferInstanceAs (Decidable (r.base = 0 ∧ r.patched > 0))

end DiffRow

/-- The rows are those of the functions in `fs` with `P`, the smallest keys first, `n` at most. -/
structure Lists (rows : List DiffRow) (n : Nat) (fs : List String) (row : String → DiffRow)
    (P : DiffRow → Prop) [DecidablePred P] (key : DiffRow → Int) : Prop where
  sound : ∀ r ∈ rows, r.name ∈ fs ∧ r = row r.name ∧ P r
  once : (rows.map DiffRow.name).Nodup
  keys : rows.map key = (sortByKey id (((fs.map row).filter fun r => P r).map key)).take n
  complete : ∀ f ∈ fs, P (row f) → row f ∉ rows →
    rows.length = n ∧ ∀ r ∈ rows, key r ≤ key (row f)

section

variable {rows : List DiffRow} {fs : List String} {row : String → DiffRow}

/-- What a section shows of rows that are, in any order, those of the functions in `fs`. -/
theorem lists_take (hfs : fs.Nodup) (hname : ∀ f, (row f).name = f)
    (hrows : rows.Perm (fs.map row)) (n : Nat) (P : DiffRow → Prop) [DecidablePred P]
    (key : DiffRow → Int) :
    Lists ((sortByKey key (rows.filter fun r => P r)).take n) n fs row P key := by
  set found := rows.filter fun r => P r
  have hprefix : (sortByKey key found).take n <+: sortByKey key found := List.take_prefix n _
  have hperm : found.Perm ((fs.map row).filter fun r => P r) := hrows.filter _
  refine ⟨fun r hr => ?_, ?_, ?_, fun f hf hP hcut => ?_⟩
  · obtain ⟨hmem, hP⟩ := List.mem_filter.mp (mem_of_isPrefix_sortByKey hprefix hr)
    obtain ⟨f, hf, rfl⟩ := List.mem_map.mp (hrows.mem_iff.mp hmem)
    rw [hname]
    exact ⟨hf, rfl, of_decide_eq_true hP⟩
  · have hnames : (rows.map DiffRow.name).Perm fs := by
      refine (hrows.map _).trans (List.Perm.of_eq ?_)
      rw [List.map_map]
      exact (List.map_congr_left fun f _ => hname f).trans (List.map_id' fs)
    have hsub : ((sortByKey key found).take n).map DiffRow.name |>.Sublist
        ((sortByKey key found).map DiffRow.name) := hprefix.sublist.map _
    refine hsub.nodup (((sortByKey_perm key found).map _).nodup_iff.mpr ?_)
    exact (List.filter_sublist.map _).nodup (hnames.nodup_iff.mpr hfs)
  · have hsorted : (sortByKey key found).map key = sortByKey id (found.map key) :=
      map_sortByKey Function.injective_id key found
    rw [List.map_take, hsorted, sortByKey_congr Function.injective_id (hperm.map key)]
  · have hmem : row f ∈ found :=
      hperm.mem_iff.mpr (List.mem_filter.mpr ⟨List.mem_map_of_mem hf, decide_eq_true hP⟩)
    exact ⟨length_take_sortByKey hmem hcut, fun r hr =>
      le_of_isPrefix_sortByKey hprefix hmem hcut hr⟩

/-- A section that is not full has all of its rows. -/
theorem sum_take {n : Nat} {found : List DiffRow} {key : DiffRow → Int}
    (hlt : ((sortByKey key found).take n).length < n) :
    (((sortByKey key found).take n).map DiffRow.delta).sum = (found.map DiffRow.delta).sum := by
  have hlen : found.length ≤ n := by
    rw [List.length_take, (sortByKey_perm key found).length_eq] at hlt
    omega
  exact ((take_sortByKey_perm hlen).map _).sum_eq

end

/-! ### All changes -/

theorem sum_filter_cons (P : DiffRow → Prop) [DecidablePred P] (r : DiffRow) (rows : List DiffRow) :
    (((r :: rows).filter fun r => P r).map DiffRow.delta).sum =
      (if P r then r.delta else 0) + ((rows.filter fun r => P r).map DiffRow.delta).sum := by
  by_cases h : P r
  · rw [List.filter_cons_of_pos (by simpa using h), if_pos h, List.map_cons, List.sum_cons]
  · rw [List.filter_cons_of_neg (by simpa using h), if_neg h, zero_add]

/-- The rows that changed are in one of the four sections each. -/
theorem sum_sections {rows : List DiffRow}
    (h : ∀ r ∈ rows, 0 ≤ r.base ∧ 0 ≤ r.patched ∧ r.delta = r.patched - r.base) :
    ((rows.filter fun r => r.Improved).map DiffRow.delta).sum +
      ((rows.filter fun r => r.Regressed).map DiffRow.delta).sum +
      ((rows.filter fun r => r.Gone).map DiffRow.delta).sum +
      ((rows.filter fun r => r.Novel).map DiffRow.delta).sum =
    (rows.map DiffRow.delta).sum := by
  induction rows with
  | nil => rfl
  | cons r rows ih =>
    obtain ⟨hr, hrows⟩ := List.forall_mem_cons.mp h
    obtain ⟨hbase, hpatched, hdelta⟩ := hr
    have hone : (if r.Improved then r.delta else 0) + (if r.Regressed then r.delta else 0) +
        (if r.Gone then r.delta else 0) + (if r.Novel then r.delta else 0) = r.delta := by
      unfold DiffRow.Improved DiffRow.Regressed DiffRow.Gone DiffRow.Novel
      split_ifs <;> omega
    rw [sum_filter_cons, sum_filter_cons, sum_filter_cons, sum_filter_cons, List.map_cons,
      List.sum_cons, ← ih hrows]
    omega

/-! ### The sections of a diff -/

section

variable {compile : String → Option (String → Bool)} {memMgmt : String → Bool}
  {p : Profile}

/-- A function that no sample runs through has no self value. -/
theorem selfOf_eq_zero (h : NoOverflow compile memMgmt p) {f : String}
    (hf : f ∉ (computeSummary compile memMgmt p).stats.keys) : selfOf compile p f p.sample = 0 := by
  have hnone : (computeSummary compile memMgmt p).stats.lookup f = none :=
    AList.lookup_eq_none.mpr fun hmem => hf (AList.mem_keys.mp hmem)
  rw [← selfValue_computeSummary h, selfValue, hnone]
  rfl

end

/-- The sections of a diff, whatever the order of its names: each lists, of the functions it is
about, those that changed most; a function whose self value differs is in one of the sections; and
sections that are not full account for the whole difference. -/
theorem runDiff_shows (compile : String → Option (String → Bool)) (memMgmt : String → Bool)
    (it : IterOrder String) {base patched : Profile} (hbase : NoOverflow compile memMgmt base)
    (hpatched : NoOverflow compile memMgmt patched)
    (hnonneg : ∀ s ∈ base.sample, 0 ≤ valueOf (valueAxis base) s)
    (hnonneg' : ∀ s ∈ patched.sample, 0 ≤ valueOf (valueAxis patched) s) {report : DiffReport}
    (h : runDiff compile memMgmt it base patched = .ok report) :
    let fs := ((computeSummary compile memMgmt base).stats.keys ++
      (computeSummary compile memMgmt patched).stats.keys).dedup
    let row := selfRow compile base patched
    (Lists report.improvements 15 fs row DiffRow.Improved DiffRow.delta ∧
      Lists report.regressions 10 fs row DiffRow.Regressed (fun r => -r.delta) ∧
      Lists report.gone 10 fs row DiffRow.Gone (fun r => -r.base) ∧
      Lists report.novel 10 fs row DiffRow.Novel (fun r => -r.patched)) ∧
    (∀ f, (row f).base ≠ (row f).patched → f ∈ fs ∧
      ((row f).Improved ∨ (row f).Regressed ∨ (row f).Gone ∨ (row f).Novel)) ∧
    (report.improvements.length < 15 → report.regressions.length < 10 → report.gone.length < 10 →
      report.novel.length < 10 →
      (report.improvements.map DiffRow.delta).sum + (report.regressions.map DiffRow.delta).sum +
        (report.gone.map DiffRow.delta).sum + (report.novel.map DiffRow.delta).sum =
      report.totalDelta) := by
  intro fs row
  have hdiff : NoOverflowDiff compile base patched :=
    noOverflowDiff_of_nonneg hnonneg hnonneg' hbase.total.2 hpatched.total.2
  have htotal := sum_delta hbase hpatched hdiff h
  have hself : ∀ f, 0 ≤ (row f).base ∧ 0 ≤ (row f).patched ∧
      (row f).delta = (row f).patched - (row f).base :=
    fun f => ⟨sumWhere_nonneg hnonneg, sumWhere_nonneg hnonneg', rfl⟩
  have hrows : report.rows.Perm (fs.map row) := rows_runDiff hbase hpatched hdiff h
  rw [runDiff] at h
  split at h
  · cases h
  · obtain rfl := Except.ok.inj h
    set rows := (it.order fs).map (diffRow (computeSummary compile memMgmt base).stats
      (computeSummary compile memMgmt patched).stats)
    have hfs : fs.Nodup := List.nodup_dedup _
    have hlists := lists_take hfs (fun _ => rfl) hrows
    refine ⟨⟨hlists 15 _ _, hlists 10 _ _, hlists 10 _ _, hlists 10 _ _⟩, fun f hne => ?_, ?_⟩
    · have hmem : f ∈ fs := by
        by_contra hnot
        rw [List.mem_dedup, List.mem_append, not_or] at hnot
        have hzero : (row f).base = 0 := selfOf_eq_zero hbase hnot.1
        have hzero' : (row f).patched = 0 := selfOf_eq_zero hpatched hnot.2
        exact hne (hzero.trans hzero'.symm)
      obtain ⟨hb, hp, hdelta⟩ := hself f
      unfold DiffRow.Improved DiffRow.Regressed DiffRow.Gone DiffRow.Novel
      exact ⟨hmem, by omega⟩
    · intro himp hreg hgo hnov
      have hall : ∀ r ∈ rows, 0 ≤ r.base ∧ 0 ≤ r.patched ∧ r.delta = r.patched - r.base := by
        intro r hr
        obtain ⟨f, -, rfl⟩ := List.mem_map.mp (hrows.mem_iff.mp hr)
        exact hself f
      have hsections := sum_sections hall
      have himproved : _ = ((rows.filter fun r => r.Improved).map DiffRow.delta).sum := sum_take himp
      have hregressed : _ = ((rows.filter fun r => r.Regressed).map DiffRow.delta).sum :=
        sum_take hreg
      have hgone : _ = ((rows.filter fun r => r.Gone).map DiffRow.delta).sum := sum_take hgo
      have hnovel : _ = ((rows.filter fun r => r.Novel).map DiffRow.delta).sum := sum_take hnov
      rw [← himproved, ← hregressed, ← hgone, ← hnovel] at hsections
      exact hsections.trans htotal

/-- `malloc` takes a nanosecond more, and nothing else changes. -/
theorem runDiff_shows_sample :
    ∃ report, runDiff (fun _ => none) (· = "malloc") ⟨id, fun _ => .refl _⟩ (sampleProfile 3)
        (sampleProfile 4) = .ok report ∧
      report.regressions.map (fun r => -r.delta) = [-1] ∧ report.gone.map (fun r => -r.base) = [] ∧
      ∀ r ∈ report.regressions, r = selfRow (fun _ => none) (sampleProfile 3) (sampleProfile 4)
        r.name := by
  obtain ⟨report, hrun⟩ : ∃ report, runDiff (fun _ => none) (· = "malloc") ⟨id, fun _ => .refl _⟩
      (sampleProfile 3) (sampleProfile 4) = .ok report := by
    rw [runDiff, if_neg (by decide +kernel)]
    exact ⟨_, rfl⟩
  have h : NoOverflow (fun _ => none) (· = "malloc") (sampleProfile 3) :=
    noOverflow_of_nonneg (by decide) (by decide) (by decide) (by decide)
  have h' : NoOverflow (fun _ => none) (· = "malloc") (sampleProfile 4) :=
    noOverflow_of_nonneg (by decide) (by decide) (by decide) (by decide)
  obtain ⟨⟨-, hregressions, hgone, -⟩, -, -⟩ := runDiff_shows (fun _ => none) (· = "malloc")
    ⟨id, fun _ => .refl _⟩ h h' (by decide) (by decide) hrun
  exact ⟨report, hrun, hregressions.keys.trans (by decide +kernel),
    hgone.keys.trans (by decide +kernel), fun r hr => (hregressions.sound r hr).2.1⟩

end CmdSummary
