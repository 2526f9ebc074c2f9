/-
Traces with a V8 sample for each count.

* `Expands` — the loop with and without expansion, side by side;
* `expanded_conserves_time` — both traces have the same tree and the same time, and
  a run of V8 samples has the leaf and the delta of the one it stands for;
* `limit_iff` — the limit on expanded samples is one on each sample, so it bounds
  the whole trace only where the counts together do.
-/
import MoonPprof.ChromeTraceRoundTrip

open MachineInt Proto

namespace ChromeTraceExport

/-! ### The parts of a delta -/

/-- The deltas of a run add up to `delta`, and none is negative or more than one
above another. -/
structure Split (run : List Int) (delta count : Int) : Prop where
  length : (run.length : Int) = count
  sum : run.sum = delta
  nonneg : ∀ d ∈ run, 0 ≤ d
  even : ∀ d ∈ run, ∀ d' ∈ run, d ≤ d' + 1

theorem split_parts {delta count : Int} (hdelta : 0 ≤ delta) (hcount : 0 < count) :
    Split (parts delta count) delta count where
  length := by
    rw [length_parts]
    omega
  sum := sum_parts hdelta hcount
  nonneg := by
    intro d hd
    obtain ⟨i, -, rfl⟩ := List.mem_map.mp hd
    have hbase : 0 ≤ delta.tdiv count := Int.tdiv_nonneg hdelta hcount.le
    split <;> omega
  even := by
    intro d hd d' hd'
    obtain ⟨i, -, rfl⟩ := List.mem_map.mp hd
    obtain ⟨j, -, rfl⟩ := List.mem_map.mp hd'
    split <;> split <;> omega

/-! ### What the loop emits -/

variable {profile : Profile} {axis : ValueAxis} {countIndex : Option Nat}

theorem rawValue_of_mem_exported {s : Sample} (hs : s ∈ exported profile axis) :
    0 < rawValue axis s := by
  have h := (List.mem_filter.mp hs).2
  rw [isExported, Bool.and_eq_true, decide_eq_true_eq] at h
  exact h.1

/-- The V8 samples of an exported sample, with its delta or the parts of it. -/
theorem convertSamples_emits {expandSamples : Bool} {st : State}
    (hrun : profile.sample.foldlM (convertSample profile axis countIndex expandSamples) .new =
      .ok st) :
    st.sampleNodeIds.length = ((exported profile axis).map (copies countIndex expandSamples)).sum ∧
      st.timeDeltas = (exported profile axis).flatMap fun s =>
        if expandSamples then parts (deltaUs axis s) (sampleCount countIndex s)
        else [deltaUs axis s] := by
  refine @convertSamples_induct profile axis countIndex expandSamples (fun done st =>
    st.sampleNodeIds.length = (done.map (copies countIndex expandSamples)).sum ∧
      st.timeDeltas = done.flatMap fun s =>
        if expandSamples then parts (deltaUs axis s) (sampleCount countIndex s)
        else [deltaUs axis s]) ?_ _ [] _ _ ⟨rfl, rfl⟩ hrun
  rintro done st s st' ⟨hlength, hdeltas⟩ hs
  rcases convertSample_cases hs with ⟨hno, rfl⟩ | ⟨hyes, rfl⟩
  · rw [List.filter_cons_of_neg (by simp [hno]), List.filter_nil, List.append_nil]
    exact ⟨hlength, hdeltas⟩
  · rw [List.filter_cons_of_pos hyes, List.filter_nil, List.map_append, List.sum_append,
      List.flatMap_append, ← hlength, ← hdeltas, List.map_singleton, List.sum_singleton,
      List.flatMap_singleton, List.length_append, List.length_replicate]
    exact ⟨rfl, rfl⟩

/-- A loop without V8 samples has met no exported sample. -/
theorem exported_eq_nil {expandSamples : Bool} {st : State}
    (hrun : profile.sample.foldlM (convertSample profile axis countIndex expandSamples) .new =
      .ok st) (hnil : st.sampleNodeIds = []) : exported profile axis = [] := by
  have hlength := (convertSamples_emits hrun).1
  rw [hnil, List.length_nil, eq_comm, List.sum_eq_zero_iff] at hlength
  refine List.eq_nil_iff_forall_not_mem.mpr fun s hs => ?_
  have hzero := hlength _ (List.mem_map_of_mem hs)
  have := copies_pos countIndex expandSamples s
  omega

theorem convertSamples_length {st : State}
    (hrun : profile.sample.foldlM (convertSample profile axis countIndex true) .new = .ok st) :
    (st.sampleNodeIds.length : Int) =
      ((exported profile axis).map (sampleCount countIndex)).sum := by
  rw [(convertSamples_emits hrun).1, Nat.cast_list_sum, List.map_map]
  refine congrArg List.sum (List.map_congr_left fun s _ => ?_)
  have := sampleCount_pos countIndex s
  simp only [Function.comp_apply, copies, if_true]
  omega

/-- The deltas are not negative, and add up to the times of the exported samples. -/
theorem deltas_of_run {expandSamples : Bool} {st : State}
    (hrun : profile.sample.foldlM (convertSample profile axis countIndex expandSamples) .new =
      .ok st) :
    (∀ d ∈ st.timeDeltas, 0 ≤ d) ∧
      st.timeDeltas.sum = ((exported profile axis).map (deltaUs axis)).sum := by
  have hpos : ∀ s ∈ exported profile axis, 0 < deltaUs axis s := fun s hs =>
    valueToUs_pos (rawValue_of_mem_exported hs) _
  rw [(convertSamples_emits hrun).2]
  constructor
  · intro d hd
    obtain ⟨s, hs, hd⟩ := List.mem_flatMap.mp hd
    split at hd
    · exact (split_parts (hpos s hs).le (sampleCount_pos countIndex s)).nonneg d hd
    · rw [List.mem_singleton.mp hd]
      exact (hpos s hs).le
  · rw [List.flatMap_def, List.sum_flatten, List.map_map]
    refine congrArg List.sum (List.map_congr_left fun s hs => ?_)
    rw [Function.comp_apply]
    split
    · exact sum_parts (hpos s hs).le (sampleCount_pos countIndex s)
    · exact List.sum_singleton

/-! ### The two loops side by side -/

variable (axis countIndex) in
/-- After the exported samples `done`: `st` has one V8 sample for each, and `st'` a run
of them, at the same leaf. -/
structure Expands (done : List Sample) (st st' : State) : Prop where
  tree : st'.builder = st.builder
  length : st.sampleNodeIds.length = done.length
  ids : st'.sampleNodeIds = (st.sampleNodeIds.zip done).flatMap fun x =>
    List.replicate (sampleCount countIndex x.2).toNat x.1
  deltas : st.timeDeltas = done.map (deltaUs axis)
  runs : st'.timeDeltas = done.flatMap fun s => parts (deltaUs axis s) (sampleCount countIndex s)

theorem expands_new : Expands axis countIndex [] .new .new := ⟨rfl, rfl, rfl, rfl, rfl⟩

theorem Expands.convertSample {done : List Sample} {st st' : State}
    (h : Expands axis countIndex done st st') {s : Sample} {st₁ st₁' : State}
    (hplain : convertSample profile axis countIndex false st s = .ok st₁)
    (hexpand : convertSample profile axis countIndex true st' s = .ok st₁') :
    Expands axis countIndex (done ++ [s].filter (isExported axis)) st₁ st₁' := by
  rcases convertSample_cases hplain with ⟨hno, rfl⟩ | ⟨hyes, rfl⟩
  · rcases convertSample_cases hexpand with ⟨-, rfl⟩ | ⟨hyes, -⟩
    · rw [List.filter_cons_of_neg (by simp [hno]), List.filter_nil, List.append_nil]
      exact h
    · rw [hno] at hyes
      cases hyes
  · rcases convertSample_cases hexpand with ⟨hno, -⟩ | ⟨-, rfl⟩
    · rw [hno] at hyes
      cases hyes
    · rw [List.filter_cons_of_pos hyes, List.filter_nil, h.tree]
      refine ⟨rfl, ?_, ?_, ?_, ?_⟩
      · simp [copies, h.length]
      · simp [copies, h.ids, List.zip_append h.length]
      · simp [h.deltas]
      · simp [h.runs]

theorem Expands.convertSamples {samples done : List Sample} {st st' : State}
    (h : Expands axis countIndex done st st') {st₁ st₁' : State}
    (hplain : samples.foldlM (ChromeTraceExport.convertSample profile axis countIndex false) st =
      .ok st₁)
    (hexpand : samples.foldlM (ChromeTraceExport.convertSample profile axis countIndex true) st' =
      .ok st₁') : Expands axis countIndex (done ++ samples.filter (isExported axis)) st₁ st₁' := by
  induction samples generalizing done st st' with
  | nil =>
    obtain rfl := Except.ok.inj hplain
    obtain rfl := Except.ok.inj hexpand
    rwa [List.filter_nil, List.append_nil]
  | cons s samples ih =>
    obtain ⟨st₂, hs, hrest⟩ := foldlM_cons_eq_ok.mp hplain
    obtain ⟨st₂', hs', hrest'⟩ := foldlM_cons_eq_ok.mp hexpand
    have hafter := ih (h.convertSample hs hs') hrest hrest'
    rwa [List.append_assoc, ← List.filter_append, List.singleton_append] at hafter

theorem totalDeltaUs_eq (timeDeltas : List Int) :
    totalDeltaUs timeDeltas = wrap 64 timeDeltas.sum := by
  have hsum := foldl_wrap_add 64 id timeDeltas 0
  rw [wrap_zero, zero_add, List.map_id] at hsum
  exact hsum

/-- The traces of one profile without and with expansion: the same nodes and the same
time; and for each exported sample a run of as many V8 samples as it counts, at its
leaf, among which its delta is divided evenly. -/
theorem expanded_conserves_time {showFloat : F64 → String} {opts : ConvertOptions}
    {out out' : EncodedTrace}
    (hplain : convertProfile showFloat profile { opts with expandSamples := false } = .ok out)
    (hexpand : convertProfile showFloat profile { opts with expandSamples := true } = .ok out') :
    ∃ (axis : ValueAxis) (cpu cpu' : CpuProfile),
      selectValueAxis profile opts.valueIndex = .ok axis ∧
      out.json = (traceJson opts (startUs profile) cpu).toStringPretty showFloat ∧
      out'.json = (traceJson opts (startUs profile) cpu').toStringPretty showFloat ∧
      let countIndex := opts.countIndex.or (findCountAxis profile)
      let counts := (exported profile axis).map fun s =>
        max ((countIndex.bind fun i => s.value[i]?).getD 1) 1
      cpu'.nodes = cpu.nodes ∧ out'.stats.totalDeltaUs = out.stats.totalDeltaUs ∧
        (out'.stats.samples : Int) = counts.sum ∧ cpu.samples.length = counts.length ∧
        cpu.timeDeltas.length = counts.length ∧
        cpu'.samples = ((cpu.samples.zip counts).flatMap fun x =>
          List.replicate x.2.toNat x.1) ∧
        ∃ runs, cpu'.timeDeltas = runs.flatten ∧
          List.Forall₂ (fun run x => Split run x.1 x.2) runs (cpu.timeDeltas.zip counts) := by
  obtain ⟨trace, stats, htrace, rfl⟩ := convertProfile_ok hplain
  obtain ⟨trace', stats', htrace', rfl⟩ := convertProfile_ok hexpand
  rcases haxis : selectValueAxis profile opts.valueIndex with e | axis
  · rw [buildTrace, show selectValueAxis profile _ = .error e from haxis] at htrace
    cases htrace
  · obtain ⟨st, hrun, -, rfl, rfl⟩ :=
      @buildTrace_ok profile { opts with expandSamples := false } axis haxis _ _ htrace
    obtain ⟨st', hrun', -, rfl, rfl⟩ :=
      @buildTrace_ok profile { opts with expandSamples := true } axis haxis _ _ htrace'
    -- `st` and `st'` are what the two loops end with
    have h := expands_new.convertSamples hrun hrun'
    rw [List.nil_append, ← exported] at h
    refine ⟨axis, _, _, rfl, rfl, rfl, h.tree ▸ rfl, ?_, convertSamples_length hrun', ?_, ?_, ?_,
      (exported profile axis).map fun s =>
        parts (deltaUs axis s) (sampleCount (opts.countIndex.or (findCountAxis profile)) s), ?_, ?_⟩
    · show totalDeltaUs st'.timeDeltas = totalDeltaUs st.timeDeltas
      rw [totalDeltaUs_eq, totalDeltaUs_eq, (deltas_of_run hrun).2, (deltas_of_run hrun').2]
    · rw [List.length_map]
      exact h.length
    · rw [List.length_map, h.deltas, List.length_map]
    · rw [h.ids, List.zip_map_right, List.flatMap_map]
      rfl
    · rw [h.runs, List.flatMap_def]
    · rw [h.deltas, List.zip_map', List.forall₂_map_left_iff, List.forall₂_map_right_iff,
        List.forall₂_same]
      intro s hs
      exact split_parts (valueToUs_pos (rawValue_of_mem_exported hs) axis.unit).le
        (sampleCount_pos _ s)

theorem convertProfile_of_isOk (showFloat : F64 → String) {profile : Profile}
    {opts : ConvertOptions} (hok : (buildTrace profile opts).isOk = true) :
    ∃ out, convertProfile showFloat profile opts = .ok out := by
  rw [convertProfile]
  rcases htrace : buildTrace profile opts with e | ⟨trace, stats⟩
  · rw [htrace] at hok
    cases hok
  · exact ⟨_, rfl⟩

/-- Two samples that count three and one. -/
theorem expanded_conserves_time_small :
    ∃ out out', convertProfile (fun _ => "0.0") smallProfile
        { ConvertOptions.default with expandSamples := false } = .ok out ∧
      convertProfile (fun _ => "0.0") smallProfile
        { ConvertOptions.default with expandSamples := true } = .ok out' ∧
      out'.stats.totalDeltaUs = out.stats.totalDeltaUs := by
  obtain ⟨out, hout⟩ := convertProfile_of_isOk (fun _ => "0.0")
    (show (buildTrace smallProfile { ConvertOptions.default with expandSamples := false }).isOk =
      true by decide +kernel)
  obtain ⟨out', hout'⟩ := convertProfile_of_isOk (fun _ => "0.0")
    (show (buildTrace smallProfile { ConvertOptions.default with expandSamples := true }).isOk =
      true by decide +kernel)
  obtain ⟨-, -, -, -, -, -, -, htotal, -⟩ := expanded_conserves_time hout hout'
  exact ⟨out, out', hout, hout', htotal⟩

/-! ### The limit on expanded samples -/

theorem pushExpandedSamples_eq {count : Int} (hcount : 0 < count) (leaf deltaUs : Int)
    (sampleNodeIds timeDeltas : List Int) :
    pushExpandedSamples leaf deltaUs count sampleNodeIds timeDeltas =
      if count > 10000000 then
        .error ["--expand-samples would emit more than 10,000,000 samples; omit it for compact JSON"]
      else .ok (sampleNodeIds ++ List.replicate count.toNat leaf,
        timeDeltas ++ parts deltaUs count) := by
  rw [pushExpandedSamples, if_neg (by omega)]
  rfl

/-- A turn with expansion succeeds unless it meets an exported sample that counts
more than ten million. -/
theorem convertSample_expand_iff {st : State} {s : Sample} :
    (∃ st', convertSample profile axis countIndex true st s = .ok st') ↔
      (isExported axis s = true → sampleCount countIndex s ≤ 10000000) := by
  have hcount := sampleCount_pos countIndex s
  have hempty : (stackFrames profile s).isEmpty = s.locationId.isEmpty := by
    simp [stackFrames]
  rw [convertSample, isExported]
  simp only [hempty]
  by_cases hraw : rawValue axis s ≤ 0
  · simp [hraw]
  · by_cases hids : s.locationId.isEmpty = true
    · simp [hraw, hids]
    · have hpos : 0 < rawValue axis s := by omega
      simp only [hraw, hids, hpos, if_false, if_true, pushExpandedSamples_eq hcount, decide_true,
        Bool.true_and, Bool.not_eq_true', Bool.false_eq_true]
      by_cases hlarge : sampleCount countIndex s > 10000000
      · rw [if_pos hlarge]
        constructor
        · rintro ⟨st', hst'⟩
          cases hst'
        · intro hle
          have := hle (by simp)
          omega
      · rw [if_neg hlarge]
        exact ⟨fun _ _ => by omega, fun _ => ⟨_, rfl⟩⟩

theorem convertSample_plain_ok (st : State) (s : Sample) :
    ∃ st', convertSample profile axis countIndex false st s = .ok st' := by
  rw [convertSample]
  simp only
  split
  · exact ⟨st, rfl⟩
  · split
    · exact ⟨st, rfl⟩
    · exact ⟨_, rfl⟩

section

variable {expandSamples : Bool}

variable (axis countIndex expandSamples) in
/-- The loop stops at this sample: it is to be expanded to more than ten million. -/
def refused (s : Sample) : Bool :=
  expandSamples && isExported axis s && decide (10000000 < sampleCount countIndex s)

theorem refused_eq_false_iff {s : Sample} : refused axis countIndex true s = false ↔
    (isExported axis s = true → sampleCount countIndex s ≤ 10000000) := by
  rw [refused]
  cases isExported axis s <;> simp

theorem convertSample_ok_iff {st : State} {s : Sample} :
    (∃ st', convertSample profile axis countIndex expandSamples st s = .ok st') ↔
      refused axis countIndex expandSamples s = false := by
  cases expandSamples with
  | true => rw [convertSample_expand_iff, refused_eq_false_iff]
  | false => exact iff_of_true (convertSample_plain_ok st s) rfl

theorem convertSamples_ok_iff {samples : List Sample} {st : State} :
    (∃ st', samples.foldlM (convertSample profile axis countIndex expandSamples) st = .ok st') ↔
      ∀ s ∈ samples, refused axis countIndex expandSamples s = false := by
  induction samples generalizing st with
  | nil => exact ⟨fun _ => List.forall_mem_nil _, fun _ => ⟨st, rfl⟩⟩
  | cons s samples ih =>
    rw [List.forall_mem_cons]
    constructor
    · rintro ⟨st', hrun⟩
      obtain ⟨st₁, hs, hrest⟩ := foldlM_cons_eq_ok.mp hrun
      exact ⟨convertSample_ok_iff.mp ⟨st₁, hs⟩, ih.mp ⟨st', hrest⟩⟩
    · rintro ⟨hs, hsamples⟩
      obtain ⟨st₁, hs⟩ := (@convertSample_ok_iff profile _ _ _ st s).mpr hs
      obtain ⟨st', hrest⟩ := (@ih st₁).mpr hsamples
      exact ⟨st', foldlM_cons_eq_ok.mpr ⟨st₁, hs, hrest⟩⟩

end

variable {opts : ConvertOptions}

theorem convertProfile_of_run (showFloat : F64 → String)
    (haxis : selectValueAxis profile opts.valueIndex = .ok axis) {st : State}
    (hrun : profile.sample.foldlM (convertSample profile axis
      (opts.countIndex.or (findCountAxis profile)) opts.expandSamples) .new = .ok st)
    (hne : st.sampleNodeIds ≠ []) : ∃ out, convertProfile showFloat profile opts = .ok out := by
  have hempty : ¬st.sampleNodeIds.isEmpty = true := by simpa using hne
  rw [convertProfile, buildTrace, haxis]
  simp only [bind, Except.bind, hrun, if_neg hempty]
  exact ⟨_, rfl⟩

theorem count_le_iff :
    (∀ s ∈ profile.sample, refused axis countIndex true s = false) ↔
      ∀ count ∈ (exported profile axis).map (sampleCount countIndex), count ≤ 10000000 := by
  rw [List.forall_mem_map, exported]
  simp only [refused_eq_false_iff, List.mem_filter, and_imp]

/-- A trace with expansion has as many V8 samples as the exported samples count, none of
which is above the limit. -/
theorem samples_of_convertProfile {showFloat : F64 → String} {out : EncodedTrace}
    (hexpand : opts.expandSamples = true)
    (haxis : selectValueAxis profile opts.valueIndex = .ok axis)
    (hout : convertProfile showFloat profile opts = .ok out) :
    let counts := (exported profile axis).map
      (sampleCount (opts.countIndex.or (findCountAxis profile)))
    (∀ count ∈ counts, count ≤ 10000000) ∧ (out.stats.samples : Int) = counts.sum := by
  obtain ⟨trace, stats, htrace, rfl⟩ := convertProfile_ok hout
  obtain ⟨st, hrun, -, rfl, -⟩ := buildTrace_ok haxis htrace
  rw [hexpand] at hrun
  exact ⟨count_le_iff.mp (convertSamples_ok_iff.mp ⟨st, hrun⟩), convertSamples_length hrun⟩

/-- The conversion succeeds where no count is above the limit and there is one. -/
theorem convertProfile_of_counts (showFloat : F64 → String) (hexpand : opts.expandSamples = true)
    (haxis : selectValueAxis profile opts.valueIndex = .ok axis)
    (hle : ∀ count ∈ (exported profile axis).map
      (sampleCount (opts.countIndex.or (findCountAxis profile))), count ≤ 10000000)
    (hne : exported profile axis ≠ []) :
    ∃ out, convertProfile showFloat profile opts = .ok out := by
  obtain ⟨st, hrun⟩ := (@convertSamples_ok_iff profile axis
    (opts.countIndex.or (findCountAxis profile)) true profile.sample .new).mpr
    (count_le_iff.mpr hle)
  have hids : st.sampleNodeIds ≠ [] := fun hnil => hne (exported_eq_nil hrun hnil)
  rw [← hexpand] at hrun
  exact convertProfile_of_run showFloat haxis hrun hids

/-- Whether the conversion fails or keeps to ten million V8 samples is a question of
the counts: one of them is above the limit, or all together are not. -/
theorem limit_iff (showFloat : F64 → String) (profile : Profile) {opts : ConvertOptions}
    (hexpand : opts.expandSamples = true) :
    (∀ out, convertProfile showFloat profile opts = .ok out → out.stats.samples ≤ 10000000) ↔
      ∀ axis, selectValueAxis profile opts.valueIndex = .ok axis →
        let counts := (exported profile axis).map
          (sampleCount (opts.countIndex.or (findCountAxis profile)))
        (∃ count ∈ counts, 10000000 < count) ∨ counts.sum ≤ 10000000 := by
  constructor
  · intro h axis haxis counts
    by_cases hlarge : ∃ count ∈ counts, 10000000 < count
    · exact Or.inl hlarge
    · right
      by_cases hnil : exported profile axis = []
      · -- the conversion fails, and the counts are none
        have hcounts : counts = [] := List.map_eq_nil_iff.mpr hnil
        rw [hcounts, List.sum_nil]
        omega
      · have hle : ∀ count ∈ counts, count ≤ 10000000 := fun count hcount =>
          not_lt.mp fun hlt => hlarge ⟨count, hcount, hlt⟩
        obtain ⟨out, hout⟩ := convertProfile_of_counts showFloat hexpand haxis hle hnil
        have hsamples : (out.stats.samples : Int) = counts.sum :=
          (samples_of_convertProfile hexpand haxis hout).2
        have := h out hout
        omega
  · intro h out hout
    rcases haxis : selectValueAxis profile opts.valueIndex with e | axis
    · rw [convertProfile, buildTrace, haxis] at hout
      cases hout
    · obtain ⟨hle, hsamples⟩ := samples_of_convertProfile hexpand haxis hout
      rcases h axis haxis with ⟨count, hcount, hlarge⟩ | hsum
      · exact absurd (hle count hcount) (by omega)
      · replace hsum : ((exported profile axis).map
          (sampleCount (opts.countIndex.or (findCountAxis profile)))).sum ≤ 10000000 := hsum
        omega

/-- Two samples that count four together. -/
theorem limit_small :
    ∃ out, convertProfile (fun _ => "0.0") smallProfile smallOpts = .ok out ∧
      out.stats.samples ≤ 10000000 := by
  obtain ⟨out, hout⟩ := convertProfile_of_isOk (fun _ => "0.0")
    (show (buildTrace smallProfile smallOpts).isOk = true by decide +kernel)
  refine ⟨out, hout, (limit_iff _ smallProfile rfl).mpr (fun axis haxis => Or.inr ?_) out hout⟩
  obtain rfl : ⟨1, "nanoseconds"⟩ = axis := Except.ok.inj haxis
  decide +kernel

/-- Two samples that count six million each: neither is above the limit. -/
theorem limit_exceeded :
    ∃ out, convertProfile (fun _ => "0.0")
        { smallProfile with sample := [⟨[1], [6000000, 1000], []⟩, ⟨[1], [6000000, 1000], []⟩] }
        smallOpts = .ok out ∧ out.stats.samples = 12000000 := by
  set profile : Profile :=
    { smallProfile with sample := [⟨[1], [6000000, 1000], []⟩, ⟨[1], [6000000, 1000], []⟩] }
  have haxis : selectValueAxis profile smallOpts.valueIndex = .ok ⟨1, "nanoseconds"⟩ := rfl
  have hcounts : (exported profile ⟨1, "nanoseconds"⟩).map
      (sampleCount (smallOpts.countIndex.or (findCountAxis profile))) = [6000000, 6000000] := by
    decide +kernel
  have hne : exported profile ⟨1, "nanoseconds"⟩ ≠ [] := by
    intro hnil
    rw [hnil] at hcounts
    cases hcounts
  obtain ⟨out, hout⟩ := convertProfile_of_counts (fun _ => "0.0") rfl haxis
    (by rw [hcounts]; decide) hne
  have hsamples := (samples_of_convertProfile rfl haxis hout).2
  simp only [hcounts, List.sum_cons, List.sum_nil] at hsamples
  exact ⟨out, hout, by omega⟩

end ChromeTraceExport
