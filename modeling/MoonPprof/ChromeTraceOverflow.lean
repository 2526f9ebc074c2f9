/-
Profiles whose times can be converted to microseconds.

`convertProfile` computes as a release build does, where an `i64` wraps.
`convertProfileChecked` is the same conversion with every sum and quotient checked,
as in a debug build.  Two steps can overflow: the addition that rounds nanoseconds,
and the sum of the deltas.

* `reached` — the samples the loop looks at, up to the first one it refuses;
* `convertSamplesChecked_eq` — the loop, by whether their times can be rounded;
* `convertsTime_iff` — the profiles for which nothing overflows and each delta is
  the time of its sample.
-/
import MoonPprof.ChromeTraceExpand
import Mathlib.Data.Rat.Floor

open MachineInt Proto

namespace ChromeTraceExport

/-! ### The conversion with checked arithmetic -/

/-- Why a conversion in a debug build gives no trace: an `i64` operation overflows,
which is a panic, or the conversion returns an error. -/
inductive Failure
  | overflow
  | bail (error : Error)
deriving DecidableEq

/-- The value of an `i64` operation whose exact result is `x`. -/
def checkedI64 (x : Int) : Except Failure Int :=
  if InRange 64 x then .ok x else .error .overflow

def checkedDiv (x y : Int) : Except Failure Int :=
  if y = 0 then .error .overflow else checkedI64 (x.tdiv y)

/-- The remainder, which panics where the quotient does. -/
def checkedRem (x y : Int) : Except Failure Int := do
  let _ ← checkedDiv x y
  .ok (x.tmod y)

def valueToUsChecked (raw : Int) (unit : String) : Except Failure Int := do
  let us ←
    if unit = "nanoseconds" then do checkedDiv (← checkedI64 (raw + 500)) 1000
    else if unit = "microseconds" then .ok raw
    else if unit = "milliseconds" then .ok (saturate 64 (raw * 1000))
    else if unit = "seconds" then .ok (saturate 64 (raw * 1000000))
    else .ok raw
  .ok (if raw > 0 then max us 1 else 0)

def pushExpandedSamplesChecked (leaf deltaUs count : Int) (sampleNodeIds timeDeltas : List Int) :
    Except Failure (List Int × List Int) :=
  if count < 0 then
    .error (.bail ["sample count cannot fit in memory on this platform",
      "out of range integral type conversion attempted"])
  else if count > 10000000 then
    .error (.bail
      ["--expand-samples would emit more than 10,000,000 samples; omit it for compact JSON"])
  else do
    let base ← checkedDiv deltaUs count
    let remainder ← checkedRem deltaUs count
    let run ← (List.range count.toNat).mapM fun i : Nat =>
      checkedI64 (base + if (i : Int) < remainder then 1 else 0)
    .ok (sampleNodeIds ++ List.replicate count.toNat leaf, timeDeltas ++ run)

def convertSampleChecked (profile : Profile) (axis : ValueAxis) (countIndex : Option Nat)
    (expandSamples : Bool) (st : State) (sample : Sample) : Except Failure State :=
  let raw := rawValue axis sample
  if raw ≤ 0 then .ok st
  else do
    let deltaUs ← valueToUsChecked raw axis.unit
    let frames := stackFrames profile sample
    if frames.isEmpty then .ok st
    else
      let (leaf, builder) := st.builder.internStack frames
      if expandSamples then do
        let (sampleNodeIds, timeDeltas) ← pushExpandedSamplesChecked leaf deltaUs
          (sampleCount countIndex sample) st.sampleNodeIds st.timeDeltas
        .ok ⟨builder, sampleNodeIds, timeDeltas⟩
      else .ok ⟨builder, st.sampleNodeIds ++ [leaf], st.timeDeltas ++ [deltaUs]⟩

def startUsChecked (profile : Profile) : Except Failure Int :=
  if profile.timeNanos > 0 then checkedDiv profile.timeNanos 1000 else .ok 0

def totalDeltaUsChecked (timeDeltas : List Int) : Except Failure Int :=
  timeDeltas.foldlM (fun total dt => checkedI64 (total + dt)) 0

def endUsChecked (profile : Profile) (startUs totalDeltaUs : Int) : Except Failure Int :=
  if profile.durationNanos > 0 then do
    .ok (saturate 64 (startUs + (← checkedDiv profile.durationNanos 1000)))
  else .ok (saturate 64 (startUs + totalDeltaUs))

/-- The frames and the tree are those of `buildTrace`: a line is decreased only where it
is positive, and an id is the number of nodes in memory. -/
def buildTraceChecked (profile : Profile) (opts : ConvertOptions) :
    Except Failure (Value × Stats) := do
  let axis ← (selectValueAxis profile opts.valueIndex).mapError .bail
  let countIndex := opts.countIndex.or (findCountAxis profile)
  let startUs ← startUsChecked profile
  let st ← profile.sample.foldlM
    (convertSampleChecked profile axis countIndex opts.expandSamples) .new
  if st.sampleNodeIds.isEmpty then
    .error (.bail ["pprof profile had no positive samples on selected value axis"])
  else
    let totalDeltaUs ← totalDeltaUsChecked st.timeDeltas
    let endUs ← endUsChecked profile startUs totalDeltaUs
    let trace := traceJson opts startUs {
      nodes := st.builder.nodes
      samples := st.sampleNodeIds
      timeDeltas := st.timeDeltas
      startTime := startUs
      endTime := endUs }
    .ok (trace, ⟨st.builder.nodes.length, st.sampleNodeIds.length, totalDeltaUs⟩)

def convertProfileChecked (showFloat : F64 → String) (profile : Profile) (opts : ConvertOptions) :
    Except Failure EncodedTrace := do
  let (trace, stats) ← buildTraceChecked profile opts
  .ok ⟨trace.toStringPretty showFloat, stats⟩

/-! ### One operation -/

theorem checkedI64_of_inRange {x : Int} (h : InRange 64 x) : checkedI64 x = .ok x := if_pos h

theorem checkedDiv_of_pos {x y : Int} (h : InRange 64 x) (hy : 0 < y) :
    checkedDiv x y = .ok (x.tdiv y) := by
  rw [checkedDiv, if_neg (by omega), checkedI64_of_inRange (tdiv_inRange h hy)]

theorem checkedRem_of_pos {x y : Int} (h : InRange 64 x) (hy : 0 < y) :
    checkedRem x y = .ok (x.tmod y) := by
  rw [checkedRem, checkedDiv_of_pos h hy]
  rfl

theorem mapM_checkedI64 {f : Nat → Int} {is : List Nat} (h : ∀ x ∈ is.map f, InRange 64 x) :
    is.mapM (fun i => checkedI64 (f i)) = .ok (is.map f) := by
  induction is with
  | nil => rfl
  | cons i is ih =>
    rw [List.map_cons, List.forall_mem_cons] at h
    rw [List.mapM_cons, checkedI64_of_inRange h.1, ih h.2]
    rfl

/-- The parts of a delta never overflow: none is above the delta. -/
theorem pushExpandedSamplesChecked_eq {deltaUs count : Int} (hdelta : 0 ≤ deltaUs)
    (h : InRange 64 deltaUs) (hcount : 0 < count) (leaf : Int)
    (sampleNodeIds timeDeltas : List Int) :
    pushExpandedSamplesChecked leaf deltaUs count sampleNodeIds timeDeltas =
      (pushExpandedSamples leaf deltaUs count sampleNodeIds timeDeltas).mapError .bail := by
  rw [pushExpandedSamplesChecked, if_neg (by omega), pushExpandedSamples_eq hcount]
  split
  · rfl
  · rw [checkedDiv_of_pos h hcount, checkedRem_of_pos h hcount]
    simp only [bind, Except.bind]
    rw [mapM_checkedI64 (parts_inRange hdelta h hcount)]
    rfl

/-! ### The time of a sample -/

/-- The time of a sample in microseconds. -/
def exactUs (axis : ValueAxis) (s : Sample) : ℚ :=
  if axis.unit = "nanoseconds" then rawValue axis s / 1000
  else if axis.unit = "milliseconds" then rawValue axis s * 1000
  else if axis.unit = "seconds" then rawValue axis s * 1000000
  else rawValue axis s

/-- Rounded half up, at least one and at most `i64::MAX`. -/
def clampedUs (axis : ValueAxis) (s : Sample) : Int :=
  max 1 (min (2 ^ 63 - 1) ⌊exactUs axis s + 1 / 2⌋)

/-- Adding half a microsecond to a time in nanoseconds does not overflow. -/
def Rounds (axis : ValueAxis) (s : Sample) : Prop :=
  axis.unit = "nanoseconds" → rawValue axis s ≤ 2 ^ 63 - 501

instance (axis : ValueAxis) (s : Sample) : Decidable (Rounds axis s) :=
  inferInstanceAs (Decidable (_ → _))

theorem floor_nanoseconds (raw : Int) : ⌊(raw : ℚ) / 1000 + 1 / 2⌋ = (raw + 500) / 1000 := by
  have hsum : (raw : ℚ) / 1000 + 1 / 2 = ((raw + 500 : Int) : ℚ) / ((1000 : Nat) : ℚ) := by
    push_cast
    ring
  rw [hsum, Rat.floor_intCast_div_natCast]
  norm_num

section

variable {axis : ValueAxis} {s : Sample}

theorem valueToUsChecked_eq (hpos : 0 < rawValue axis s) :
    valueToUsChecked (rawValue axis s) axis.unit =
      if Rounds axis s then .ok (deltaUs axis s) else .error .overflow := by
  rw [valueToUsChecked, deltaUs, valueToUs]
  by_cases hunit : axis.unit = "nanoseconds"
  · simp only [hunit, if_true]
    by_cases hround : Rounds axis s
    · have hle := hround hunit
      have hsum : InRange 64 (rawValue axis s + 500) := by
        constructor <;> omega
      rw [if_pos hround, checkedI64_of_inRange hsum, wrap_of_inRange (by omega) hsum]
      show (checkedDiv (rawValue axis s + 500) 1000).bind _ = _
      rw [checkedDiv_of_pos hsum (by omega)]
      rfl
    · have hsum : ¬InRange 64 (rawValue axis s + 500) := by
        rintro ⟨-, hhi⟩
        exact hround fun _ => by omega
      rw [if_neg hround, checkedI64, if_neg hsum]
      rfl
  · have hround : Rounds axis s := fun h => absurd h hunit
    rw [if_pos hround]
    simp only [hunit, if_false]
    split
    · rfl
    · split
      · rfl
      · split <;> rfl

/-- What is rounded without overflow is the time of the sample. -/
theorem deltaUs_eq (hpos : 0 < rawValue axis s) (h : InRange 64 (rawValue axis s))
    (hround : Rounds axis s) : deltaUs axis s = clampedUs axis s := by
  obtain ⟨hlo, hhi⟩ := h
  rw [deltaUs, valueToUs, if_pos hpos, clampedUs, exactUs]
  by_cases hns : axis.unit = "nanoseconds"
  · have hle := hround hns
    have hsum : InRange 64 (rawValue axis s + 500) := by
      constructor <;> omega
    rw [if_pos hns, if_pos hns, floor_nanoseconds, wrap_of_inRange (by omega) hsum,
      Int.tdiv_eq_ediv_of_nonneg (by omega)]
    omega
  · rw [if_neg hns, if_neg hns]
    by_cases hms : axis.unit = "milliseconds"
    · have hfloor := F64.floor_add_half (rawValue axis s * 1000)
      push_cast at hfloor
      rw [if_neg (by rw [hms]; decide), if_pos hms, if_pos hms, hfloor, saturate]
      omega
    · rw [if_neg hms, if_neg hms]
      by_cases hsec : axis.unit = "seconds"
      · have hfloor := F64.floor_add_half (rawValue axis s * 1000000)
        push_cast at hfloor
        rw [if_neg (by rw [hsec]; decide), if_pos hsec, if_pos hsec, hfloor, saturate]
        omega
      · rw [if_neg hsec, if_neg hsec, ite_self, F64.floor_add_half]
        omega

end

/-! ### The loop -/

section

variable {profile : Profile} {axis : ValueAxis} {countIndex : Option Nat} {expandSamples : Bool}

variable (axis countIndex expandSamples) in
/-- The samples up to the first one at which the loop stops. -/
def reached : List Sample → List Sample
  | [] => []
  | s :: samples =>
    s :: if refused axis countIndex expandSamples s then [] else reached samples

theorem convertSampleChecked_eq {s : Sample} (h : InRange 64 (rawValue axis s)) (st : State) :
    convertSampleChecked profile axis countIndex expandSamples st s =
      if Rounds axis s then
        (convertSample profile axis countIndex expandSamples st s).mapError .bail
      else .error .overflow := by
  rw [convertSampleChecked, convertSample]
  by_cases hraw : rawValue axis s ≤ 0
  · have hround : Rounds axis s := fun _ => by omega
    simp only [hraw, if_true]
    rw [if_pos hround]
    rfl
  · have hpos : 0 < rawValue axis s := by omega
    simp only [hraw, if_false]
    rw [valueToUsChecked_eq hpos]
    by_cases hround : Rounds axis s
    · rw [if_pos hround, if_pos hround]
      simp only [bind, Except.bind]
      split
      · rfl
      · cases expandSamples with
        | false => rfl
        | true =>
          simp only [if_true, deltaUs]
          rw [pushExpandedSamplesChecked_eq (valueToUs_pos hpos _).le (valueToUs_inRange h _)
            (sampleCount_pos countIndex s)]
          rcases pushExpandedSamples _ _ _ _ _ with e | ⟨ids, deltas⟩ <;> rfl
    · rw [if_neg hround, if_neg hround]
      rfl

/-- The loop overflows where it reaches a time that cannot be rounded, and does the
same as in a release build where it does not. -/
theorem convertSamplesChecked_eq {samples : List Sample}
    (h : ∀ s ∈ samples, InRange 64 (rawValue axis s)) (st : State) :
    samples.foldlM (convertSampleChecked profile axis countIndex expandSamples) st =
      if ∀ s ∈ reached axis countIndex expandSamples samples, Rounds axis s then
        (samples.foldlM (convertSample profile axis countIndex expandSamples) st).mapError .bail
      else .error .overflow := by
  induction samples generalizing st with
  | nil => simp [reached]; rfl
  | cons s samples ih =>
    rw [List.forall_mem_cons] at h
    have hok := @convertSample_ok_iff profile axis countIndex expandSamples st s
    rw [List.foldlM_cons, List.foldlM_cons, convertSampleChecked_eq h.1]
    simp only [reached, List.forall_mem_cons]
    by_cases hround : Rounds axis s
    · rw [if_pos hround]
      simp only [hround, true_and]
      rcases hs : convertSample profile axis countIndex expandSamples st s with e | st'
      · -- the loop stops at `s`, and reaches nothing behind it
        have hrefused : refused axis countIndex expandSamples s = true := by
          by_contra hno
          obtain ⟨st', hst'⟩ := hok.mpr (by simpa using hno)
          rw [hs] at hst'
          cases hst'
        simp only [hrefused, if_true]
        rfl
      · simp only [hok.mp ⟨st', hs⟩, Bool.false_eq_true, if_false]
        exact ih h.2 st'
    · rw [if_neg hround]
      simp only [hround, false_and, if_false]
      rfl

/-- Where no sample is refused, the loop reaches all of them. -/
theorem reached_eq_self {samples : List Sample}
    (h : ∀ s ∈ samples, refused axis countIndex expandSamples s = false) :
    reached axis countIndex expandSamples samples = samples := by
  induction samples with
  | nil => rfl
  | cons s samples ih =>
    rw [List.forall_mem_cons] at h
    rw [reached, h.1, ih h.2]
    rfl

end

/-! ### The sum of the deltas -/

/-- As no delta is negative, no partial sum is above the whole. -/
theorem foldlM_checkedI64 {timeDeltas : List Int} (hnonneg : ∀ d ∈ timeDeltas, 0 ≤ d) {acc : Int}
    (hacc : 0 ≤ acc) (hlt : acc < 2 ^ 63) :
    timeDeltas.foldlM (fun total dt => checkedI64 (total + dt)) acc =
      if acc + timeDeltas.sum < 2 ^ 63 then .ok (acc + timeDeltas.sum)
      else .error .overflow := by
  induction timeDeltas generalizing acc with
  | nil =>
    rw [List.sum_nil, add_zero, if_pos hlt]
    rfl
  | cons d timeDeltas ih =>
    rw [List.forall_mem_cons] at hnonneg
    have hd := hnonneg.1
    have hsum : 0 ≤ timeDeltas.sum := List.sum_nonneg hnonneg.2
    rw [List.foldlM_cons, List.sum_cons, ← add_assoc]
    -- what is added later is not negative, so a partial sum out of range stays out
    by_cases hle : acc + d < 2 ^ 63
    · have hrange : InRange 64 (acc + d) := by
        constructor <;> omega
      rw [checkedI64_of_inRange hrange]
      exact ih hnonneg.2 (by omega) hle
    · have hrange : ¬InRange 64 (acc + d) := by
        rintro ⟨-, hhi⟩
        omega
      rw [checkedI64, if_neg hrange, if_neg (by omega)]
      rfl

theorem totalDeltaUsChecked_eq {timeDeltas : List Int} (hnonneg : ∀ d ∈ timeDeltas, 0 ≤ d) :
    totalDeltaUsChecked timeDeltas =
      if timeDeltas.sum < 2 ^ 63 then .ok (totalDeltaUs timeDeltas) else .error .overflow := by
  rw [totalDeltaUsChecked, foldlM_checkedI64 hnonneg le_rfl (by omega), zero_add, totalDeltaUs_eq]
  have hsum : 0 ≤ timeDeltas.sum := List.sum_nonneg hnonneg
  split
  · rw [wrap_of_inRange (by omega) ⟨by omega, by omega⟩]
  · rfl

/-! ### The conversion -/

section

variable {profile : Profile} {opts : ConvertOptions} {axis : ValueAxis}

/-- The times that the loop reaches can be rounded, and the times of all exported
samples can be added unless the loop stops before. -/
structure TimesFit (profile : Profile) (opts : ConvertOptions) (axis : ValueAxis) : Prop where
  rounds : ∀ s ∈ reached axis (opts.countIndex.or (findCountAxis profile)) opts.expandSamples
    profile.sample, Rounds axis s
  total : (∀ s ∈ profile.sample,
      refused axis (opts.countIndex.or (findCountAxis profile)) opts.expandSamples s = false) →
    ((exported profile axis).map (clampedUs axis)).sum < 2 ^ 63

theorem startUsChecked_eq (h : InRange 64 profile.timeNanos) :
    startUsChecked profile = .ok (startUs profile) := by
  rw [startUsChecked, startUs]
  split
  · exact checkedDiv_of_pos h (by omega)
  · rfl

theorem endUsChecked_eq (h : InRange 64 profile.durationNanos) (timeDeltas : List Int) :
    endUsChecked profile (startUs profile) (totalDeltaUs timeDeltas) =
      .ok (endUs profile timeDeltas) := by
  rw [endUsChecked, endUs]
  split
  · rw [checkedDiv_of_pos h (by omega)]
    rfl
  · rfl

/-- Where the times the loop reaches can be rounded, the deltas of the exported
samples are their times. -/
theorem deltas_eq_clamped (hfields : Int64Fields profile opts)
    (hround : ∀ s ∈ profile.sample, Rounds axis s) :
    (exported profile axis).map (deltaUs axis) = (exported profile axis).map (clampedUs axis) := by
  refine List.map_congr_left fun s hs => ?_
  have hmem := (List.mem_filter.mp hs).1
  exact deltaUs_eq (rawValue_of_mem_exported hs) (rawValue_inRange hfields axis hmem)
    (hround s hmem)

/-- What follows the loop where it succeeds. -/
theorem buildTraceChecked_of_run (haxis : selectValueAxis profile opts.valueIndex = .ok axis)
    {st : State} (hrun : profile.sample.foldlM (convertSample profile axis
      (opts.countIndex.or (findCountAxis profile)) opts.expandSamples) .new = .ok st)
    (hfields : Int64Fields profile opts)
    (hround : ∀ s ∈ profile.sample, Rounds axis s) :
    buildTraceChecked profile opts =
      if ((exported profile axis).map (clampedUs axis)).sum < 2 ^ 63 then
        (buildTrace profile opts).mapError .bail
      else .error .overflow := by
  have hrange : ∀ s ∈ profile.sample, InRange 64 (rawValue axis s) := fun s hs =>
    rawValue_inRange hfields axis hs
  have hall := convertSamples_ok_iff.mp ⟨st, hrun⟩
  have hchecked := @convertSamplesChecked_eq profile axis
    (opts.countIndex.or (findCountAxis profile)) opts.expandSamples profile.sample hrange .new
  rw [reached_eq_self hall, if_pos hround, hrun] at hchecked
  obtain ⟨hnonneg, hsum⟩ := deltas_of_run hrun
  rw [deltas_eq_clamped hfields hround] at hsum
  rw [buildTraceChecked, buildTrace, haxis, startUsChecked_eq hfields.timeNanos]
  simp only [Except.mapError, bind, Except.bind] at hchecked ⊢
  simp only [hchecked, hrun]
  by_cases hnil : st.sampleNodeIds.isEmpty = true
  · -- both fail before they add anything up
    have hzero : ((exported profile axis).map (clampedUs axis)).sum < 2 ^ 63 := by
      rw [exported_eq_nil hrun (List.isEmpty_iff.mp hnil), List.map_nil]
      decide
    rw [if_pos hnil, if_pos hnil, if_pos hzero]
  · rw [if_neg hnil, if_neg hnil, totalDeltaUsChecked_eq hnonneg, hsum]
    by_cases hlt : ((exported profile axis).map (clampedUs axis)).sum < 2 ^ 63
    · rw [if_pos hlt, if_pos hlt]
      simp only [endUsChecked_eq hfields.durationNanos]
    · rw [if_neg hlt, if_neg hlt]

/-- Nothing overflows where the times fit, and then the result is that of a release
build. -/
theorem buildTraceChecked_eq (haxis : selectValueAxis profile opts.valueIndex = .ok axis)
    (hfields : Int64Fields profile opts) (hfit : TimesFit profile opts axis) :
    buildTraceChecked profile opts = (buildTrace profile opts).mapError .bail := by
  rcases hrun : profile.sample.foldlM (convertSample profile axis
      (opts.countIndex.or (findCountAxis profile)) opts.expandSamples) .new with e | st
  · -- a sample is refused, and the sum is not taken
    have hchecked := @convertSamplesChecked_eq profile axis
      (opts.countIndex.or (findCountAxis profile)) opts.expandSamples profile.sample
      (fun s hs => rawValue_inRange hfields axis hs) .new
    rw [if_pos hfit.rounds, hrun] at hchecked
    rw [buildTraceChecked, buildTrace, haxis, startUsChecked_eq hfields.timeNanos]
    simp only [Except.mapError, bind, Except.bind] at hchecked ⊢
    simp only [hchecked, hrun]
  · have hall := convertSamples_ok_iff.mp ⟨st, hrun⟩
    have hround := hfit.rounds
    rw [reached_eq_self hall] at hround
    rw [buildTraceChecked_of_run haxis hrun hfields hround, if_pos (hfit.total hall)]

theorem buildTraceChecked_overflow (haxis : selectValueAxis profile opts.valueIndex = .ok axis)
    (hfields : Int64Fields profile opts) (hfit : ¬TimesFit profile opts axis) :
    buildTraceChecked profile opts = .error .overflow := by
  have hrange : ∀ s ∈ profile.sample, InRange 64 (rawValue axis s) := fun s hs =>
    rawValue_inRange hfields axis hs
  by_cases hround : ∀ s ∈ reached axis (opts.countIndex.or (findCountAxis profile))
      opts.expandSamples profile.sample, Rounds axis s
  · -- the loop succeeds, and the sum of its deltas overflows
    have htotal := mt (fun h => TimesFit.mk hround h) hfit
    obtain ⟨hall, hge⟩ := Classical.not_imp.mp htotal
    obtain ⟨st, hrun⟩ := (@convertSamples_ok_iff profile axis
      (opts.countIndex.or (findCountAxis profile)) opts.expandSamples profile.sample .new).mpr hall
    rw [reached_eq_self hall] at hround
    rw [buildTraceChecked_of_run haxis hrun hfields hround, if_neg (by omega)]
  · -- the loop itself overflows
    have hchecked := @convertSamplesChecked_eq profile axis
      (opts.countIndex.or (findCountAxis profile)) opts.expandSamples profile.sample hrange .new
    rw [if_neg hround] at hchecked
    rw [buildTraceChecked, haxis, startUsChecked_eq hfields.timeNanos]
    simp only [Except.mapError, bind, Except.bind, hchecked]

end

/-- No `i64` operation of the conversion overflows; and the trace without expansion
has for each exported sample its time in microseconds, and a total that is not
negative. -/
structure ConvertsTime (showFloat : F64 → String) (profile : Profile) (opts : ConvertOptions) :
    Prop where
  checked : convertProfileChecked showFloat profile opts ≠ .error .overflow
  exact : opts.expandSamples = false → ∀ axis, selectValueAxis profile opts.valueIndex = .ok axis →
    ∀ out, convertProfile showFloat profile opts = .ok out → ∃ cpu,
      buildTrace profile opts = .ok (traceJson opts (startUs profile) cpu, out.stats) ∧
        cpu.timeDeltas = (exported profile axis).map (clampedUs axis) ∧
        0 ≤ out.stats.totalDeltaUs

/-- The times convert exactly where the conversion fails to find an axis, or the times
fit: no time in nanoseconds that the loop reaches is within half a microsecond of the
limit, and the times of the exported samples add up to less than it. -/
theorem convertsTime_iff (showFloat : F64 → String) {profile : Profile} {opts : ConvertOptions}
    (hfields : Int64Fields profile opts) : ConvertsTime showFloat profile opts ↔
      ∀ axis, selectValueAxis profile opts.valueIndex = .ok axis →
        TimesFit profile opts axis := by
  constructor
  · intro h axis haxis
    by_contra hfit
    refine h.checked ?_
    rw [convertProfileChecked, buildTraceChecked_overflow haxis hfields hfit]
    rfl
  · intro h
    refine ⟨?_, ?_⟩
    · rw [convertProfileChecked]
      rcases haxis : selectValueAxis profile opts.valueIndex with e | axis
      · rw [buildTraceChecked, haxis]
        exact fun heq => nomatch heq
      · rw [buildTraceChecked_eq haxis hfields (h axis haxis)]
        rcases buildTrace profile opts with e | out <;> exact fun heq => nomatch heq
    · intro hplain axis haxis out hout
      obtain ⟨trace, stats, htrace, rfl⟩ := convertProfile_ok hout
      obtain ⟨st, hrun, -, rfl, rfl⟩ := buildTrace_ok haxis htrace
      have hfit := h axis haxis
      have hall := convertSamples_ok_iff.mp ⟨st, hrun⟩
      have hround := hfit.rounds
      rw [reached_eq_self hall] at hround
      -- without expansion each exported sample has one delta, and it is its time
      have hdeltas : st.timeDeltas = (exported profile axis).map (clampedUs axis) := by
        rw [← deltas_eq_clamped hfields hround, (convertSamples_emits hrun).2, hplain,
          List.map_eq_flatMap]
        rfl
      refine ⟨_, htrace, hdeltas, ?_⟩
      have hsum : 0 ≤ st.timeDeltas.sum := List.sum_nonneg (deltas_of_run hrun).1
      have hlt := hfit.total hall
      show 0 ≤ totalDeltaUs st.timeDeltas
      rw [← hdeltas] at hlt
      rw [totalDeltaUs_eq, wrap_of_inRange (by omega) ⟨by omega, by omega⟩]
      exact hsum

theorem convertsTime_small : ConvertsTime (fun _ => "0.0") smallProfile .default := by
  have hfields : Int64Fields smallProfile .default :=
    ⟨by decide, by decide, by decide, by decide, by decide⟩
  refine (convertsTime_iff _ hfields).mpr fun axis haxis => ?_
  obtain rfl : ⟨1, "nanoseconds"⟩ = axis := Except.ok.inj haxis
  exact ⟨by decide +kernel, fun _ => by decide +kernel⟩

/-- One sample of `i64::MAX` nanoseconds: a debug build panics, and a release build
makes one microsecond of the 292 years. -/
def largeProfile : Profile := { smallProfile with sample := [⟨[1], [1, 9223372036854775807], []⟩] }

theorem not_convertsTime_large :
    ¬ConvertsTime (fun _ => "0.0") largeProfile .default ∧
      (exported largeProfile ⟨1, "nanoseconds"⟩).map (deltaUs ⟨1, "nanoseconds"⟩) = [1] ∧
      (exported largeProfile ⟨1, "nanoseconds"⟩).map (clampedUs ⟨1, "nanoseconds"⟩) =
        [9223372036854776] := by
  refine ⟨fun h => h.checked ?_, by decide +kernel, by decide +kernel⟩
  have hbuild : buildTraceChecked largeProfile .default = .error .overflow := rfl
  rw [convertProfileChecked, hbuild]
  rfl

end ChromeTraceExport
