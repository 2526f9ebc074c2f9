/-
The sampling of the memory profilers: the `alloc_hook` of `memprofile` and the
counter of the native hook.

The hook counts the allocations of positive size and takes a stack at every
`sampleRate`-th, which it credits with `sampleRate` allocations of that size, in
the map of stacks and, when one is asked for, in the allocation trace.

* `everyNth` — the positions a counter selects;
* `recorded_run` — what the state holds after a run of calls;
* `sampling_estimates` — how the credits relate to the allocations.
-/
import MoonPprof.Aggregate
import MoonPprof.MachineInt
import MoonPprof.MemProfile
import MoonPprof.RawStreamRoundTrip
import Mathlib.Algebra.BigOperators.Ring.List
import Mathlib.Algebra.Order.BigOperators.Group.List

open MachineInt

/-! ### Every n-th element -/

/-- The elements of `xs` at the positions 0, `n`, `2n`, and so on. -/
def everyNth {α : Type} (n : Nat) (xs : List α) : List α :=
  (xs.zipIdx.filter fun x => x.2 % n = 0).map Prod.fst

theorem everyNth_concat {α : Type} (n : Nat) (xs : List α) (x : α) :
    everyNth n (xs ++ [x]) = everyNth n xs ++ if xs.length % n = 0 then [x] else [] := by
  rw [everyNth, List.zipIdx_append, List.filter_append, List.map_append, ← everyNth]
  congr 1
  by_cases h : xs.length % n = 0
  · simp [h]
  · simp [h]

theorem length_everyNth {α : Type} {n : Nat} (hn : 0 < n) (xs : List α) :
    (everyNth n xs).length = (xs.length + n - 1) / n := by
  induction xs using List.reverseRecOn with
  | nil => exact (Nat.div_eq_of_lt (by simp; omega)).symm
  | append_singleton xs x ih =>
    have hnext : xs.length + 1 + n - 1 = xs.length + n - 1 + 1 := by omega
    have hdvd : n ∣ xs.length + n - 1 + 1 ↔ xs.length % n = 0 := by
      rw [show xs.length + n - 1 + 1 = xs.length + n by omega, Nat.dvd_add_self_right,
        Nat.dvd_iff_mod_eq_zero]
    rw [everyNth_concat, List.length_append, ih, List.length_append, List.length_singleton, hnext,
      Nat.succ_div]
    by_cases h : xs.length % n = 0
    · rw [if_pos h, if_pos (hdvd.mpr h)]
      rfl
    · rw [if_neg h, if_neg (mt hdvd.mp h)]
      rfl

/-- As often as it takes to count past all elements. -/
theorem mul_length_everyNth {α : Type} {n : Nat} (hn : 0 < n) (xs : List α) :
    xs.length ≤ n * (everyNth n xs).length ∧ n * (everyNth n xs).length < xs.length + n := by
  have hdiv := Nat.div_add_mod (xs.length + n - 1) n
  have hmod := Nat.mod_lt (xs.length + n - 1) hn
  rw [length_everyNth hn]
  omega

theorem everyNth_one {α : Type} (xs : List α) : everyNth 1 xs = xs := by
  simp [everyNth, Nat.mod_one]

theorem everyNth_isPrefix {α : Type} (n : Nat) {xs ys : List α} (h : xs <+: ys) :
    everyNth n xs <+: everyNth n ys := by
  obtain ⟨zs, rfl⟩ := h
  rw [everyNth, everyNth, List.zipIdx_append, List.filter_append, List.map_append]
  exact List.prefix_append _ _

namespace MemProfile

/-! ### The hook -/

structure AllocationTraceEvent where
  tsUs : Nat
  size : Int
  scaledSize : Int
  cumulativeObjects : Int
  cumulativeBytes : Int
  topFrame : String

structure AllocationTraceState where
  events : List AllocationTraceEvent
  cumulativeObjects : Int
  cumulativeBytes : Int

def AllocationTraceState.default : AllocationTraceState := ⟨[], 0, 0⟩

def AllocationTraceState.record (t : AllocationTraceState) (tsUs : Nat) (size scale : Int)
    (topFrame : String) : AllocationTraceState :=
  let scaledSize := saturate 64 (size * scale)
  let cumulativeObjects := saturate 64 (t.cumulativeObjects + scale)
  let cumulativeBytes := saturate 64 (t.cumulativeBytes + scaledSize)
  { events := t.events ++
      [⟨tsUs, size, scaledSize, cumulativeObjects, cumulativeBytes, topFrame⟩]
    cumulativeObjects
    cumulativeBytes }

structure HostState where
  samples : SampleMap
  trace : Option AllocationTraceState
  noDemangle : Bool
  sampleRate : UInt32
  counter : UInt64

/-- The state that `run` starts with; `traced` when there is a `trace_out`. -/
def HostState.new (sampleRate : UInt32) (traced noDemangle : Bool) : HostState where
  samples := ∅
  trace := if traced then some .default else none
  noDemangle
  sampleRate := max sampleRate 1
  counter := 0

def FrameKey.isAllocRuntime (f : FrameKey) : Bool :=
  f.name == some "moonbit.malloc" || f.name == some "moonbit.gc.malloc"

/-- A call of `alloc_hook`: its argument, an `i32`, and the stack and the time at
which it is made. -/
structure AllocCall where
  size : Int
  frames : List FrameKey
  tsUs : Nat

section

variable (decode : String → String)

/-- The name of the first frame that is not the allocator's, else of the first. -/
def topFrame (noDemangle : Bool) (frames : List FrameKey) : String :=
  (((frames.find? fun f => !f.isAllocRuntime).or frames.head?).map
    (·.displayName decode noDemangle)).getD "(unknown)"

def SampleAgg.credit (scale : Int) (entry : SampleAgg) (c : AllocCall) : SampleAgg where
  count := wrap 64 (entry.count + scale)
  bytes := wrap 64 (entry.bytes + wrap 64 (c.size * scale))

def allocHook (st : HostState) (c : AllocCall) : HostState :=
  if c.size ≤ 0 then st
  else
    let n := st.counter
    let st := { st with counter := n + 1 }
    let scale : Option Int :=
      if st.sampleRate ≤ 1 then some 1
      else if n % st.sampleRate.toUInt64 = 0 then some st.sampleRate.toNat
      else none
    match scale with
    | none => st
    | some scale => { st with
        trace := st.trace.map fun trace =>
          trace.record c.tsUs c.size scale (topFrame decode st.noDemangle c.frames)
        samples := st.samples.entryOr c.frames ⟨0, 0⟩ fun entry => entry.credit scale c }

/-- The call takes a stack, which is credited with `scale` allocations. -/
def HostState.take (st : HostState) (scale : Int) (c : AllocCall) : HostState :=
  { st with
    trace := st.trace.map fun trace =>
      trace.record c.tsUs c.size scale (topFrame decode st.noDemangle c.frames)
    samples := st.samples.entryOr c.frames ⟨0, 0⟩ fun entry => entry.credit scale c
    counter := st.counter + 1 }

variable {decode}

/-- A call of positive size counts, and takes a stack at every `sampleRate`-th. -/
theorem allocHook_of_pos {st : HostState} {c : AllocCall} (hsize : 0 < c.size)
    (hrate : 1 ≤ st.sampleRate.toNat) : allocHook decode st c =
      if st.counter.toNat % st.sampleRate.toNat = 0 then st.take decode st.sampleRate.toNat c
      else { st with counter := st.counter + 1 } := by
  rw [allocHook, if_neg (not_le.mpr hsize)]
  by_cases hone : st.sampleRate ≤ 1
  · have hnat : st.sampleRate.toNat = 1 := by
      have := UInt32.le_iff_toNat_le.mp hone
      simp at this
      omega
    simp only [if_pos hone, hnat, Nat.mod_one, if_true]
    rfl
  · have hzero : st.counter % st.sampleRate.toUInt64 = 0 ↔
        st.counter.toNat % st.sampleRate.toNat = 0 := by
      rw [← UInt64.toNat_inj, UInt64.toNat_mod, UInt32.toNat_toUInt64]
      rfl
    simp only [if_neg hone, hzero]
    by_cases h : st.counter.toNat % st.sampleRate.toNat = 0
    · simp only [if_pos h]
      rfl
    · simp only [if_neg h]

end

/-! ### What the state holds -/

def positive (calls : List AllocCall) : List AllocCall := calls.filter fun c => decide (0 < c.size)

/-- The calls that take a stack. -/
def sampled (rate : Nat) (calls : List AllocCall) : List AllocCall := everyNth rate (positive calls)

/-- The objects that are credited. -/
def objects (rate : Nat) (calls : List AllocCall) : Int := rate * (sampled rate calls).length

/-- The bytes that are credited. -/
def bytes (rate : Nat) (calls : List AllocCall) : Int :=
  rate * ((sampled rate calls).map AllocCall.size).sum

/-- The credits fit an `i64`. -/
structure Fits (rate : Nat) (calls : List AllocCall) : Prop where
  count : objects rate calls < 2 ^ 63
  size : bytes rate calls < 2 ^ 63

section

variable {rate : Nat} {calls : List AllocCall}

theorem size_pos_of_mem_sampled {c : AllocCall} (hc : c ∈ sampled rate calls) : 0 < c.size := by
  obtain ⟨x, hx, rfl⟩ := List.mem_map.mp hc
  have hmem := List.mem_of_getElem? (List.mem_zipIdx_iff_getElem?.mp (List.mem_filter.mp hx).1)
  exact of_decide_eq_true (List.mem_filter.mp hmem).2

theorem sampled_isPrefix {calls' : List AllocCall} (h : calls <+: calls') :
    sampled rate calls <+: sampled rate calls' :=
  everyNth_isPrefix rate (h.filter _)

theorem sum_size_nonneg {cs : List AllocCall} (h : ∀ c ∈ cs, 0 < c.size) :
    0 ≤ (cs.map AllocCall.size).sum := by
  refine List.sum_nonneg fun v hv => ?_
  obtain ⟨c, hc, rfl⟩ := List.mem_map.mp hv
  exact (h c hc).le

theorem Fits.of_isPrefix {calls' : List AllocCall} (h : Fits rate calls')
    (hpre : calls <+: calls') : Fits rate calls := by
  obtain ⟨hcount, hsize⟩ := h
  obtain ⟨more, hmore⟩ : sampled rate calls <+: sampled rate calls' := sampled_isPrefix hpre
  have hpos : 0 ≤ (more.map AllocCall.size).sum :=
    sum_size_nonneg fun c hc => size_pos_of_mem_sampled (hmore ▸ List.mem_append_right _ hc)
  rw [objects, ← hmore, List.length_append, Nat.cast_add, mul_add] at hcount
  rw [bytes, ← hmore, List.map_append, List.sum_append, mul_add] at hsize
  have hcount' : (0 : Int) ≤ rate * more.length := by positivity
  have hsize' : 0 ≤ rate * (more.map AllocCall.size).sum := by positivity
  refine ⟨?_, ?_⟩
  · rw [objects]
    omega
  · rw [bytes]
    omega

theorem Fits.length_positive_lt (h : Fits rate calls) (hrate : 1 ≤ rate) :
    (positive calls).length < 2 ^ 63 := by
  have hle := (mul_length_everyNth hrate (positive calls)).1
  have hcount := h.count
  rw [objects] at hcount
  refine lt_of_le_of_lt hle ?_
  exact_mod_cast hcount

/-- Recording one more sampled call keeps the trace at the credits. -/
theorem Fits.record {c : AllocCall} (h : Fits rate (calls ++ [c]))
    (hsampled : sampled rate (calls ++ [c]) = sampled rate calls ++ [c]) (hsize : 0 < c.size)
    {trace : AllocationTraceState} (hobjects : trace.cumulativeObjects = objects rate calls)
    (hbytes : trace.cumulativeBytes = bytes rate calls) {tsUs : Nat} {top : String} :
    (trace.record tsUs c.size rate top).cumulativeObjects = objects rate (calls ++ [c]) ∧
      (trace.record tsUs c.size rate top).cumulativeBytes = bytes rate (calls ++ [c]) := by
  obtain ⟨hcount, htotal⟩ := h
  have hpos : 0 ≤ ((sampled rate calls).map AllocCall.size).sum :=
    sum_size_nonneg fun x hx => size_pos_of_mem_sampled hx
  have hcount₀ : 0 ≤ objects rate calls := by
    rw [objects]
    positivity
  have hbytes₀ : 0 ≤ bytes rate calls := by
    rw [bytes]
    positivity
  have hscaled : 0 ≤ c.size * rate := by positivity
  have hobjects' : objects rate (calls ++ [c]) = objects rate calls + rate := by
    rw [objects, hsampled, List.length_append, List.length_singleton, Nat.cast_add, mul_add,
      Nat.cast_one, mul_one, objects]
  have hbytes' : bytes rate (calls ++ [c]) = bytes rate calls + c.size * rate := by
    rw [bytes, hsampled, List.map_append, List.sum_append, List.map_singleton, List.sum_singleton,
      mul_add, mul_comm _ c.size, bytes]
  rw [hobjects'] at hcount ⊢
  rw [hbytes'] at htotal ⊢
  have hsat : saturate 64 (c.size * rate) = c.size * rate :=
    saturate_of_inRange ⟨by omega, by omega⟩
  constructor
  · show saturate 64 (trace.cumulativeObjects + rate) = _
    rw [hobjects]
    exact saturate_of_inRange ⟨by omega, by omega⟩
  · show saturate 64 (trace.cumulativeBytes + saturate 64 (c.size * rate)) = _
    rw [hbytes, hsat]
    exact saturate_of_inRange ⟨by omega, by omega⟩

end

/-! ### The map of stacks -/

/-- What the calls on a stack are credited with. -/
def credits (scale : Int) (cs : List AllocCall) (stack : List FrameKey) : SampleAgg where
  count := scale * (cs.filter (·.frames = stack)).length
  bytes := scale * ((cs.filter (·.frames = stack)).map AllocCall.size).sum

def totalCount (samples : SampleMap) : Int := (samples.entries.map fun e => e.2.count).sum

def totalBytes (samples : SampleMap) : Int := (samples.entries.map fun e => e.2.bytes).sum

/-- The map after a stack was taken for each of the calls. -/
def credited (scale : Int) (cs : List AllocCall) : SampleMap :=
  HashMap.groupFold AllocCall.frames (SampleAgg.credit scale) ⟨0, 0⟩ cs ∅

section

variable {scale : Int} {cs : List AllocCall}

theorem foldl_credit (scale : Int) (cs : List AllocCall) (entry : SampleAgg) :
    cs.foldl (SampleAgg.credit scale) entry =
      ⟨cs.foldl (fun n _ => wrap 64 (n + scale)) entry.count,
        cs.foldl (fun n c => wrap 64 (n + wrap 64 (c.size * scale))) entry.bytes⟩ := by
  induction cs generalizing entry with
  | nil => rfl
  | cons c cs ih =>
    rw [List.foldl_cons, ih]
    rfl

/-- Credits that fit are exact. -/
theorem foldl_credit_zero (hscale : 0 ≤ scale) (hpos : ∀ c ∈ cs, 0 < c.size)
    (hcount : scale * cs.length < 2 ^ 63) (hbytes : scale * (cs.map AllocCall.size).sum < 2 ^ 63) :
    cs.foldl (SampleAgg.credit scale) ⟨0, 0⟩ =
      ⟨scale * cs.length, scale * (cs.map AllocCall.size).sum⟩ := by
  have hcount' := foldl_wrap_add 64 (fun _ : AllocCall => scale) cs 0
  have hbytes' := foldl_wrap_add 64 (fun c : AllocCall => c.size * scale) cs 0
  have hsum := sum_size_nonneg hpos
  rw [foldl_credit]
  simp only [wrap_add_right]
  rw [wrap_zero, zero_add] at hcount' hbytes'
  rw [hcount', hbytes', List.sum_map_mul_right, List.map_const', List.sum_replicate, nsmul_eq_mul,
    mul_comm _ scale, mul_comm _ scale]
  rw [wrap_of_inRange (by omega), wrap_of_inRange (by omega)]
  · exact ⟨by have : 0 ≤ scale * (cs.map AllocCall.size).sum := by positivity
              omega, hbytes⟩
  · exact ⟨by have : 0 ≤ scale * (cs.length : Int) := by positivity
              omega, hcount⟩

section

variable (hscale : 0 ≤ scale) (hpos : ∀ c ∈ cs, 0 < c.size) (hcount : scale * cs.length < 2 ^ 63)
  (hbytes : scale * (cs.map AllocCall.size).sum < 2 ^ 63)

include hscale hpos hcount hbytes

/-- The entry of a stack holds the credits of its calls. -/
theorem lookup_credited (stack : List FrameKey) :
    (credited scale cs).lookup stack =
      if stack ∈ (cs.map AllocCall.frames).dedup then some (credits scale cs stack) else none := by
  rw [credited, HashMap.lookup_groupFold]
  by_cases hmem : stack ∈ cs.map AllocCall.frames
  · obtain ⟨c, hc, rfl⟩ := List.mem_map.mp hmem
    have hne : cs.filter (·.frames = c.frames) ≠ [] :=
      List.ne_nil_of_mem (List.mem_filter.mpr ⟨hc, decide_eq_true rfl⟩)
    have hlen := List.length_filter_le (·.frames = c.frames) cs
    have hsum : ((cs.filter (·.frames = c.frames)).map AllocCall.size).sum ≤
        (cs.map AllocCall.size).sum := by
      refine (List.filter_sublist.map AllocCall.size).sum_le_sum fun v hv => ?_
      obtain ⟨x, hx, rfl⟩ := List.mem_map.mp hv
      exact (hpos x hx).le
    rw [if_neg (by simpa using hne), if_pos (List.mem_dedup.mpr hmem), credits]
    have hpos' : ∀ x ∈ cs.filter (·.frames = c.frames), 0 < x.size :=
      fun x hx => hpos x (List.mem_filter.mp hx).1
    refine congrArg some (foldl_credit_zero hscale hpos' ?_ ?_)
    · exact (mul_le_mul_of_nonneg_left (by exact_mod_cast hlen) hscale).trans_lt hcount
    · exact (mul_le_mul_of_nonneg_left hsum hscale).trans_lt hbytes
  · have hnil : cs.filter (·.frames = stack) = [] := by
      refine List.filter_eq_nil_iff.mpr fun x hx hk => hmem ?_
      exact List.mem_map.mpr ⟨x, hx, of_decide_eq_true hk⟩
    rw [hnil, List.isEmpty_nil, if_pos rfl, if_neg (by rwa [List.mem_dedup])]

theorem entries_credited : (credited scale cs).entries.Perm
    ((cs.map AllocCall.frames).dedup.map fun stack => ⟨stack, credits scale cs stack⟩) :=
  HashMap.entries_perm_map (List.nodup_dedup _) fun stack =>
    (lookup_credited hscale hpos hcount hbytes stack).trans (by congr)

/-- The credits of all stacks are the credits of all calls. -/
theorem totalCount_credited : totalCount (credited scale cs) = scale * cs.length := by
  have hperm := (entries_credited hscale hpos hcount hbytes).map fun e => e.2.count
  have hsum := sum_sumAt_dedup AllocCall.frames (fun _ : AllocCall => scale) cs
  rw [totalCount, hperm.sum_eq, List.map_map]
  rw [List.map_const', List.sum_replicate, nsmul_eq_mul, mul_comm] at hsum
  rw [← hsum]
  refine congrArg List.sum (List.map_congr_left fun stack _ => ?_)
  rw [sumAt_map, List.map_const', List.sum_replicate, nsmul_eq_mul, mul_comm]
  rfl

theorem totalBytes_credited :
    totalBytes (credited scale cs) = scale * (cs.map AllocCall.size).sum := by
  have hperm := (entries_credited hscale hpos hcount hbytes).map fun e => e.2.bytes
  have hsum := sum_sumAt_dedup AllocCall.frames (fun c : AllocCall => scale * c.size) cs
  rw [totalBytes, hperm.sum_eq, List.map_map]
  rw [List.sum_map_mul_left] at hsum
  rw [← hsum]
  refine congrArg List.sum (List.map_congr_left fun stack _ => ?_)
  rw [sumAt_map, List.sum_map_mul_left]
  rfl

end

end

/-! ### The run -/

/-- What the state holds after the calls. -/
structure Recorded (rate : UInt32) (traced : Bool) (calls : List AllocCall) (st : HostState) :
    Prop where
  sampleRate : st.sampleRate = rate
  counter : st.counter = UInt64.ofNat (positive calls).length
  samples : st.samples = credited rate.toNat (sampled rate.toNat calls)
  traced : st.trace.isSome = traced
  trace : ∀ trace, st.trace = some trace →
    trace.cumulativeObjects = objects rate.toNat calls ∧
      trace.cumulativeBytes = bytes rate.toNat calls

theorem recorded_new {rate : UInt32} (hrate : 1 ≤ rate.toNat) (traced noDemangle : Bool) :
    Recorded rate traced [] (.new rate traced noDemangle) where
  sampleRate := by
    show (if rate ≤ 1 then 1 else rate) = rate
    split
    · rename_i hle
      have hone := UInt32.le_iff_toNat_le.mp hle
      exact UInt32.toNat_inj.mp (Nat.le_antisymm hrate hone)
    · rfl
  counter := rfl
  samples := rfl
  traced := by cases traced <;> rfl
  trace := by
    intro trace htrace
    cases traced with
    | false => cases htrace
    | true =>
      obtain rfl := Option.some.inj htrace
      exact ⟨by simp [objects, sampled, positive, everyNth, AllocationTraceState.default],
        by simp [bytes, sampled, positive, everyNth, AllocationTraceState.default]⟩

theorem positive_concat (calls : List AllocCall) (c : AllocCall) :
    positive (calls ++ [c]) = positive calls ++ if 0 < c.size then [c] else [] := by
  by_cases h : 0 < c.size
  · simp [positive, h]
  · simp [positive, h]

theorem sampled_concat (rate : Nat) (calls : List AllocCall) (c : AllocCall) :
    sampled rate (calls ++ [c]) = sampled rate calls ++
      if 0 < c.size ∧ (positive calls).length % rate = 0 then [c] else [] := by
  rw [sampled, positive_concat]
  by_cases h : 0 < c.size
  · rw [if_pos h, everyNth_concat]
    simp only [h, true_and, sampled]
  · simp [h, sampled]

theorem credited_concat (scale : Int) (cs : List AllocCall) (c : AllocCall) :
    credited scale (cs ++ [c]) =
      (credited scale cs).entryOr c.frames ⟨0, 0⟩ fun entry => entry.credit scale c := by
  rw [credited, HashMap.groupFold, List.foldl_append]
  rfl

theorem recorded_allocHook {decode : String → String} {rate : UInt32} (hrate : 1 ≤ rate.toNat)
    {traced : Bool} {calls : List AllocCall} {st : HostState} (h : Recorded rate traced calls st)
    {c : AllocCall} (hfits : Fits rate.toNat (calls ++ [c])) :
    Recorded rate traced (calls ++ [c]) (allocHook decode st c) := by
  by_cases hsize : 0 < c.size
  · have hlen := hfits.length_positive_lt hrate
    rw [positive_concat, if_pos hsize, List.length_append] at hlen
    have hcounter : st.counter.toNat = (positive calls).length := by
      rw [h.counter]
      exact UInt64.toNat_ofNat_of_lt' (lt_of_lt_of_le (by omega) (show 2 ^ 63 ≤ 2 ^ 64 by norm_num))
    rw [allocHook_of_pos hsize (h.sampleRate ▸ hrate), hcounter]
    have hnext : st.counter + 1 = UInt64.ofNat (positive (calls ++ [c])).length := by
      rw [positive_concat, if_pos hsize, List.length_append, h.counter]
      simp
    -- the counter is the number of the positive calls, so it tells whether this one is taken
    by_cases hmod : (positive calls).length % rate.toNat = 0
    · have hsampled : sampled rate.toNat (calls ++ [c]) = sampled rate.toNat calls ++ [c] := by
        rw [sampled_concat, if_pos ⟨hsize, hmod⟩]
      rw [h.sampleRate, if_pos hmod]
      refine ⟨h.sampleRate, hnext, ?_, ?_, ?_⟩
      · rw [hsampled, credited_concat, ← h.samples]
        rfl
      · rw [← h.traced]
        exact Option.isSome_map
      · intro trace htrace
        obtain ⟨trace₀, htrace₀, rfl⟩ := Option.map_eq_some_iff.mp htrace
        obtain ⟨hobjects, hbytes⟩ := h.trace trace₀ htrace₀
        exact hfits.record hsampled hsize hobjects hbytes
    · have hsampled : sampled rate.toNat (calls ++ [c]) = sampled rate.toNat calls := by
        rw [sampled_concat, if_neg (fun hand => hmod hand.2), List.append_nil]
      rw [if_neg (by rwa [h.sampleRate])]
      refine ⟨h.sampleRate, hnext, ?_, h.traced, ?_⟩
      · rw [hsampled]
        exact h.samples
      · rw [objects, bytes, hsampled]
        exact h.trace
  · have hsampled : sampled rate.toNat (calls ++ [c]) = sampled rate.toNat calls := by
      rw [sampled_concat, if_neg (fun hand => hsize hand.1), List.append_nil]
    rw [allocHook, if_pos (not_lt.mp hsize)]
    refine ⟨h.sampleRate, ?_, ?_, h.traced, ?_⟩
    · rw [positive_concat, if_neg hsize, List.append_nil]
      exact h.counter
    · rw [hsampled]
      exact h.samples
    · rw [objects, bytes, hsampled]
      exact h.trace

/-- The state after the calls, from the start of the run. -/
def runCalls (decode : String → String) (sampleRate : UInt32) (traced noDemangle : Bool)
    (calls : List AllocCall) : HostState :=
  calls.foldl (allocHook decode) (.new sampleRate traced noDemangle)

theorem recorded_run {decode : String → String} {rate : UInt32} (hrate : 1 ≤ rate.toNat)
    {traced noDemangle : Bool} {calls : List AllocCall} (hfits : Fits rate.toNat calls) :
    Recorded rate traced calls (runCalls decode rate traced noDemangle calls) := by
  induction calls using List.reverseRecOn with
  | nil => exact recorded_new hrate traced noDemangle
  | append_singleton calls c ih =>
    rw [runCalls, List.foldl_append]
    exact recorded_allocHook hrate (ih (hfits.of_isPrefix (List.prefix_append _ _))) hfits

section

variable {rate : UInt32} {traced : Bool} {calls : List AllocCall} {st : HostState}

theorem Recorded.totals (h : Recorded rate traced calls st) (hfits : Fits rate.toNat calls) :
    totalCount st.samples = objects rate.toNat calls ∧
      totalBytes st.samples = bytes rate.toNat calls := by
  have hscale : (0 : Int) ≤ rate.toNat := Int.natCast_nonneg _
  have hpos : ∀ c ∈ sampled rate.toNat calls, 0 < c.size := fun _ => size_pos_of_mem_sampled
  rw [h.samples]
  exact ⟨totalCount_credited hscale hpos hfits.count hfits.size,
    totalBytes_credited hscale hpos hfits.count hfits.size⟩

/-- At the rate 1 a stack has exactly its allocations. -/
theorem Recorded.exact (h : Recorded rate traced calls st) (hfits : Fits rate.toNat calls)
    (hone : rate.toNat = 1) (stack : List FrameKey) :
    st.samples.lookup stack =
      if stack ∈ (positive calls).map AllocCall.frames then
        some ⟨((positive calls).filter (·.frames = stack)).length,
          (((positive calls).filter (·.frames = stack)).map AllocCall.size).sum⟩
      else none := by
  have hall : sampled 1 calls = positive calls := everyNth_one _
  obtain ⟨hcount, hsize⟩ := hfits
  rw [objects, hone, hall] at hcount
  rw [bytes, hone, hall] at hsize
  have hpos : ∀ c ∈ positive calls, 0 < c.size :=
    fun c hc => of_decide_eq_true (List.mem_filter.mp hc).2
  rw [h.samples, hone, hall, lookup_credited (by simp) hpos hcount hsize, credits]
  simp only [List.mem_dedup, Nat.cast_one, one_mul]

end

/-! ### The native hook -/

/-- The counter of the native hook selects every `rate`-th of its calls. -/
theorem sampleDecision_iterate {s : NativeHook.HookState} (hcounter : s.counter = 0)
    (hrate : 1 ≤ s.rate.toNat) {i : Nat} (hi : i < 2 ^ 64) :
    ((fun t => t.sampleDecision.2)^[i] s).sampleDecision.1 = decide (i % s.rate.toNat = 0) := by
  have hstate : ∀ i, (fun t : NativeHook.HookState => t.sampleDecision.2)^[i] s =
      { s with counter := s.counter + UInt64.ofNat i } := by
    intro i
    induction i with
    | zero => simp
    | succ i ih =>
      rw [Function.iterate_succ_apply', ih, RawStreamRoundTrip.sampleDecision_eq]
      simp [UInt64.add_assoc]
  rw [hstate, RawStreamRoundTrip.sampleDecision_eq, hcounter, UInt64.zero_add]
  show RawStreamRoundTrip.isSampled s.rate (UInt64.ofNat i) = _
  have hnat : (UInt64.ofNat i).toNat = i := UInt64.toNat_ofNat_of_lt' hi
  have hmod : UInt64.ofNat i % s.rate = 0 ↔ i % s.rate.toNat = 0 := by
    rw [← UInt64.toNat_inj, UInt64.toNat_mod, hnat]
    rfl
  rw [RawStreamRoundTrip.isSampled]
  by_cases hone : s.rate ≤ 1
  · have hrate' : s.rate.toNat = 1 := Nat.le_antisymm (UInt64.le_iff_toNat_le.mp hone) hrate
    simp [hone, hrate', Nat.mod_one]
  · by_cases h : i % s.rate.toNat = 0
    · simp [h, hmod.mpr h]
    · simp [h, hone, mt hmod.mp h]

/-- Sampling at a rate: the map of stacks is credited with fewer than `rate`
objects too many, and exactly at the rate 1; its bytes are those of every
`rate`-th allocation; the trace has the same totals after each call; and the
native hook takes its stacks at the same positions. -/
theorem sampling_estimates (decode : String → String) {rate : UInt32} (hrate : 1 ≤ rate.toNat)
    (traced noDemangle : Bool) {calls : List AllocCall} (hfits : Fits rate.toNat calls) :
    let run := runCalls decode rate traced noDemangle
    let k := (positive calls).length
    let n := rate.toNat
    (totalCount (run calls).samples = (n * ((k + n - 1) / n) : Nat) ∧
      k ≤ totalCount (run calls).samples ∧ totalCount (run calls).samples < k + n) ∧
    (n = 1 → ∀ stack, (run calls).samples.lookup stack =
      if stack ∈ (positive calls).map AllocCall.frames then
        some ⟨((positive calls).filter (·.frames = stack)).length,
          (((positive calls).filter (·.frames = stack)).map AllocCall.size).sum⟩
      else none) ∧
    totalBytes (run calls).samples = n * ((everyNth n (positive calls)).map AllocCall.size).sum ∧
    (∀ pre, pre <+: calls → (run pre).trace.isSome = traced ∧
      ∀ trace, (run pre).trace = some trace →
        trace.cumulativeObjects = totalCount (run pre).samples ∧
          trace.cumulativeBytes = totalBytes (run pre).samples) ∧
    ∀ s : NativeHook.HookState, s.counter = 0 → s.rate.toNat = n → ∀ i < 2 ^ 64,
      ((fun t => t.sampleDecision.2)^[i] s).sampleDecision.1 = decide (i % n = 0) := by
  intro run k n
  have hrecorded : ∀ {pre}, Fits n pre → Recorded rate traced pre (run pre) := recorded_run hrate
  obtain ⟨hcount, hbytes⟩ := (hrecorded hfits).totals hfits
  obtain ⟨hle, hlt⟩ := mul_length_everyNth hrate (positive calls)
  have htotal : totalCount (run calls).samples =
      (n * (everyNth n (positive calls)).length : Nat) := by
    rw [hcount, objects, sampled, Nat.cast_mul]
  refine ⟨⟨?_, ?_, ?_⟩, (hrecorded hfits).exact hfits, hbytes, fun pre hpre => ?_, ?_⟩
  · rw [htotal, length_everyNth hrate]
  · rw [htotal]
    exact_mod_cast hle
  · rw [htotal]
    exact_mod_cast hlt
  · -- what fits as a whole fits after each call
    have hfits' := hfits.of_isPrefix hpre
    have hpre' := hrecorded hfits'
    obtain ⟨hcount', hbytes'⟩ := hpre'.totals hfits'
    refine ⟨hpre'.traced, fun trace htrace => ?_⟩
    rw [hcount', hbytes']
    exact hpre'.trace trace htrace
  · rintro s hcounter hsrate i hi
    rw [sampleDecision_iterate hcounter (hsrate ▸ hrate) hi, hsrate]

/-- Three allocations of `f`, and a call that allocates nothing. -/
def fewCalls : List AllocCall :=
  [⟨8, [⟨0, some "f"⟩], 0⟩, ⟨0, [⟨0, some "f"⟩], 1⟩, ⟨16, [⟨0, some "f"⟩], 2⟩,
    ⟨24, [⟨0, some "f"⟩], 3⟩]

theorem sampling_estimates_fewCalls :
    Fits (2 : UInt32).toNat fewCalls ∧
    totalCount (runCalls id 2 true true fewCalls).samples = 4 ∧
    totalBytes (runCalls id 2 true true fewCalls).samples = 64 := by
  have hfits : Fits (2 : UInt32).toNat fewCalls := ⟨by decide, by decide⟩
  obtain ⟨⟨hcount, -⟩, -, hbytes, -⟩ := sampling_estimates id (by decide) true true hfits
  exact ⟨hfits, hcount, hbytes⟩

end MemProfile
