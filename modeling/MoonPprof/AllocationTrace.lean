/-
The allocation timeline of `memprofile --trace-out` (`cmd_memprofile` of
`runners/moon-pprof`).

Each call of the hook that takes a stack is written as two events of a Chrome
trace: a counter, with what has been credited up to this call, and an instant,
with the size of the call and its top frame.

* `events_runCalls` — the events that a run records;
* `readMarks_traceValue` — what a viewer reads of a trace;
* `trace_tells_run` — the file of a run, read back and held against the samples.
-/
import MoonPprof.ChromeTraceStreams
import MoonPprof.MemProfileReads

open MachineInt

namespace MemProfile

/-! ### The file -/

-- `json!` orders the keys of an object.

def counterEvent (event : AllocationTraceEvent) : Value :=
  .object [
    ("args", .object [("bytes", .int event.cumulativeBytes),
      ("objects", .int event.cumulativeObjects)]),
    ("cat", .string "moon-pprof"), ("name", .string "allocations"), ("ph", .string "C"),
    ("pid", .int 1), ("tid", .int 1), ("ts", .int event.tsUs)]

def instantEvent (event : AllocationTraceEvent) : Value :=
  .object [
    ("args", .object [("scaled_size", .int event.scaledSize), ("size", .int event.size),
      ("top", .string event.topFrame)]),
    ("cat", .string "moon-pprof"), ("name", .string "allocation"), ("ph", .string "i"),
    ("pid", .int 1), ("s", .string "t"), ("tid", .int 1), ("ts", .int event.tsUs)]

def traceValue (events : List AllocationTraceEvent) : Value :=
  .object [("displayTimeUnit", .string "ms"),
    ("traceEvents", .array (events.flatMap fun event => [counterEvent event, instantEvent event]))]

def allocationTraceJson (showFloat : F64 → String) (events : List AllocationTraceEvent) : String :=
  (traceValue events).toStringPretty showFloat

/-! ### What a viewer reads -/

inductive Mark
  | counter (tsUs objects bytes : Int)
  | instant (tsUs size scaledSize : Int) (top : String)
deriving DecidableEq

def readMark (v : Value) : Option Mark := do
  let ph ← v.field "ph" Value.decodeString
  let tsUs ← v.field "ts" (Value.decodeInt 64)
  let args ← v.get "args"
  if ph = "C" then
    let objects ← args.field "objects" (Value.decodeInt 64)
    let bytes ← args.field "bytes" (Value.decodeInt 64)
    some (.counter tsUs objects bytes)
  else if ph = "i" then
    let size ← args.field "size" (Value.decodeInt 64)
    let scaledSize ← args.field "scaled_size" (Value.decodeInt 64)
    let top ← args.field "top" Value.decodeString
    some (.instant tsUs size scaledSize top)
  else none

def readMarks (v : Value) : Option (List Mark) := v.field "traceEvents" (Value.decodeVec readMark)

theorem readMark_counter {v args : Value} {tsUs objects bytes : Int}
    (hph : v.get "ph" = some (.string "C")) (hts : v.get "ts" = some (.int tsUs))
    (hargs : v.get "args" = some args) (hobjects : args.get "objects" = some (.int objects))
    (hbytes : args.get "bytes" = some (.int bytes)) (htsUs : InRange 64 tsUs)
    (hobjects' : InRange 64 objects) (hbytes' : InRange 64 bytes) :
    readMark v = some (.counter tsUs objects bytes) := by
  rw [readMark, hargs]
  simp only [Value.field, hph, hts, hobjects, hbytes, Value.decodeString, Option.bind_eq_bind,
    Option.bind_some, if_true, Value.decodeInt_int htsUs, Value.decodeInt_int hobjects',
    Value.decodeInt_int hbytes']

theorem readMark_instant {v args : Value} {tsUs size scaledSize : Int} {top : String}
    (hph : v.get "ph" = some (.string "i")) (hts : v.get "ts" = some (.int tsUs))
    (hargs : v.get "args" = some args) (hsize : args.get "size" = some (.int size))
    (hscaled : args.get "scaled_size" = some (.int scaledSize))
    (htop : args.get "top" = some (.string top)) (htsUs : InRange 64 tsUs)
    (hsize' : InRange 64 size) (hscaled' : InRange 64 scaledSize) :
    readMark v = some (.instant tsUs size scaledSize top) := by
  have hne : ("i" : String) ≠ "C" := by decide
  rw [readMark, hargs]
  simp only [Value.field, hph, hts, hsize, hscaled, htop, Value.decodeString, Option.bind_eq_bind,
    Option.bind_some, if_neg hne, if_true, Value.decodeInt_int htsUs, Value.decodeInt_int hsize',
    Value.decodeInt_int hscaled']

/-- The scaled sizes of the instants with this top frame. -/
def scaledAt (top : String) (marks : List Mark) : List Int :=
  marks.filterMap fun
    | .instant _ _ scaledSize t => if t = top then some scaledSize else none
    | .counter .. => none

/-- The numbers of the event fit the file. -/
structure AllocationTraceEvent.Fits (event : AllocationTraceEvent) : Prop where
  tsUs : InRange 64 (event.tsUs : Int)
  size : InRange 64 event.size
  scaledSize : InRange 64 event.scaledSize
  objects : InRange 64 event.cumulativeObjects
  bytes : InRange 64 event.cumulativeBytes

def AllocationTraceEvent.marks (event : AllocationTraceEvent) : List Mark :=
  [.counter event.tsUs event.cumulativeObjects event.cumulativeBytes,
    .instant event.tsUs event.size event.scaledSize event.topFrame]

section

variable {event : AllocationTraceEvent} (h : event.Fits)

include h

theorem readMark_counterEvent : readMark (counterEvent event) =
    some (.counter event.tsUs event.cumulativeObjects event.cumulativeBytes) :=
  readMark_counter rfl rfl rfl rfl rfl h.tsUs h.objects h.bytes

theorem readMark_instantEvent : readMark (instantEvent event) =
    some (.instant event.tsUs event.size event.scaledSize event.topFrame) :=
  readMark_instant rfl rfl rfl rfl rfl rfl h.tsUs h.size h.scaledSize

theorem plain_counterEvent : (counterEvent event).Plain := by
  have hargs : (Value.object [("bytes", .int event.cumulativeBytes),
      ("objects", .int event.cumulativeObjects)]).Plain := by
    refine .object (by simp) ?_
    simp only [List.forall_mem_cons, List.not_mem_nil, false_imp_iff, implies_true, and_true]
    exact ⟨.int h.bytes, .int h.objects⟩
  have hone : InRange 64 1 := by decide
  refine .object (by simp) ?_
  simp only [List.forall_mem_cons, List.not_mem_nil, false_imp_iff, implies_true, and_true]
  exact ⟨hargs, .string _, .string _, .string _, .int hone, .int hone, .int h.tsUs⟩

theorem plain_instantEvent : (instantEvent event).Plain := by
  have hargs : (Value.object [("scaled_size", .int event.scaledSize), ("size", .int event.size),
      ("top", .string event.topFrame)]).Plain := by
    refine .object (by simp) ?_
    simp only [List.forall_mem_cons, List.not_mem_nil, false_imp_iff, implies_true, and_true]
    exact ⟨.int h.scaledSize, .int h.size, .string _⟩
  have hone : InRange 64 1 := by decide
  refine .object (by simp) ?_
  simp only [List.forall_mem_cons, List.not_mem_nil, false_imp_iff, implies_true, and_true]
  exact ⟨hargs, .string _, .string _, .string _, .int hone, .string _, .int hone, .int h.tsUs⟩

end

section

variable {events : List AllocationTraceEvent} (h : ∀ event ∈ events, event.Fits)

include h

theorem plain_traceValue : (traceValue events).Plain := by
  refine .object (by simp) ?_
  simp only [List.forall_mem_cons, List.not_mem_nil, false_imp_iff, implies_true, and_true]
  refine ⟨.string _, .array fun v hv => ?_⟩
  obtain ⟨event, hevent, hv⟩ := List.mem_flatMap.mp hv
  simp only [List.mem_cons, List.not_mem_nil, or_false] at hv
  rcases hv with rfl | rfl
  · exact plain_counterEvent (h event hevent)
  · exact plain_instantEvent (h event hevent)

theorem mapM_readMark :
    (events.flatMap fun event => [counterEvent event, instantEvent event]).mapM readMark =
      some (events.flatMap AllocationTraceEvent.marks) := by
  induction events with
  | nil => rfl
  | cons event events ih =>
    obtain ⟨hevent, hevents⟩ := List.forall_mem_cons.mp h
    simp only [List.flatMap_cons, List.cons_append, List.nil_append, List.mapM_cons,
      readMark_counterEvent hevent, readMark_instantEvent hevent, ih hevents,
      AllocationTraceEvent.marks]
    rfl

/-- A viewer reads the two marks of each event. -/
theorem readMarks_traceValue :
    readMarks (traceValue events) = some (events.flatMap AllocationTraceEvent.marks) :=
  mapM_readMark h

end

/-! ### The events of a run -/

section

variable (decode : String → String) (noDemangle : Bool)

/-- The event of the sampled call `c` at the place `i`: what is credited up to it. -/
def eventAt (rate : Nat) (cs : List AllocCall) (c : AllocCall) (i : Nat) :
    AllocationTraceEvent where
  tsUs := c.tsUs
  size := c.size
  scaledSize := c.size * rate
  cumulativeObjects := rate * (i + 1 : Nat)
  cumulativeBytes := rate * ((cs.take (i + 1)).map AllocCall.size).sum
  topFrame := topFrame decode noDemangle c.frames

/-- The events of the calls that take a stack. -/
def eventsOf (rate : Nat) (cs : List AllocCall) : List AllocationTraceEvent :=
  cs.zipIdx.map fun x => eventAt decode noDemangle rate cs x.1 x.2

theorem eventsOf_concat (rate : Nat) (cs : List AllocCall) (c : AllocCall) :
    eventsOf decode noDemangle rate (cs ++ [c]) =
      eventsOf decode noDemangle rate cs ++
        [eventAt decode noDemangle rate (cs ++ [c]) c cs.length] := by
  rw [eventsOf, List.zipIdx_append, List.map_append, eventsOf]
  congr 1
  · -- an earlier event sees the calls before it only
    refine List.map_congr_left fun x hx => ?_
    have hlt : x.2 < cs.length := by
      have := List.snd_lt_of_mem_zipIdx hx
      omega
    rw [eventAt, eventAt, List.take_append_of_le_length (by omega)]
  · simp

theorem noDemangle_runCalls (rate : UInt32) (traced : Bool) (calls : List AllocCall) :
    (runCalls decode rate traced noDemangle calls).noDemangle = noDemangle := by
  induction calls using List.reverseRecOn with
  | nil => rfl
  | append_singleton calls c ih =>
    rw [runCalls, List.foldl_append]
    show (allocHook decode (runCalls decode rate traced noDemangle calls) c).noDemangle = _
    rw [allocHook]
    split
    · exact ih
    · dsimp only
      split <;> exact ih

variable {decode noDemangle} {rate : UInt32} {calls : List AllocCall}

/-- Recording a sampled call appends its event. -/
theorem record_events {c : AllocCall} (hfits : Fits rate.toNat (calls ++ [c]))
    (hsampled : sampled rate.toNat (calls ++ [c]) = sampled rate.toNat calls ++ [c])
    (hsize : 0 < c.size) {trace : AllocationTraceState}
    (hobjects : trace.cumulativeObjects = objects rate.toNat calls)
    (hbytes : trace.cumulativeBytes = bytes rate.toNat calls)
    (hevents : trace.events = eventsOf decode noDemangle rate.toNat (sampled rate.toNat calls)) :
    (trace.record c.tsUs c.size rate.toNat (topFrame decode noDemangle c.frames)).events =
      eventsOf decode noDemangle rate.toNat (sampled rate.toNat (calls ++ [c])) := by
  set next := trace.record c.tsUs c.size rate.toNat (topFrame decode noDemangle c.frames)
  obtain ⟨hobjects', hbytes'⟩ : next.cumulativeObjects = objects rate.toNat (calls ++ [c]) ∧
      next.cumulativeBytes = bytes rate.toNat (calls ++ [c]) :=
    hfits.record hsampled hsize hobjects hbytes
  have hscaled : saturate 64 (c.size * rate.toNat) = c.size * rate.toNat := by
    have hsum : 0 ≤ ((sampled rate.toNat calls).map AllocCall.size).sum :=
      sum_size_nonneg fun x hx => size_pos_of_mem_sampled hx
    have htotal := hfits.size
    have hnonneg : 0 ≤ c.size * rate.toNat := by positivity
    have hbefore : 0 ≤ rate.toNat * ((sampled rate.toNat calls).map AllocCall.size).sum := by
      positivity
    rw [bytes, hsampled, List.map_append, List.sum_append, List.map_singleton, List.sum_singleton,
      mul_add, mul_comm _ c.size] at htotal
    exact saturate_of_inRange ⟨by omega, by omega⟩
  have hlast : next.events = trace.events ++ [⟨c.tsUs, c.size, saturate 64 (c.size * rate.toNat),
      next.cumulativeObjects, next.cumulativeBytes, topFrame decode noDemangle c.frames⟩] := rfl
  rw [hlast, hevents, hscaled, hobjects', hbytes', hsampled, eventsOf_concat, eventAt, objects,
    bytes, hsampled, List.length_append, List.length_singleton,
    List.take_of_length_le (by simp)]

variable (decode noDemangle) in
/-- A run records the events of its sampled calls. -/
theorem events_runCalls (hrate : 1 ≤ rate.toNat) (hfits : Fits rate.toNat calls) :
    ∃ trace, (runCalls decode rate true noDemangle calls).trace = some trace ∧
      trace.events = eventsOf decode noDemangle rate.toNat (sampled rate.toNat calls) := by
  induction calls using List.reverseRecOn with
  | nil => exact ⟨_, rfl, rfl⟩
  | append_singleton calls c ih =>
    have hfits₀ := hfits.of_isPrefix (List.prefix_append calls [c])
    obtain ⟨trace, htrace, hevents⟩ := ih hfits₀
    have hrecorded : Recorded rate true calls (runCalls decode rate true noDemangle calls) :=
      recorded_run hrate hfits₀
    have hrun : runCalls decode rate true noDemangle (calls ++ [c]) =
        allocHook decode (runCalls decode rate true noDemangle calls) c := by
      rw [runCalls, List.foldl_append]
      rfl
    rw [hrun]
    by_cases hsize : 0 < c.size
    · have hcounter : (runCalls decode rate true noDemangle calls).counter.toNat =
          (positive calls).length := by
        have hlen := hfits₀.length_positive_lt hrate
        rw [hrecorded.counter]
        exact UInt64.toNat_ofNat_of_lt' (lt_trans hlen (by norm_num))
      have hrate' : 1 ≤ (runCalls decode rate true noDemangle calls).sampleRate.toNat := by
        rw [hrecorded.sampleRate]
        exact hrate
      rw [allocHook_of_pos hsize hrate', hcounter, hrecorded.sampleRate]
      by_cases hmod : (positive calls).length % rate.toNat = 0
      · have hsampled : sampled rate.toNat (calls ++ [c]) = sampled rate.toNat calls ++ [c] := by
          rw [sampled_concat, if_pos ⟨hsize, hmod⟩]
        obtain ⟨hobjects, hbytes⟩ := hrecorded.trace trace htrace
        rw [if_pos hmod, HostState.take, htrace, noDemangle_runCalls]
        exact ⟨_, rfl, record_events hfits hsampled hsize hobjects hbytes hevents⟩
      · have hsampled : sampled rate.toNat (calls ++ [c]) = sampled rate.toNat calls := by
          rw [sampled_concat, if_neg (fun hand => hmod hand.2), List.append_nil]
        rw [if_neg hmod, hsampled]
        exact ⟨trace, htrace, hevents⟩
    · have hsampled : sampled rate.toNat (calls ++ [c]) = sampled rate.toNat calls := by
        rw [sampled_concat, if_neg (fun hand => hsize hand.1), List.append_nil]
      rw [allocHook, if_pos (not_lt.mp hsize), hsampled]
      exact ⟨trace, htrace, hevents⟩

end

section

variable {decode : String → String} {noDemangle : Bool} {rate : Nat} {calls : List AllocCall}

/-- The sizes up to a sampled call add up to at least its size, and to at most all sizes. -/
theorem size_le_sum_take {c : AllocCall} {i : Nat} (h : (sampled rate calls)[i]? = some c) :
    c.size ≤ (((sampled rate calls).take (i + 1)).map AllocCall.size).sum ∧
      (((sampled rate calls).take (i + 1)).map AllocCall.size).sum ≤
        ((sampled rate calls).map AllocCall.size).sum := by
  have hmem : c ∈ (sampled rate calls).take (i + 1) := by
    refine List.mem_of_getElem? (i := i) ?_
    rwa [List.getElem?_take_of_lt (by omega)]
  constructor
  · refine List.single_le_sum (fun v hv => ?_) _ (List.mem_map_of_mem hmem)
    obtain ⟨x, hx, rfl⟩ := List.mem_map.mp hv
    exact (size_pos_of_mem_sampled (List.mem_of_mem_take hx)).le
  · refine ((List.take_sublist _ _).map AllocCall.size).sum_le_sum fun v hv => ?_
    obtain ⟨x, hx, rfl⟩ := List.mem_map.mp hv
    exact (size_pos_of_mem_sampled hx).le

/-- What is credited up to a sampled call fits when all of it does. -/
theorem fits_eventsOf (hrate : 1 ≤ rate) (hfits : Fits rate calls)
    (hts : ∀ c ∈ calls, c.tsUs < 2 ^ 63) :
    ∀ event ∈ eventsOf decode noDemangle rate (sampled rate calls), event.Fits := by
  intro event hevent
  obtain ⟨⟨c, i⟩, hx, rfl⟩ := List.mem_map.mp hevent
  have hget : (sampled rate calls)[i]? = some c := List.mem_zipIdx_iff_getElem?.mp hx
  have hc : c ∈ sampled rate calls := List.mem_of_getElem? hget
  have hi : i < (sampled rate calls).length := (List.getElem?_eq_some_iff.mp hget).1
  have hrate' : (1 : Int) ≤ rate := by exact_mod_cast hrate
  have hsize := size_pos_of_mem_sampled hc
  have htsUs := hts c (mem_of_mem_sampled hc)
  have hcount₀ : 0 ≤ (rate : Int) * (i + 1 : Nat) := by positivity
  have hcount : (rate : Int) * (i + 1 : Nat) < 2 ^ 63 := by
    refine lt_of_le_of_lt ?_ hfits.count
    exact mul_le_mul_of_nonneg_left (by exact_mod_cast hi) (by omega)
  obtain ⟨hone, hall⟩ := size_le_sum_take hget
  have hbytes : (rate : Int) * (((sampled rate calls).take (i + 1)).map AllocCall.size).sum <
      2 ^ 63 := lt_of_le_of_lt (mul_le_mul_of_nonneg_left hall (by omega)) hfits.size
  have hscaled : c.size * rate ≤
      rate * (((sampled rate calls).take (i + 1)).map AllocCall.size).sum := by
    rw [mul_comm]
    exact mul_le_mul_of_nonneg_left hone (by omega)
  have hself : c.size ≤ c.size * rate := le_mul_of_one_le_right hsize.le hrate'
  refine ⟨⟨?_, ?_⟩, ⟨?_, ?_⟩, ⟨?_, ?_⟩, ⟨?_, ?_⟩, ⟨?_, ?_⟩⟩ <;>
    simp only [eventAt] <;> omega

end

/-! ### The file of a run -/

/-- The events are of no concern to the importer of V8 profiles. -/
theorem traceOf_traceValue (display : Value → String) (events : List AllocationTraceEvent) :
    ChromeTrace.TraceOf display [] (traceValue events) := by
  set vs := events.flatMap fun event => [counterEvent event, instantEvent event]
  have hother : ∀ v ∈ vs, ChromeTrace.OtherJson v := by
    intro v hv
    obtain ⟨event, -, hv⟩ := List.mem_flatMap.mp hv
    simp only [List.mem_cons, List.not_mem_nil, or_false] at hv
    rcases hv with rfl | rfl
    · exact ⟨rfl, Or.inr ⟨"allocations", rfl, Or.inl (by decide)⟩⟩
    · exact ⟨rfl, Or.inr ⟨"allocation", rfl, Or.inl (by decide)⟩⟩
  refine ⟨vs, List.replicate vs.length none, Or.inr rfl, ?_, ?_⟩
  · rw [List.forall₂_iff_get]
    refine ⟨by simp, fun i hi hi' => ?_⟩
    simpa [ChromeTrace.Describes] using hother _ (List.getElem_mem hi)
  · rw [List.reduceOption_replicate_none]
    exact .refl _

/-- The importer of V8 profiles finds none in an allocation trace. -/
theorem convert_traceValue {fromStr : String → Option Value} {events : List AllocationTraceEvent}
    {input : String} (hparse : fromStr input = some (traceValue events))
    (display : Value → String) (it : IterOrder (Sigma fun _ : Int => Int)) (fuel : Nat)
    (opts : ChromeTrace.ConvertOptions) :
    ChromeTrace.convert fromStr display it fuel input opts =
      some (.error ["no V8 CPU Profile/ProfileChunk events found in Chrome trace"]) := by
  have hkeys : (([] : List ChromeTrace.Stream).map ChromeTrace.Stream.key).Nodup := List.nodup_nil
  obtain ⟨profiles, hprofiles, hall⟩ := ChromeTrace.extract_spec hkeys
    (traceOf_traceValue display events) (by simp) hparse opts.defaultSampleDeltaUs
  obtain rfl : profiles = [] := List.length_eq_zero_iff.mp hall.length_eq
  rw [ChromeTrace.convert, hprofiles]
  rfl

section

variable (decode : String → String) (noDemangle : Bool)

theorem scaledAt_marks (events : List AllocationTraceEvent) (top : String) :
    scaledAt top (events.flatMap AllocationTraceEvent.marks) =
      ((events.map fun event => (event.topFrame, event.scaledSize)).filter (·.1 = top)).map
        Prod.snd := by
  induction events with
  | nil => rfl
  | cons event events ih =>
    rw [List.flatMap_cons, scaledAt, List.filterMap_append, ← scaledAt, ← scaledAt, ih,
      List.map_cons]
    by_cases h : event.topFrame = top
    · rw [List.filter_cons_of_pos (by simpa using h)]
      simp [scaledAt, AllocationTraceEvent.marks, h]
    · rw [List.filter_cons_of_neg (by simpa using h)]
      simp [scaledAt, AllocationTraceEvent.marks, h]

/-- The instants with a top frame are the sampled calls with it. -/
theorem scaledAt_eventsOf (rate : Nat) (cs : List AllocCall) (top : String) :
    scaledAt top ((eventsOf decode noDemangle rate cs).flatMap AllocationTraceEvent.marks) =
      (cs.filter fun c => topFrame decode noDemangle c.frames = top).map fun c =>
        (rate : Int) * c.size := by
  have hpairs : (eventsOf decode noDemangle rate cs).map
        (fun event => (event.topFrame, event.scaledSize)) =
      cs.map fun c => (topFrame decode noDemangle c.frames, (rate : Int) * c.size) := by
    rw [eventsOf, List.map_map]
    conv_rhs => rw [← List.zipIdx_map_fst 0 cs, List.map_map]
    exact List.map_congr_left fun x _ => Prod.ext rfl (mul_comm _ _)
  rw [scaledAt_marks, hpairs, List.filter_map, List.map_map]
  rfl

end

/-- The trace of a run, read back from its file: a counter and an instant for each call that took a
stack, in the order of the calls, the counter with what had been credited up to the call. The
instants agree with the samples of the profile on each top frame, and the importer of V8 profiles
refuses the file. -/
theorem trace_tells_run (decode : String → String) {rate : UInt32} (hrate : 1 ≤ rate.toNat)
    (noDemangle : Bool) {calls : List AllocCall} (hfits : Fits rate.toNat calls)
    (hts : ∀ c ∈ calls, c.tsUs < 2 ^ 63) {showFloat : F64 → String}
    {fromStr : String → Option Value}
    (hserde : ∀ trace, (runCalls decode rate true noDemangle calls).trace = some trace →
      (traceValue trace.events).Plain →
      fromStr (allocationTraceJson showFloat trace.events) = some (traceValue trace.events)) :
    let st := runCalls decode rate true noDemangle calls
    let cs := sampled rate.toNat calls
    let marks := cs.zipIdx.flatMap fun x =>
      [.counter x.1.tsUs (rate.toNat * (x.2 + 1 : Nat))
          (rate.toNat * ((cs.take (x.2 + 1)).map AllocCall.size).sum),
        .instant x.1.tsUs x.1.size (x.1.size * rate.toNat) (topFrame decode noDemangle x.1.frames)]
    ∃ trace, st.trace = some trace ∧
      let json := allocationTraceJson showFloat trace.events
      (fromStr json).bind readMarks = some marks ∧
      (∀ top,
        let alike := st.samples.entries.filter fun e => topFrame decode noDemangle e.1 = top
        (scaledAt top marks).sum = (alike.map fun e => e.2.bytes).sum ∧
          rate.toNat * (scaledAt top marks).length = (alike.map fun e => e.2.count).sum) ∧
      ∀ display it fuel opts, ChromeTrace.convert fromStr display it fuel json opts =
        some (.error ["no V8 CPU Profile/ProfileChunk events found in Chrome trace"]) := by
  intro st cs marks
  obtain ⟨trace, htrace, hevents⟩ := events_runCalls decode noDemangle hrate hfits
  have hmarks : trace.events.flatMap AllocationTraceEvent.marks = marks := by
    rw [hevents, eventsOf, List.flatMap_map]
    rfl
  have hall : ∀ event ∈ trace.events, event.Fits := hevents ▸ fits_eventsOf hrate hfits hts
  have hread := hserde trace htrace (plain_traceValue hall)
  have hscale : (0 : Int) ≤ rate.toNat := Int.natCast_nonneg _
  have hpos : ∀ c ∈ cs, 0 < c.size := fun c hc => size_pos_of_mem_sampled hc
  have hentries := entries_credited hscale hpos hfits.count hfits.size
  have hsamples : st.samples = credited rate.toNat cs := (recorded_run hrate hfits).samples
  refine ⟨trace, htrace, ?_, fun top => ?_, convert_traceValue hread⟩
  · rw [hread, Option.bind_some, readMarks_traceValue hall, hmarks]
  · have hsum := sum_entries_filter AllocCall.frames (List.nodup_dedup _) hentries cs
      (fun frames => decide (topFrame decode noDemangle frames = top))
      fun c hc _ => List.mem_dedup.mpr (List.mem_map_of_mem hc)
    have hat : scaledAt top marks = (cs.filter fun c =>
        topFrame decode noDemangle c.frames = top).map fun c => (rate.toNat : Int) * c.size := by
      rw [← hmarks, hevents]
      exact scaledAt_eventsOf decode noDemangle _ cs top
    rw [hsamples, hat]
    constructor
    · refine (hsum SampleAgg.bytes (fun c => (rate.toNat : Int) * c.size) fun k => ?_).symm
      rw [sumAt_map, List.sum_map_mul_left]
      rfl
    · refine ((hsum SampleAgg.count (fun _ => (rate.toNat : Int)) fun k => ?_).trans ?_).symm
      · rw [sumAt_map, List.map_const', List.sum_replicate, nsmul_eq_mul, mul_comm]
        rfl
      · rw [List.map_const', List.sum_replicate, nsmul_eq_mul, mul_comm, List.length_map]

/-- Of the three allocations of `f` the first and the last are sampled. -/
theorem trace_tells_run_fewCalls :
    ∃ trace, (runCalls id 2 true true fewCalls).trace = some trace ∧
      let json := allocationTraceJson (fun _ => "0.0") trace.events
      let fromStr := fun text => if text = json then some (traceValue trace.events) else none
      (fromStr json).bind readMarks = some
        [.counter 0 2 16, .instant 0 8 16 "f", .counter 3 4 64, .instant 3 24 48 "f"] := by
  obtain ⟨trace, htrace⟩ : ∃ trace, (runCalls id 2 true true fewCalls).trace = some trace :=
    ⟨_, rfl⟩
  refine ⟨trace, htrace, ?_⟩
  intro json fromStr
  have hserde : ∀ trace', (runCalls id 2 true true fewCalls).trace = some trace' →
      (traceValue trace'.events).Plain →
      fromStr (allocationTraceJson (fun _ => "0.0") trace'.events) =
        some (traceValue trace'.events) := by
    intro trace' htrace' _
    obtain rfl : trace = trace' := Option.some.inj (htrace.symm.trans htrace')
    exact if_pos rfl
  have hfits : Fits (2 : UInt32).toNat fewCalls := ⟨by decide, by decide⟩
  obtain ⟨trace', htrace', hread, -, -⟩ := trace_tells_run id (by decide) true hfits (by decide)
    hserde
  obtain rfl : trace = trace' := Option.some.inj (htrace.symm.trans htrace')
  exact hread.trans (by decide +kernel)

end MemProfile
