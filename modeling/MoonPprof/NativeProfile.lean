/-
The encoder of the native memory profiler (`encode_pprof` of
`runners/moon-pprof/src/cmd_memprofile_native.rs`), and the profile of a process.

Frames that are displayed alike are one function and one location.

* `encodePprof_reads` — the samples of the profile are the stacks that were
  parsed, as they are displayed;
* `valueOf_encodePprof` — the values of a stack, in whatever order the map yields;
* `retained_profile_exact` — the profile of a process with any number of threads
  shows its heap.
-/
import Mathlib.Algebra.BigOperators.Ring.List
import Mathlib.Algebra.Order.BigOperators.Group.List
import MoonPprof.Aggregate
import MoonPprof.KeyedTables
import MoonPprof.RetainedHeap

open MachineInt Proto

namespace NativeProfile

open RawStream

inductive HeapProfileKind where
  | alloc
  | inuse
deriving DecidableEq

def HeapProfileKind.objectsName : HeapProfileKind → String
  | .alloc => "alloc_objects"
  | .inuse => "inuse_objects"

def HeapProfileKind.spaceName : HeapProfileKind → String
  | .alloc => "alloc_space"
  | .inuse => "inuse_space"

def dropPattern : String :=
  "^_*(?:malloc|calloc|realloc|moonbit_malloc.*|moonbit_realloc.*|moonbit_make_.*|mi_.*|moon_pprof_.*|mpprof_.*)$"

/-- The `String` of UTF-8 bytes. -/
def text (name : Bytes) : String := (String.fromUTF8? ⟨name.toArray⟩).getD ""

section

-- `decode` is the symbol decoder, `moonbit_demangle::demangle`.
variable (decode : String → String) (noDemangle : Bool)

def demangleForDisplay (raw : String) : String :=
  let pretty := decode raw
  if pretty = raw then raw else pretty

def display (raw : String) : String := if noDemangle then raw else demangleForDisplay decode raw

/-- A function and its location are known by what is displayed; the symbol it was first met under
is the system name. -/
def naming : Naming Bytes String where
  key raw := display decode noDemangle (text raw)
  name raw := display decode noDemangle (text raw)
  systemName := text

def SampleAgg.values (agg : SampleAgg) : List Int := [agg.count, agg.bytes]

/-- `encode_pprof`, up to the protobuf message. -/
def encodePprof (it : IterOrder (Sigma fun _ : List Bytes => SampleAgg)) (samples : SampleMap)
    (profileKind : HeapProfileKind) : Profile :=
  KeyedTables.encodeMap (naming decode noDemangle) profileKind.objectsName profileKind.spaceName
    dropPattern SampleAgg.values it samples

/-! ### What a reader sees -/

/-- What is displayed of a stack. -/
def shown (frames : List Bytes) : List String := frames.map (naming decode noDemangle).name

variable (it : IterOrder (Sigma fun _ : List Bytes => SampleAgg)) (samples : SampleMap)
  (profileKind : HeapProfileKind)

/-- Frames are known by their names. -/
theorem mapOneName : KeyedTables.MapOneName (naming decode noDemangle) samples :=
  fun _ _ _ _ _ _ _ _ hkey => hkey

/-- The profile is closed.  Its samples are the stacks of the map that have a frame, in the order
of the iteration; each reads as the displayed names of its frames, leaf first, and bears the count
and the bytes. -/
theorem encodePprof_reads :
    (encodePprof decode noDemangle it samples profileKind).Closed ∧
      (encodePprof decode noDemangle it samples profileKind).sampleTypes =
        [(some profileKind.objectsName, some "count"),
          (some profileKind.spaceName, some "bytes")] ∧
      (encodePprof decode noDemangle it samples profileKind).samplesRead =
        ((it.order samples.entries).filter fun e => !e.1.isEmpty).map fun e =>
          (some (shown decode noDemangle e.1), [e.2.count, e.2.bytes]) :=
  KeyedTables.encodeMap_reads _ _ _ _ _ (mapOneName decode noDemangle samples)

/-- The values of a stack are those of all stacks that are displayed so, whatever the order. -/
theorem valueOf_encodePprof {stack : List String} (hstack : stack ≠ []) :
    let p := encodePprof decode noDemangle it samples profileKind
    let alike := samples.entries.filter fun e => shown decode noDemangle e.1 = stack
    p.valueOf stack 0 = (alike.map fun e => e.2.count).sum ∧
      p.valueOf stack 1 = (alike.map fun e => e.2.bytes).sum :=
  ⟨KeyedTables.valueOf_encodeMap _ _ _ _ _ (mapOneName decode noDemangle samples) hstack 0,
    KeyedTables.valueOf_encodeMap _ _ _ _ _ (mapOneName decode noDemangle samples) hstack 1⟩

end

/-! ### The profile of recorded allocations -/

open RawStreamRoundTrip

/-- The scaled counts and sizes of the allocations fit an `i64`. -/
structure Fits (scale : Int) (allocs : List (UInt64 × List Bytes)) : Prop where
  count : allocs.length * scale < 2 ^ 63
  bytes : (allocs.map fun a => a.1.toNat * scale).sum < 2 ^ 63

/-- The allocations that are displayed as `stack`. -/
def shownAs (decode : String → String) (noDemangle : Bool) (stack : List String)
    (allocs : List (UInt64 × List Bytes)) : List (UInt64 × List Bytes) :=
  allocs.filter fun a => shown decode noDemangle (userFrames a.2) = stack

section

variable {scale : Int} {allocs : List (UInt64 × List Bytes)}

theorem Fits.sublist (hscale : 0 ≤ scale) (h : Fits scale allocs)
    {hits : List (UInt64 × List Bytes)} (hsub : hits.Sublist allocs) :
    InRange 64 (hits.length * scale) ∧ InRange 64 (hits.map fun a => a.1.toNat * scale).sum := by
  have hnonneg : ∀ v ∈ allocs.map fun a : UInt64 × List Bytes => (a.1.toNat : Int) * scale, 0 ≤ v := by
    intro v hv
    obtain ⟨a, -, rfl⟩ := List.mem_map.mp hv
    exact mul_nonneg (Int.natCast_nonneg _) hscale
  have hlen : (hits.length : Int) * scale ≤ allocs.length * scale :=
    mul_le_mul_of_nonneg_right (by exact_mod_cast hsub.length_le) hscale
  have hsum := (hsub.map fun a => (a.1.toNat : Int) * scale).sum_le_sum hnonneg
  have hpos : 0 ≤ (hits.map fun a => (a.1.toNat : Int) * scale).sum :=
    List.sum_nonneg fun v hv => hnonneg v ((hsub.map _).subset hv)
  have hpos' : 0 ≤ (hits.length : Int) * scale := mul_nonneg (Int.natCast_nonneg _) hscale
  have hlow : -2 ^ (64 - 1) ≤ (0 : Int) := by decide
  exact ⟨⟨hlow.trans hpos', hlen.trans_lt h.count⟩, hlow.trans hpos, hsum.trans_lt h.bytes⟩

/-- What is credited when nothing overflows. -/
theorem credited_of_fits (hscale : 0 ≤ scale) (hfits : Fits scale allocs) (key : List Bytes) :
    credited scale allocs key =
      if key ∈ ((allocs.map fun a => userFrames a.2).filter fun k => !k.isEmpty).dedup then
        some ⟨sumAt (allocs.map fun a => (userFrames a.2, scale)) key,
          sumAt (allocs.map fun a => (userFrames a.2, a.1.toNat * scale)) key⟩
      else none := by
  obtain ⟨hcount, hbytes⟩ := hfits.sublist hscale
    (List.filter_sublist (p := fun a => decide (userFrames a.2 = key)))
  rw [credited, sumAt_map, sumAt_map, List.map_const', List.sum_replicate, nsmul_eq_mul,
    wrap_of_inRange (by decide) hcount, wrap_of_inRange (by decide) hbytes]
  have hmem : key ∈ ((allocs.map fun a => userFrames a.2).filter fun k => !k.isEmpty).dedup ↔
      ¬((key.isEmpty || (allocs.filter fun a => decide (userFrames a.2 = key)).isEmpty) = true) := by
    rw [List.mem_dedup, List.mem_filter, List.mem_map, Bool.or_eq_true, not_or, and_comm,
      Bool.not_eq_true', Bool.not_eq_true, List.isEmpty_iff, List.filter_eq_nil_iff]
    refine and_congr_right fun _ => ?_
    simp only [decide_eq_true_eq, not_forall, not_not, exists_prop]
  rw [if_congr hmem rfl rfl, ite_not]

/-- The entries of some of the stacks hold the sums of the allocations that are credited to these. -/
theorem sum_entries_credited (hscale : 0 ≤ scale) (hfits : Fits scale allocs) {samples : SampleMap}
    (hsamples : ∀ key, samples.lookup key = credited scale allocs key) {q : List Bytes → Bool}
    (hq : q [] = false) (field : SampleAgg → Int) (value : UInt64 × List Bytes → Int)
    (hfield : ∀ key, field ⟨sumAt (allocs.map fun a => (userFrames a.2, scale)) key,
      sumAt (allocs.map fun a => (userFrames a.2, a.1.toNat * scale)) key⟩ =
        sumAt (allocs.map fun a => (userFrames a.2, value a)) key) :
    ((samples.entries.filter fun e => q e.1).map fun e => field e.2).sum =
      ((allocs.filter fun a => q (userFrames a.2)).map value).sum := by
  set keys := ((allocs.map fun a => userFrames a.2).filter fun k => !k.isEmpty).dedup
  have hentries := HashMap.entries_perm_map (List.nodup_dedup _) fun key =>
    ((hsamples key).trans (credited_of_fits hscale hfits key)).trans (by congr)
  -- a stack that is selected has a frame
  have hkeys : ∀ a ∈ allocs, q (userFrames a.2) → userFrames a.2 ∈ keys := by
    intro a ha hqa
    refine List.mem_dedup.mpr (List.mem_filter.mpr ⟨List.mem_map_of_mem ha, ?_⟩)
    cases hnil : userFrames a.2 with
    | nil =>
      rw [hnil, hq] at hqa
      cases hqa
    | cons f fs => rfl
  exact sum_entries_filter (fun a : UInt64 × List Bytes => userFrames a.2) (List.nodup_dedup _)
    hentries allocs q hkeys field value hfield

/-- The profile of the allocations that were credited: each displayed stack has the scaled number
and the scaled sizes of its allocations. -/
theorem valueOf_of_credited (hscale : 0 ≤ scale) (hfits : Fits scale allocs) {samples : SampleMap}
    (hsamples : ∀ key, samples.lookup key = credited scale allocs key) (decode : String → String)
    (noDemangle : Bool) (it : IterOrder (Sigma fun _ : List Bytes => SampleAgg))
    (profileKind : HeapProfileKind) {stack : List String} (hstack : stack ≠ []) :
    let p := encodePprof decode noDemangle it samples profileKind
    let alike := shownAs decode noDemangle stack allocs
    p.valueOf stack 0 = scale * alike.length ∧
      p.valueOf stack 1 = scale * (alike.map fun a => (a.1.toNat : Int)).sum := by
  intro p alike
  obtain ⟨hcount, hbytes⟩ := valueOf_encodePprof decode noDemangle it samples profileKind hstack
  have hq : decide (shown decode noDemangle [] = stack) = false := decide_eq_false hstack.symm
  have hsum := @sum_entries_credited scale allocs hscale hfits samples hsamples
    (fun key => shown decode noDemangle key = stack) hq
  refine ⟨?_, ?_⟩
  · rw [hcount, hsum SampleAgg.count (fun _ => scale) fun _ => rfl, List.map_const',
      List.sum_replicate, nsmul_eq_mul, mul_comm]
    rfl
  · rw [hbytes, hsum SampleAgg.bytes (fun a => a.1.toNat * scale) fun _ => rfl,
      List.sum_map_mul_right, mul_comm]
    rfl

end

/-! ### Main result -/

section

open NativeHook RecordStream RetainedHeap

variable {T : Type} [DecidableEq T] {header hookRate : UInt64} {s : Sys T}

/-- Where no thread is inside a call, the table of the parser has the live blocks. -/
theorem lookup_of_quiet (scale : Int) (hreach : Reachable header hookRate s)
    (hquiet : ∀ t, s.pc t = .idle) :
    ∃ es, Log s.hook es ∧ ∀ a, (es.foldl (applyEntry scale) ∅).lookup a =
      (s.heap.lookup a).bind (Block.live scale) := by
  obtain ⟨es, hlog, hstatus⟩ := inv_of_reachable scale hreach
  refine ⟨es, hlog, fun a => ?_⟩
  cases hstatus a with
  | unused _ hheap hm => rw [hheap, hm, Option.bind_none]
  | held t v hv =>
    rw [hquiet t] at hv
    cases hv
  | owned b _ hheap hm => rw [hheap, hm, Option.bind_some]

omit [DecidableEq T] in
/-- The values of that table, in any order. -/
theorem values_perm {scale : Int} {m : LiveMap}
    (hm : ∀ a, m.lookup a = (s.heap.lookup a).bind (Block.live scale)) :
    (m.entries.map Sigma.snd).Perm
      ((s.sampledHeap.filter fun a => !(userFrames a.2).isEmpty).map (toLive scale)) := by
  have hentries := (HashMap.entries_perm_of_lookup hm).map Sigma.snd
  rw [Sys.sampledHeap, ← filterMap_live, List.filterMap_map]
  refine hentries.trans (List.Perm.of_eq ?_)
  rw [List.map_filterMap]
  refine List.filterMap_congr fun e _ => ?_
  cases hlive : Block.live scale e.2 with
  | none => simp only [Function.comp_apply, hlive, Option.map_none]
  | some v => simp only [Function.comp_apply, hlive, Option.map_some]

omit [DecidableEq T] in
/-- What the parser makes of the records of such a state. -/
theorem credited_of_log (itLive : IterOrder LiveAlloc) (rate : UInt32) {es : List Entry}
    (hlog : Log s.hook es)
    (hm : ∀ a, (es.foldl (applyEntry (scaleOf rate)) ∅).lookup a =
      (s.heap.lookup a).bind (Block.live (scaleOf rate))) :
    ∃ samples, parseRetainedRawStream itLive (es.flatMap Entry.encode) rate = .ok samples ∧
      ∀ key, samples.lookup key = credited (scaleOf rate) s.sampledHeap key := by
  have hparse := parseRetainedFrom_take (scaleOf rate) hlog.encodable
    (es.flatMap Entry.encode).length
  rw [completeWithin_of_length_le (by rw [List.flatMap_def]), List.length_map, List.take_length,
    List.take_length] at hparse
  refine ⟨_, by rw [parseRetainedRawStream, hparse]; rfl, fun key => ?_⟩
  rw [← credited_filter]
  refine lookup_aggregate ((HashMap.intoValues_perm itLive _).trans (values_perm hm)) ?_ key
  intro a ha
  simpa using (List.mem_filter.mp ha).2

/-- In every run of any number of threads, where no thread is inside an allocation or a free: the
profile that the raw stream is parsed and encoded to is closed, its sample types are objects and
bytes in use, and it shows of each displayed stack the number and the total size of the sampled
blocks that were allocated there and have not been freed, times the sampling rate, provided that
these fit an `i64`.  Nothing depends on the order of the hash maps. -/
theorem retained_profile_exact (itLive : IterOrder LiveAlloc)
    (it : IterOrder (Sigma fun _ : List Bytes => SampleAgg)) (decode : String → String)
    (noDemangle : Bool) (header hookRate : UInt64) (rate : UInt32) {s : Sys T}
    (hreach : Reachable header hookRate s) (hquiet : ∀ t, s.pc t = .idle)
    (hfits : Fits (scaleOf rate) s.sampledHeap) :
    ∃ stream samples, s.hook.out = some stream ∧
      parseRetainedRawStream itLive stream rate = .ok samples ∧
      let p := encodePprof decode noDemangle it samples .inuse
      p.Closed ∧
        p.sampleTypes = [(some "inuse_objects", some "count"), (some "inuse_space", some "bytes")] ∧
        ∀ stack, stack ≠ [] →
          let alike := shownAs decode noDemangle stack s.sampledHeap
          p.valueOf stack 0 = scaleOf rate * alike.length ∧
            p.valueOf stack 1 = scaleOf rate * (alike.map fun a => (a.1.toNat : Int)).sum := by
  obtain ⟨es, hlog, hm⟩ := lookup_of_quiet (scaleOf rate) hreach hquiet
  obtain ⟨samples, hparse, hcredited⟩ := credited_of_log itLive rate hlog hm
  obtain ⟨hclosed, htypes, -⟩ := encodePprof_reads decode noDemangle it samples .inuse
  have hscale : 0 ≤ scaleOf rate := le_max_of_le_right (by decide)
  exact ⟨_, samples, hlog.out, hparse, hclosed, htypes, fun stack hstack =>
    valueOf_of_credited hscale hfits hcredited decode noDemangle it .inuse hstack⟩

/-- Two threads allocate at once. -/
theorem reachable_interleaved : ∃ s : Sys Bool, Reachable 16 1 s ∧ (∀ t, s.pc t = .idle) ∧
    s.sampledHeap = [(8, recordedFrames mainStack), (24, recordedFrames mainStack)] := by
  have hemit : ∀ (hook : HookState) (obj size : UInt64),
      hook.emit mainStack (allocPtrRecord zeroBuffer obj size) = some (hook.append
        (encodeRecord (allocPtrHeader obj size)
          (recordedNames 18 (mainStack.take maxFrames)))) := fun hook obj size => by
    simp [HookState.emit, allocPtrRecord_eq, mainStack, maxFrames]
  have h₁ : Reachable 16 1 _ := Relation.ReflTransGen.single
    (Step.libcMalloc (Sys.start Bool 1) true 16 24 mainStack rfl (by simp [Sys.start]) (by decide))
  have h₂ := h₁.tail (Step.libcMalloc _ false 48 8 mainStack rfl (by decide) (by decide))
  have h₃ := h₂.tail (Step.decide _ true 32 24 mainStack rfl (by decide))
  have h₄ := h₃.tail (Step.decide _ false 64 8 mainStack rfl (by decide))
  have h₅ := h₄.tail (Step.emit _ false 64 8 mainStack zeroBuffer _ rfl (hemit _ 64 8))
  have h₆ := h₅.tail (Step.emit _ true 32 24 mainStack zeroBuffer _ rfl (hemit _ 32 24))
  have h₇ := h₆.tail (Step.ret _ true 32 ⟨24, mainStack, true⟩ rfl)
  have h₈ := h₇.tail (Step.ret _ false 64 ⟨8, mainStack, true⟩ rfl)
  exact ⟨_, h₈, fun t => by cases t <;> rfl, by decide +kernel⟩

theorem retained_profile_exact_interleaved :
    ∃ (s : Sys Bool) (stream : Bytes) (samples : SampleMap), s.hook.out = some stream ∧
      parseRetainedRawStream ⟨id, fun _ => .refl _⟩ stream 1 = .ok samples ∧
      let p := encodePprof id false ⟨id, fun _ => .refl _⟩ samples .inuse
      p.Closed ∧ p.valueOf ["main"] 0 = 2 ∧ p.valueOf ["main"] 1 = 32 := by
  obtain ⟨s, hreach, hquiet, hheap⟩ := reachable_interleaved
  have hfits : Fits (scaleOf 1) s.sampledHeap := by
    rw [hheap]
    exact ⟨by decide +kernel, by decide +kernel⟩
  obtain ⟨stream, samples, hout, hparse, hclosed, -, hvalue⟩ :=
    retained_profile_exact ⟨id, fun _ => .refl _⟩ ⟨id, fun _ => .refl _⟩ id false 16 1 1 hreach
      hquiet hfits
  obtain ⟨hcount, hbytes⟩ := hvalue ["main"] (List.cons_ne_nil _ _)
  refine ⟨s, stream, samples, hout, hparse, hclosed, ?_, ?_⟩
  · rw [hcount, hheap]
    decide +kernel
  · rw [hbytes, hheap]
    decide +kernel

end

end NativeProfile
