/-
What `moon-pprof summary` shows of a heap profile.

* `valueAxis_space` — bytes are added up, objects beside them;
* `reads_encodeMap` — the reading of an encoded map of stacks;
* `summary_of_credited` — the numbers of the allocations that were credited;
* `summary_of_process` — and of the heap of a running process.
-/
import MoonPprof.NativeProfile
import MoonPprof.SummaryReads

open MachineInt Proto

namespace CmdSummary

/-- The axis of objects and bytes. -/
def spaceAxis : ValueAxis := ⟨1, .bytes, some 0, true⟩

theorem valueAxis_space {p : Profile} {objectsName spaceName : String}
    (h : typeTexts p = [(objectsName, "count"), (spaceName, "bytes")])
    (hobjects : objectsName ∈ objectNames) (hspace : spaceName ∈ spaceNames) :
    valueAxis p = spaceAxis := by
  have hno : objectsName ∉ spaceNames := by
    simp only [objectNames, List.mem_cons, List.not_mem_nil, or_false] at hobjects
    rcases hobjects with rfl | rfl | rfl <;> decide
  have hs : p.sampleType.findIdx? (fun st => decide (stringAt p st.type ∈ spaceNames)) = some 1 := by
    rw [findIdx?_typeTexts, h]
    simp [List.findIdx?_cons, hno, hspace]
  have ho : p.sampleType.findIdx? (fun st => decide (stringAt p st.type ∈ objectNames)) = some 0 := by
    rw [findIdx?_typeTexts, h]
    simp [List.findIdx?_cons, hobjects]
  rw [valueAxis_eq, hs, ho]
  rfl

section

variable {F K A : Type} [DecidableEq K] {n : Naming F K} {values : A → List Int}
  {it : IterOrder (Sigma fun _ : List F => A)} {m : HashMap (List F) A}

/-- The stacks of a map that have a frame, by their names. -/
def mapRows (n : Naming F K) (values : A → List Int) (m : HashMap (List F) A) :
    List (List String × List Int) :=
  (m.entries.filter fun e => !e.1.isEmpty).map fun e => (e.1.map n.name, values e.2)

theorem reads_encodeMap (compile : String → Option (String → Bool))
    {objectsName spaceName dropFrames : String} (hobjects : objectsName ∈ objectNames)
    (hspace : spaceName ∈ spaceNames) (hdrop : dropFrames.isEmpty = false)
    (hname : KeyedTables.MapOneName n m) :
    Reads compile (KeyedTables.encodeMap n objectsName spaceName dropFrames values it m)
      ⟨spaceAxis, compile dropFrames, mapRows n values m⟩ := by
  obtain ⟨hclosed, htypes, hreads⟩ :=
    KeyedTables.encodeMap_reads objectsName spaceName dropFrames values it hname
  have htext : dropText (KeyedTables.encodeMap n objectsName spaceName dropFrames values it m) =
      dropFrames :=
    have htexts := KeyedTables.encode_dropFrames (n := n) objectsName spaceName dropFrames
      (KeyedTables.rows values (it.order m.entries))
    dropText_of_getString htexts.1 htexts.2
  refine ⟨hclosed.linked, ?_, ?_, ?_⟩
  · exact valueAxis_space (typeTexts_of_sampleTypes htypes) hobjects hspace
  · rw [dropRe_eq, htext, hdrop]
    rfl
  · rw [hreads, mapRows, List.map_map]
    exact ((it.perm m.entries).filter _).map _

end

end CmdSummary

namespace NativeProfile

open RawStream RawStreamRoundTrip CmdSummary

section

variable (decode : String → String) (noDemangle : Bool)

/-- The allocations with a frame that are displayed so that `P` holds. -/
def shownWhere (P : List String → Bool) (allocs : List (UInt64 × List Bytes)) :
    List (UInt64 × List Bytes) :=
  allocs.filter fun a =>
    !(userFrames a.2).isEmpty && P (shown decode noDemangle (userFrames a.2))

def bytesWhere (scale : Int) (P : List String → Bool) (allocs : List (UInt64 × List Bytes)) : Int :=
  ((shownWhere decode noDemangle P allocs).map fun a => a.1.toNat * scale).sum

def objectsWhere (scale : Int) (P : List String → Bool) (allocs : List (UInt64 × List Bytes)) :
    Int :=
  (shownWhere decode noDemangle P allocs).length * scale

end

section

variable {scale : Int} {allocs : List (UInt64 × List Bytes)} {decode : String → String}
  {noDemangle : Bool} {samples : SampleMap}

theorem reads_encodePprof (decode : String → String) (noDemangle : Bool)
    (it : IterOrder (Sigma fun _ : List Bytes => SampleAgg)) (samples : SampleMap)
    (compile : String → Option (String → Bool)) (profileKind : HeapProfileKind) :
    Reads compile (encodePprof decode noDemangle it samples profileKind)
      ⟨spaceAxis, compile dropPattern,
        mapRows (naming decode noDemangle) SampleAgg.values samples⟩ := by
  have hobjects : profileKind.objectsName ∈ objectNames := by cases profileKind <;> decide
  have hspace : profileKind.spaceName ∈ spaceNames := by cases profileKind <;> decide
  exact reads_encodeMap compile hobjects hspace rfl (mapOneName decode noDemangle samples)

/-- The sums over the stacks of the map are sums over the allocations. -/
theorem sumRows_credited (hscale : 0 ≤ scale) (hfits : Fits scale allocs)
    (hsamples : ∀ key, samples.lookup key = credited scale allocs key) (P : List String → Bool)
    (field : SampleAgg → Int) (value : UInt64 × List Bytes → Int)
    {rowValue : List String × List Int → Int}
    (hrow : ∀ names agg, rowValue (names, SampleAgg.values agg) = field agg)
    (hfield : ∀ key, field ⟨sumAt (allocs.map fun a => (userFrames a.2, scale)) key,
      sumAt (allocs.map fun a => (userFrames a.2, a.1.toNat * scale)) key⟩ =
        sumAt (allocs.map fun a => (userFrames a.2, value a)) key) :
    sumRows P rowValue (mapRows (naming decode noDemangle) SampleAgg.values samples) =
      ((shownWhere decode noDemangle P allocs).map value).sum := by
  have hsum := @sum_entries_credited scale allocs hscale hfits samples hsamples
    (fun key => !key.isEmpty && P (shown decode noDemangle key)) rfl field value hfield
  rw [sumRows, mapRows, List.filter_map, List.map_map, List.filter_filter, shownWhere, ← hsum]
  refine congrArg List.sum ?_
  have hfilter : ∀ e : Sigma fun _ : List Bytes => SampleAgg,
      (((fun row : List String × List Int => P row.1) ∘ fun e : Sigma fun _ : List Bytes => SampleAgg =>
        (e.1.map (naming decode noDemangle).name, SampleAgg.values e.2)) e && !e.1.isEmpty) =
      (!e.1.isEmpty && P (shown decode noDemangle e.1)) := fun e => Bool.and_comm _ _
  rw [List.filter_congr fun e _ => hfilter e]
  exact List.map_congr_left fun e _ => hrow _ _

/-- What the summary shows of the allocations that were credited. -/
structure Shows (decode : String → String) (noDemangle : Bool)
    (compile : String → Option (String → Bool)) (scale : Int)
    (allocs : List (UInt64 × List Bytes)) (sum : Summary) : Prop where
  axis : sum.axis = spaceAxis
  total : sum.total = bytesWhere decode noDemangle scale (fun _ => true) allocs
  total2 : sum.total2 = objectsWhere decode noDemangle scale (fun _ => true) allocs
  memMgmtTotal : sum.memMgmtTotal = 0
  stats : ∀ f, sum.stats.at f =
    ⟨bytesWhere decode noDemangle scale (leafName (compile dropPattern) · = f) allocs,
      bytesWhere decode noDemangle scale (f ∈ ·) allocs, 0,
      objectsWhere decode noDemangle scale (leafName (compile dropPattern) · = f) allocs⟩

theorem summary_of_credited (hscale : 0 ≤ scale) (hfits : Fits scale allocs)
    (hsamples : ∀ key, samples.lookup key = credited scale allocs key)
    (compile : String → Option (String → Bool)) (memMgmt : String → Bool)
    (it : IterOrder (Sigma fun _ : List Bytes => SampleAgg)) (profileKind : HeapProfileKind) :
    Shows decode noDemangle compile scale allocs
      (computeSummary compile memMgmt (encodePprof decode noDemangle it samples profileKind)) := by
  have hreports := computeSummary_reads memMgmt
    (reads_encodePprof decode noDemangle it samples compile profileKind)
  generalize hr : (⟨spaceAxis, compile dropPattern,
    mapRows (naming decode noDemangle) SampleAgg.values samples⟩ : Reading) = r at hreports
  have hrange : ∀ P, InRange 64 (objectsWhere decode noDemangle scale P allocs) ∧
      InRange 64 (bytesWhere decode noDemangle scale P allocs) := fun P =>
    hfits.sublist hscale List.filter_sublist
  have hbytes : ∀ P, wrap 64 (sumRows P r.value r.rows) =
      bytesWhere decode noDemangle scale P allocs := by
    intro P
    have hsum : sumRows P r.value r.rows = bytesWhere decode noDemangle scale P allocs := by
      rw [← hr]
      exact sumRows_credited hscale hfits hsamples P SampleAgg.bytes _ (fun _ _ => rfl) fun _ => rfl
    rw [hsum, wrap_of_inRange (by decide) (hrange P).2]
  have hcount : ∀ P, wrap 64 (sumRows P r.value2 r.rows) =
      objectsWhere decode noDemangle scale P allocs := by
    intro P
    have hsum : sumRows P r.value2 r.rows = objectsWhere decode noDemangle scale P allocs := by
      rw [← hr]
      refine (sumRows_credited hscale hfits hsamples P SampleAgg.count (fun _ => scale)
        (fun _ _ => rfl) fun _ => rfl).trans ?_
      rw [List.map_const', List.sum_replicate, nsmul_eq_mul]
      rfl
    rw [hsum, wrap_of_inRange (by decide) (hrange P).1]
  -- in a heap profile no leaf is singled out
  have hmem : ∀ stack, r.atMem memMgmt stack = false := fun stack => by
    rw [← hr]
    rfl
  have hzero : ∀ (Q : List String → Bool) (value : List String × List Int → Int),
      (∀ stack, Q stack = false) → sumRows Q value r.rows = 0 := by
    intro Q value hQ
    rw [sumRows, List.filter_eq_nil_iff.mpr fun row _ => by rw [hQ]; exact Bool.false_ne_true]
    rfl
  refine ⟨hreports.axis.trans (hr ▸ rfl), hreports.total.trans (hbytes _),
    hreports.total2.trans (hcount _), ?_, fun f => ?_⟩
  · rw [hreports.memMgmtTotal, hzero _ _ hmem]
    rfl
  · have hleaf : ∀ stack, r.leaf stack = leafName (compile dropPattern) stack := fun stack => by
      rw [← hr]
      rfl
    rw [hreports.at_stats, Reading.selfSum, Reading.cumSum, Reading.memCumSum, Reading.selfSum2,
      hbytes, hbytes, hcount, hzero _ _ fun stack => by rw [hmem]; rfl]
    simp only [hleaf]
    rfl

end

/-! ### Main result -/

open NativeHook RetainedHeap

variable {T : Type} [DecidableEq T]

/-- In every run of any number of threads, where no thread is inside an allocation or a free, the
summary of the profile that the raw stream is parsed and encoded to shows the heap: its totals are
the bytes and the blocks that were sampled and have not been freed, times the sampling rate, the
self values of a function are those of the blocks whose first displayed frame that the pattern does
not drop is the function, and its cumulative value counts each block that was allocated below it
once.  No allocator is singled out, no hash map's order shows, and blocks all of whose frames belong
to the profiler are left out. -/
theorem summary_of_process (itLive : IterOrder LiveAlloc)
    (it : IterOrder (Sigma fun _ : List Bytes => SampleAgg)) (decode : String → String)
    (noDemangle : Bool) (compile : String → Option (String → Bool)) (memMgmt : String → Bool)
    (header hookRate : UInt64) (rate : UInt32) {s : Sys T} (hreach : Reachable header hookRate s)
    (hquiet : ∀ t, s.pc t = .idle) (hfits : Fits (scaleOf rate) s.sampledHeap) :
    ∃ stream samples, s.hook.out = some stream ∧
      parseRetainedRawStream itLive stream rate = .ok samples ∧
      Shows decode noDemangle compile (scaleOf rate) s.sampledHeap
        (computeSummary compile memMgmt (encodePprof decode noDemangle it samples .inuse)) := by
  obtain ⟨es, hlog, hm⟩ := lookup_of_quiet (scaleOf rate) hreach hquiet
  obtain ⟨samples, hparse, hcredited⟩ := credited_of_log itLive rate hlog hm
  have hscale : 0 ≤ scaleOf rate := le_max_of_le_right (by decide)
  exact ⟨_, samples, hlog.out, hparse,
    summary_of_credited hscale hfits hcredited compile memMgmt it .inuse⟩

/-- Both blocks are charged to the frame that is not dropped. -/
theorem summary_of_process_interleaved :
    ∃ (s : Sys Bool) (stream : Bytes) (samples : SampleMap), s.hook.out = some stream ∧
      parseRetainedRawStream ⟨id, fun _ => .refl _⟩ stream 1 = .ok samples ∧
      let sum := computeSummary (fun _ => some (· = "malloc")) (· = "malloc")
        (encodePprof id false ⟨id, fun _ => .refl _⟩ samples .inuse)
      sum.total = 32 ∧ sum.stats.at "main" = ⟨32, 32, 0, 2⟩ := by
  obtain ⟨s, hreach, hquiet, hheap⟩ := reachable_interleaved
  have hfits : Fits (scaleOf 1) s.sampledHeap := by
    rw [hheap]
    exact ⟨by decide +kernel, by decide +kernel⟩
  obtain ⟨stream, samples, hout, hparse, hshows⟩ :=
    summary_of_process ⟨id, fun _ => .refl _⟩ ⟨id, fun _ => .refl _⟩ id false
      (fun _ => some (· = "malloc")) (· = "malloc") 16 1 1 hreach hquiet hfits
  refine ⟨s, stream, samples, hout, hparse, ?_, ?_⟩
  · rw [hshows.total, hheap]
    decide +kernel
  · rw [hshows.stats, hheap]
    decide +kernel

end NativeProfile
