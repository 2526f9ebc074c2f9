/-
The profile of the wasm memory profiler, read back.

The encoder fills tables that are keyed by the function index of a frame
(`toKeyed_encodeStacks`), so that what holds of such tables holds of its profile.

* `encodePprof_eq` — the profile as that of keyed tables;
* `memprofile_exact` — what the profile shows of the calls of the hook.
-/
import MoonPprof.KeyedTables
import MoonPprof.MemProfileSampling

open Proto

namespace MemProfile

section

variable (decode : String → String) (noDemangle : Bool)

/-- A function and its location are known by the function index. -/
def naming : Naming FrameKey Nat where
  key := FrameKey.funcIndex
  name f := f.displayName decode noDemangle
  systemName := FrameKey.rawName

def State.toKeyed (st : State) : KeyedTables Nat :=
  ⟨st.strings, st.functions, st.funcIndex, st.locations, st.locIndex⟩

def SampleAgg.values (agg : SampleAgg) : List Int := [agg.count, agg.bytes]

/-! ### The tables of the encoder -/

theorem toKeyed_internFunction (st : State) (frame : FrameKey) :
    (st.internFunction decode noDemangle frame).map id State.toKeyed =
      st.toKeyed.functionFor (naming decode noDemangle) frame := by
  rw [State.internFunction, KeyedTables.functionFor]
  have hlookup : st.toKeyed.funcIndex.lookup ((naming decode noDemangle).key frame) =
      st.funcIndex.lookup frame.funcIndex := rfl
  rw [hlookup]
  cases st.funcIndex.lookup frame.funcIndex with
  | none => rfl
  | some id => rfl

theorem toKeyed_internLocation (st : State) (frame : FrameKey) :
    (st.internLocation decode noDemangle frame).map id State.toKeyed =
      st.toKeyed.locationFor (naming decode noDemangle) frame := by
  rw [State.internLocation, KeyedTables.locationFor]
  have hlookup : st.toKeyed.locIndex.lookup ((naming decode noDemangle).key frame) =
      st.locIndex.lookup frame.funcIndex := rfl
  rw [hlookup]
  cases st.locIndex.lookup frame.funcIndex with
  | none =>
    simp only [← toKeyed_internFunction]
    rfl
  | some id => rfl

theorem toKeyed_internStack (st : State) (frames : List FrameKey) :
    (st.internStack decode noDemangle frames).map id State.toKeyed =
      st.toKeyed.stackFor (naming decode noDemangle) frames := by
  induction frames generalizing st with
  | nil => rfl
  | cons frame frames ih =>
    rw [KeyedTables.stackFor, ← toKeyed_internLocation]
    simp only [Prod.map_fst, Prod.map_snd, id_eq, ← ih]
    rfl

theorem toKeyed_encodeStacks (st : State) (entries : List (Sigma fun _ : List FrameKey => SampleAgg)) :
    (st.encodeStacks decode noDemangle entries).map id State.toKeyed =
      st.toKeyed.samplesFor (naming decode noDemangle) (KeyedTables.rows SampleAgg.values entries) := by
  induction entries generalizing st with
  | nil => rfl
  | cons e entries ih =>
    rw [KeyedTables.rows, List.map_cons, KeyedTables.samplesFor, ← toKeyed_internStack,
      ← KeyedTables.rows]
    simp only [Prod.map_fst, Prod.map_snd, id_eq, ← ih]
    rfl

/-- The profile is that of tables that are keyed by the function index. -/
theorem encodePprof_eq (it : IterOrder (Sigma fun _ : List FrameKey => SampleAgg))
    (samples : SampleMap) : encodePprof decode noDemangle it samples =
      KeyedTables.encodeMap (naming decode noDemangle) "alloc_objects" "alloc_space"
        "^moonbit\\.(gc\\.)?malloc$" SampleAgg.values it samples := by
  have hnew : (KeyedTables.new : KeyedTables Nat) = State.new.toKeyed := rfl
  have hintern : ∀ (st : State) (s : String),
      st.toKeyed.intern s = (st.intern s).map id State.toKeyed := fun _ _ => rfl
  rw [encodePprof, encodeEntries, KeyedTables.encodeMap, KeyedTables.encode]
  simp only [hnew, hintern, Prod.map_fst, Prod.map_snd, id_eq, ← toKeyed_encodeStacks]
  generalize State.new.intern "alloc_objects" = objects
  generalize objects.2.intern "count" = countStr
  generalize countStr.2.intern "alloc_space" = space
  generalize space.2.intern "bytes" = bytesStr
  generalize bytesStr.2.intern _ = dropPat
  rfl

end

/-! ### The calls of the hook -/

/-- The module has one name for a function. -/
def OneName (calls : List AllocCall) : Prop :=
  ∀ c ∈ calls, ∀ f ∈ c.frames, ∀ c' ∈ calls, ∀ f' ∈ c'.frames,
    f.funcIndex = f'.funcIndex → f.name = f'.name

/-- The stack of a call as it is displayed. -/
def AllocCall.shown (decode : String → String) (noDemangle : Bool) (c : AllocCall) : List String :=
  c.frames.map fun f => f.displayName decode noDemangle

theorem mem_of_mem_sampled {rate : Nat} {calls : List AllocCall} {c : AllocCall}
    (hc : c ∈ sampled rate calls) : c ∈ calls := by
  obtain ⟨x, hx, rfl⟩ := List.mem_map.mp hc
  have hmem := List.mem_of_getElem? (List.mem_zipIdx_iff_getElem?.mp (List.mem_filter.mp hx).1)
  exact (List.mem_filter.mp hmem).1

/-- The frames of one function in the map have one name. -/
theorem mapOneName {decode : String → String} {noDemangle : Bool} {calls : List AllocCall}
    (h : OneName calls) {samples : SampleMap}
    (hstacks : ∀ e ∈ samples.entries, ∃ c ∈ calls, c.frames = e.1) :
    KeyedTables.MapOneName (naming decode noDemangle) samples := by
  intro e he f hf e' he' f' hf' hkey
  obtain ⟨c, hc, hframes⟩ := hstacks e he
  obtain ⟨c', hc', hframes'⟩ := hstacks e' he'
  have hname := h c hc f (hframes ▸ hf) c' hc' f' (hframes' ▸ hf') hkey
  obtain ⟨i, name⟩ := f
  obtain ⟨i', name'⟩ := f'
  obtain rfl : i = i' := hkey
  obtain rfl : name = name' := hname
  rfl

/-- The profile of a run: whatever the order of the map, it is closed, and each displayed stack has
the number and the total size of the sampled calls that are displayed so, times the sampling
rate. -/
theorem memprofile_exact (decode : String → String) {rate : UInt32} (hrate : 1 ≤ rate.toNat)
    (traced noDemangle : Bool) {calls : List AllocCall} (hfits : Fits rate.toNat calls)
    (hnames : OneName calls) (it : IterOrder (Sigma fun _ : List FrameKey => SampleAgg)) :
    let p := encodePprof decode noDemangle it (runCalls decode rate traced noDemangle calls).samples
    p.Closed ∧
      p.sampleTypes = [(some "alloc_objects", some "count"), (some "alloc_space", some "bytes")] ∧
      ∀ stack, stack ≠ [] →
        let alike := (sampled rate.toNat calls).filter fun c => c.shown decode noDemangle = stack
        p.valueOf stack 0 = rate.toNat * alike.length ∧
          p.valueOf stack 1 = rate.toNat * (alike.map AllocCall.size).sum := by
  intro p
  set cs := sampled rate.toNat calls with hcs
  set scale : Int := (rate.toNat : Int) with hscale
  have hscale₀ : 0 ≤ scale := Int.natCast_nonneg _
  have hpos : ∀ c ∈ cs, 0 < c.size := fun c hc => size_pos_of_mem_sampled hc
  have hsamples : (runCalls decode rate traced noDemangle calls).samples = credited scale cs :=
    (recorded_run hrate hfits).samples
  have hentries := entries_credited hscale₀ hpos hfits.count hfits.size
  have hkeys : ∀ c ∈ cs, c.frames ∈ (cs.map AllocCall.frames).dedup :=
    fun c hc => List.mem_dedup.mpr (List.mem_map_of_mem hc)
  have hone : KeyedTables.MapOneName (naming decode noDemangle) (credited scale cs) := by
    refine mapOneName hnames fun e he => ?_
    obtain ⟨stack, hstack, rfl⟩ := List.mem_map.mp (hentries.mem_iff.mp he)
    obtain ⟨c, hc, rfl⟩ := List.mem_map.mp (List.mem_dedup.mp hstack)
    exact ⟨c, mem_of_mem_sampled hc, rfl⟩
  obtain ⟨hclosed, htypes, -⟩ := KeyedTables.encodeMap_reads "alloc_objects" "alloc_space"
    "^moonbit\\.(gc\\.)?malloc$" SampleAgg.values it hone
  have hp : p = KeyedTables.encodeMap (naming decode noDemangle) "alloc_objects" "alloc_space"
      "^moonbit\\.(gc\\.)?malloc$" SampleAgg.values it (credited scale cs) := by
    rw [← hsamples]
    exact encodePprof_eq decode noDemangle it _
  rw [hp]
  refine ⟨hclosed, htypes, fun stack hstack => ?_⟩
  have hvalue := KeyedTables.valueOf_encodeMap "alloc_objects" "alloc_space"
    "^moonbit\\.(gc\\.)?malloc$" SampleAgg.values it hone hstack
  have hsum := sum_entries_filter AllocCall.frames (List.nodup_dedup _) hentries cs
    (fun frames => decide (frames.map (naming decode noDemangle).name = stack))
    fun c hc _ => hkeys c hc
  refine ⟨(hvalue 0).trans ?_, (hvalue 1).trans ?_⟩
  · refine (hsum SampleAgg.count (fun _ => scale) fun k => ?_).trans ?_
    · rw [sumAt_map, List.map_const', List.sum_replicate, nsmul_eq_mul, mul_comm]
      rfl
    · rw [List.map_const', List.sum_replicate, nsmul_eq_mul, mul_comm]
      rfl
  · refine (hsum SampleAgg.bytes (fun c => scale * c.size) fun k => ?_).trans ?_
    · rw [sumAt_map, List.sum_map_mul_left]
      rfl
    · rw [List.sum_map_mul_left]
      rfl

/-- Two functions that are displayed alike, and a call that is not sampled. -/
theorem memprofile_exact_alike :
    let calls : List AllocCall :=
      [⟨8, [⟨0, some "f1"⟩], 0⟩, ⟨16, [⟨0, some "f1"⟩], 1⟩, ⟨24, [⟨1, some "f2"⟩], 2⟩]
    let p := encodePprof (fun _ => "f") false ⟨id, fun _ => .refl _⟩
      (runCalls (fun _ => "f") 2 true false calls).samples
    p.Closed ∧ p.valueOf ["f"] 0 = 4 ∧ p.valueOf ["f"] 1 = 64 := by
  intro calls p
  have hfits : Fits (2 : UInt32).toNat calls := ⟨by decide, by decide⟩
  have hnames : OneName calls := by
    unfold OneName
    decide
  obtain ⟨hclosed, -, hvalue⟩ := memprofile_exact (fun _ => "f") (by decide) true false hfits hnames
    ⟨id, fun _ => .refl _⟩
  obtain ⟨hcount, hbytes⟩ := hvalue ["f"] (List.cons_ne_nil _ _)
  exact ⟨hclosed, hcount.trans (by decide +kernel), hbytes.trans (by decide +kernel)⟩

end MemProfile
