/-
Speedscope in the middle: a profile that went through a Speedscope file is written
by the other exporters as the original is.

What an exporter writes depends on the exported stacks and their values only
(`stacksOn`), and these survive the trip.

* `frameForLocation_eq` — where a location leads to a function, the frames of the
  two resolvers are the same frame;
* `buildTrace_eq` — a compact trace is made of the exported stacks;
* `Framed.resolves` — in an imported profile all locations lead to functions;
* `exports_survive_speedscope` — the folded text and the Chrome trace after the trip.
-/
import MoonPprof.ChromeTraceExport
import MoonPprof.FoldedRoundTrip
import MoonPprof.ImportersClosed
import MoonPprof.SpeedscopeRoundTrip

open MachineInt Proto StackFormats

/-! ### Locations that lead to functions -/

namespace Proto

/-- The location leads through its first line to a function. -/
def Resolves (p : Profile) (locId : Nat) : Prop :=
  ∃ loc line func, (locationMap p).lookup locId = some loc ∧ loc.line.head? = some line ∧
    (functionMap p).lookup line.functionId = some func

theorem Framed.resolves {p : Profile} (h : Framed p.tables) {locId : Nat}
    (hid : ValidId p.location locId) : Resolves p locId := by
  have hrow : ∀ {α : Type} {rows : List α} {id : Nat}, ValidId rows id →
      ∃ i r, id = i + 1 ∧ rows[i]? = some r := by
    intro α rows id hid
    obtain ⟨i, rfl⟩ : ∃ i, id = i + 1 := ⟨id - 1, by have := hid.1; omega⟩
    exact ⟨i, _, rfl, List.getElem?_eq_getElem (show i < rows.length from hid.2)⟩
  obtain ⟨i, loc, rfl, hloc⟩ := hrow hid
  have hmem := List.mem_of_getElem? hloc
  obtain ⟨line, lines, hline⟩ := List.exists_cons_of_ne_nil (h.lined loc hmem)
  obtain ⟨j, func, hj, hfunc⟩ := hrow (h.closed.functions loc hmem line (by simp [hline]))
  refine ⟨loc, line, func, lookup_indexBy_id h.closed.locationIds hloc, by rw [hline]; rfl, ?_⟩
  rw [hj]
  exact lookup_indexBy_id h.closed.functionIds hfunc

end Proto

namespace ChromeTraceExport

/-- The frame of a trace for a resolved frame; lines count from 0 in traces. -/
def CallFrame.ofFrame (f : Frame) : CallFrame :=
  ⟨f.name, "0", f.file.getD "", f.line.getD 0 - 1, f.col.getD 0⟩

theorem frameForLocation_eq {p : Profile} {locId : Nat} (h : Resolves p locId) :
    frameForLocation p (locationMap p) (functionMap p) locId =
      .ofFrame ((PprofResolver.new p).frameForLocation locId) := by
  obtain ⟨loc, line, func, hloc, hline, hfunc⟩ := h
  simp only [frameForLocation, PprofResolver.frameForLocation, PprofResolver.new, hloc, hline,
    hfunc, CallFrame.ofFrame, CallFrame.mk.injEq, true_and]
  refine ⟨rfl, ?_, ?_, ?_⟩
  · show stringAt p func.filename = (if (stringAt p func.filename).isEmpty then none
      else some (stringAt p func.filename)).getD ""
    split
    · rename_i hfile
      exact String.isEmpty_iff.mp hfile
    · rfl
  · by_cases hpos : line.line > 0
    · rw [if_pos hpos, if_pos hpos]
      rfl
    · by_cases hstart : func.startLine > 0
      · rw [if_neg hpos, if_neg hpos, if_pos hstart, if_pos hstart]
        rfl
      · rw [if_neg hpos, if_neg hpos, if_neg hstart, if_neg hstart]
        rfl
  · by_cases hcol : line.column > 0
    · rw [if_pos hcol, Option.getD_some]
      omega
    · rw [if_neg hcol, Option.getD_none]
      omega

theorem stackFrames_eq {p : Profile} {s : Sample} (h : ∀ id ∈ s.locationId, Resolves p id) :
    stackFrames p s = (stackOf p s).map .ofFrame := by
  rw [stackFrames, stackOf, PprofResolver.stack, List.map_map]
  exact List.map_congr_left fun id hid => frameForLocation_eq (h id (List.mem_reverse.mp hid))

/-! ### Compact traces -/

/-- What a stack adds to a trace that is not expanded. -/
def pushStack (unit : String) (st : State) (x : List Frame × Int) : State :=
  let r := st.builder.internStack (x.1.map .ofFrame)
  ⟨r.2, st.sampleNodeIds ++ [r.1], st.timeDeltas ++ [valueToUs x.2 unit]⟩

/-- The locations of the samples with a positive value lead to functions. -/
def AllResolve (p : Profile) (axis : Axis) : Prop :=
  ∀ s ∈ p.sample, 0 < valueOn axis s → ∀ id ∈ s.locationId, Resolves p id

theorem convertSample_compact {p : Profile} {axis : Axis} {countIndex : Option Nat} {s : Sample}
    (h : 0 < valueOn axis s → ∀ id ∈ s.locationId, Resolves p id) (st : State) :
    convertSample p ⟨axis.idx, axis.unit⟩ countIndex false st s =
      .ok (if valueOn axis s ≤ 0 then st
        else if (stackOf p s).isEmpty then st
        else pushStack axis.unit st (stackOf p s, valueOn axis s)) := by
  rw [convertSample]
  by_cases hvalue : valueOn axis s ≤ 0
  · rw [if_pos hvalue]
    exact if_pos hvalue
  · have hframes := stackFrames_eq (h (by omega))
    rw [if_neg hvalue]
    refine (if_neg hvalue).trans ?_
    rw [hframes]
    rcases hempty : (stackOf p s).isEmpty with _ | _
    · refine (if_neg ?_).trans rfl
      rw [List.isEmpty_map, hempty]
      exact Bool.false_ne_true
    · refine (if_pos ?_).trans rfl
      rw [List.isEmpty_map, hempty]

theorem convertSamples_compact {p : Profile} {axis : Axis} {countIndex : Option Nat}
    (h : AllResolve p axis) (st : State) :
    p.sample.foldlM (convertSample p ⟨axis.idx, axis.unit⟩ countIndex false) st =
      .ok ((stacksOn p axis).foldl (pushStack axis.unit) st) := by
  have hrun : ∀ (samples : List Sample) (st : State),
      (∀ s ∈ samples, 0 < valueOn axis s → ∀ id ∈ s.locationId, Resolves p id) →
      samples.foldlM (convertSample p ⟨axis.idx, axis.unit⟩ countIndex false) st =
        .ok (samples.foldl (fun st s => if valueOn axis s ≤ 0 then st
          else if (stackOf p s).isEmpty then st
          else pushStack axis.unit st (stackOf p s, valueOn axis s)) st) := by
    intro samples
    induction samples with
    | nil => exact fun _ _ => rfl
    | cons s samples ih =>
      intro st hresolve
      rw [List.foldlM_cons, convertSample_compact (hresolve s List.mem_cons_self)]
      exact ih _ fun s' hs' => hresolve s' (List.mem_cons_of_mem _ hs')
  rw [hrun p.sample st h, foldl_exported fun _ _ => rfl]

/-- The trace that is written at the end of the loop; of the profile it has the times only. -/
def traceOf (p : Profile) (opts : ConvertOptions) (st : State) : Except Error (Value × Stats) :=
  if st.sampleNodeIds.isEmpty then
    .error ["pprof profile had no positive samples on selected value axis"]
  else .ok (traceJson opts (startUs p) {
      nodes := st.builder.nodes
      samples := st.sampleNodeIds
      timeDeltas := st.timeDeltas
      startTime := startUs p
      endTime := endUs p st.timeDeltas },
    ⟨st.builder.nodes.length, st.sampleNodeIds.length, totalDeltaUs st.timeDeltas⟩)

/-- A compact trace is made of the exported stacks. -/
theorem buildTrace_eq {p : Profile} {opts : ConvertOptions} {axis : Axis}
    (haxis : selectValueAxis p opts.valueIndex = .ok ⟨axis.idx, axis.unit⟩)
    (hcompact : opts.expandSamples = false) (h : AllResolve p axis) :
    buildTrace p opts = traceOf p opts ((stacksOn p axis).foldl (pushStack axis.unit) .new) := by
  rw [buildTrace, haxis]
  show (p.sample.foldlM (convertSample p ⟨axis.idx, axis.unit⟩
    (opts.countIndex.or (findCountAxis p)) opts.expandSamples) State.new >>= _) = _
  rw [hcompact, convertSamples_compact h]
  rfl

/-- An axis of the stack formats is an axis of the traces, chosen by its index. -/
theorem selectValueAxis_of_select {p : Profile} {explicit : Option Nat} {axis : Axis}
    (h : selectPprofAxis p explicit = .ok axis) :
    selectValueAxis p (some axis.idx) = .ok ⟨axis.idx, axis.unit⟩ := by
  obtain ⟨st, hst, hunit⟩ : ∃ st, p.sampleType[axis.idx]? = some st ∧
      stringAt p st.unit = axis.unit := by
    rw [selectPprofAxis.eq_def] at h
    split at h
    · split at h
      · cases h
      · rename_i st hst
        cases h
        exact ⟨st, hst, rfl⟩
    · dsimp only at h
      split at h
      · rename_i found hfound
        cases h
        obtain ⟨⟨st, i⟩, hmem, hsome⟩ := List.exists_of_findSome?_eq_some hfound
        dsimp only at hsome
        split at hsome
        · cases hsome
          exact ⟨st, List.mem_zipIdx_iff_getElem?.mp hmem, rfl⟩
        · cases hsome
      · cases h
  simp only [selectValueAxis, hst, hunit]

/-- The unit that a Speedscope file gives back stands for the same time. -/
theorem valueToUs_speedscopeValueType (raw : Int) (unit : String) :
    valueToUs raw (Speedscope.speedscopeValueType unit).2 = valueToUs raw unit := by
  by_cases h : unit ∈ ["nanoseconds", "microseconds", "milliseconds", "seconds", "bytes"]
  · simp only [List.mem_cons, List.not_mem_nil, or_false] at h
    rcases h with rfl | rfl | rfl | rfl | rfl <;> rfl
  · simp only [List.mem_cons, List.not_mem_nil, or_false, not_or] at h
    obtain ⟨hns, hus, hms, hs, hbytes⟩ := h
    simp [valueToUs, Speedscope.speedscopeValueType, hns, hus, hms, hs, hbytes]

end ChromeTraceExport

/-! ### The trip -/

namespace StackFormats

theorem pprofToFolded_eq {p : Profile} {opts : Folded.ExportOptions} {axis : Axis}
    (haxis : selectPprofAxis p opts.valueIndex = .ok axis) :
    Folded.pprofToFolded p opts =
      let st := (Folded.rowsOn p axis).foldl Folded.pushStack .new
      .ok (Folded.foldedText (st.folded.inOrder.map fun e => (e.1, e.2)), st.stats) := by
  rw [Folded.pprofToFolded, haxis, ← Folded.foldl_exportSample]
  rfl

/-- In an imported profile everything resolves, and the second axis has the unit of the file. -/
theorem importProfile_axis (frames : List Frame) (file : Speedscope.SampledProfile)
    (mappingFilename : String) :
    let p := (Speedscope.importProfile frames file mappingFilename).profile
    let axis : Axis := ⟨1, (Speedscope.speedscopeValueType file.unit).2⟩
    selectPprofAxis p (some 1) = .ok axis ∧ ChromeTraceExport.AllResolve p axis := by
  intro p axis
  obtain ⟨count, value, m, h⟩ := Speedscope.importProfile_header frames file mappingFilename
  have hsecond : p.sampleType[1]? = some value := by rw [h.framework.sampleType]; rfl
  refine ⟨?_, fun s hs _ id hid => h.framed.resolves
    ((Speedscope.importProfile_stacks frames file mappingFilename s hs).2 id hid)⟩
  rw [selectPprofAxis, hsecond]
  show Except.ok (Axis.mk 1 (stringAt p value.unit)) = _
  rw [stringAt_of_getString h.value.2]

/-- A trip through a Speedscope file is not seen by the other exporters: with exactly representable
values, the imported profile is closed, its folded text and stats are those of the original,
and so is its Chrome trace, tree, samples and deltas, with the times of the respective profile
around them, if the locations of the original lead to functions. -/
theorem exports_survive_speedscope {profile : Profile} {axis : Axis} {showFloat : F64 → String}
    {fromStr : String → Option Value} {opts : Speedscope.ExportOptions}
    (haxis : selectPprofAxis profile opts.valueIndex = .ok axis)
    (hserde : ∀ file stats, Speedscope.buildSpeedscope profile opts = .ok (file, stats) →
      file.toJson.Plain → fromStr (file.toJson.toStringPretty showFloat) = some file.toJson)
    (hlines : Speedscope.Int64Lines profile)
    (hsize : ((exported profile axis).map fun s => (stackOf profile s).length).sum < 2 ^ 63)
    (hsum : ((exported profile axis).map (valueOn axis)).sum ≤ 2 ^ 53)
    {importOpts : Speedscope.ImportOptions} (hindex : importOpts.profileIndex = 0) :
    ∃ text stats imported,
      Speedscope.pprofToSpeedscope showFloat profile opts = .ok (text, stats) ∧
      Speedscope.speedscopeToPprof fromStr text importOpts = .ok imported ∧
      imported.profile.Closed ∧
      Folded.pprofToFolded imported.profile ⟨some 1⟩ =
        Folded.pprofToFolded profile ⟨opts.valueIndex⟩ ∧
      (ChromeTraceExport.AllResolve profile axis → ∀ traceOpts : ChromeTraceExport.ConvertOptions,
        traceOpts.expandSamples = false → ∃ st,
          ChromeTraceExport.buildTrace profile { traceOpts with valueIndex := some axis.idx } =
            ChromeTraceExport.traceOf profile traceOpts st ∧
          ChromeTraceExport.buildTrace imported.profile { traceOpts with valueIndex := some 1 } =
            ChromeTraceExport.traceOf imported.profile traceOpts st) := by
  have hsize' : ((stacksOn profile axis).map fun x => x.1.length).sum < 2 ^ 63 := by
    rw [stacksOn, List.map_map]
    exact hsize
  have hsum' : ((stacksOn profile axis).map Prod.snd).sum ≤ 2 ^ 53 := by
    rw [stacksOn, List.map_map]
    exact hsum
  have hbuild := Speedscope.buildSpeedscope_eq haxis
  have h := Speedscope.pushStacks_spec (stacksOn profile axis)
  set st := (stacksOn profile axis).foldl Speedscope.pushStack .new
  have hfits := Speedscope.fileFits h hlines hsize' hsum' opts axis.unit
  have hparse := hserde _ _ hbuild (Speedscope.plain_toJson hfits)
  obtain ⟨file, hfile⟩ : ∃ file, (st.file opts axis.unit).profiles = [file] := ⟨_, rfl⟩
  have hunit : file.unit = axis.unit := by
    obtain rfl := (List.singleton_inj.mp hfile).symm
    rfl
  obtain ⟨hsample, -⟩ := Speedscope.importProfile_spec h hsum' opts axis.unit
    importOpts.mappingFilename (hfile ▸ List.mem_singleton.mpr rfl)
  obtain ⟨haxis', hresolve'⟩ := importProfile_axis st.frames.items file importOpts.mappingFilename
  have hclosed := Speedscope.importProfile_closed st.frames.items file importOpts.mappingFilename
  set imported := Speedscope.importProfile st.frames.items file importOpts.mappingFilename
  -- the trip keeps the exported stacks, which is all that the exporters look at
  have hstacks : stacksOn imported.profile ⟨1, (Speedscope.speedscopeValueType file.unit).2⟩ =
      stacksOn profile axis := by
    refine stacksOn_value hsample fun x hx => ?_
    obtain ⟨-, -, -, hx⟩ := mem_stacksOn hx
    exact hx
  refine ⟨(st.file opts axis.unit).toJson.toStringPretty showFloat, st.stats, imported, ?_, ?_,
    hclosed, ?_, fun hresolve traceOpts hcompact =>
    ⟨(stacksOn profile axis).foldl (ChromeTraceExport.pushStack axis.unit) .new, ?_, ?_⟩⟩
  · rw [Speedscope.pprofToSpeedscope, hbuild]
    rfl
  · rw [Speedscope.speedscopeToPprof, hparse, Option.bind_some, Speedscope.decode_toJson hfits,
      hindex]
    obtain rfl := (List.singleton_inj.mp hfile).symm
    rfl
  · have hfolded : Folded.pprofToFolded profile ⟨opts.valueIndex⟩ = _ := pprofToFolded_eq haxis
    rw [hfolded, pprofToFolded_eq haxis', Folded.rowsOn, Folded.rowsOn, hstacks]
  · exact ChromeTraceExport.buildTrace_eq (ChromeTraceExport.selectValueAxis_of_select haxis)
      hcompact hresolve
  · have hpush : ChromeTraceExport.pushStack (Speedscope.speedscopeValueType file.unit).2 =
        ChromeTraceExport.pushStack axis.unit := by
      funext st x
      rw [ChromeTraceExport.pushStack, ChromeTraceExport.valueToUs_speedscopeValueType, hunit]
      rfl
    have hcompact' : { traceOpts with valueIndex := some 1 }.expandSamples = false := hcompact
    rw [ChromeTraceExport.buildTrace_eq (ChromeTraceExport.selectValueAxis_of_select haxis')
      hcompact' hresolve', hstacks, hpush]
    rfl

/-- A recursive call, a plain one, and an unknown location without time. -/
def recursiveProfile : Profile :=
  { Speedscope.smallProfile with
    sample := [⟨[1, 1], [2, 30], []⟩, ⟨[1], [1, 5], []⟩, ⟨[9], [1, 0], []⟩] }

def recursiveFile : Speedscope.SpeedscopeFile :=
  ((stacksOn recursiveProfile ⟨1, "nanoseconds"⟩).foldl Speedscope.pushStack .new).file
    Speedscope.smallOpts "nanoseconds"

/-- Reads the text of that file. -/
def readRecursive (text : String) : Option Value :=
  if text = recursiveFile.toJson.toStringPretty Speedscope.showIntegral then
    some recursiveFile.toJson
  else none

theorem exports_survive_speedscope_recursive :
    ∃ text stats imported,
      Speedscope.pprofToSpeedscope Speedscope.showIntegral recursiveProfile Speedscope.smallOpts =
        .ok (text, stats) ∧
      Speedscope.speedscopeToPprof readRecursive text ⟨0, "[wasm]"⟩ = .ok imported ∧
      imported.profile.Closed ∧
      Folded.pprofToFolded imported.profile ⟨some 1⟩ = Folded.pprofToFolded recursiveProfile ⟨none⟩ ∧
      ∃ st,
        ChromeTraceExport.buildTrace recursiveProfile { ChromeTraceExport.ConvertOptions.default with
          valueIndex := some 1 } = ChromeTraceExport.traceOf recursiveProfile .default st ∧
        ChromeTraceExport.buildTrace imported.profile { ChromeTraceExport.ConvertOptions.default with
          valueIndex := some 1 } = ChromeTraceExport.traceOf imported.profile .default st := by
  have haxis : selectPprofAxis recursiveProfile Speedscope.smallOpts.valueIndex =
      .ok ⟨1, "nanoseconds"⟩ := rfl
  have hserde : ∀ file stats,
      Speedscope.buildSpeedscope recursiveProfile Speedscope.smallOpts = .ok (file, stats) →
      file.toJson.Plain →
      readRecursive (file.toJson.toStringPretty Speedscope.showIntegral) = some file.toJson := by
    intro file stats h _
    obtain ⟨rfl, -⟩ := Prod.mk.inj (Except.ok.inj
      ((Speedscope.buildSpeedscope_eq haxis).symm.trans h))
    exact if_pos rfl
  have hresolve : ChromeTraceExport.AllResolve recursiveProfile ⟨1, "nanoseconds"⟩ := by
    intro s hs hvalue id hid
    have hmain : id = 1 := by
      simp only [recursiveProfile, List.mem_cons, List.not_mem_nil, or_false] at hs
      rcases hs with rfl | rfl | rfl
      · simpa using hid
      · simpa using hid
      · cases hvalue
    rw [hmain]
    exact ⟨⟨1, 0, 0, [⟨1, 0, 3⟩], false⟩, ⟨1, 0, 3⟩, ⟨1, 5, 5, 6, 12⟩, by decide +kernel,
      by decide +kernel, by decide +kernel⟩
  have hindex : (Speedscope.ImportOptions.mk 0 "[wasm]").profileIndex = 0 := rfl
  obtain ⟨text, stats, imported, hexport, himport, hclosed, hfolded, htrace⟩ :=
    exports_survive_speedscope haxis hserde ⟨by decide, by decide⟩ (by decide +kernel)
      (by decide +kernel) hindex
  exact ⟨text, stats, imported, hexport, himport, hclosed, hfolded, htrace hresolve .default rfl⟩

end StackFormats
