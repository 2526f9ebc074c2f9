/-
pprof profiles as Chrome traces (`crates/pprof-to-chrome-trace`).

`convertProfile` interns the stacks of the samples in a tree, charges each
sample to its leaf, split into as many V8 samples as it counts when
`expandSamples` is set, and writes one `ProfileChunk` event with all of it.
-/
import MoonPprof.Json
import MoonPprof.Proto

open MachineInt Proto

namespace ChromeTraceExport

structure ConvertOptions where
  valueIndex : Option Nat
  countIndex : Option Nat
  expandSamples : Bool
  pid : Int
  tid : Int
  profileId : String

/-- `ConvertOptions::default()`. -/
def ConvertOptions.default : ConvertOptions := ⟨none, none, false, 1, 1, "0x1"⟩

structure Stats where
  nodes : Nat
  samples : Nat
  totalDeltaUs : Int
deriving DecidableEq

structure EncodedTrace where
  json : String
  stats : Stats

/-! ### Axes and values -/

structure ValueAxis where
  idx : Nat
  unit : String

def isTimeUnit (unit : String) : Bool :=
  unit == "nanoseconds" || unit == "microseconds" || unit == "milliseconds" || unit == "seconds"

def selectValueAxis (profile : Profile) (explicit : Option Nat) : Except Error ValueAxis :=
  match explicit with
  | some idx =>
    match profile.sampleType[idx]? with
    | none => .error ["value index " ++ toString idx ++ " out of range; profile has " ++
        toString profile.sampleType.length ++ " sample type(s)"]
    | some st => .ok ⟨idx, stringAt profile st.unit⟩
  | none =>
    let axis := profile.sampleType.zipIdx.findSome? fun (st, i) =>
      let ty := stringAt profile st.type
      let unit := stringAt profile st.unit
      if (ty == "cpu" || ty == "wall") && isTimeUnit unit then some ⟨i, unit⟩ else none
    match axis with
    | some axis => .ok axis
    | none => .error ["no CPU/wall time sample_type found; pass --value-index to choose one"]

def findCountAxis (profile : Profile) : Option Nat :=
  profile.sampleType.findIdx? fun st =>
    stringAt profile st.type == "samples" && stringAt profile st.unit == "count"

def valueToUs (raw : Int) (unit : String) : Int :=
  let us :=
    if unit = "nanoseconds" then (wrap 64 (raw + 500)).tdiv 1000
    else if unit = "microseconds" then raw
    else if unit = "milliseconds" then saturate 64 (raw * 1000)
    else if unit = "seconds" then saturate 64 (raw * 1000000)
    else raw
  if raw > 0 then max us 1 else 0

/-- The delta in `count` parts that differ by at most one. -/
def pushExpandedSamples (leaf deltaUs count : Int) (sampleNodeIds timeDeltas : List Int) :
    Except Error (List Int × List Int) :=
  if count < 0 then
    .error ["sample count cannot fit in memory on this platform",
      "out of range integral type conversion attempted"]
  else if count > 10000000 then
    .error ["--expand-samples would emit more than 10,000,000 samples; omit it for compact JSON"]
  else
    let base := deltaUs.tdiv count
    let remainder := deltaUs.tmod count
    .ok (sampleNodeIds ++ List.replicate count.toNat leaf,
      timeDeltas ++ (List.range count.toNat).map fun i : Nat =>
        base + if (i : Int) < remainder then 1 else 0)

/-! ### Frames -/

structure CallFrame where
  functionName : String
  scriptId : String
  url : String
  lineNumber : Int
  columnNumber : Int
deriving DecidableEq

def CallFrame.unknown (name : String) : CallFrame := ⟨name, "0", "", -1, -1⟩

def frameForLocation (profile : Profile) (locs : HashMap Nat Location)
    (funcs : HashMap Nat Function) (locId : Nat) : CallFrame :=
  match locs.lookup locId with
  | none => .unknown ("location:" ++ toString locId)
  | some loc =>
    match loc.line.head? with
    | none => .unknown ("0x" ++ String.ofList (Nat.toDigits 16 loc.address))
    | some line =>
      match funcs.lookup line.functionId with
      | none => .unknown ("function:" ++ toString line.functionId)
      | some func =>
        let name := stringAt profile func.name
        let filename := stringAt profile func.filename
        let lineNumber :=
          if line.line > 0 then line.line - 1
          else if func.startLine > 0 then func.startLine - 1
          else -1
        { functionName := if name.isEmpty then "(unknown)" else name
          scriptId := "0"
          url := filename
          lineNumber := lineNumber
          columnNumber := max line.column 0 }

/-! ### The tree of stacks -/

structure Node where
  id : Int
  callFrame : CallFrame
  children : List Int
deriving DecidableEq

structure TreeBuilder where
  nodes : List Node
  childByKey : HashMap (Int × CallFrame) Int

def rootFrame : CallFrame := ⟨"(root)", "0", "", -1, -1⟩

def TreeBuilder.new : TreeBuilder := ⟨[⟨1, rootFrame, []⟩], ∅⟩

/-- The child of `parent` with this frame. -/
def TreeBuilder.internChild (b : TreeBuilder) (parent : Int) (frame : CallFrame) :
    Int × TreeBuilder :=
  match b.childByKey.lookup (parent, frame) with
  | some id => (id, b)
  | none =>
    let id : Int := b.nodes.length + 1
    let nodes : List Node := b.nodes ++ [⟨id, frame, []⟩]
    let nodes := nodes.modify (parent - 1).toNat fun n => { n with children := n.children ++ [id] }
    (id, ⟨nodes, b.childByKey.insert (parent, frame) id⟩)

def TreeBuilder.internStack (b : TreeBuilder) (frames : List CallFrame) : Int × TreeBuilder :=
  frames.foldl (fun (parent, b) frame => b.internChild parent frame) (1, b)

/-! ### The trace -/

/-- In the arguments of an event, which are built as a JSON value, the keys are sorted. -/
def CallFrame.toJson (f : CallFrame) : Value :=
  .object [("columnNumber", .int f.columnNumber), ("functionName", .string f.functionName),
    ("lineNumber", .int f.lineNumber), ("scriptId", .string f.scriptId), ("url", .string f.url)]

def Node.toJson (n : Node) : Value :=
  .object ([("callFrame", n.callFrame.toJson)] ++
    (if n.children.isEmpty then [] else [("children", Value.ints n.children)]) ++
    [("id", .int n.id)])

structure CpuProfile where
  nodes : List Node
  samples : List Int
  timeDeltas : List Int
  startTime : Int
  endTime : Int

/-- A `TraceEvent`, as it is serialized. -/
def eventJson (pid tid ts : Int) (ph cat name : String) (id : Option String) (args : Value) :
    Value :=
  .object ([("pid", .int pid), ("tid", .int tid), ("ts", .int ts), ("ph", .string ph),
    ("cat", .string cat), ("name", .string name)] ++
    (id.toList.map fun id => ("id", .string id)) ++ [("args", args)])

def metadataEvent (pid tid ts : Int) (name value : String) : Value :=
  eventJson pid tid ts "M" "__metadata" name none (.object [("name", .string value)])

def profileEvent (opts : ConvertOptions) (ts : Int) : Value :=
  eventJson opts.pid opts.tid ts "P" "disabled-by-default-v8.cpu_profiler" "Profile"
    (some opts.profileId) (.object [("data", .object [("startTime", .int ts)])])

def profileChunkEvent (opts : ConvertOptions) (ts : Int) (profile : CpuProfile) : Value :=
  eventJson opts.pid opts.tid ts "P" "disabled-by-default-v8.cpu_profiler" "ProfileChunk"
    (some opts.profileId) (.object [("data", .object [
      ("cpuProfile", .object [("endTime", .int profile.endTime),
        ("nodes", .array (profile.nodes.map Node.toJson)), ("startTime", .int profile.startTime)]),
      ("samples", Value.ints profile.samples),
      ("timeDeltas", Value.ints profile.timeDeltas)])])

def traceJson (opts : ConvertOptions) (startUs : Int) (profile : CpuProfile) : Value :=
  .object [("traceEvents", .array [
    metadataEvent opts.pid opts.tid startUs "process_name" "pprof",
    metadataEvent opts.pid opts.tid startUs "thread_name" "pprof",
    profileEvent opts startUs,
    profileChunkEvent opts startUs profile])]

structure State where
  builder : TreeBuilder
  sampleNodeIds : List Int
  timeDeltas : List Int

def State.new : State := ⟨.new, [], []⟩

/-- The value of a sample on the chosen axis. -/
def rawValue (axis : ValueAxis) (sample : Sample) : Int := sample.value[axis.idx]?.getD 0

/-- The number of V8 samples that stand for a sample. -/
def sampleCount (countIndex : Option Nat) (sample : Sample) : Int :=
  max ((countIndex.bind fun i => sample.value[i]?).getD 1) 1

/-- The resolved stack of a sample, root first. -/
def stackFrames (profile : Profile) (sample : Sample) : List CallFrame :=
  sample.locationId.reverse.map (frameForLocation profile (locationMap profile) (functionMap profile))

/-- One turn of the loop over the samples. -/
def convertSample (profile : Profile) (axis : ValueAxis) (countIndex : Option Nat)
    (expandSamples : Bool) (st : State) (sample : Sample) : Except Error State :=
  let raw := rawValue axis sample
  if raw ≤ 0 then .ok st
  else
    let deltaUs := valueToUs raw axis.unit
    let frames := stackFrames profile sample
    if frames.isEmpty then .ok st
    else
      let (leaf, builder) := st.builder.internStack frames
      if expandSamples then do
        let (sampleNodeIds, timeDeltas) ← pushExpandedSamples leaf deltaUs
          (sampleCount countIndex sample) st.sampleNodeIds st.timeDeltas
        .ok ⟨builder, sampleNodeIds, timeDeltas⟩
      else .ok ⟨builder, st.sampleNodeIds ++ [leaf], st.timeDeltas ++ [deltaUs]⟩

def startUs (profile : Profile) : Int :=
  if profile.timeNanos > 0 then profile.timeNanos.tdiv 1000 else 0

/-- The sum of the deltas, in 64 bits. -/
def totalDeltaUs (timeDeltas : List Int) : Int :=
  timeDeltas.foldl (fun total dt => wrap 64 (total + dt)) 0

def endUs (profile : Profile) (timeDeltas : List Int) : Int :=
  if profile.durationNanos > 0 then
    saturate 64 (startUs profile + profile.durationNanos.tdiv 1000)
  else saturate 64 (startUs profile + totalDeltaUs timeDeltas)

/-- The trace of a profile, as the value that is printed. -/
def buildTrace (profile : Profile) (opts : ConvertOptions) : Except Error (Value × Stats) := do
  let axis ← selectValueAxis profile opts.valueIndex
  let countIndex := opts.countIndex.or (findCountAxis profile)
  let st ← profile.sample.foldlM (convertSample profile axis countIndex opts.expandSamples) .new
  if st.sampleNodeIds.isEmpty then
    .error ["pprof profile had no positive samples on selected value axis"]
  else
    let trace := traceJson opts (startUs profile) {
      nodes := st.builder.nodes
      samples := st.sampleNodeIds
      timeDeltas := st.timeDeltas
      startTime := startUs profile
      endTime := endUs profile st.timeDeltas }
    .ok (trace,
      ⟨st.builder.nodes.length, st.sampleNodeIds.length, totalDeltaUs st.timeDeltas⟩)

def convertProfile (showFloat : F64 → String) (profile : Profile) (opts : ConvertOptions) :
    Except Error EncodedTrace := do
  let (trace, stats) ← buildTrace profile opts
  .ok ⟨trace.toStringPretty showFloat, stats⟩

end ChromeTraceExport
