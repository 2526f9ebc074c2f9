/-
Speedscope sampled profiles (`crates/pprof-stack-formats`): `pprofToSpeedscope`
and `speedscopeToPprof`.

Exported frames are numbered by content, in the order of their first use; the
importer writes one function and one location for each of them.
`fromStr` parses JSON text, and `showFloat` prints a number.  Structs are decoded
from JSON objects; serde would also take an array of the fields in their order.
-/
import MoonPprof.StackFormats

open MachineInt Proto StackFormats

namespace Speedscope

structure ExportOptions where
  valueIndex : Option Nat
  name : String
  profileName : String

structure ImportOptions where
  profileIndex : Nat
  mappingFilename : String

structure SampledProfile where
  profileType : String
  name : String
  unit : String
  startValue : F64
  endValue : F64
  samples : List (List Nat)
  weights : List F64

structure Shared where
  frames : List Frame

structure SpeedscopeFile where
  schema : String
  name : String
  activeProfileIndex : Nat
  exporter : String
  shared : Shared
  profiles : List SampledProfile

/-! ### JSON -/

def frameToJson (f : Frame) : Value :=
  .object ([("name", .string f.name)] ++ (f.file.toList.map fun s => ("file", .string s)) ++
    (f.line.toList.map fun n => ("line", .int n)) ++ (f.col.toList.map fun n => ("col", .int n)))

def usizes (xs : List Nat) : Value := .array (xs.map fun x : Nat => .int x)

def SampledProfile.toJson (p : SampledProfile) : Value :=
  .object [("type", .string p.profileType), ("name", .string p.name), ("unit", .string p.unit),
    ("startValue", .float p.startValue), ("endValue", .float p.endValue),
    ("samples", .array (p.samples.map usizes)), ("weights", .array (p.weights.map .float))]

def SpeedscopeFile.toJson (file : SpeedscopeFile) : Value :=
  .object [("$schema", .string file.schema), ("name", .string file.name),
    ("activeProfileIndex", .int file.activeProfileIndex), ("exporter", .string file.exporter),
    ("shared", .object [("frames", .array (file.shared.frames.map frameToJson))]),
    ("profiles", .array (file.profiles.map SampledProfile.toJson))]

def decodeUsize : Value → Option Nat
  | .int n => if 0 ≤ n ∧ n < 2 ^ 64 then some n.toNat else none
  | _ => none

def decodeFrame (v : Value) : Option Frame := do
  guard v.isObject
  let name ← v.field "name" Value.decodeString
  let file ← v.fieldOpt "file" Value.decodeString
  let line ← v.fieldOpt "line" (Value.decodeInt 64)
  let col ← v.fieldOpt "col" (Value.decodeInt 64)
  some { name, file, line, col }

def decodeSampledProfile (v : Value) : Option SampledProfile := do
  guard v.isObject
  let profileType ← v.field "type" Value.decodeString
  let name ← v.field "name" Value.decodeString
  let unit ← v.field "unit" Value.decodeString
  let startValue ← v.field "startValue" Value.asF64
  let endValue ← v.field "endValue" Value.asF64
  let samples ← v.field "samples" (Value.decodeVec (Value.decodeVec decodeUsize))
  let weights ← v.fieldOr "weights" [] (Value.decodeVec Value.asF64)
  some { profileType, name, unit, startValue, endValue, samples, weights }

def decodeShared (v : Value) : Option Shared := do
  guard v.isObject
  let frames ← v.field "frames" (Value.decodeVec decodeFrame)
  some { frames }

def decodeSpeedscopeFile (v : Value) : Option SpeedscopeFile := do
  guard v.isObject
  let schema ← v.field "$schema" Value.decodeString
  let name ← v.field "name" Value.decodeString
  let activeProfileIndex ← v.field "activeProfileIndex" decodeUsize
  let exporter ← v.field "exporter" Value.decodeString
  let shared ← v.field "shared" decodeShared
  let profiles ← v.field "profiles" (Value.decodeVec decodeSampledProfile)
  some { schema, name, activeProfileIndex, exporter, shared, profiles }

/-! ### Export -/

structure ExportState where
  frames : InternTable Frame
  samples : List (List Nat)
  weights : List F64
  stats : ExportStats

def ExportState.new : ExportState := ⟨InternTable.empty, [], [], ⟨0, 0⟩⟩

/-- The indices of the frames of a stack. -/
def internFrames (frames : InternTable Frame) (stack : List Frame) :
    List Nat × InternTable Frame :=
  stack.foldl (fun (ids, t) f => (ids ++ [(t.intern f).1], (t.intern f).2)) ([], frames)

def pushStack (st : ExportState) (x : List Frame × Int) : ExportState :=
  let (stackIds, frames) := internFrames st.frames x.1
  { frames
    samples := st.samples ++ [stackIds]
    weights := st.weights ++ [F64.ofInt x.2]
    stats := ⟨st.stats.stackCount + 1, wrap 64 (st.stats.total + x.2)⟩ }

/-- One turn of the loop over the samples. -/
def exportSample (resolver : PprofResolver) (axis : Axis) (st : ExportState) (sample : Sample) :
    ExportState :=
  let value := valueOn axis sample
  if value ≤ 0 then st
  else
    let stack := resolver.stack sample
    if stack.isEmpty then st else pushStack st (stack, value)

/-- The file that is printed. -/
def ExportState.file (st : ExportState) (opts : ExportOptions) (unit : String) :
    SpeedscopeFile where
  schema := "https://www.speedscope.app/file-format-schema.json"
  name := opts.name
  activeProfileIndex := 0
  exporter := "moon-pprof"
  shared := ⟨st.frames.items⟩
  profiles := [{
    profileType := "sampled"
    name := opts.profileName
    unit
    startValue := .fin 0
    endValue := F64.ofInt st.stats.total
    samples := st.samples
    weights := st.weights }]

def buildSpeedscope (profile : Profile) (opts : ExportOptions) :
    Except Error (SpeedscopeFile × ExportStats) := do
  let axis ← selectPprofAxis profile opts.valueIndex
  let st := profile.sample.foldl (exportSample (.new profile) axis) .new
  .ok (st.file opts axis.unit, st.stats)

def pprofToSpeedscope (showFloat : F64 → String) (profile : Profile) (opts : ExportOptions) :
    Except Error (String × ExportStats) := do
  let (file, stats) ← buildSpeedscope profile opts
  .ok (file.toJson.toStringPretty showFloat, stats)

/-! ### Import -/

def speedscopeValueType (unit : String) : String × String :=
  if unit = "nanoseconds" then ("cpu", "nanoseconds")
  else if unit = "microseconds" then ("cpu", "microseconds")
  else if unit = "milliseconds" then ("cpu", "milliseconds")
  else if unit = "seconds" then ("cpu", "seconds")
  else if unit = "bytes" then ("space", "bytes")
  else ("samples", "count")

def speedscopeDurationNanos (profile : SampledProfile) : Int :=
  let duration := (((profile.endValue.sub profile.startValue).max (.fin 0)).round).toI64
  if profile.unit = "nanoseconds" then duration
  else if profile.unit = "microseconds" then saturate 64 (duration * 1000)
  else if profile.unit = "milliseconds" then saturate 64 (duration * 1000000)
  else if profile.unit = "seconds" then saturate 64 (duration * 1000000000)
  else 0

structure FrameTables where
  strings : InternTable String
  functions : List Function
  locations : List Location

/-- The function and the location of one frame, under the next id. -/
def pushFrame (st : FrameTables) (frame : Frame) : FrameTables :=
  let fid := st.functions.length + 1
  let (name, strings) := internString st.strings
    (if frame.name.isEmpty then "(unknown)" else frame.name)
  let (filename, strings) := internString strings (frame.file.getD "")
  { strings
    functions := st.functions ++ [⟨fid, name, name, filename, frame.line.getD 0⟩]
    locations := st.locations ++
      [⟨fid, 1, 0, [⟨fid, frame.line.getD 0, frame.col.getD 0⟩], false⟩] }

/-- The weight of the sample at an index, as the value it becomes. -/
def weightAt (weights : List F64) (i : Nat) : Int :=
  (((weights[i]?.getD (.fin 1)).round).max (.fin 0)).toI64

/-- One turn of the loop over the samples. -/
def importSample (locations : List Location) (weights : List F64) (acc : List Sample × Int)
    (x : List Nat × Nat) : List Sample × Int :=
  let (stack, i) := x
  let weight := weightAt weights i
  if weight = 0 then acc
  else
    let locationId := stack.reverse.filterMap fun idx => locations[idx]?.map Location.id
    if locationId.isEmpty then acc
    else (acc.1 ++ [⟨locationId, [1, weight], []⟩], wrap 64 (acc.2 + weight))

/-- The profile made of the frames of a file and one of its profiles. -/
def importProfile (frames : List Frame) (profile : SampledProfile) (mappingFilename : String) :
    ImportedPprof :=
  let (samplesStr, strings) := internString stringPool "samples"
  let (countStr, strings) := internString strings "count"
  let (valueTypeStr, strings) := internString strings (speedscopeValueType profile.unit).1
  let (valueUnitStr, strings) := internString strings (speedscopeValueType profile.unit).2
  let (mappingFilename, strings) := internString strings mappingFilename
  let tables := frames.foldl pushFrame ⟨strings, [], []⟩
  let (samples, total) := profile.samples.zipIdx.foldl
    (importSample tables.locations profile.weights) ([], 0)
  let valueType : ValueType := ⟨valueTypeStr, valueUnitStr⟩
  { profile := {
      sampleType := [⟨samplesStr, countStr⟩, valueType]
      sample := samples
      mapping := [⟨1, 0, 0, 0, mappingFilename, 0, true, true, true, false⟩]
      location := tables.locations
      function := tables.functions
      stringTable := tables.strings.items
      dropFrames := 0
      keepFrames := 0
      timeNanos := 0
      durationNanos := speedscopeDurationNanos profile
      periodType := some valueType
      period := 1
      comment := []
      defaultSampleType := valueTypeStr
      docUrl := 0 }
    stats := ⟨samples.length, tables.locations.length, total⟩ }

def speedscopeToPprof (fromStr : String → Option Value) (json : String) (opts : ImportOptions) :
    Except Error ImportedPprof :=
  match (fromStr json).bind decodeSpeedscopeFile with
  | none => .error ["parsing Speedscope JSON"]
  | some file =>
    match file.profiles[opts.profileIndex]? with
    | none => .error ["profile index " ++ toString opts.profileIndex ++
        " out of range; file has " ++ toString file.profiles.length ++ " profile(s)"]
    | some profile =>
      if profile.profileType ≠ "sampled" then
        .error ["only Speedscope sampled profiles are supported"]
      else .ok (importProfile file.shared.frames profile opts.mappingFilename)

end Speedscope
