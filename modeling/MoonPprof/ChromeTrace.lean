/-
Chrome traces with embedded V8 CPU profiles (`crates/chrome-trace-to-pprof`).

`extractCpuProfiles` groups the `Profile` and `ProfileChunk` events of a trace
by `(pid, tid, id)`, and `intoProfile` puts the chunks of one stream together:
sorted by timestamp, repeated nodes merged into their first occurrence, parent
links turned into children once all nodes are known.  `convert` builds a pprof
profile from the stream at `profileIndex`, in the order of the rendered keys.

`fromStr` parses JSON text and `display` prints a JSON value; compression and
the protobuf encoding of the result are left to the caller.  Structs are decoded
from JSON objects; serde would also take an array of the fields in their order.
-/
import MoonPprof.CpuProfile
import MoonPprof.SortByKey
import Mathlib.Data.String.Basic

open MachineInt Proto V8

namespace ChromeTrace

structure ConvertOptions where
  profileIndex : Nat
  noDemangle : Bool
  mappingFilename : Option String
  defaultSampleDeltaUs : Int

/-- `ConvertOptions::default()`. -/
def ConvertOptions.default : ConvertOptions := ⟨0, false, none, 1000⟩

structure ExtractedProfileInfo where
  key : String
  nodes : Nat
  samples : Nat
deriving DecidableEq

structure RawNode where
  id : Int
  callFrame : CallFrame
  children : List Int
  parent : Option Int

structure RawCpuProfile where
  nodes : List RawNode
  samples : List Int
  timeDeltas : List Int

structure ProfileChunk where
  ts : Int
  nodes : List RawNode
  samples : List Int
  timeDeltas : List Int

structure TraceEvent where
  name : Option String
  pid : Option Value
  tid : Option Value
  ts : Option Value
  id : Option Value
  id2 : Option Value
  args : Value

/-! ### Decoding -/

def decodeCallFrame (v : Value) : Option CallFrame := do
  guard v.isObject
  let functionName ← v.fieldOr "functionName" "" Value.decodeString
  let url ← v.fieldOr "url" "" Value.decodeString
  let scriptId ← v.fieldOr "scriptId" .null some
  let lineNumber ← v.fieldOr "lineNumber" (-1) (Value.decodeInt 32)
  let columnNumber ← v.fieldOr "columnNumber" (-1) (Value.decodeInt 32)
  some { functionName, url, scriptId, lineNumber, columnNumber }

def decodeRawNode (v : Value) : Option RawNode := do
  guard v.isObject
  let id ← v.field "id" (Value.decodeInt 64)
  let callFrame ← v.field "callFrame" decodeCallFrame
  let children ← v.fieldOr "children" [] (Value.decodeVec (Value.decodeInt 64))
  let parent ← v.fieldOpt "parent" (Value.decodeInt 64)
  some { id, callFrame, children, parent }

def decodeRawCpuProfile (v : Value) : Option RawCpuProfile := do
  guard v.isObject
  let nodes ← v.fieldOr "nodes" [] (Value.decodeVec decodeRawNode)
  let samples ← v.fieldOr "samples" [] (Value.decodeVec (Value.decodeInt 64))
  let timeDeltas ← v.fieldOr "timeDeltas" [] (Value.decodeVec (Value.decodeInt 64))
  some { nodes, samples, timeDeltas }

def decodeTraceEvent (v : Value) : Option TraceEvent := do
  guard v.isObject
  let name ← v.fieldOpt "name" Value.decodeString
  let pid ← v.fieldOpt "pid" some
  let tid ← v.fieldOpt "tid" some
  let ts ← v.fieldOpt "ts" some
  let id ← v.fieldOpt "id" some
  let id2 ← v.fieldOpt "id2" some
  let args ← v.fieldOr "args" .null some
  some { name, pid, tid, ts, id, id2, args }

/-- `TraceJson`: an object with `traceEvents`, or the events themselves. -/
def decodeTraceJson : Value → Option (List TraceEvent)
  | .array vs => vs.mapM decodeTraceEvent
  | .object fields =>
    (Value.object fields).fieldOr "traceEvents" [] (Value.decodeVec decodeTraceEvent)
  | _ => none

def parseTraceEvents (fromStr : String → Option Value) (input : String) :
    Except Error (List TraceEvent) :=
  match (fromStr input).bind decodeTraceJson with
  | some events => .ok events
  | none => .error ["parsing Chrome trace JSON"]

def valueToI64 (v : Value) : Option Int :=
  match v.asI64 with
  | some n => some n
  | none =>
    match v.asU64 with
    | some n => if InRange 64 n then some n else none
    | none => v.asF64.map fun x => x.round.toI64

def i64Field (v : Value) (name : String) : Option Int := (v.get name).bind valueToI64

def i64VecField (v : Value) (name : String) : Except Error (List Int) :=
  match v.get name with
  | none => .ok []
  | some x =>
    match Value.decodeVec (Value.decodeInt 64) x with
    | some xs => .ok xs
    | none => .error ["parsing `" ++ name ++ "` as integer array"]

/-! ### Events -/

def valueKey (display : Value → String) : Option Value → String
  | some (.string s) => s
  | some v => display v
  | none => "?"

def TraceEvent.profileKey (display : Value → String) (event : TraceEvent) : String :=
  "pid=" ++ valueKey display event.pid ++ "/tid=" ++ valueKey display event.tid ++ "/id=" ++
    (((event.id.or event.id2).map fun v => valueKey display (some v)).getD "none")

def TraceEvent.tsI64 (event : TraceEvent) : Int := (event.ts.bind valueToI64).getD 0

def TraceEvent.data (event : TraceEvent) : Option Value :=
  if event.args.isObject then (event.args.get "data").or (some event.args) else none

structure PartialProfile where
  key : String
  startTime : Option Int
  endTime : Option Int
  chunks : List ProfileChunk

/-- The embedded profile: `cpuProfile`, or the data when it has nodes itself. -/
def cpuProfileValue (data : Value) : Option Value :=
  (data.get "cpuProfile").or (if (data.get "nodes").isSome then some data else none)

def ingestProfileEvent (stream : PartialProfile) (event : TraceEvent) :
    Except Error PartialProfile :=
  match event.data with
  | none => .ok stream
  | some data =>
    let stream := { stream with
      startTime := stream.startTime.or (i64Field data "startTime")
      endTime := stream.endTime.or (i64Field data "endTime") }
    match cpuProfileValue data with
    | none => .ok stream
    | some cpuProfile => do
      let stream := { stream with
        startTime := stream.startTime.or (i64Field cpuProfile "startTime")
        endTime := stream.endTime.or (i64Field cpuProfile "endTime") }
      let raw ← match decodeRawCpuProfile cpuProfile with
        | some raw => .ok raw
        | none => .error ["parsing embedded V8 cpuProfile"]
      let externalSamples ← i64VecField data "samples"
      let externalTimeDeltas ← i64VecField data "timeDeltas"
      .ok { stream with
        chunks := stream.chunks ++ [{
          ts := event.tsI64
          nodes := raw.nodes
          samples := if externalSamples.isEmpty then raw.samples else externalSamples
          timeDeltas :=
            if externalTimeDeltas.isEmpty then raw.timeDeltas else externalTimeDeltas }] }

/-- One turn of the loop over the events. -/
def ingestEvent (display : Value → String) (streams : HashMap String PartialProfile)
    (event : TraceEvent) : Except Error (HashMap String PartialProfile) :=
  match event.name with
  | none => .ok streams
  | some name =>
    if name ≠ "Profile" ∧ name ≠ "ProfileChunk" then .ok streams
    else do
      let key := event.profileKey display
      let stream := (streams.lookup key).getD ⟨key, none, none, []⟩
      let stream ← (ingestProfileEvent stream event).context
        ("reading Chrome trace event `" ++ name ++ "`")
      .ok (streams.insert key stream)

/-! ### Putting a stream together -/

def pushUnique (values : List Int) (value : Int) : List Int :=
  if values.contains value then values else values ++ [value]

/-- The nodes seen so far: their order, the nodes by id, and the parent links
still to be made. -/
structure Merge where
  nodeOrder : List Int
  nodesById : HashMap Int RawNode
  parentLinks : List (Int × Int)

def Merge.empty : Merge := ⟨[], ∅, []⟩

def Merge.add (m : Merge) (node : RawNode) : Merge :=
  let m := match node.parent with
    | some parent => { m with parentLinks := m.parentLinks ++ [(parent, node.id)] }
    | none => m
  match m.nodesById.lookup node.id with
  | none =>
    { m with
      nodeOrder := m.nodeOrder ++ [node.id]
      nodesById := m.nodesById.insert node.id node }
  | some existing =>
    { m with
      nodesById := m.nodesById.insert node.id { existing with
        children := node.children.foldl pushUnique existing.children
        parent := existing.parent.or node.parent } }

def linkParent (nodesById : HashMap Int RawNode) (link : Int × Int) : HashMap Int RawNode :=
  match nodesById.lookup link.1 with
  | some node =>
    nodesById.insert link.1 { node with children := pushUnique node.children link.2 }
  | none => nodesById

/-- The nodes in their order, each taken out of the map. -/
def takeNodes : List Int → HashMap Int RawNode → List CpuNode
  | [], _ => []
  | id :: order, nodesById =>
    match nodesById.lookup id with
    | some node => ⟨node.id, node.callFrame, node.children⟩ :: takeNodes order (nodesById.erase id)
    | none => takeNodes order nodesById

/-- As many time deltas as samples. -/
def fixTimeDeltas (defaultSampleDeltaUs : Int) (n : Nat) (timeDeltas : List Int) : List Int :=
  if timeDeltas.length < n then
    timeDeltas ++ List.replicate (n - timeDeltas.length) (max defaultSampleDeltaUs 1)
  else timeDeltas.take n

/-- The merge of all nodes in the chunks' order. -/
def mergeNodes (nodes : List RawNode) : List CpuNode :=
  let merge := nodes.foldl Merge.add Merge.empty
  takeNodes merge.nodeOrder (merge.parentLinks.foldl linkParent merge.nodesById)

structure ExtractedCpuProfile where
  info : ExtractedProfileInfo
  profile : CpuProfile

def PartialProfile.intoProfile (stream : PartialProfile) (defaultSampleDeltaUs : Int) :
    Option ExtractedCpuProfile :=
  let chunks := sortByKey ProfileChunk.ts stream.chunks
  if chunks.isEmpty then none
  else
    let samples := chunks.flatMap ProfileChunk.samples
    let timeDeltas := fixTimeDeltas defaultSampleDeltaUs samples.length
      (chunks.flatMap ProfileChunk.timeDeltas)
    let durationUs := timeDeltas.foldl (fun total dt => wrap 64 (total + dt)) 0
    let startTime := stream.startTime.getD 0
    let endTime := stream.endTime.getD (saturate 64 (startTime + durationUs))
    let nodes := mergeNodes (chunks.flatMap ProfileChunk.nodes)
    some ⟨⟨stream.key, nodes.length, samples.length⟩,
      { nodes, samples, timeDeltas, startTime, endTime }⟩

def extractCpuProfiles (fromStr : String → Option Value) (display : Value → String)
    (input : String) (defaultSampleDeltaUs : Int) : Except Error (List ExtractedCpuProfile) := do
  let events ← parseTraceEvents fromStr input
  let streams ← events.foldlM (ingestEvent display) ∅
  .ok (streams.inOrder.filterMap fun e => e.2.intoProfile defaultSampleDeltaUs)

/-- What `convert` returns, before encoding. -/
structure Converted where
  profile : Profile
  profiles : List ExtractedProfileInfo
  stats : Stats

/-- `convert`; `none` when `fuel` turns do not end a walk up the parents. -/
def convert (fromStr : String → Option Value) (display : Value → String)
    (it : IterOrder (Sigma fun _ : Int => Int)) (fuel : Nat) (input : String)
    (opts : ConvertOptions) : Option (Except Error Converted) :=
  match extractCpuProfiles fromStr display input opts.defaultSampleDeltaUs with
  | .error e => some (.error e)
  | .ok profiles =>
    if profiles.isEmpty then
      some (.error ["no V8 CPU Profile/ProfileChunk events found in Chrome trace"])
    else
      match profiles[opts.profileIndex]? with
      | none => some (.error ["profile index " ++ toString opts.profileIndex ++
          " out of range; trace contains " ++ toString profiles.length ++ " profile(s)"])
      | some selected =>
        (build display (if opts.noDemangle then id else moonbitDemangle) opts.mappingFilename it
          fuel selected.profile).map fun (profile, stats) =>
            .ok ⟨profile, profiles.map ExtractedCpuProfile.info, stats⟩

end ChromeTrace
