/-
The encoder of the wasm memory profiler (`cmd_memprofile` of
`runners/moon-pprof`).

The recorded stacks come out of a hash map in an arbitrary order.  Their frames
get function and location ids as they are met, under their function index; the
first frame of an index names it.
-/
import MoonPprof.InternTable
import MoonPprof.Proto

open Proto

namespace MemProfile

/-- A frame of a wasm stack; the module may have no name for its function. -/
structure FrameKey where
  funcIndex : Nat
  name : Option String
deriving DecidableEq

@[ext]
structure SampleAgg where
  count : Int
  bytes : Int
deriving DecidableEq

/-- The recorded stacks, leaf first. -/
abbrev SampleMap := HashMap (List FrameKey) SampleAgg

def FrameKey.rawName (f : FrameKey) : String := f.name.getD ("func[" ++ toString f.funcIndex ++ "]")

structure State where
  strings : InternTable String
  functions : List Function
  funcIndex : HashMap Nat Nat
  locations : List Location
  locIndex : HashMap Nat Nat

def State.new : State := ⟨(InternTable.empty.intern "").2, [], ∅, [], ∅⟩

def State.intern (st : State) (s : String) : Int × State :=
  let (id, strings) := st.strings.intern s
  (id, { st with strings })

section

-- `decode` is the symbol decoder, `moonbit_demangle::demangle`.
variable (decode : String → String) (noDemangle : Bool)

def FrameKey.displayName (f : FrameKey) : String :=
  if noDemangle then f.rawName else decode f.rawName

def State.internFunction (st : State) (frame : FrameKey) : Nat × State :=
  match st.funcIndex.lookup frame.funcIndex with
  | some id => (id, st)
  | none =>
    let id := st.functions.length + 1
    let (name, st) := st.intern (frame.displayName decode noDemangle)
    let (systemName, st) := st.intern frame.rawName
    (id, { st with
      functions := st.functions ++ [⟨id, name, systemName, 0, 0⟩]
      funcIndex := st.funcIndex.insert frame.funcIndex id })

def State.internLocation (st : State) (frame : FrameKey) : Nat × State :=
  match st.locIndex.lookup frame.funcIndex with
  | some id => (id, st)
  | none =>
    let (funcId, st) := st.internFunction decode noDemangle frame
    let id := st.locations.length + 1
    (id, { st with
      locations := st.locations ++ [⟨id, 1, 0, [⟨funcId, 0, 0⟩], false⟩]
      locIndex := st.locIndex.insert frame.funcIndex id })

def State.internStack (st : State) : List FrameKey → List Nat × State
  | [] => ([], st)
  | frame :: frames =>
    let (id, st) := st.internLocation decode noDemangle frame
    let (ids, st) := st.internStack frames
    (id :: ids, st)

/-- The loop over the recorded stacks. -/
def State.encodeStacks (st : State) : List (Sigma fun _ : List FrameKey => SampleAgg) →
    List Sample × State
  | [] => ([], st)
  | ⟨frames, agg⟩ :: rest =>
    let (locationIds, st) := st.internStack decode noDemangle frames
    let (samples, st) := st.encodeStacks rest
    -- a stack without frames gives no sample
    (if locationIds.isEmpty then samples else ⟨locationIds, [agg.count, agg.bytes], []⟩ :: samples, st)

/-- The profile of the recorded stacks in the order they come out of the map. -/
def encodeEntries (entries : List (Sigma fun _ : List FrameKey => SampleAgg)) : Profile :=
  let (allocObjs, st) := State.new.intern "alloc_objects"
  let (countStr, st) := st.intern "count"
  let (allocSpace, st) := st.intern "alloc_space"
  let (bytesStr, st) := st.intern "bytes"
  let (dropPat, st) := st.intern "^moonbit\\.(gc\\.)?malloc$"
  let (mappingFilename, st) := st.intern ""
  let (samples, st) := st.encodeStacks decode noDemangle entries
  { sampleType := [⟨allocObjs, countStr⟩, ⟨allocSpace, bytesStr⟩]
    sample := samples
    mapping := [⟨1, 0, 0, 0, mappingFilename, 0, true, false, false, false⟩]
    location := st.locations
    function := st.functions
    stringTable := st.strings.items
    dropFrames := dropPat
    keepFrames := 0
    timeNanos := 0
    durationNanos := 0
    periodType := some ⟨allocSpace, bytesStr⟩
    period := 1
    comment := []
    defaultSampleType := allocSpace
    docUrl := 0 }

/-- `encode_pprof`, up to the protobuf message. -/
def encodePprof (it : IterOrder (Sigma fun _ : List FrameKey => SampleAgg)) (samples : SampleMap) :
    Profile :=
  encodeEntries decode noDemangle (it.order samples.entries)

end

end MemProfile
