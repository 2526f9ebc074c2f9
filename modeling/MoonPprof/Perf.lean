/-
`perf script` samples to pprof (`encode` of `crates/perf-to-pprof`).

Each frame is looked up by its displayed symbol and its binary; a new pair gets
a mapping, a function and a location.  The stacks of location ids are the keys
under which samples are counted and their periods added up, in a hash map that
is walked in an arbitrary order.
-/
import MoonPprof.Aggregate
import MoonPprof.ProfileClosed

open MachineInt Proto

namespace Perf

structure Frame where
  symbol : String
  dso : String

/-- A sample, its frames leaf first. -/
structure Sample where
  stack : List Frame
  period : Nat

structure ConvertOptions where
  eventType : String
  eventUnit : String
  noDemangle : Bool

/-- The tables and maps of `encode`. -/
structure State where
  strings : InternTable String
  demangled : HashMap String String
  mappingId : HashMap String Nat
  mappings : List Mapping
  funcId : HashMap (String × String) Nat
  locationId : HashMap (String × String) Nat
  functions : List Function
  locations : List Location

/-- `StringPool::new`. -/
def State.new : State := ⟨(InternTable.empty.intern "").2, ∅, ∅, [], ∅, ∅, [], []⟩

def State.intern (st : State) (s : String) : Int × State :=
  let (id, strings) := st.strings.intern s
  (id, { st with strings })

/-- The mapping of a binary. -/
def State.mappingFor (st : State) (dso : String) : Nat × State :=
  match st.mappingId.lookup dso with
  | some id => (id, st)
  | none =>
    let id := st.mappings.length + 1
    let (filename, st) := st.intern dso
    (id, { st with
      mappings := st.mappings ++ [⟨id, 0, 0, 0, filename, 0, !dso.isEmpty, false, false, false⟩]
      mappingId := st.mappingId.insert dso id })

/-- The function of a displayed symbol and a binary. -/
def State.functionFor (st : State) (key : String × String) (symbol : String) : Nat × State :=
  match st.funcId.lookup key with
  | some id => (id, st)
  | none =>
    let id := st.functions.length + 1
    let (name, st) := st.intern key.1
    let (systemName, st) := st.intern symbol
    let (filename, st) := st.intern key.2
    (id, { st with
      functions := st.functions ++ [⟨id, name, systemName, filename, 0⟩]
      funcId := st.funcId.insert key id })

section

-- `decode` is the symbol decoder, `moonbit_demangle::demangle`.
variable (decode : String → String) (opts : ConvertOptions)

/-- The closure `demangle`, which remembers what it has decoded. -/
def State.demangle (st : State) (raw : String) : String × State :=
  if opts.noDemangle then (raw, st)
  else match st.demangled.lookup raw with
    | some v => (v, st)
    | none =>
      let pretty := decode raw
      let out := if pretty = raw then raw else pretty
      (out, { st with demangled := st.demangled.insert raw out })

/-- The location of a frame, whose symbol has been displayed. -/
def State.locationOf (st : State) (key : String × String) (frame : Frame) : Nat × State :=
  match st.locationId.lookup key with
  | some id => (id, st)
  | none =>
    let (mid, st) := st.mappingFor frame.dso
    let (fid, st) := st.functionFor key frame.symbol
    let id := st.locations.length + 1
    (id, { st with
      locations := st.locations ++ [⟨id, mid, 0, [⟨fid, 0, 0⟩], false⟩]
      locationId := st.locationId.insert key id })

def State.locationFor (st : State) (frame : Frame) : Nat × State :=
  let (demangledSym, st) := st.demangle decode opts frame.symbol
  st.locationOf (demangledSym, frame.dso) frame

def State.locStack (st : State) : List Frame → List Nat × State
  | [] => ([], st)
  | frame :: frames =>
    let (loc, st) := st.locationFor decode opts frame
    let (locs, st) := st.locStack frames
    (loc :: locs, st)

/-- The loop over the samples: the stack of each that has one, and its period. -/
def State.locStacks (st : State) : List Sample → List (List Nat × Int) × State
  | [] => ([], st)
  | s :: samples =>
    if s.stack.isEmpty then st.locStacks samples
    else
      let (locStack, st) := st.locStack decode opts s.stack
      let (rest, st) := st.locStacks samples
      ((locStack, wrap 64 s.period) :: rest, st)

/-- The counts and periods of each stack. -/
def agg (charges : List (List Nat × Int)) : HashMap (List Nat) (Int × Int) :=
  groupSums Prod.fst (fun _ => 1) Prod.snd charges

def encode (it : IterOrder (Sigma fun _ : List Nat => Int × Int))
    (samples : List Sample) : Profile :=
  let (samplesStr, st) := State.new.intern "samples"
  let (countStr, st) := st.intern "count"
  let (eventStr, st) := st.intern opts.eventType
  let (unitStr, st) := st.intern opts.eventUnit
  let (charges, st) := st.locStacks decode opts samples
  { sampleType := [⟨samplesStr, countStr⟩, ⟨eventStr, unitStr⟩]
    sample := (it.order (agg charges).entries).map fun e => ⟨e.1, [e.2.1, e.2.2], []⟩
    mapping := st.mappings
    location := st.locations
    function := st.functions
    stringTable := st.strings.items
    dropFrames := 0
    keepFrames := 0
    timeNanos := 0
    durationNanos := 0
    periodType := some ⟨eventStr, unitStr⟩
    period := 1
    comment := []
    defaultSampleType := eventStr
    docUrl := 0 }

end

end Perf
