/-
Firefox profiles to pprof (`crates/firefox-to-pprof`).

A thread names its frames through a table of stacks, each the extension of
another.  What a frame and a sample mean is asked of two resolvers; `none` is a
frame resolver that does not return.  `build` adds up the samples of each stack
of each thread, and interns a location for each frame: `frameToLoc` remembers
the frames of a thread, `locCanonical` the resolved contents under the text
`canonicalKey`.

An index that leads out of its table ends the program, and nothing bounds the
walk up the stacks: `build` has no result in either case.
-/
import MoonPprof.Aggregate
import MoonPprof.Float64
import MoonPprof.ProfileClosed

open MachineInt Proto

namespace Firefox

/-! ### The profile -/

structure Lib where
  name : String
  debugName : String

structure FrameTable where
  length : Nat
  func : List Int
  address : List Int
  line : List (Option Int)

structure FuncTable where
  length : Nat
  name : List Int
  fileName : List (Option Int)
  resource : List Int

/-- The stacks, each a frame on top of another stack. -/
structure StackTable where
  length : Nat
  stackPrefix : List (Option Int)
  frame : List Int

structure Samples where
  length : Nat
  stack : List (Option Int)
  timeDeltas : List F64
  weight : List F64

structure ResourceTable where
  length : Nat
  lib : List Int

structure Thread where
  frameTable : FrameTable
  funcTable : FuncTable
  stackTable : StackTable
  samples : Samples
  stringArray : List String
  resourceTable : Option ResourceTable

structure Meta where
  interval : F64
  startTime : F64

structure FirefoxProfile where
  libs : List Lib
  threads : List Thread
  info : Meta

/-! ### The resolvers -/

/-- A frame of an inline chain. -/
structure ResolvedFrame where
  name : String
  file : String
  line : Int
  mappingIndex : Nat
  address : Nat
deriving DecidableEq

structure ResolvedSample where
  stack : Option Int
  count : Int
  ns : Int

/-- The inline chain of a frame, leaf first. -/
abbrev FrameResolver := FirefoxProfile → Thread → Int → Option (List ResolvedFrame)

abbrev SampleResolver := FirefoxProfile → Thread → Nat → ResolvedSample

/-- `i as usize`. -/
def toUsize (i : Int) : Nat := (i % 2 ^ 64).toNat

/-! ### The interning state -/

structure State where
  strings : InternTable String
  functions : List Function
  funcIndex : HashMap String Nat
  locations : List Location
  locCanonical : HashMap String Nat
  frameToLoc : HashMap (Nat × Int) Nat
  samples : List Sample
  totalNs : Int

def State.intern (st : State) (s : String) : Int × State :=
  let (id, strings) := st.strings.intern s
  (id, { st with strings })

/-- The fixed strings are interned first. -/
def State.new : State :=
  let st : State := ⟨(InternTable.empty.intern "").2, [], ∅, [], ∅, ∅, [], 0⟩
  let (_, st) := st.intern "samples"
  let (_, st) := st.intern "count"
  let (_, st) := st.intern "cpu"
  let (_, st) := st.intern "nanoseconds"
  st

/-- The key by which functions are told apart. -/
def funcKey (rawName file : String) : String := rawName ++ "\u001f" ++ file

def frameKey (f : ResolvedFrame) : String :=
  toString (f.mappingIndex : Int) ++ "\u001f" ++ toString (f.address : Int) ++ "\u001f" ++ f.name ++
    "\u001f" ++ toString f.line

/-- The key by which locations are told apart. -/
def canonicalKey (frames : List ResolvedFrame) : String :=
  "\u001e".intercalate (frames.map frameKey)

def headAddress (frames : List ResolvedFrame) : Nat :=
  (frames.head?.map ResolvedFrame.address).getD 0

def headMapping (frames : List ResolvedFrame) : Nat :=
  (frames.head?.map fun f => (f.mappingIndex + 1) % 2 ^ 64).getD 1

section

-- `demangle` is the symbol decoder in use.
variable (demangle : String → String)

def State.internFunction (st : State) (rawName file : String) : Nat × State :=
  let key := funcKey rawName file
  match st.funcIndex.lookup key with
  | some id => (id, st)
  | none =>
    let pretty := demangle rawName
    let id := st.functions.length + 1
    let (name, st) := st.intern pretty
    let (systemName, st) := st.intern rawName
    let (filename, st) := st.intern file
    (id, { st with
      functions := st.functions ++ [⟨id, name, systemName, filename, 0⟩]
      funcIndex := st.funcIndex.insert key id })

/-- The lines of a location, a function for each. -/
def State.internLines (st : State) : List ResolvedFrame → List Line × State
  | [] => ([], st)
  | fr :: frames =>
    let (funcId, st) := st.internFunction demangle fr.name fr.file
    let (lines, st) := st.internLines frames
    (⟨funcId, fr.line, 0⟩ :: lines, st)

/-- The location of a resolved chain that has no location yet. -/
def State.newLocation (st : State) (key : Nat × Int) (frames : List ResolvedFrame) : Nat × State :=
  let (lines, st) := st.internLines demangle frames
  let id := st.locations.length + 1
  (id, { st with
    locations := st.locations ++ [⟨id, headMapping frames, headAddress frames, lines, false⟩]
    locCanonical := st.locCanonical.insert (canonicalKey frames) id
    frameToLoc := st.frameToLoc.insert key id })

def State.internLocation (st : State) (profile : FirefoxProfile) (thread : Thread)
    (threadIdx : Nat) (frameIdx : Int) (resolver : FrameResolver) : Option (Nat × State) :=
  match st.frameToLoc.lookup (threadIdx, frameIdx) with
  | some id => some (id, st)
  | none => do
    let frames ← resolver profile thread frameIdx
    -- another frame may have had the same content
    match st.locCanonical.lookup (canonicalKey frames) with
    | some id => some (id, { st with
        frameToLoc := st.frameToLoc.insert (threadIdx, frameIdx) id })
    | none => some (st.newLocation demangle (threadIdx, frameIdx) frames)

/-- The locations of a stack, interned from its leaf up. -/
def State.internLocations (profile : FirefoxProfile) (thread : Thread) (threadIdx : Nat)
    (resolver : FrameResolver) : List Int → State → Option (List Nat × State)
  | [], st => some ([], st)
  | fi :: frameIds, st => do
    let (id, st) ← st.internLocation demangle profile thread threadIdx fi resolver
    let (ids, st) ← internLocations profile thread threadIdx resolver frameIds st
    some (id :: ids, st)

end

/-! ### The conversion -/

/-- The `while` loop of `stack_frames`, with the turns it may take. -/
def stackFrom (t : StackTable) : Nat → Option Int → List Int → Option (List Int)
  | _, none, acc => some acc
  | 0, some _, _ => none
  | fuel + 1, some idx, acc => do
    let frame ← t.frame[toUsize idx]?
    stackFrom t fuel t.stackPrefix[toUsize idx]?.join (acc ++ [frame])

def stackFrames (thread : Thread) (fuel : Nat) (stackId : Int) (cache : HashMap Int (List Int)) :
    Option (List Int × HashMap Int (List Int)) :=
  match cache.lookup stackId with
  | some c => some (c, cache)
  | none => do
    let acc ← stackFrom thread.stackTable fuel (some stackId) []
    some (acc, cache.insert stackId acc)

/-- The samples with a stack: its id, their count and their time. -/
def charges (samples : SampleResolver) (profile : FirefoxProfile) (thread : Thread) :
    List (Int × Int × Int) :=
  (List.range thread.samples.length).filterMap fun i =>
    let rs := samples profile thread i
    rs.stack.map fun stk => (stk, rs.count, rs.ns)

/-- The counts and times of each stack of a thread. -/
def aggregate (charges : List (Int × Int × Int)) : HashMap Int (Int × Int) :=
  groupSums Prod.fst (fun x => x.2.1) (fun x => x.2.2) charges

section

variable (demangle : String → String) (frames : FrameResolver) (profile : FirefoxProfile)

/-- The sample of one entry of the aggregate. -/
def pushSample (thread : Thread) (ti fuel : Nat) (acc : State × HashMap Int (List Int))
    (e : Sigma fun _ : Int => Int × Int) : Option (State × HashMap Int (List Int)) := do
  let (frameIds, cache) ← stackFrames thread fuel e.1 acc.2
  let (locationId, st) ← State.internLocations demangle profile thread ti frames frameIds acc.1
  some ({ st with
    samples := st.samples ++ [⟨locationId, [e.2.1, e.2.2], []⟩]
    totalNs := wrap 64 (st.totalNs + e.2.2) }, cache)

/-- One turn of the loop over the threads. -/
def pushThread (samples : SampleResolver)
    (it : Nat → IterOrder (Sigma fun _ : Int => Int × Int)) (fuel : Nat) (st : State)
    (x : Thread × Nat) : Option State := do
  let entries := (aggregate (charges samples profile x.1)).entries
  let (st, _) ← ((it x.2).order entries).foldlM (pushSample demangle frames profile x.1 x.2 fuel)
    (st, ∅)
  some st

end

/-- `string_index[s]`. -/
def State.stringId (st : State) (s : String) : Int := ((st.strings.index.lookup s).getD 0 : Nat)

def State.finish (st : State) (profile : FirefoxProfile) (mappingFilename : Int) : Profile :=
  let intervalNs := ((profile.info.interval.max (.fin 1)).mul (.fin 1000000)).round.toI64
  cpuProfile st.stringId ⟨st.strings.items, st.functions, st.locations⟩ st.samples mappingFilename
    intervalNs (profile.info.startTime.mul (.fin 1000000)).round.toI64 st.totalNs

/-- `Builder::build`; `it ti` is the order of the aggregate of thread `ti`. -/
def build (demangle : String → String) (mappingFilename : Option String) (frames : FrameResolver)
    (samples : SampleResolver) (it : Nat → IterOrder (Sigma fun _ : Int => Int × Int)) (fuel : Nat)
    (profile : FirefoxProfile) : Option Profile := do
  let mappingName := (mappingFilename.or (profile.libs.head?.map Lib.name)).getD "unknown"
  let (filename, st) := State.new.intern mappingName
  let st ← profile.threads.zipIdx.foldlM (pushThread demangle frames profile samples it fuel) st
  some (st.finish profile filename)

end Firefox
