/-
Folded stacks (`crates/pprof-stack-formats`): `pprofToFolded` and
`foldedToPprof`.

A line is `root;child;leaf value`.  The exporter adds up equal stacks and writes
them in the order of their text; the importer takes each line that is neither
blank nor a comment for a sample, unless its value rounds to zero.
-/
import MoonPprof.FloatText
import MoonPprof.SortByKey
import MoonPprof.StackFormats
import MoonPprof.Text
import Mathlib.Data.String.Basic

open MachineInt Proto StackFormats Text

namespace Folded

structure ExportOptions where
  valueIndex : Option Nat

structure ImportOptions where
  sampleType : String
  unit : String
  mappingFilename : String

/-! ### Export -/

/-- `s.replace(c, d)`. -/
def replaceChar (c d : Char) (s : String) : String :=
  String.ofList (s.toList.map fun x => if x = c then d else x)

def sanitizeFoldedFrame (s : String) : String := replaceChar '\n' ' ' (replaceChar ';' ':' s)

structure ExportState where
  folded : HashMap String Int
  stats : ExportStats

def ExportState.new : ExportState := ⟨∅, ⟨0, 0⟩⟩

def pushStack (st : ExportState) (x : List String × Int) : ExportState where
  folded := st.folded.entryOr (";".intercalate x.1) 0 fun v => wrap 64 (v + x.2)
  stats := ⟨st.stats.stackCount + 1, wrap 64 (st.stats.total + x.2)⟩

/-- One turn of the loop over the samples. -/
def exportSample (resolver : PprofResolver) (axis : Axis) (st : ExportState) (sample : Sample) :
    ExportState :=
  let value := valueOn axis sample
  if value ≤ 0 then st
  else
    let stack := (resolver.stack sample).map fun f => sanitizeFoldedFrame f.name
    if stack.isEmpty then st else pushStack st (stack, value)

/-- A line for each stack. -/
def foldedText (folded : List (String × Int)) : String :=
  String.join (folded.map fun e => e.1 ++ " " ++ toString e.2 ++ "\n")

def pprofToFolded (profile : Profile) (opts : ExportOptions) :
    Except Error (String × ExportStats) := do
  let axis ← selectPprofAxis profile opts.valueIndex
  let st := profile.sample.foldl (exportSample (.new profile) axis) .new
  .ok (foldedText (st.folded.inOrder.map fun e => (e.1, e.2)), st.stats)

/-! ### Import -/

def foldedError (lineNo : Nat) (message : String) : String :=
  "folded line " ++ toString lineNo ++ ": " ++ message

def parseFoldedLine (line : List Char) (lineNo : Nat) :
    Except Error (Option (List String × Int)) :=
  let trimmed := trim line
  if trimmed.isEmpty || trimmed.head? == some '#' then .ok none
  else
    match splitAtLast isWhitespace trimmed with
    | none => .error [foldedError lineNo "missing value column"]
    | some (stackRaw, valueRaw) =>
      let stackRaw := trim stackRaw
      let valueRaw := trim valueRaw
      if stackRaw.isEmpty then .error [foldedError lineNo "empty stack"]
      else
        match parseF64 valueRaw with
        | none => .error [foldedError lineNo ("invalid value `" ++ String.ofList valueRaw ++ "`"),
            "invalid float literal"]
        | some value =>
          if !value.isFinite then .error [foldedError lineNo "value must be finite"]
          else if value.lt (.fin 0) then
            .error [foldedError lineNo "value must be non-negative"]
          else if (F64.ofInt (2 ^ 63 - 1)).lt value.round then
            .error [foldedError lineNo "value is too large"]
          else
            let value := value.round.toI64
            if value = 0 then .ok none
            else
              let frames := (stackRaw.splitOn ';').map trim
              if frames.any List.isEmpty then
                .error [foldedError lineNo "empty frame in stack"]
              else .ok (some (frames.map String.ofList, value))

structure ImportState where
  strings : InternTable String
  frameIds : HashMap String Nat
  functions : List Function
  locations : List Location
  samples : List Sample
  total : Int

/-- The id of a frame, which gets a function and a location when it is new. -/
def frameId (emptyStr : Int) (st : ImportState) (frame : String) : Nat × ImportState :=
  match st.frameIds.lookup frame with
  | some id => (id, st)
  | none =>
    let id := st.functions.length + 1
    let (name, strings) := internString st.strings frame
    (id, { st with
      strings
      frameIds := st.frameIds.insert frame id
      functions := st.functions ++ [⟨id, name, name, emptyStr, 0⟩]
      locations := st.locations ++ [⟨id, 1, 0, [⟨id, 0, 0⟩], false⟩] })

def frameIdsOf (emptyStr : Int) (st : ImportState) (frames : List String) :
    List Nat × ImportState :=
  frames.foldl (fun (ids, st) frame =>
    (ids ++ [(frameId emptyStr st frame).1], (frameId emptyStr st frame).2)) ([], st)

def pushSample (emptyStr : Int) (st : ImportState) (x : List String × Int) : ImportState :=
  let (rootToLeaf, st) := frameIdsOf emptyStr st x.1
  { st with
    samples := st.samples ++ [⟨rootToLeaf.reverse, [1, x.2], []⟩]
    total := wrap 64 (st.total + x.2) }

/-- One turn of the loop over the lines. -/
def importLine (emptyStr : Int) (st : ImportState) (x : List Char × Nat) :
    Except Error ImportState := do
  match ← parseFoldedLine x.1 (x.2 + 1) with
  | none => .ok st
  | some row => .ok (pushSample emptyStr st row)

def durationNanos (value : Int) (unit : String) : Int :=
  if unit = "nanoseconds" then value
  else if unit = "microseconds" then saturate 64 (value * 1000)
  else if unit = "milliseconds" then saturate 64 (value * 1000000)
  else if unit = "seconds" then saturate 64 (value * 1000000000)
  else 0

/-- The profile at the end of the loop. -/
def ImportState.toPprof (st : ImportState) (opts : ImportOptions) (samplesStr countStr
    valueTypeStr valueUnitStr mappingFilename : Int) : ImportedPprof where
  profile := {
    sampleType := [⟨samplesStr, countStr⟩, ⟨valueTypeStr, valueUnitStr⟩]
    sample := st.samples
    mapping := [⟨1, 0, 0, 0, mappingFilename, 0, true, false, false, false⟩]
    location := st.locations
    function := st.functions
    stringTable := st.strings.items
    dropFrames := 0
    keepFrames := 0
    timeNanos := 0
    durationNanos := durationNanos st.total opts.unit
    periodType := some ⟨valueTypeStr, valueUnitStr⟩
    period := 1
    comment := []
    defaultSampleType := valueTypeStr
    docUrl := 0 }
  stats := ⟨st.samples.length, st.locations.length, st.total⟩

def foldedToPprof (input : String) (opts : ImportOptions) : Except Error ImportedPprof := do
  let (samplesStr, strings) := internString stringPool "samples"
  let (countStr, strings) := internString strings "count"
  let (valueTypeStr, strings) := internString strings opts.sampleType
  let (valueUnitStr, strings) := internString strings opts.unit
  let (emptyStr, strings) := internString strings ""
  let (mappingFilename, strings) := internString strings opts.mappingFilename
  let st ← (lines input.toList).zipIdx.foldlM (importLine emptyStr) ⟨strings, ∅, [], [], [], 0⟩
  .ok (st.toPprof opts samplesStr countStr valueTypeStr valueUnitStr mappingFilename)

end Folded
