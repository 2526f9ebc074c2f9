/-
The rollup of a pprof profile (`cmd_summary` of `runners/moon-pprof`).

A sample is charged to its leaf, the first of its locations whose name is not
dropped; each function it runs through is charged once in `cum`, and the callers
of a memory primitive once for each of their locations in `memCum`.  `runDiff`
compares the rollups of two profiles by function name.

`compile` is `Regex::new(_).ok()`, a pattern to its predicate; `memMgmt` is the
pattern of the memory primitives.
-/
import MoonPprof.HashMap
import MoonPprof.MachineInt
import MoonPprof.Proto
import MoonPprof.SortByKey

open MachineInt Proto

namespace CmdSummary

/-! ### The axis -/

inductive AxisKind where
  | time (div : Nat) (label : String)
  | bytes
  | count (label : String)
deriving DecidableEq

structure ValueAxis where
  idx : Nat
  kind : AxisKind
  secondaryIdx : Option Nat
  isHeap : Bool
deriving DecidableEq

def isTimeSampleType (ty : String) : Bool :=
  ty ∈ ["cpu", "wall", "delay", "latency", "block", "blocked", "off_cpu", "wait"]

/-- The loop over the sample types of a profile that is not a heap profile. -/
def timeAxis (p : Profile) : List (ValueType × Nat) → Option ValueAxis
  | [] => none
  | (st, i) :: rest =>
    if isTimeSampleType (stringAt p st.type) then
      match stringAt p st.unit with
      | "nanoseconds" => some ⟨i, .time 1000000 "ms", none, false⟩
      | "microseconds" => some ⟨i, .time 1000 "ms", none, false⟩
      | "milliseconds" => some ⟨i, .time 1 "ms", none, false⟩
      | "count" => some ⟨i, .count "samples", none, false⟩
      | _ => timeAxis p rest
    else timeAxis p rest

def valueAxis (p : Profile) : ValueAxis :=
  let named (names : List String) := p.sampleType.findIdx? (stringAt p ·.type ∈ names)
  let allocSpaceIdx := named ["alloc_space", "inuse_space", "space"]
  let allocObjectsIdx := named ["alloc_objects", "inuse_objects", "objects"]
  -- an allocation axis of either kind makes it a heap profile
  match allocSpaceIdx, allocObjectsIdx with
  | some idx, _ => ⟨idx, .bytes, allocObjectsIdx, true⟩
  | none, some idx => ⟨idx, .count "allocs", none, true⟩
  | none, none => (timeAxis p p.sampleType.zipIdx).getD ⟨0, .count "units", none, false⟩

/-! ### The names of the locations -/

/-- `function_name`; an index outside the table, a negative one included, reads as `""`. -/
def functionName (p : Profile) : HashMap Nat String :=
  p.function.foldl (fun m f => m.insert f.id (stringAt p f.name)) ∅

/-- The function of the first line. -/
def topName (p : Profile) (loc : Location) : String :=
  match loc.line with
  | line :: _ => ((functionName p).lookup line.functionId).getD "(unknown)"
  | [] => "(unknown)"

def resolveTopLines (p : Profile) : HashMap Nat String :=
  p.location.foldl (fun m loc => m.insert loc.id (topName p loc)) ∅

/-! ### The rollup -/

structure FuncStats where
  selfV : Int
  cum : Int
  memCum : Int
  selfV2 : Int
deriving DecidableEq

/-- `FuncStats::default()`. -/
def FuncStats.zero : FuncStats := ⟨0, 0, 0, 0⟩

/-- `self_v += v; self_v2 += v2`. -/
def FuncStats.addSelf (e : FuncStats) (v v2 : Int) : FuncStats :=
  { e with selfV := wrap 64 (e.selfV + v), selfV2 := wrap 64 (e.selfV2 + v2) }

def FuncStats.addCum (e : FuncStats) (v : Int) : FuncStats := { e with cum := wrap 64 (e.cum + v) }

def FuncStats.addMemCum (e : FuncStats) (v : Int) : FuncStats :=
  { e with memCum := wrap 64 (e.memCum + v) }

abbrev Stats := HashMap String FuncStats

def dropRe (compile : String → Option (String → Bool)) (p : Profile) : Option (String → Bool) :=
  if 0 < p.dropFrames then
    let pat := stringAt p p.dropFrames
    if pat.isEmpty then none else compile pat
  else none

def pickLeaf (locToName : HashMap Nat String) (drop : Option (String → Bool)) : List Nat → String
  | [] => "(unknown)"
  | id :: ids =>
    match locToName.lookup id with
    -- a location without a row is passed over, as is a dropped name
    | none => pickLeaf locToName drop ids
    | some name =>
      if (drop.map (· name)).getD false then pickLeaf locToName drop ids else name

/-- The names of a stack; a location without a row has none. -/
def namesOf (locToName : HashMap Nat String) (ids : List Nat) : List String :=
  ids.filterMap fun id => locToName.lookup id

/-- The loop that charges each name of a stack once. -/
def chargeCum (locToName : HashMap Nat String) (v : Int) (seen : List String) :
    List Nat → Stats → Stats
  | [], stats => stats
  | id :: ids, stats =>
    match locToName.lookup id with
    | none => chargeCum locToName v seen ids stats
    | some name =>
      -- a recursive function is charged once
      if name ∈ seen then chargeCum locToName v seen ids stats
      else chargeCum locToName v (name :: seen) ids
        (stats.entryOr name .zero (·.addCum v))

/-- The loop that charges the callers of a memory primitive. -/
def chargeMemCum (locToName : HashMap Nat String) (memMgmt : String → Bool) (v : Int) :
    List Nat → Stats → Stats
  | [], stats => stats
  | id :: ids, stats =>
    match locToName.lookup id with
    | none => chargeMemCum locToName memMgmt v ids stats
    | some name =>
      if memMgmt name then chargeMemCum locToName memMgmt v ids stats
      else chargeMemCum locToName memMgmt v ids
        (stats.entryOr name .zero (·.addMemCum v))

structure Summary where
  total : Int
  total2 : Int
  memMgmtTotal : Int
  numSamples : Nat
  stats : Stats
  axis : ValueAxis

/-- The value of a sample on the main axis. -/
def valueOf (axis : ValueAxis) (s : Sample) : Int := s.value[axis.idx]?.getD 0

/-- The value of a sample on the secondary axis. -/
def value2Of (axis : ValueAxis) (s : Sample) : Int :=
  (axis.secondaryIdx.bind fun i => s.value[i]?).getD 0

section

variable (compile : String → Option (String → Bool)) (memMgmt : String → Bool)

/-- The leaf a sample is charged to. -/
def leafOf (p : Profile) (s : Sample) : String :=
  pickLeaf (resolveTopLines p) (dropRe compile p) s.locationId

/-- One round of the loop over the samples. -/
def addSample (p : Profile) (acc : Summary) (s : Sample) : Summary :=
  let locToName := resolveTopLines p
  let v := valueOf acc.axis s
  let v2 := value2Of acc.axis s
  let leaf := leafOf compile p s
  -- in a heap profile every sample is an allocation, so none is singled out
  let leafIsMem := !acc.axis.isHeap && memMgmt leaf
  let stats := acc.stats.entryOr leaf .zero (·.addSelf v v2)
  let stats := chargeCum locToName v [] s.locationId stats
  { acc with
    total := wrap 64 (acc.total + v)
    total2 := wrap 64 (acc.total2 + v2)
    memMgmtTotal := if leafIsMem then wrap 64 (acc.memMgmtTotal + v) else acc.memMgmtTotal
    stats := if leafIsMem then chargeMemCum locToName memMgmt v s.locationId stats else stats }

def computeSummary (p : Profile) : Summary :=
  p.sample.foldl (addSample compile memMgmt p) ⟨0, 0, 0, p.sample.length, ∅, valueAxis p⟩

/-! ### The diff -/

/-- A function with its self values in the two profiles and their difference. -/
structure DiffRow where
  name : String
  base : Int
  patched : Int
  delta : Int
deriving DecidableEq

/-- What is printed of a diff. -/
structure DiffReport where
  axis : ValueAxis
  base : Int
  patched : Int
  totalDelta : Int
  allocations : Option (Int × Int × Int)
  rows : List DiffRow
  improvements : List DiffRow
  regressions : List DiffRow
  gone : List DiffRow
  novel : List DiffRow

def selfValue (stats : Stats) (name : String) : Int := ((stats.lookup name).map (·.selfV)).getD 0

def diffRow (bs ps : Stats) (name : String) : DiffRow :=
  let b := selfValue bs name
  let p := selfValue ps name
  ⟨name, b, p, wrap 64 (p - b)⟩

/-- `it` is the order in which the set of names yields them. -/
def runDiff (it : IterOrder String) (base patched : Profile) : Except String DiffReport :=
  let bs := computeSummary compile memMgmt base
  let ps := computeSummary compile memMgmt patched
  if bs.axis.isHeap ≠ ps.axis.isHeap then
    .error "base / patched are different kinds of profile (cpu vs heap) — can't diff"
  else
    -- the rows come in the order of a hash set; what is printed of them is sorted
    let keys := it.order (bs.stats.keys ++ ps.stats.keys).dedup
    let rows := keys.map (diffRow bs.stats ps.stats)
    let improvements := rows.filter fun r => r.delta < 0 ∧ r.base > 0 ∧ r.patched > 0
    let regressions := rows.filter fun r => r.delta > 0 ∧ r.base > 0 ∧ r.patched > 0
    let gone := rows.filter fun r => r.base > 0 ∧ r.patched = 0
    let novel := rows.filter fun r => r.base = 0 ∧ r.patched > 0
    .ok
      { axis := bs.axis
        base := bs.total
        patched := ps.total
        totalDelta := wrap 64 (ps.total - bs.total)
        allocations := bs.axis.secondaryIdx.map fun _ =>
          (bs.total2, ps.total2, wrap 64 (ps.total2 - bs.total2))
        rows := rows
        improvements := (sortByKey DiffRow.delta improvements).take 15
        regressions := (sortByKey (fun r => -r.delta) regressions).take 10
        gone := (sortByKey (fun r => -r.base) gone).take 10
        novel := (sortByKey (fun r => -r.patched) novel).take 10 }

end

end CmdSummary
