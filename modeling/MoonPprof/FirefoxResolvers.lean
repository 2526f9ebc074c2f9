/-
The resolvers of the Firefox converter (`resolver.rs`, `samply.rs`).

`funcTableResolver` reads a frame off the tables of its thread, and does not
return where an index leads out of them.  `SamplySymsResolver` looks the address
of a frame up in a sidecar of symbols; the mapping of a frame is the library
that its function comes from.
-/
import MoonPprof.Firefox

open MachineInt Proto

namespace Firefox

/-! ### Frames from the tables -/

/-- `FuncTableResolver::resolve`. -/
def funcTableResolver : FrameResolver := fun _ thread frameIdx => do
  let fi := toUsize frameIdx
  let funcIdx := toUsize (← thread.frameTable.func[fi]?)
  let nameIdx ← thread.funcTable.name[funcIdx]?
  let name := thread.stringArray[toUsize nameIdx]?.getD "(anonymous)"
  let fileIdx := thread.funcTable.fileName[funcIdx]?.join
  let file := (fileIdx.bind fun idx => thread.stringArray[toUsize idx]?).getD ""
  let line := thread.frameTable.line[fi]?.join.getD 0
  let address := (max (thread.frameTable.address[fi]?.getD 0) 0).toNat
  some [⟨name, file, line, 0, address⟩]

/-! ### Weights of samples -/

inductive SampleWeighting where
  | fixedInterval (intervalNs : Int)
  | perSampleTimeDeltas (defaultIntervalNs : Int)

def SampleWeighting.resolve (w : SampleWeighting) : SampleResolver := fun _ thread i =>
  let stack := thread.samples.stack[i]?.join
  let count := max ((thread.samples.weight[i]?.map fun w => w.round.toI64).getD 1) 1
  let ns :=
    match w with
    | .fixedInterval intervalNs => wrap 64 (count * intervalNs)
    | .perSampleTimeDeltas defaultIntervalNs =>
      let dtMs := thread.samples.timeDeltas[i]?.getD (.fin 0)
      -- a missing delta, and one that is not positive, counts as the default
      if (F64.fin 0).lt dtMs then (dtMs.mul (.fin 1000000)).round.toI64 else defaultIntervalNs
  ⟨stack, count, ns⟩

/-! ### Symbols from a sidecar -/

structure SymFrame where
  function : Int
  file : Option Int
  line : Option Int

structure SymEntry where
  rva : Nat
  size : Nat
  symbol : Int
  frames : List SymFrame

structure LibSyms where
  debugName : String
  symbolTable : List SymEntry

structure SamplySyms where
  data : List LibSyms
  stringTable : List String

structure SamplySymsResolver where
  libs : HashMap String LibSyms
  stringTable : List String

/-- What `SamplySyms::load` does with a parsed sidecar. -/
def SamplySyms.load (syms : SamplySyms) : SamplySyms :=
  { syms with
    data := syms.data.map fun lib =>
      { lib with symbolTable := sortByKey SymEntry.rva lib.symbolTable } }

/-- Of two libraries with one name the later one counts. -/
def SamplySyms.intoResolver (syms : SamplySyms) : SamplySymsResolver :=
  ⟨HashMap.indexBy LibSyms.debugName syms.data, syms.stringTable⟩

/-- `binary_search` in a sorted table: the place of the key, or the one it would have. -/
def binarySearch (keys : List Nat) (key : Nat) : Except Nat Nat :=
  match keys.idxOf? key with
  | some i => .ok i
  | none => .error (keys.countP (· < key))

namespace SamplySymsResolver

variable (r : SamplySymsResolver)

def st (idx : Int) : String :=
  if idx < 0 then "" else r.stringTable[toUsize idx]?.getD ""

/-- The frames of a symbol, innermost first. -/
def symFrames (sym : SymEntry) (rva : Nat) : List ResolvedFrame :=
  if sym.frames.isEmpty then [⟨r.st sym.symbol, "", 0, 0, rva⟩]
  else sym.frames.reverse.map fun f =>
    let name := r.st f.function
    { name := if name.isEmpty then r.st sym.symbol else name
      file := (f.file.map r.st).getD ""
      line := f.line.getD 0
      mappingIndex := 0
      address := rva }

def lookup (debugName : String) (rva : Nat) : Option (List ResolvedFrame) := do
  let lib ← r.libs.lookup debugName
  let idx ←
    match binarySearch (lib.symbolTable.map SymEntry.rva) rva with
    | .ok i => some i
    | .error 0 => none
    -- between two symbols the address belongs to the earlier one
    | .error (i + 1) => some i
  let sym ← lib.symbolTable[idx]?
  if rva ≥ (sym.rva + sym.size) % 2 ^ 64 then none else some (r.symFrames sym rva)

/-- The library of a function, the first one when none is given. -/
def libIdx (thread : Thread) (funcId : Nat) : Nat :=
  match thread.funcTable.resource[funcId]? with
  | some res =>
    if res ≥ 0 then
      let lib := thread.resourceTable.bind fun rt => rt.lib[toUsize res]?
      ((lib.filter (0 ≤ ·)).map toUsize).getD 0
    else 0
  | none => 0

def fallbackName (lib : Option Lib) (addr : Nat) : String :=
  let hex := String.ofList (Nat.toDigits 16 addr)
  match lib with
  | some l => (if l.name.isEmpty then "??" else l.name) ++ "+0x" ++ hex
  | none => "??+0x" ++ hex

def resolve : FrameResolver := fun profile thread frameIdx =>
  let fi := toUsize frameIdx
  let addr := (max (thread.frameTable.address[fi]?.getD 0) 0).toNat
  let idx := libIdx thread (toUsize (thread.frameTable.func[fi]?.getD 0))
  let lib := profile.libs[idx]?
  match lib.bind fun l => r.lookup l.debugName addr with
  | some frames => some (frames.map fun f => { f with mappingIndex := idx })
  | none => some [⟨fallbackName lib addr, "", 0, idx, addr⟩]

end SamplySymsResolver

end Firefox
