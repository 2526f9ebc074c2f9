/-
The reader of the hook's output (`runners/moon-pprof/src/cmd_memprofile_native.rs`).

`parseRawStream` reads the untagged allocation records and
`parseRetainedRawStream` the tagged `A`/`F` records.  Both stop without an
error where the stream breaks off inside a record.  Arithmetic on counts and
bytes is that of an `i64` register.

The source reads at an index `p` into the buffer; here the functions take the
bytes from `p` on, and `p` itself only where an error message shows it.
-/
import MoonPprof.Bytes
import MoonPprof.HashMap
import MoonPprof.MachineInt

open MachineInt

namespace RawStream

/-- `std::str::from_utf8(..).unwrap_or("<bad utf8>")`. -/
def fromUtf8Lossy (name : Bytes) : Bytes := if validUtf8 name then name else ascii "<bad utf8>"

def isInternalFrame (name : Bytes) : Bool :=
  let n := name.dropWhile (· == '_'.toUInt8)
  [ascii "malloc", ascii "calloc", ascii "realloc"].contains n
    || (ascii "moonbit_malloc").isPrefixOf n
    || (ascii "moonbit_realloc").isPrefixOf n
    || (ascii "moonbit_make_").isPrefixOf n
    || (ascii "mi_").isPrefixOf n
    || (ascii "moon_pprof_").isPrefixOf n
    || n == ascii "mpprof_init"
    || n == ascii "mpprof_fini"

/-- `&buf[p..p + n]` and what follows it, when the buffer is long enough. -/
def takeBytes (n : Nat) (rest : Bytes) : Option (Bytes × Bytes) :=
  if rest.length < n then none else some (rest.take n, rest.drop n)

/-- `u64::from_le_bytes`. -/
def u64FromLe (bytes : Bytes) : UInt64 := UInt64.ofNat (leNat bytes)

/-- The `for _ in 0..nframes` loop; `none` is `ok = false`. -/
def readFrames : Nat → Bytes → Option (List Bytes × Bytes)
  | 0, rest => some ([], rest)
  | nframes + 1, rest => do
    let (len, rest) ← takeBytes 2 rest
    let (name, rest) ← takeBytes (leNat len) rest
    let (frames, rest) ← readFrames nframes rest
    some (fromUtf8Lossy name :: frames, rest)

/-- A header of `headerLen` bytes, the frame count and the frames. -/
def readRecord (headerLen : Nat) (rest : Bytes) : Option ((Bytes × List Bytes) × Bytes) := do
  let (head, rest) ← takeBytes (headerLen + 1) rest
  let (frames, rest) ← readFrames (head[headerLen]?.getD 0).toNat rest
  some ((head.take headerLen, frames), rest)

/-- The frames from the first that is not internal on. -/
def userFrames (frames : List Bytes) : List Bytes :=
  let leafStart := (frames.findIdx? fun n => !isInternalFrame n).getD frames.length
  frames.drop leafStart

structure SampleAgg where
  count : Int
  bytes : Int
deriving DecidableEq

/-- `entry.count += count; entry.bytes += bytes`. -/
def SampleAgg.add (e : SampleAgg) (count bytes : Int) : SampleAgg :=
  ⟨wrap 64 (e.count + count), wrap 64 (e.bytes + bytes)⟩

abbrev SampleMap := HashMap (List Bytes) SampleAgg

/-- `sample_rate.max(1) as i64`. -/
def scaleOf (sampleRate : UInt32) : Int := max sampleRate.toNat 1

/-- `size as i64 * scale`. -/
def scaledBytes (scale : Int) (size : UInt64) : Int := wrap 64 (wrap 64 size.toNat * scale)

/-- What one complete record adds to `samples`. -/
def addSample (scale : Int) (samples : SampleMap) (size : UInt64) (frames : List Bytes) :
    SampleMap :=
  let frames := userFrames frames
  if frames.isEmpty then samples
  else samples.entryOr frames ⟨0, 0⟩ fun e => e.add scale (scaledBytes scale size)

theorem takeBytes_eq_some {n : Nat} {s a r : Bytes} (h : takeBytes n s = some (a, r)) :
    s = a ++ r ∧ a.length = n := by
  rw [takeBytes] at h
  split at h
  · cases h
  · cases h
    refine ⟨(List.take_append_drop n s).symm, ?_⟩
    rw [List.length_take]
    omega

theorem readFrames_length_le {n : Nat} {s r : Bytes} {frames : List Bytes}
    (h : readFrames n s = some (frames, r)) : r.length ≤ s.length := by
  induction n generalizing s frames with
  | zero =>
    cases h
    exact Nat.le_refl _
  | succ n ih =>
    rw [readFrames] at h
    simp only [Option.bind_eq_bind, Option.bind_eq_some_iff, Prod.exists] at h
    obtain ⟨len, s₁, h₁, name, s₂, h₂, fs, s₃, h₃, heq⟩ := h
    cases heq
    have := (takeBytes_eq_some h₁).1
    have := (takeBytes_eq_some h₂).1
    have := ih h₃
    subst s s₁
    simp only [List.length_append]
    omega

/-- A record is never empty. -/
theorem readRecord_length_lt {k : Nat} {s r : Bytes} {x : Bytes × List Bytes}
    (h : readRecord k s = some (x, r)) : r.length < s.length := by
  rw [readRecord] at h
  simp only [Option.bind_eq_bind, Option.bind_eq_some_iff, Prod.exists] at h
  obtain ⟨head, s₁, h₁, fs, s₂, h₂, heq⟩ := h
  cases heq
  obtain ⟨rfl, hlen⟩ := takeBytes_eq_some h₁
  have := readFrames_length_le h₂
  rw [List.length_append, hlen]
  omega

/-- The `while` loop of `parse_raw_stream`. -/
def parseRawFrom (scale : Int) (samples : SampleMap) (rest : Bytes) : SampleMap :=
  match _h : readRecord 8 rest with
  | none => samples
  | some ((head, frames), rest') =>
    parseRawFrom scale (addSample scale samples (u64FromLe head) frames) rest'
termination_by rest.length
decreasing_by exact readRecord_length_lt _h

def parseRawStream (buf : Bytes) (sampleRate : UInt32) : Except Bytes SampleMap :=
  .ok (parseRawFrom (scaleOf sampleRate) ∅ buf)

structure LiveAlloc where
  frames : List Bytes
  count : Int
  bytes : Int
deriving DecidableEq

abbrev LiveMap := HashMap UInt64 LiveAlloc

/-- What a complete `A` record does to `live`. -/
def insertLive (scale : Int) (live : LiveMap) (ptr size : UInt64) (frames : List Bytes) :
    LiveMap :=
  if ptr == 0 then live
  else
    let frames := userFrames frames
    if frames.isEmpty then live
    else live.insert ptr ⟨frames, scale, scaledBytes scale size⟩

/-- `{tag:02x}`. -/
def hex2 (tag : UInt8) : Bytes :=
  let digits := lowerHex tag.toNat
  List.replicate (2 - digits.length) '0'.toUInt8 ++ digits

def unknownTag (tag : UInt8) (offset : Nat) : Bytes :=
  ascii "unknown retained raw record tag 0x" ++ hex2 tag ++ ascii " at offset " ++
    (Nat.toDigits 10 offset).map Char.toUInt8

/-- The `while` loop of `parse_retained_raw_stream`; `p` is the offset of
`rest`. -/
def parseRetainedFrom (scale : Int) (live : LiveMap) (p : Nat) (rest : Bytes) :
    Except Bytes LiveMap :=
  match rest with
  | [] => .ok live
  | tag :: rest =>
    if tag = 'A'.toUInt8 then
      match h : readRecord 16 rest with
      | none => .ok live
      | some ((head, frames), rest') =>
        parseRetainedFrom scale
          (insertLive scale live (u64FromLe (head.take 8)) (u64FromLe (head.drop 8)) frames)
          (p + 1 + (rest.length - rest'.length)) rest'
    else if tag = 'F'.toUInt8 then
      match h : takeBytes 8 rest with
      | none => .ok live
      | some (head, rest') =>
        parseRetainedFrom scale (live.erase (u64FromLe head)) (p + 1 + 8) rest'
    else .error (unknownTag tag p)
termination_by rest.length
decreasing_by
  · have := readRecord_length_lt h
    simp only [List.length_cons]
    omega
  · have := congrArg List.length (takeBytes_eq_some h).1
    rw [List.length_append] at this
    simp only [List.length_cons]
    omega

/-- `live.into_values()` comes in the order `it`. -/
def parseRetainedRawStream (it : IterOrder LiveAlloc) (buf : Bytes) (sampleRate : UInt32) :
    Except Bytes SampleMap := do
  let live ← parseRetainedFrom (scaleOf sampleRate) ∅ 0 buf
  .ok (HashMap.groupFold LiveAlloc.frames (fun e a => e.add a.count a.bytes) ⟨0, 0⟩
    (HashMap.intoValues it live) ∅)

end RawStream
