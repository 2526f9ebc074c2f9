/-
The line output of a wasm guest (`fd_write` of `crates/moonbit-wasm-host`).

A call gathers the bytes that its iovecs name in the guest's memory, puts them
behind what the line buffer holds and prints every line this completes.  `usize`
arithmetic is that of a 64-bit host and wraps; a slice outside the memory is a
panic, `none`.
-/
import MoonPprof.Bytes
import MoonPprof.MachineInt

open MachineInt

namespace WasmHost

/-! ### Printed text -/

/-- The second byte that may follow the first byte of a three-byte character. -/
def secondOfThree (b0 b1 : UInt8) : Bool :=
  if b0 == 0xE0 then 0xA0 ≤ b1 && b1 ≤ 0xBF
  else if b0 == 0xED then 0x80 ≤ b1 && b1 ≤ 0x9F
  else isContinuation b1

/-- The second byte that may follow the first byte of a four-byte character. -/
def secondOfFour (b0 b1 : UInt8) : Bool :=
  if b0 == 0xF0 then 0x90 ≤ b1 && b1 ≤ 0xBF
  else if b0 == 0xF4 then 0x80 ≤ b1 && b1 ≤ 0x8F
  else isContinuation b1

/-- U+FFFD. -/
def replacement : Bytes := [0xEF, 0xBF, 0xBD]

/-- Whether bytes of these kinds follow, and how many do before one does not. -/
def continues : List (UInt8 → Bool) → Bytes → Bool × Nat
  | [], _ => (true, 0)
  | _ :: _, [] => (false, 0)
  | kind :: kinds, b :: rest =>
    if kind b then
      let (whole, n) := continues kinds rest
      (whole, n + 1)
    else (false, 0)

/-- Whether `b0` starts a character, and how many of the bytes behind it belong to it or to a
beginning of one that breaks off. -/
def charTail (b0 : UInt8) (rest : Bytes) : Bool × Nat :=
  if b0 < 0x80 then (true, 0)
  else if b0 < 0xC2 then (false, 0)
  else if b0 < 0xE0 then continues [isContinuation] rest
  else if b0 < 0xF0 then continues [secondOfThree b0, isContinuation] rest
  else if b0 < 0xF5 then continues [secondOfFour b0, isContinuation, isContinuation] rest
  else (false, 0)

/-- The text from a byte on, of which `k` bytes have been read. -/
def lossyFrom : Nat → Bytes → Bytes
  | _, [] => []
  | k + 1, _ :: rest => lossyFrom k rest
  | 0, b0 :: rest =>
    let (whole, n) := charTail b0 rest
    (if whole then b0 :: rest.take n else replacement) ++ lossyFrom n rest

/-- `String::from_utf8_lossy`: a beginning of a character that breaks off reads as one
replacement character, as does any other byte that starts none. -/
def fromUtf8Lossy (s : Bytes) : Bytes := lossyFrom 0 s

/-! ### The call -/

/-- `x as usize`, and what a `usize` holds after an operation. -/
def usize (x : Int) : Nat := (x % 2 ^ 64).toNat

/-- `data[start..stop]`. -/
def slice (data : Bytes) (start stop : Nat) : Option Bytes :=
  if start ≤ stop ∧ stop ≤ data.length then some ((data.drop start).take (stop - start)) else none

/-- `data[start..stop].copy_from_slice(bytes)`. -/
def copyInto (data : Bytes) (start stop : Nat) (bytes : Bytes) : Option Bytes :=
  if start ≤ stop ∧ stop ≤ data.length ∧ bytes.length = stop - start then
    some (data.take start ++ bytes ++ data.drop stop)
  else none

/-- The loop over `n` iovecs from the `i`th on: their bytes and how many these are, or an errno. -/
def readIovs (data : Bytes) (iovsPtr : Nat) : Nat → Nat → Bytes → Nat →
    Option (Except Int (Bytes × Nat))
  | 0, _, payload, total => some (.ok (payload, total))
  | n + 1, i, payload, total =>
    let entry := usize (iovsPtr + usize (i * 8))
    -- an entry or a text outside the memory is refused
    if data.length < usize (entry + 8) then some (.error 28)
    else do
      let bufPtr := leNat (← slice data entry (usize (entry + 4)))
      let bufLen := leNat (← slice data (usize (entry + 4)) (usize (entry + 8)))
      if data.length < bufPtr + bufLen then some (.error 28)
      else
        let bytes ← slice data bufPtr (bufPtr + bufLen)
        readIovs data iovsPtr n (i + 1) (payload ++ bytes) ((total + bufLen) % 2 ^ 32)

def newline : UInt8 := 0x0A

/-- The loop that takes whole lines from the buffer; a round takes one byte or more, so as many
rounds as there are bytes are enough. -/
def drainLines : Nat → Bytes → List Bytes × Bytes
  | 0, buf => ([], buf)
  | fuel + 1, buf =>
    match buf.findIdx? (· = newline) with
    | some nl =>
      let (lines, rest) := drainLines fuel (buf.drop (nl + 1))
      (buf.take nl :: lines, rest)
    | none => ([], buf)

/-- The host, with the memory that the guest exports and the lines printed so far. -/
structure Host where
  memory : Option Bytes
  stdoutBytes : Bytes
  stdout : List Bytes
  stderr : List Bytes
deriving DecidableEq

/-- The byte count, where the guest wants it. -/
def storeWritten (data : Bytes) (np total : Nat) : Option Bytes :=
  if usize (np + 4) ≤ data.length then copyInto data np (usize (np + 4)) (leBytes 4 total)
  else some data

/-- The bytes of a call behind the buffer, less the lines that are printed. -/
def Host.printLines (host : Host) (fd : Int) (payload : Bytes) : Host :=
  -- one buffer for both file descriptors
  let buf := host.stdoutBytes ++ payload
  let (lines, rest) := drainLines buf.length buf
  let printed := lines.map fromUtf8Lossy
  { host with
    stdoutBytes := rest
    stdout := if fd = 2 then host.stdout else host.stdout ++ printed
    stderr := if fd = 2 then host.stderr ++ printed else host.stderr }

def fdWrite (host : Host) (fd iovsPtr iovsLen nwrittenPtr : Int) : Option (Int × Host) :=
  match host.memory with
  -- a guest without a memory
  | none => some (8, host)
  | some data =>
    match readIovs data (usize iovsPtr) (usize iovsLen) 0 [] 0 with
    | none => none
    | some (.error errno) => some (errno, host)
    | some (.ok (payload, total)) =>
      match storeWritten data (usize nwrittenPtr) total with
      | none => none
      | some data => some (0, { host with memory := some data }.printLines fd payload)

end WasmHost
