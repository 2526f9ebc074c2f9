/-
The allocation hook (`assets/native_alloc_hook.c`).

A hook call resolves its backtrace and builds one record in an 8192-byte stack
buffer, whose contents before the first `memcpy` are arbitrary; it then appends
the record to the output file.  A `memcpy` outside the buffer has no result.

* `Cursor.push_written` — what a `memcpy` at the write position leaves behind;
* `writeFrames_eq` — the frame loop writes exactly the `recordedNames`;
* `allocRecord_eq`, `allocPtrRecord_eq` — each record stays inside the buffer
  and is the encoding of its header and of the recorded names.
-/
import MoonPprof.Bytes
import MoonPprof.MachineInt

open MachineInt

namespace NativeHook

/-- `sizeof(buf)`. -/
def bufSize : Nat := 8192

/-- The cap on one symbol name. -/
def nameCap : Nat := 250

/-- The capacity of `bt`. -/
def maxFrames : Nat := 64

/-- One return address of a backtrace with what `dladdr` says about it. -/
structure Frame where
  addr : UInt64
  dliSname : Option CString

/-- `snprintf(fallback, .., "0x%lx", bt[i])`. -/
def fallback (addr : UInt64) : CString where
  bytes := ascii "0x" ++ lowerHex addr.toNat
  noNul := by
    rw [List.mem_append, not_or]
    exact ⟨by decide, lowerHex_noNul _⟩

def Frame.name (f : Frame) : CString := f.dliSname.getD (fallback f.addr)

/-- `unsigned char buf[8192]`. -/
structure Buffer where
  bytes : Bytes
  size : bytes.length = bufSize

/-- `memcpy(buf + pos, src, len)`, when it stays inside the buffer. -/
def Buffer.store (buf : Buffer) (pos : Nat) (src : Bytes) : Option Buffer :=
  if h : pos + src.length ≤ bufSize then
    some ⟨buf.bytes.take pos ++ src ++ buf.bytes.drop (pos + src.length), by
      have := buf.size
      simp only [List.length_append, List.length_take, List.length_drop]
      omega⟩
  else none

/-- The record buffer and the write position `pos`. -/
structure Cursor where
  buf : Buffer
  pos : Nat

/-- The cursor of a fresh buffer. -/
def Cursor.start (junk : Buffer) : Cursor := ⟨junk, 0⟩

/-- `memcpy(buf + pos, src, len); pos += len`. -/
def Cursor.push (c : Cursor) (src : Bytes) : Option Cursor :=
  (c.buf.store c.pos src).map fun buf => ⟨buf, c.pos + src.length⟩

/-- The `for` loop over the frames, with the number `kept` so far. -/
def writeFrames : List Frame → Cursor → Nat → Option (Cursor × Nat)
  | [], c, kept => some (c, kept)
  | f :: bt, c, kept =>
    if c.pos + 2 + nameCap > bufSize then some (c, kept)
    else do
      let nameLen := f.name.strnlen nameCap
      let c ← c.push (leBytes 2 nameLen)
      let c ← c.push (f.name.bytes.take nameLen)
      writeFrames bt c (kept + 1)

/-- From the byte reserved for the frame count on: the frames, then the count
filled in.  The result is what `fwrite(buf, 1, pos, ..)` writes. -/
def finishRecord (c : Cursor) (bt : List Frame) : Option Bytes := do
  let nframesPos := c.pos
  let (c, kept) ← writeFrames bt ⟨c.buf, c.pos + 1⟩ 0
  let buf ← c.buf.store nframesPos [UInt8.ofNat kept]
  some (buf.bytes.take c.pos)

/-- The record of `__moon_pprof_alloc_hook`. -/
def allocRecord (buf : Buffer) (size : UInt64) (bt : List Frame) : Option Bytes := do
  let c ← (Cursor.start buf).push (leBytes 8 size.toNat)
  finishRecord c bt

/-- The record of `__moon_pprof_alloc_ptr_hook`. -/
def allocPtrRecord (buf : Buffer) (ptr size : UInt64) (bt : List Frame) : Option Bytes := do
  let c ← (Cursor.start buf).push ['A'.toUInt8]
  let c ← c.push (leBytes 8 ptr.toNat)
  let c ← c.push (leBytes 8 size.toNat)
  finishRecord c bt

/-- The record of `__moon_pprof_free_hook`. -/
def freeRecord (ptr : UInt64) : Bytes := 'F'.toUInt8 :: leBytes 8 ptr.toNat

/-- The process-wide state of the hook: `mpprof_out` with the bytes written to
it, `mpprof_counter`, `mpprof_rate` and `mpprof_retained`. -/
structure HookState where
  out : Option Bytes
  counter : UInt64
  rate : UInt64
  retained : Bool

/-- The sampling decision, taken under the mutex. -/
def HookState.sampleDecision (s : HookState) : Bool × HookState :=
  let n := s.counter + 1
  (s.rate ≤ 1 || (n - 1) % s.rate == 0, { s with counter := n })

/-- `fwrite` of a whole record, under the mutex. -/
def HookState.append (s : HookState) (record : Bytes) : HookState :=
  { s with out := s.out.map (· ++ record) }

/-- From `backtrace` on: build the record, unless the backtrace is empty, and
write it out. -/
def HookState.emit (s : HookState) (stack : List Frame)
    (record : List Frame → Option Bytes) : Option HookState :=
  let bt := stack.take maxFrames
  if bt.isEmpty then some s else (record bt).map s.append

/-- `__moon_pprof_alloc_hook(size)` called on the stack `stack`; `junk` is what
the record buffer holds at first. -/
def allocHook (inHook : Bool) (junk : Buffer) (size : UInt64) (stack : List Frame)
    (s : HookState) : Option HookState :=
  if inHook || s.out.isNone then some s
  else
    let (doSample, s) := s.sampleDecision
    if !doSample then some s else s.emit stack (allocRecord junk size)

/-- The test at the head of the pointer hooks. -/
def HookState.ignores (s : HookState) (ptr : UInt64) : Bool :=
  s.out.isNone || !s.retained || ptr == 0

/-- `__moon_pprof_alloc_ptr_hook(ptr, size)`. -/
def allocPtrHook (inHook : Bool) (junk : Buffer) (ptr size : UInt64) (stack : List Frame)
    (s : HookState) : Option HookState :=
  if inHook || s.ignores ptr then some s
  else
    let (doSample, s) := s.sampleDecision
    if !doSample then some s else s.emit stack (allocPtrRecord junk ptr size)

/-- `__moon_pprof_free_hook(ptr)`. -/
def freeHook (inHook : Bool) (ptr : UInt64) (s : HookState) : HookState :=
  if inHook || s.ignores ptr then s else s.append (freeRecord ptr)

/-! ### What a record contains -/

/-- The names a record keeps of a backtrace when its frames start at `pos`:
each cut to `nameCap` bytes, up to the first that finds fewer than 252 bytes
left. -/
def recordedNames (pos : Nat) : List Frame → List Bytes
  | [] => []
  | f :: bt =>
    if bufSize < pos + 252 then []
    else
      let name := f.name.bytes.take nameCap
      name :: recordedNames (pos + 2 + name.length) bt

/-- A name with its length before it. -/
def encodeName (name : Bytes) : Bytes := leBytes 2 name.length ++ name

/-- A record: its header, the frame count and the names. -/
def encodeRecord (header : Bytes) (names : List Bytes) : Bytes :=
  header ++ UInt8.ofNat names.length :: names.flatMap encodeName

/-- The bytes before the write position. -/
def Cursor.written (c : Cursor) : Bytes := c.buf.bytes.take c.pos

theorem recordedNames_length_le (pos : Nat) (bt : List Frame) :
    (recordedNames pos bt).length ≤ bt.length := by
  induction bt generalizing pos with
  | nil => exact Nat.le_refl 0
  | cons f bt ih =>
    rw [recordedNames]
    split
    · exact Nat.zero_le _
    · exact Nat.succ_le_succ (ih _)

theorem recordedNames_le_nameCap {pos : Nat} {bt : List Frame} :
    ∀ name ∈ recordedNames pos bt, name.length ≤ nameCap := by
  induction bt generalizing pos with
  | nil => simp [recordedNames]
  | cons f bt ih =>
    intro name hname
    rw [recordedNames] at hname
    split at hname
    · cases hname
    · rcases List.mem_cons.mp hname with rfl | hname
      · rw [List.length_take]
        exact Nat.min_le_left _ _
      · exact ih name hname

/-! ### The buffer -/

/-- A `memcpy` replaces the bytes it covers and no others. -/
theorem Buffer.store_eq (buf : Buffer) (pre old src post : Bytes)
    (h : buf.bytes.take (pre ++ old ++ post).length = pre ++ old ++ post)
    (hlen : src.length = old.length) (hfit : (pre ++ old).length ≤ bufSize) :
    ∃ buf', buf.store pre.length src = some buf' ∧
      buf'.bytes.take (pre ++ old ++ post).length = pre ++ src ++ post := by
  obtain ⟨tail, htail⟩ : ∃ tail, buf.bytes = pre ++ old ++ post ++ tail :=
    ⟨_, by conv_lhs => rw [← List.take_append_drop (pre ++ old ++ post).length buf.bytes, h]⟩
  have hpos : pre.length + src.length ≤ bufSize := by
    rw [List.length_append] at hfit
    omega
  refine ⟨_, dif_pos hpos, ?_⟩
  have htake : buf.bytes.take pre.length = pre := by
    rw [htail, List.append_assoc, List.append_assoc, List.take_left]
  have hdrop : buf.bytes.drop (pre.length + src.length) = post ++ tail := by
    rw [hlen, ← List.length_append, htail, List.append_assoc (pre ++ old), List.drop_left]
  show (buf.bytes.take pre.length ++ src ++ buf.bytes.drop (pre.length + src.length)).take _ = _
  rw [htake, hdrop, ← List.append_assoc,
    show (pre ++ old ++ post).length = (pre ++ src ++ post).length by simp [hlen]]
  exact List.take_left

@[simp] theorem Cursor.start_pos (junk : Buffer) : (Cursor.start junk).pos = 0 := rfl

@[simp] theorem Cursor.start_written (junk : Buffer) : (Cursor.start junk).written = [] := rfl

/-- A `memcpy` at the write position appends to what was written. -/
theorem Cursor.push_written (c : Cursor) (src : Bytes) (h : c.pos + src.length ≤ bufSize) :
    ∃ c', c.push src = some c' ∧ c'.pos = c.pos + src.length ∧
      c'.written = c.written ++ src := by
  set old := (c.buf.bytes.drop c.pos).take src.length with hold
  have hsize := c.buf.size
  have hwlen : c.written.length = c.pos := by
    rw [Cursor.written, List.length_take]
    omega
  have holen : old.length = src.length := by
    rw [hold, List.length_take, List.length_drop]
    omega
  have hlen : (c.written ++ old ++ []).length = c.pos + src.length := by
    rw [List.append_nil, List.length_append, hwlen, holen]
  obtain ⟨buf', hstore, htake⟩ := Buffer.store_eq c.buf c.written old src [] (by
      rw [hlen, List.take_add, List.append_nil]
      rfl) holen.symm (by
      rw [List.length_append, hwlen, holen]
      exact h)
  rw [hwlen] at hstore
  refine ⟨⟨buf', c.pos + src.length⟩, by rw [Cursor.push, hstore]; rfl, rfl, ?_⟩
  rw [hlen, List.append_nil] at htake
  exact htake

/-! ### The frame loop -/

/-- The loop writes the recorded names and counts them; it never leaves the
buffer. -/
theorem writeFrames_eq (bt : List Frame) (c : Cursor) (kept : Nat) (hpos : c.pos ≤ bufSize) :
    ∃ c', writeFrames bt c kept = some (c', kept + (recordedNames c.pos bt).length) ∧
      c'.pos = c.pos + ((recordedNames c.pos bt).flatMap encodeName).length ∧
      c'.pos ≤ bufSize ∧
      c'.written = c.written ++ (recordedNames c.pos bt).flatMap encodeName := by
  induction bt generalizing c kept with
  | nil => exact ⟨c, rfl, rfl, hpos, (List.append_nil _).symm⟩
  | cons f bt ih =>
    rw [writeFrames, recordedNames]
    have hcap : nameCap = 250 := rfl
    by_cases hfull : c.pos + 2 + nameCap > bufSize
    · rw [if_pos hfull, if_pos (by omega)]
      exact ⟨c, rfl, rfl, hpos, (List.append_nil _).symm⟩
    · rw [if_neg hfull, if_neg (by omega)]
      set name := f.name.bytes.take nameCap with hname
      have hlen : f.name.strnlen nameCap = name.length := by
        rw [hname, List.length_take, CString.strnlen, Nat.min_comm]
      have htake : f.name.bytes.take name.length = name := by
        rw [hname, List.length_take, ← List.take_eq_take_min]
      have hle : name.length ≤ nameCap := by
        rw [hname, List.length_take]
        exact Nat.min_le_left _ _
      obtain ⟨c₁, hpush₁, hpos₁, hwr₁⟩ :=
        Cursor.push_written c (leBytes 2 name.length) (by rw [leBytes_length]; omega)
      rw [leBytes_length] at hpos₁
      obtain ⟨c₂, hpush₂, hpos₂, hwr₂⟩ := Cursor.push_written c₁ name (by omega)
      -- a name and its length fit, since room for the longest name was left
      obtain ⟨c', hrest, hpos', hle', hwr'⟩ := ih c₂ (kept + 1) (by omega)
      rw [show c₂.pos = c.pos + 2 + name.length by omega] at hrest hpos' hwr'
      refine ⟨c', ?_, ?_, hle', ?_⟩
      · simp only [hlen, htake, hpush₁, hpush₂, hrest, Option.bind_eq_bind, Option.bind_some,
          List.length_cons]
        congr 2
        omega
      · rw [hpos', List.flatMap_cons, List.length_append, encodeName, List.length_append,
          leBytes_length]
        omega
      · rw [hwr', hwr₂, hwr₁, List.flatMap_cons, encodeName]
        simp only [List.append_assoc]

/-- The record that ends a header: the count and the names. -/
theorem finishRecord_eq {c : Cursor} {bt : List Frame} (hpos : c.pos + 1 ≤ bufSize) :
    finishRecord c bt = some (encodeRecord c.written (recordedNames (c.pos + 1) bt)) := by
  set names := recordedNames (c.pos + 1) bt with hnames
  have hsize : c.pos < c.buf.bytes.length := by
    rw [c.buf.size]
    omega
  -- The reserved byte is arbitrary until the count is filled in.
  obtain ⟨x, hx⟩ : ∃ x, (⟨c.buf, c.pos + 1⟩ : Cursor).written = c.written ++ [x] := by
    exact ⟨c.buf.bytes[c.pos], List.take_succ_eq_append_getElem hsize⟩
  have hwlen : c.written.length = c.pos := by
    rw [Cursor.written, List.length_take]
    omega
  obtain ⟨c', hloop, hpos', hle', hwr'⟩ := writeFrames_eq bt ⟨c.buf, c.pos + 1⟩ 0 hpos
  simp only [← hnames, Nat.zero_add] at hloop hpos' hwr'
  rw [hx] at hwr'
  have hlen : (c.written ++ [x] ++ names.flatMap encodeName).length = c'.pos := by
    rw [List.length_append, List.length_append, hwlen, List.length_singleton, hpos']
  obtain ⟨buf', hstore, htake⟩ := Buffer.store_eq c'.buf c.written [x]
    [UInt8.ofNat names.length] (names.flatMap encodeName)
    (by rw [hlen]; exact hwr') rfl (by
      rw [List.length_append, hwlen, List.length_singleton]
      exact hpos)
  rw [hwlen] at hstore
  rw [hlen] at htake
  rw [finishRecord]
  simp only [hloop, Option.bind_eq_bind, Option.bind_some, hstore, htake]
  rw [encodeRecord, List.append_assoc, List.singleton_append]

theorem allocRecord_eq (junk : Buffer) (size : UInt64) (bt : List Frame) :
    allocRecord junk size bt =
      some (encodeRecord (leBytes 8 size.toNat) (recordedNames 9 bt)) := by
  have hbuf : bufSize = 8192 := rfl
  obtain ⟨c, hpush, hpos, hwr⟩ :=
    Cursor.push_written (Cursor.start junk) (leBytes 8 size.toNat) (by simp [hbuf])
  simp only [Cursor.start_pos, Cursor.start_written, leBytes_length, Nat.zero_add,
    List.nil_append] at hpos hwr
  rw [allocRecord, hpush, Option.bind_eq_bind, Option.bind_some,
    finishRecord_eq (by omega), hwr, hpos]

/-- The header of a tagged record. -/
def allocPtrHeader (ptr size : UInt64) : Bytes :=
  'A'.toUInt8 :: (leBytes 8 ptr.toNat ++ leBytes 8 size.toNat)

theorem allocPtrRecord_eq (junk : Buffer) (ptr size : UInt64) (bt : List Frame) :
    allocPtrRecord junk ptr size bt =
      some (encodeRecord (allocPtrHeader ptr size) (recordedNames 18 bt)) := by
  have hbuf : bufSize = 8192 := rfl
  obtain ⟨c₁, hpush₁, hpos₁, hwr₁⟩ :=
    Cursor.push_written (Cursor.start junk) ['A'.toUInt8] (by simp [hbuf])
  obtain ⟨c₂, hpush₂, hpos₂, hwr₂⟩ :=
    Cursor.push_written c₁ (leBytes 8 ptr.toNat) (by simp [hbuf, hpos₁])
  obtain ⟨c₃, hpush₃, hpos₃, hwr₃⟩ :=
    Cursor.push_written c₂ (leBytes 8 size.toNat) (by simp [hbuf, hpos₁, hpos₂])
  simp only [Cursor.start_pos, Cursor.start_written, leBytes_length, List.length_singleton,
    Nat.zero_add, List.nil_append] at hpos₁ hpos₂ hpos₃ hwr₁
  rw [allocPtrRecord]
  simp only [hpush₁, hpush₂, hpush₃, Option.bind_eq_bind, Option.bind_some]
  rw [finishRecord_eq (by omega), hwr₃, hwr₂, hwr₁, show c₃.pos + 1 = 18 by omega]
  rfl

end NativeHook
