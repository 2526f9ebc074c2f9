/-
Requests that `fd_write` can answer.

`fdWrite` computes as a release build does, where `usize` and `u32` wrap.
`fdWriteChecked` is the same call with every sum and product checked, as in a
debug build: `none` is an overflow or a slice outside the memory.

* `fdWrite_of_checked` — what does not overflow is computed the same;
* `readIovsChecked_eq` — the loop over the iovecs, by what it accepts of them;
* `fdWrite_safe_iff` — the requests that get an answer.
-/
import MoonPprof.WasmHost
import Mathlib.Algebra.BigOperators.Group.List.Basic

open MachineInt

namespace WasmHost

/-! ### The call with checked arithmetic -/

/-- The value of a sum or a product of `w`-bit words, unless it overflows. -/
def checked (w x : Nat) : Option Nat := if x < 2 ^ w then some x else none

def readIovsChecked (data : Bytes) (iovsPtr : Nat) : Nat → Nat → Bytes → Nat →
    Option (Except Int (Bytes × Nat))
  | 0, _, payload, total => some (.ok (payload, total))
  | n + 1, i, payload, total => do
    let entry ← checked 64 (iovsPtr + (← checked 64 (i * 8)))
    let stop ← checked 64 (entry + 8)
    if data.length < stop then some (.error 28)
    else
      let bufPtr := leNat (← slice data entry (← checked 64 (entry + 4)))
      let bufLen := leNat (← slice data (← checked 64 (entry + 4)) stop)
      let bufStop ← checked 64 (bufPtr + bufLen)
      if data.length < bufStop then some (.error 28)
      else
        let bytes ← slice data bufPtr bufStop
        readIovsChecked data iovsPtr n (i + 1) (payload ++ bytes) (← checked 32 (total + bufLen))

def storeWrittenChecked (data : Bytes) (np total : Nat) : Option Bytes := do
  let stop ← checked 64 (np + 4)
  if stop ≤ data.length then copyInto data np stop (leBytes 4 total) else some data

def fdWriteChecked (host : Host) (fd iovsPtr iovsLen nwrittenPtr : Int) : Option (Int × Host) :=
  match host.memory with
  | none => some (8, host)
  | some data => do
    match ← readIovsChecked data (usize iovsPtr) (usize iovsLen) 0 [] 0 with
    | .error errno => some (errno, host)
    | .ok (payload, total) =>
      let data ← storeWrittenChecked data (usize nwrittenPtr) total
      some (0, { host with memory := some data }.printLines fd payload)

/-! ### One iovec -/

theorem checked_eq_some {w x y : Nat} : checked w x = some y ↔ x < 2 ^ w ∧ x = y := by
  rw [checked, Option.ite_none_right_eq_some, Option.some.injEq]

theorem checked_of_lt {w x : Nat} (h : x < 2 ^ w) : checked w x = some x := if_pos h

theorem checked_of_le {w x : Nat} (h : 2 ^ w ≤ x) : checked w x = none := if_neg (by omega)

theorem leNat_lt (bs : List UInt8) : leNat bs < 256 ^ bs.length := by
  induction bs with
  | nil => simp [leNat]
  | cons b bs ih =>
    have hb := b.toNat_lt
    rw [leNat, List.length_cons, pow_succ']
    omega

theorem slice_of_le {data : Bytes} {start len : Nat} (h : start + len ≤ data.length) :
    slice data start (start + len) = some ((data.drop start).take len) := by
  rw [slice, if_pos ⟨by omega, h⟩, Nat.add_sub_cancel_left]

theorem bufStop_lt (data : Bytes) (entry : Nat) :
    leNat ((data.drop entry).take 4) + leNat ((data.drop (entry + 4)).take 4) < 2 ^ 64 := by
  have hle : ∀ start, leNat ((data.drop start).take 4) < 2 ^ 32 := by
    intro start
    refine (leNat_lt _).trans_le (le_trans ?_ (show 256 ^ 4 ≤ 2 ^ 32 by norm_num))
    exact Nat.pow_le_pow_right (by omega) (List.length_take_le 4 _)
  have := hle entry
  have := hle (entry + 4)
  omega

/-- The text that the iovec at `entry` names; none when it is refused. -/
def iovecAt (data : Bytes) (entry : Nat) : Option Bytes :=
  if data.length < entry + 8 then none
  else
    let bufPtr := leNat ((data.drop entry).take 4)
    let bufLen := leNat ((data.drop (entry + 4)).take 4)
    if data.length < bufPtr + bufLen then none else some ((data.drop bufPtr).take bufLen)

theorem length_text {data : Bytes} {start len : Nat} (h : start + len ≤ data.length) :
    ((data.drop start).take len).length = len := by
  rw [List.length_take, List.length_drop]
  omega

section

variable {data : Bytes} {iovsPtr i : Nat}

/-- A round of the loop whose sums do not overflow. -/
theorem readIovsChecked_succ (h : iovsPtr + i * 8 + 8 < 2 ^ 64) (n total : Nat) (payload : Bytes) :
    readIovsChecked data iovsPtr (n + 1) i payload total =
      match iovecAt data (iovsPtr + i * 8) with
      | none => some (.error 28)
      | some text => (checked 32 (total + text.length)).bind
          (readIovsChecked data iovsPtr n (i + 1) (payload ++ text)) := by
  have h4 : iovsPtr + i * 8 + 4 < 2 ^ 64 := by omega
  have h0 : iovsPtr + i * 8 < 2 ^ 64 := by omega
  have hi : i * 8 < 2 ^ 64 := by omega
  rw [readIovsChecked]
  simp only [checked_of_lt hi, checked_of_lt h0, checked_of_lt h, checked_of_lt h4,
    Option.bind_eq_bind, Option.bind_some]
  set entry := iovsPtr + i * 8
  by_cases hentry : data.length < entry + 8
  · rw [iovecAt, if_pos hentry, if_pos hentry]
  · have hptr : slice data entry (entry + 4) = _ := slice_of_le (by omega)
    have hlen : slice data (entry + 4) (entry + 4 + 4) = _ := slice_of_le (by omega)
    rw [if_neg hentry, iovecAt, if_neg hentry, hptr, hlen]
    simp only [Option.bind_some, checked_of_lt (bufStop_lt data entry)]
    split
    · rfl
    · rename_i hstop
      rw [slice_of_le (not_lt.mp hstop)]
      simp only [Option.bind_some, length_text (not_lt.mp hstop)]

/-- The same round with the arithmetic of a release build. -/
theorem readIovs_succ (h : iovsPtr + i * 8 + 8 < 2 ^ 64) (n total : Nat) (payload : Bytes) :
    readIovs data iovsPtr (n + 1) i payload total =
      match iovecAt data (iovsPtr + i * 8) with
      | none => some (.error 28)
      | some text =>
        readIovs data iovsPtr n (i + 1) (payload ++ text) ((total + text.length) % 2 ^ 32) := by
  have hi : usize ((i : Int) * 8) = i * 8 := by
    rw [usize]
    omega
  have h0 : usize ((iovsPtr : Int) + ((i * 8 : Nat) : Int)) = iovsPtr + i * 8 := by
    rw [usize]
    omega
  rw [readIovs]
  simp only [hi, h0]
  set entry := iovsPtr + i * 8
  have h4 : usize ((entry : Int) + 4) = entry + 4 := by
    rw [usize]
    omega
  have h8 : usize ((entry : Int) + 8) = entry + 4 + 4 := by
    rw [usize]
    omega
  simp only [h4, h8]
  by_cases hentry : data.length < entry + 4 + 4
  · rw [iovecAt, if_pos hentry, if_pos (by omega)]
  · have hptr : slice data entry (entry + 4) = _ := slice_of_le (by omega)
    have hlen : slice data (entry + 4) (entry + 4 + 4) = _ := slice_of_le (by omega)
    rw [if_neg hentry, iovecAt, if_neg (by omega), hptr, hlen]
    simp only [Option.bind_eq_bind, Option.bind_some]
    split
    · rfl
    · rename_i hstop
      rw [slice_of_le (not_lt.mp hstop)]
      simp only [Option.bind_some, length_text (not_lt.mp hstop)]

/-- A round whose sums overflow. -/
theorem readIovsChecked_overflow (h : 2 ^ 64 ≤ iovsPtr + i * 8 + 8) (n total : Nat)
    (payload : Bytes) : readIovsChecked data iovsPtr (n + 1) i payload total = none := by
  refine Option.eq_none_iff_forall_ne_some.mpr fun r hr => ?_
  simp only [readIovsChecked, Option.bind_eq_bind, Option.bind_eq_some_iff, checked_eq_some] at hr
  obtain ⟨_, ⟨-, rfl⟩, _, ⟨-, rfl⟩, _, ⟨hstop, -⟩, -⟩ := hr
  omega

end

/-! ### Without an overflow -/

theorem readIovs_of_checked {data : Bytes} {iovsPtr n i total : Nat} {payload : Bytes}
    {r : Except Int (Bytes × Nat)}
    (h : readIovsChecked data iovsPtr n i payload total = some r) :
    readIovs data iovsPtr n i payload total = some r := by
  induction n generalizing i payload total with
  | zero => exact h
  | succ n ih =>
    by_cases hsum : iovsPtr + i * 8 + 8 < 2 ^ 64
    · rw [readIovsChecked_succ hsum] at h
      rw [readIovs_succ hsum]
      rcases hiovec : iovecAt data (iovsPtr + i * 8) with _ | text
      · rw [hiovec] at h
        exact h
      · rw [hiovec] at h
        obtain ⟨total', htotal, hrest⟩ := Option.bind_eq_some_iff.mp h
        obtain ⟨hlt, rfl⟩ := checked_eq_some.mp htotal
        simp only [Nat.mod_eq_of_lt hlt]
        exact ih hrest
    · rw [readIovsChecked_overflow (not_lt.mp hsum)] at h
      cases h

theorem storeWritten_of_checked {data data' : Bytes} {np total : Nat}
    (h : storeWrittenChecked data np total = some data') :
    storeWritten data np total = some data' := by
  obtain ⟨stop, hstop, h⟩ := Option.bind_eq_some_iff.mp h
  obtain ⟨hlt, rfl⟩ := checked_eq_some.mp hstop
  have husize : usize ((np : Int) + 4) = np + 4 := by
    rw [usize]
    omega
  rw [storeWritten, husize]
  exact h

/-- A call without an overflow does the same in a release build. -/
theorem fdWrite_of_checked {host : Host} {fd iovsPtr iovsLen nwrittenPtr : Int} {r : Int × Host}
    (h : fdWriteChecked host fd iovsPtr iovsLen nwrittenPtr = some r) :
    fdWrite host fd iovsPtr iovsLen nwrittenPtr = some r := by
  rw [fdWriteChecked] at h
  rw [fdWrite]
  rcases hmem : host.memory with _ | data
  · rw [hmem] at h
    exact h
  · rw [hmem] at h
    obtain ⟨read, hread, h⟩ := Option.bind_eq_some_iff.mp h
    simp only [readIovs_of_checked hread]
    rcases read with errno | ⟨payload, total⟩
    · exact h
    · obtain ⟨data', hstore, h⟩ := Option.bind_eq_some_iff.mp h
      simp only [storeWritten_of_checked hstore]
      exact h

/-! ### What is accepted -/

/-- The texts of the iovecs up to the first that is refused, and whether none is. -/
def acceptedIovs (data : Bytes) (iovsPtr : Nat) : Nat → Nat → List Bytes × Bool
  | 0, _ => ([], true)
  | n + 1, i =>
    match iovecAt data (iovsPtr + i * 8) with
    | none => ([], false)
    | some text =>
      let (texts, all) := acceptedIovs data iovsPtr n (i + 1)
      (text :: texts, all)

theorem lt_of_iovecAt {data text : Bytes} {entry : Nat} (h : iovecAt data entry = some text) :
    entry + 8 ≤ data.length := by
  rw [iovecAt] at h
  split at h
  · cases h
  · omega

/-- The loop fails when the accepted texts are too long, and else has them all. -/
theorem readIovsChecked_eq {data : Bytes} (hdata : data.length < 2 ^ 63) {iovsPtr n i total : Nat}
    (hentry : iovsPtr + i * 8 < 2 ^ 63) (htotal : total < 2 ^ 32) {payload : Bytes} :
    readIovsChecked data iovsPtr n i payload total =
      (checked 32 (total + ((acceptedIovs data iovsPtr n i).1.map List.length).sum)).map
        fun total => if (acceptedIovs data iovsPtr n i).2 then
          .ok (payload ++ (acceptedIovs data iovsPtr n i).1.flatten, total) else .error 28 := by
  induction n generalizing i payload total with
  | zero =>
    simp [readIovsChecked, acceptedIovs, checked_of_lt htotal]
  | succ n ih =>
    rw [readIovsChecked_succ (by omega), acceptedIovs]
    rcases hiovec : iovecAt data (iovsPtr + i * 8) with _ | text
    · simp [checked_of_lt htotal]
    · have hinside := lt_of_iovecAt hiovec
      simp only [List.map_cons, List.sum_cons, List.flatten_cons, ← Nat.add_assoc,
        ← List.append_assoc]
      by_cases hlt : total + text.length < 2 ^ 32
      · rw [checked_of_lt hlt, Option.bind_some, ih (by omega) hlt]
      · rw [checked_of_le (not_lt.mp hlt), checked_of_le (by omega)]
        rfl

/-! ### Requests that get an answer -/

/-- The request overflows nothing: no iovec is looked for in the last eight bytes
of the address space, the accepted texts are shorter than 4 GiB, and the count is
not written to the last four bytes. -/
structure Answerable (data : Bytes) (iovsPtr iovsLen nwrittenPtr : Int) : Prop where
  entry : iovsLen = 0 ∨ iovsPtr < -8 ∨ 0 ≤ iovsPtr
  total : ((acceptedIovs data (usize iovsPtr) (usize iovsLen) 0).1.map List.length).sum < 2 ^ 32
  written : (acceptedIovs data (usize iovsPtr) (usize iovsLen) 0).2 = false ∨
    nwrittenPtr < -4 ∨ 0 ≤ nwrittenPtr

theorem readIovsChecked_request {data : Bytes} (hdata : data.length < 2 ^ 63)
    {iovsPtr iovsLen : Int} (hptr : InRange 32 iovsPtr) (hlen : InRange 32 iovsLen) :
    readIovsChecked data (usize iovsPtr) (usize iovsLen) 0 [] 0 =
      if iovsLen = 0 ∨ iovsPtr < -8 ∨ 0 ≤ iovsPtr then
        (checked 32
          ((acceptedIovs data (usize iovsPtr) (usize iovsLen) 0).1.map List.length).sum).map
          fun total => if (acceptedIovs data (usize iovsPtr) (usize iovsLen) 0).2 then
            .ok ((acceptedIovs data (usize iovsPtr) (usize iovsLen) 0).1.flatten, total)
          else .error 28
      else none := by
  obtain ⟨hptrLo, hptrHi⟩ := hptr
  obtain ⟨hlenLo, hlenHi⟩ := hlen
  by_cases hnonneg : 0 ≤ iovsPtr
  · have husize : usize iovsPtr < 2 ^ 31 := by
      rw [usize]
      omega
    rw [if_pos (Or.inr (Or.inr hnonneg)), readIovsChecked_eq hdata (by omega) (by norm_num)]
    simp
  · -- a negative pointer is the last part of the address space
    have husize : (usize iovsPtr : Int) = 2 ^ 64 + iovsPtr := by
      rw [usize]
      omega
    rcases hn : usize iovsLen with _ | n
    · have hzero : iovsLen = 0 := by
        rw [usize] at hn
        omega
      rw [if_pos (Or.inl hzero)]
      simp [readIovsChecked, acceptedIovs, checked]
    · have hne : iovsLen ≠ 0 := by
        rintro rfl
        cases hn
      by_cases hlow : iovsPtr < -8
      · have hnone : iovecAt data (usize iovsPtr + 0 * 8) = none := if_pos (by omega)
        rw [if_pos (Or.inr (Or.inl hlow)), readIovsChecked_succ (by omega), acceptedIovs, hnone]
        rfl
      · rw [if_neg (by omega), readIovsChecked_overflow (by omega)]

theorem storeWrittenChecked_isSome_iff (data : Bytes) {nwrittenPtr : Int}
    (hnw : InRange 32 nwrittenPtr) (total : Nat) :
    (storeWrittenChecked data (usize nwrittenPtr) total).isSome ↔
      nwrittenPtr < -4 ∨ 0 ≤ nwrittenPtr := by
  obtain ⟨hlo, hhi⟩ := hnw
  rw [storeWrittenChecked]
  by_cases hlow : nwrittenPtr < -4 ∨ 0 ≤ nwrittenPtr
  · have hlt : usize nwrittenPtr + 4 < 2 ^ 64 := by
      rw [usize]
      omega
    refine iff_of_true ?_ hlow
    simp only [checked_of_lt hlt, Option.bind_eq_bind, Option.bind_some]
    split
    · rename_i hle
      rw [copyInto, if_pos ⟨by omega, hle, by rw [leBytes_length]; omega⟩]
      rfl
    · rfl
  · have hle : 2 ^ 64 ≤ usize nwrittenPtr + 4 := by
      rw [usize]
      omega
    refine iff_of_false ?_ hlow
    simp [checked_of_le hle]

/-- `fd_write` answers with 0, 8 or 28, and changes nothing when it is not 0, for
exactly the requests that overflow nothing; a guest without a memory has no
others. -/
theorem fdWrite_safe_iff {host : Host}
    (hmem : ∀ data, host.memory = some data → data.length < 2 ^ 63) (fd : Int)
    {iovsPtr iovsLen nwrittenPtr : Int} (hptr : InRange 32 iovsPtr) (hlen : InRange 32 iovsLen)
    (hnw : InRange 32 nwrittenPtr) :
    (∃ code host', fdWriteChecked host fd iovsPtr iovsLen nwrittenPtr = some (code, host') ∧
        (code = 0 ∨ code = 8 ∨ code = 28) ∧ (code ≠ 0 → host' = host)) ↔
      ∀ data, host.memory = some data → Answerable data iovsPtr iovsLen nwrittenPtr := by
  rw [fdWriteChecked]
  rcases hmemory : host.memory with _ | data
  · exact iff_of_true ⟨8, host, rfl, by simp, fun _ => rfl⟩ (by simp)
  · have hdata := hmem data hmemory
    simp only [Option.some.injEq, forall_eq', readIovsChecked_request hdata hptr hlen]
    set accepted := acceptedIovs data (usize iovsPtr) (usize iovsLen) 0 with haccepted
    -- the three places that can overflow, in the order the call comes to them
    by_cases hentry : iovsLen = 0 ∨ iovsPtr < -8 ∨ 0 ≤ iovsPtr
    swap
    · refine iff_of_false ?_ fun h => hentry h.entry
      rintro ⟨code, host', hsome, -⟩
      rw [if_neg hentry] at hsome
      cases hsome
    rw [if_pos hentry]
    by_cases htotal : (accepted.1.map List.length).sum < 2 ^ 32
    swap
    · refine iff_of_false ?_ fun h => htotal h.total
      rintro ⟨code, host', hsome, -⟩
      rw [checked_of_le (not_lt.mp htotal)] at hsome
      cases hsome
    rw [checked_of_lt htotal]
    rcases hall : accepted.2 with _ | _
    · exact iff_of_true ⟨28, host, rfl, by simp, fun _ => rfl⟩ ⟨hentry, htotal, Or.inl hall⟩
    · have hstore := storeWrittenChecked_isSome_iff data hnw (accepted.1.map List.length).sum
      constructor
      · rintro ⟨code, host', hsome, -⟩
        simp only [Option.map_some, Option.bind_eq_bind, Option.bind_some, if_true] at hsome
        obtain ⟨data', hdata', -⟩ := Option.bind_eq_some_iff.mp hsome
        exact ⟨hentry, htotal, Or.inr (hstore.mp (Option.isSome_of_eq_some hdata'))⟩
      · rintro ⟨-, -, hwritten⟩
        have hnotfalse : accepted.2 ≠ false := by simp [hall]
        obtain ⟨data', hdata'⟩ :=
          Option.isSome_iff_exists.mp (hstore.mpr (hwritten.resolve_left hnotfalse))
        refine ⟨0, { host with memory := some data' }.printLines fd accepted.1.flatten, ?_,
          Or.inl rfl, fun h => absurd rfl h⟩
        simp only [Option.map_some, Option.bind_eq_bind, Option.bind_some, if_true, hdata']

/-! ### Requests at the end of the address space -/

/-- A guest with 16 bytes of memory. -/
def smallHost : Host := ⟨some (List.replicate 16 0), [], [], []⟩

/-- An iovec 8 bytes before the end of the address space, and a count 4 bytes
before it: a panic in a debug build and in a release build. -/
theorem fdWrite_panics :
    fdWriteChecked smallHost 1 (-8) 1 0 = none ∧ fdWrite smallHost 1 (-8) 1 0 = none ∧
    fdWriteChecked smallHost 1 0 0 (-4) = none ∧ fdWrite smallHost 1 0 0 (-4) = none := by
  decide

/-- Two iovecs, of 3 and of 0 bytes. -/
def iovecHost : Host :=
  ⟨some ([16, 0, 0, 0, 3, 0, 0, 0, 0, 0, 0, 0, 0, 0, 0, 0] ++ [104, 105, 10, 0]), [], [], []⟩

theorem fdWrite_safe_iff_iovecHost : ∃ code host',
    fdWriteChecked iovecHost 1 0 2 12 = some (code, host') ∧
      (code = 0 ∨ code = 8 ∨ code = 28) ∧ (code ≠ 0 → host' = iovecHost) := by
  refine (fdWrite_safe_iff ?_ 1 (by decide) (by decide) (by decide)).mpr ?_
  · intro data hdata
    obtain rfl := Option.some.inj hdata
    decide
  · intro data hdata
    obtain rfl := Option.some.inj hdata
    exact ⟨by decide, by decide, by decide⟩

end WasmHost
