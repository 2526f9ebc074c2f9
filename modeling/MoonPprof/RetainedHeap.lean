/-
The retained heap under concurrency.

`--heap-mode retained` patches `moonbit_malloc_inlined` to call the allocation
hook after `libc_malloc`, and `moonbit_free` to call the free hook before
`libc_free`.  A state holds the hook, the blocks the allocator has handed out,
what each thread is in the middle of, and the `heap` of blocks whose malloc has
returned and that nobody has freed; `Step` is one step of one thread.

The parser's table is right at every address all along (`Status`):

* nobody uses the address, and the table has nothing there;
* a thread is allocating or freeing the block there, and the table has what
  that thread has recorded so far;
* the block there is on the heap, and the table has it when it was sampled.

`Inv.step` carries this through each step and `inv_of_reachable` through every
run; `retained_heap_exact` reads it off where no thread is inside a call.
-/
import MoonPprof.RawStreamRoundTrip
import Mathlib.Logic.Function.Basic
import Mathlib.Logic.Relation

open MachineInt NativeHook RawStream RawStreamRoundTrip RecordStream

namespace RetainedHeap

/-- An allocated block: its size, the stack that allocated it, and whether the
allocation was sampled. -/
structure Block where
  size : UInt64
  stack : List Frame
  sampled : Bool

/-- Where a thread is.  `malloced`, `sampling` and `returning` are inside
`moonbit_malloc_inlined`: before the hook, between its two critical sections,
and after it.  `freeing` and `freed` are inside `moonbit_free`: before and
after the hook. -/
inductive Pc where
  | idle
  | malloced (obj size : UInt64) (stack : List Frame)
  | sampling (obj size : UInt64) (stack : List Frame)
  | returning (obj : UInt64) (block : Block)
  | freeing (obj : UInt64) (block : Block)
  | freed (obj : UInt64)

structure Sys (T : Type) where
  hook : HookState
  inUse : List UInt64
  heap : HashMap UInt64 Block
  pc : T → Pc

/-- Profiling has just begun. -/
def Sys.start (T : Type) (rate : UInt64) : Sys T where
  hook := { out := some [], counter := 0, rate := rate, retained := true }
  inUse := []
  heap := ∅
  pc := fun _ => .idle

variable {T : Type}

/-- One step of one thread.  `header` is `sizeof(struct moonbit_object)`: an
object starts that far into its block. -/
inductive Step [DecidableEq T] (header : UInt64) : Sys T → Sys T → Prop
  /-- `libc_malloc` hands out a block that is not in use. -/
  | libcMalloc (s : Sys T) (t : T) (ptr size : UInt64) (stack : List Frame) (_ : s.pc t = .idle)
      (_ : ptr ∉ s.inUse) (_ : ptr + header ≠ 0) :
      Step header s { s with
        inUse := ptr :: s.inUse
        pc := Function.update s.pc t (.malloced (ptr + header) size stack) }
  /-- The hook returns at its first test. -/
  | ignore (s : Sys T) (t : T) (obj size : UInt64) (stack : List Frame)
      (_ : s.pc t = .malloced obj size stack) (_ : s.hook.ignores obj) :
      Step header s { s with pc := Function.update s.pc t (.returning obj ⟨size, stack, false⟩) }
  /-- The first critical section of the hook. -/
  | decide (s : Sys T) (t : T) (obj size : UInt64) (stack : List Frame)
      (_ : s.pc t = .malloced obj size stack) (_ : ¬ s.hook.ignores obj) :
      Step header s { s with
        hook := s.hook.sampleDecision.2
        pc := Function.update s.pc t (if s.hook.sampleDecision.1 then .sampling obj size stack
          else .returning obj ⟨size, stack, false⟩) }
  /-- The second one, which appends the record. -/
  | emit (s : Sys T) (t : T) (obj size : UInt64) (stack : List Frame) (junk : Buffer)
      (hook : HookState) (_ : s.pc t = .sampling obj size stack)
      (_ : s.hook.emit stack (allocPtrRecord junk obj size) = some hook) :
      Step header s { s with
        hook := hook
        pc := Function.update s.pc t (.returning obj ⟨size, stack, true⟩) }
  /-- `moonbit_malloc_inlined` returns the object. -/
  | ret (s : Sys T) (t : T) (obj : UInt64) (block : Block) (_ : s.pc t = .returning obj block) :
      Step header s { s with
        heap := s.heap.insert obj block
        pc := Function.update s.pc t .idle }
  /-- `moonbit_free` is called on a block of the heap. -/
  | free (s : Sys T) (t : T) (obj : UInt64) (block : Block) (_ : s.pc t = .idle)
      (_ : s.heap.lookup obj = some block) :
      Step header s { s with
        heap := s.heap.erase obj
        pc := Function.update s.pc t (.freeing obj block) }
  /-- The free hook. -/
  | logFree (s : Sys T) (t : T) (obj : UInt64) (block : Block) (_ : s.pc t = .freeing obj block) :
      Step header s { s with
        hook := freeHook false obj s.hook
        pc := Function.update s.pc t (.freed obj) }
  /-- `libc_free` takes the block back. -/
  | libcFree (s : Sys T) (t : T) (obj : UInt64) (_ : s.pc t = .freed obj) :
      Step header s { s with
        inUse := s.inUse.filter (· ≠ obj - header)
        pc := Function.update s.pc t .idle }

/-- The states of all runs. -/
def Reachable [DecidableEq T] (header rate : UInt64) (s : Sys T) : Prop :=
  Relation.ReflTransGen (Step header) (Sys.start T rate) s

/-- The frames that the record of a block holds. -/
def recordedFrames (stack : List Frame) : List Bytes :=
  (recordedNames 18 (stack.take maxFrames)).map fromUtf8Lossy

/-- What the parser keeps of a block. -/
def Block.live (scale : Int) (b : Block) : Option LiveAlloc :=
  if b.sampled && !(userFrames (recordedFrames b.stack)).isEmpty then
    some (toLive scale (b.size, recordedFrames b.stack))
  else none

/-- The object a thread is working on, and what it has recorded of it. -/
def Pc.holds (scale : Int) : Pc → Option (UInt64 × Option LiveAlloc)
  | .idle => none
  | .malloced obj _ _ => some (obj, none)
  | .sampling obj _ _ => some (obj, none)
  | .returning obj block => some (obj, block.live scale)
  | .freeing obj block => some (obj, block.live scale)
  | .freed obj => some (obj, none)

/-! ### One address -/

/-- The state of an address, and what the parser's table `m` has there. -/
inductive Status (header : UInt64) (scale : Int) (m : LiveMap) (s : Sys T) (a : UInt64) : Prop
  | unused (_ : ∀ t v, (s.pc t).holds scale ≠ some (a, v)) (_ : s.heap.lookup a = none)
      (_ : m.lookup a = none)
  | held (t : T) (v : Option LiveAlloc) (_ : (s.pc t).holds scale = some (a, v))
      (_ : ∀ t' v', (s.pc t').holds scale = some (a, v') → t' = t) (_ : s.heap.lookup a = none)
      (_ : m.lookup a = v) (_ : a - header ∈ s.inUse) (_ : a ≠ 0)
  | owned (b : Block) (_ : ∀ t v, (s.pc t).holds scale ≠ some (a, v))
      (_ : s.heap.lookup a = some b) (_ : m.lookup a = b.live scale) (_ : a - header ∈ s.inUse)
      (_ : a ≠ 0)

variable {header : UInt64} {scale : Int} {m m' : LiveMap} {s s' : Sys T} {a : UInt64} {t : T}

/-- A thread that holds an address holds it alone. -/
theorem Status.of_holds {v : Option LiveAlloc} (h : Status header scale m s a)
    (hold : (s.pc t).holds scale = some (a, v)) :
    (∀ t' v', (s.pc t').holds scale = some (a, v') → t' = t) ∧ s.heap.lookup a = none ∧
      m.lookup a = v ∧ a - header ∈ s.inUse ∧ a ≠ 0 := by
  cases h with
  | unused hno => exact absurd hold (hno t v)
  | held u w hu honly hheap hm huse hne =>
    obtain rfl := honly t v hold
    rw [hold, Option.some.injEq, Prod.mk.injEq] at hu
    exact ⟨honly, hheap, hu.2 ▸ hm, huse, hne⟩
  | owned b hno => exact absurd hold (hno t v)

/-- A step that is about another address. -/
theorem Status.frame (h : Status header scale m s a) (hheap : s'.heap.lookup a = s.heap.lookup a)
    (hm : m'.lookup a = m.lookup a) (huse : a - header ∈ s.inUse → a - header ∈ s'.inUse)
    (hpc : ∀ t v, (s'.pc t).holds scale = some (a, v) ↔ (s.pc t).holds scale = some (a, v)) :
    Status header scale m' s' a := by
  cases h with
  | unused hno hh hl =>
    exact .unused (fun t v hv => hno t v ((hpc t v).mp hv)) (hheap.trans hh) (hm.trans hl)
  | held t v hv honly hh hl hu hne =>
    exact .held t v ((hpc t v).mpr hv) (fun t' v' hv' => honly t' v' ((hpc t' v').mp hv'))
      (hheap.trans hh) (hm.trans hl) (huse hu) hne
  | owned b hno hh hl hu hne =>
    exact .owned b (fun t v hv => hno t v ((hpc t v).mp hv)) (hheap.trans hh) (hm.trans hl)
      (huse hu) hne

section

variable [DecidableEq T]

/-- The other addresses are not held differently when a thread moves on. -/
theorem holds_update_iff {pc : T → Pc} {p : Pc} {a : UInt64}
    (hold : ∀ v, (pc t).holds scale ≠ some (a, v)) (hnew : ∀ v, p.holds scale ≠ some (a, v))
    (u : T) (v : Option LiveAlloc) :
    (Function.update pc t p u).holds scale = some (a, v) ↔ (pc u).holds scale = some (a, v) := by
  by_cases hu : u = t
  · subst hu
    rw [Function.update_self]
    exact iff_of_false (hnew v) (hold v)
  · rw [Function.update_of_ne hu]

theorem holds_update_self {pc : T → Pc} {p : Pc} {x : Option (UInt64 × Option LiveAlloc)}
    (h : p.holds scale = x) : (Function.update pc t p t).holds scale = x := by
  rw [Function.update_self]
  exact h

/-- No other thread comes to hold the address of the thread that moves on. -/
theorem eq_of_holds_update {pc : T → Pc} {p : Pc} {a : UInt64}
    (honly : ∀ u v, (pc u).holds scale = some (a, v) → u = t) (u : T) (v : Option LiveAlloc)
    (h : (Function.update pc t p u).holds scale = some (a, v)) : u = t := by
  by_contra hu
  rw [Function.update_of_ne hu] at h
  exact hu (honly u v h)

/-- And none holds it once that thread lets go. -/
theorem not_holds_update {pc : T → Pc} {p : Pc} {a : UInt64}
    (honly : ∀ u v, (pc u).holds scale = some (a, v) → u = t)
    (hnew : ∀ v, p.holds scale ≠ some (a, v)) (u : T) (v : Option LiveAlloc) :
    (Function.update pc t p u).holds scale ≠ some (a, v) := by
  intro h
  obtain rfl := eq_of_holds_update honly u v h
  rw [Function.update_self] at h
  exact hnew v h

/-! ### The steps -/

/-- The records written so far. -/
structure Log (hook : HookState) (es : List Entry) : Prop where
  out : hook.out = some (es.flatMap Entry.encode)
  retained : hook.retained = true
  encodable : ∀ e ∈ es, e.Encodable

/-- The stream is a list of records, after which the parser's table is right at
every address. -/
def Inv (header : UInt64) (scale : Int) (s : Sys T) : Prop :=
  ∃ es, Log s.hook es ∧ ∀ a, Status header scale (es.foldl (applyEntry scale) ∅) s a

theorem Log.append {hook : HookState} {es : List Entry} (h : Log hook es) {e : Entry}
    (he : e.Encodable) : Log (hook.append e.encode) (es ++ [e]) where
  out := by
    rw [HookState.append, h.out, Option.map_some, List.flatMap_append, List.flatMap_singleton]
  retained := h.retained
  encodable := by
    intro x hx
    rcases List.mem_append.mp hx with hx | hx
    · exact h.encodable x hx
    · rw [List.mem_singleton.mp hx]
      exact he

theorem lookup_insertLive_ne {ptr size : UInt64} {frames : List Bytes} {m : LiveMap}
    (h : a ≠ ptr) : (insertLive scale m ptr size frames).lookup a = m.lookup a := by
  rw [insertLive]
  split
  · rfl
  · simp only
    split
    · rfl
    · exact AList.lookup_insert_ne h

/-- What the record of a sampled block leaves at its own address. -/
theorem lookup_insertLive_self {obj size : UInt64} {stack : List Frame} {m : LiveMap}
    (hobj : obj ≠ 0) (hm : m.lookup obj = none) :
    (insertLive scale m obj size (recordedFrames stack)).lookup obj =
      (Block.mk size stack true).live scale := by
  have hne : (obj == 0) = false := by simpa using hobj
  rw [insertLive, Block.live]
  simp only [hne, Bool.false_eq_true, if_false, Bool.true_and]
  by_cases huser : (userFrames (recordedFrames stack)).isEmpty
  · simp [huser, hm]
  · rw [Bool.not_eq_true] at huser
    simp only [huser, Bool.false_eq_true, if_false, Bool.not_false, if_true, AList.lookup_insert]
    rfl

/-- An address that the thread that moves on holds neither before nor after. -/
theorem Status.elsewhere {p : Pc} (h : Status header scale m s a)
    (hpc : s'.pc = Function.update s.pc t p) (hold : ∀ v, (s.pc t).holds scale ≠ some (a, v))
    (hnew : ∀ v, p.holds scale ≠ some (a, v)) (hheap : s'.heap.lookup a = s.heap.lookup a)
    (hm : m'.lookup a = m.lookup a) (huse : a - header ∈ s.inUse → a - header ∈ s'.inUse) :
    Status header scale m' s' a := by
  refine h.frame hheap hm huse ?_
  rw [hpc]
  exact holds_update_iff hold hnew

theorem holds_ne {p : Pc} {obj : UInt64} {v : Option LiveAlloc}
    (h : p.holds scale = some (obj, v)) (ha : a ≠ obj) (w : Option LiveAlloc) :
    p.holds scale ≠ some (a, w) := by
  intro hw
  rw [h, Option.some.injEq, Prod.mk.injEq] at hw
  exact ha hw.1.symm

theorem holds_none {p : Pc} (h : p.holds scale = none) (w : Option LiveAlloc) :
    p.holds scale ≠ some (a, w) := by
  intro hw
  rw [h] at hw
  cases hw

section

variable {obj : UInt64} {v v' : Option LiveAlloc} {p : Pc}

/-- A thread moves on with the object that it holds: the table changes there alone. -/
theorem Status.moveOn (h : ∀ a, Status header scale m s a)
    (hold : (s.pc t).holds scale = some (obj, v)) (hnew : p.holds scale = some (obj, v'))
    (hpc : s'.pc = Function.update s.pc t p) (hheap : s'.heap = s.heap) (huse : s'.inUse = s.inUse)
    (hother : ∀ a, a ≠ obj → m'.lookup a = m.lookup a)
    (hself : m.lookup obj = v → obj ≠ 0 → m'.lookup obj = v') (a : UInt64) :
    Status header scale m' s' a := by
  by_cases ha : a = obj
  · subst ha
    obtain ⟨honly, hlookup, hm, hin, hne⟩ := (h a).of_holds hold
    refine .held t v' ?_ ?_ (hheap ▸ hlookup) (hself hm hne) (huse ▸ hin) hne
    · rw [hpc]
      exact holds_update_self hnew
    · rw [hpc]
      exact eq_of_holds_update honly
  · exact (h a).elsewhere hpc (holds_ne hold ha) (holds_ne hnew ha) (by rw [hheap]) (hother a ha)
      fun hin => huse ▸ hin

/-- A thread takes an object that no thread holds. -/
theorem Status.take (h : ∀ a, Status header scale m s a) (hold : (s.pc t).holds scale = none)
    (hnew : p.holds scale = some (obj, v)) (hpc : s'.pc = Function.update s.pc t p)
    (hheap : ∀ a, a ≠ obj → s'.heap.lookup a = s.heap.lookup a)
    (huse : ∀ a, a - header ∈ s.inUse → a - header ∈ s'.inUse)
    (hno : ∀ u w, (s.pc u).holds scale ≠ some (obj, w)) (hlookup : s'.heap.lookup obj = none)
    (hm : m.lookup obj = v) (hin : obj - header ∈ s'.inUse) (hne : obj ≠ 0) (a : UInt64) :
    Status header scale m s' a := by
  by_cases ha : a = obj
  · subst ha
    refine .held t v ?_ ?_ hlookup hm hin hne
    · rw [hpc]
      exact holds_update_self hnew
    · rw [hpc]
      exact eq_of_holds_update fun u w hw => absurd hw (hno u w)
  · exact (h a).elsewhere hpc (holds_none hold) (holds_ne hnew ha) (hheap a ha) rfl (huse a)

/-- A thread lets go of the object that it holds. -/
theorem Status.letGo (h : ∀ a, Status header scale m s a)
    (hold : (s.pc t).holds scale = some (obj, v)) (hnew : p.holds scale = none)
    (hpc : s'.pc = Function.update s.pc t p)
    (hheap : ∀ a, a ≠ obj → s'.heap.lookup a = s.heap.lookup a)
    (huse : ∀ a, a ≠ obj → a - header ∈ s.inUse → a - header ∈ s'.inUse)
    (hself : (∀ u w, (s'.pc u).holds scale ≠ some (obj, w)) → s.heap.lookup obj = none →
      m.lookup obj = v → obj - header ∈ s.inUse → obj ≠ 0 → Status header scale m s' obj)
    (a : UInt64) : Status header scale m s' a := by
  by_cases ha : a = obj
  · subst ha
    obtain ⟨honly, hlookup, hm, hin, hne⟩ := (h a).of_holds hold
    refine hself ?_ hlookup hm hin hne
    rw [hpc]
    exact not_holds_update honly (holds_none hnew)
  · exact (h a).elsewhere hpc (holds_ne hold ha) (holds_none hnew) (hheap a ha) rfl (huse a ha)

end

/-- Each step keeps the table right at every address. -/
theorem Inv.step (h : Inv header scale s) (hstep : Step header s s') : Inv header scale s' := by
  obtain ⟨es, hlog, hstatus⟩ := h
  cases hstep with
  | libcMalloc t ptr size stack hpc hfresh hobj =>
    have hold : (s.pc t).holds scale = none := by rw [hpc, Pc.holds]
    have hsub : ptr + header - header = ptr := UInt64.add_sub_cancel _ _
    have hin : ptr + header - header ∈ ptr :: s.inUse := by
      rw [hsub]
      exact List.mem_cons_self
    -- the address was unused, for its block was not in use
    cases hstatus (ptr + header) with
    | unused hno hheap hm =>
      exact ⟨es, hlog, Status.take hstatus hold rfl rfl (fun _ _ => rfl)
        (fun _ => List.mem_cons_of_mem _) hno hheap hm hin hobj⟩
    | held u v _ _ _ _ huse => exact absurd (hsub ▸ huse) hfresh
    | owned b _ _ _ huse => exact absurd (hsub ▸ huse) hfresh
  | ignore t obj size stack hpc hig =>
    have hold : (s.pc t).holds scale = some (obj, none) := by rw [hpc, Pc.holds]
    exact ⟨es, hlog, Status.moveOn hstatus hold rfl rfl rfl rfl (fun _ _ => rfl) fun hm _ => hm⟩
  | decide t obj size stack hpc hig =>
    have hold : (s.pc t).holds scale = some (obj, none) := by rw [hpc, Pc.holds]
    have hnew : (if s.hook.sampleDecision.1 then Pc.sampling obj size stack
        else .returning obj ⟨size, stack, false⟩).holds scale = some (obj, none) := by
      split
      · rfl
      · rfl
    exact ⟨es, ⟨hlog.out, hlog.retained, hlog.encodable⟩,
      Status.moveOn hstatus hold hnew rfl rfl rfl (fun _ _ => rfl) fun hm _ => hm⟩
  | emit t obj size stack junk hook hpc hemit =>
    have hold : (s.pc t).holds scale = some (obj, none) := by rw [hpc, Pc.holds]
    rw [HookState.emit] at hemit
    split at hemit
    · -- an empty backtrace: there is no record, and no frame to record
      rename_i hempty
      cases hemit
      have hlive : (Block.mk size stack true).live scale = none := by
        rw [Block.live, recordedFrames, List.isEmpty_iff.mp hempty]
        rfl
      refine ⟨es, hlog, Status.moveOn hstatus hold ?_ rfl rfl rfl (fun _ _ => rfl) fun hm _ => hm⟩
      rw [Pc.holds, hlive]
    · rw [allocPtrRecord_eq, Option.map_some, Option.some.injEq] at hemit
      subst hemit
      set names := recordedNames 18 (stack.take maxFrames) with hnames
      have henc : (Entry.alloc obj size names).Encodable :=
        encodable_recordedNames (by rw [List.length_take]; exact Nat.min_le_left _ _)
      refine ⟨_, hlog.append henc, ?_⟩
      rw [List.foldl_append, List.foldl_cons, List.foldl_nil]
      -- the record puts into the table what the block is to be read as
      exact Status.moveOn hstatus hold rfl rfl rfl rfl (fun _ ha => lookup_insertLive_ne ha)
        fun hm hne => lookup_insertLive_self hne hm
  | ret t obj block hpc =>
    have hold : (s.pc t).holds scale = some (obj, block.live scale) := by rw [hpc, Pc.holds]
    exact ⟨es, hlog, Status.letGo hstatus hold rfl rfl (fun _ ha => AList.lookup_insert_ne ha)
      (fun _ _ => id) fun hno _ hm hin hne => .owned block hno (AList.lookup_insert _) hm hin hne⟩
  | free t obj block hpc hlookup =>
    have hold : (s.pc t).holds scale = none := by rw [hpc, Pc.holds]
    -- an object of the heap is held by no thread
    cases hstatus obj with
    | unused hno hheap => exact absurd (hheap.symm.trans hlookup) (by simp)
    | held u v _ _ hheap => exact absurd (hheap.symm.trans hlookup) (by simp)
    | owned b hno hheap hm huse hne =>
      obtain rfl : b = block := Option.some.inj (hheap.symm.trans hlookup)
      exact ⟨es, hlog, Status.take hstatus hold rfl rfl (fun _ ha => AList.lookup_erase_ne ha)
        (fun _ => id) hno (AList.lookup_erase _ _) hm huse hne⟩
  | logFree t obj block hpc =>
    have hold : (s.pc t).holds scale = some (obj, block.live scale) := by rw [hpc, Pc.holds]
    obtain ⟨-, -, -, -, hne⟩ := (hstatus obj).of_holds hold
    have hig : s.hook.ignores obj = false := by
      simp [HookState.ignores, hlog.out, hlog.retained, hne]
    have hfree : freeHook false obj s.hook = s.hook.append (Entry.free obj).encode := by
      simp [freeHook, hig, Entry.encode]
    refine ⟨es ++ [.free obj], ?_, ?_⟩
    · rw [hfree]
      exact hlog.append trivial
    · rw [List.foldl_append, List.foldl_cons, List.foldl_nil]
      -- the record takes the entry out before the block is given back
      exact Status.moveOn hstatus hold rfl rfl rfl rfl (fun _ ha => AList.lookup_erase_ne ha)
        fun _ _ => AList.lookup_erase _ _
  | libcFree t obj hpc =>
    have hold : (s.pc t).holds scale = some (obj, none) := by rw [hpc, Pc.holds]
    refine ⟨es, hlog, Status.letGo hstatus hold rfl rfl (fun _ _ => rfl) (fun a ha hmem => ?_)
      fun hno hheap hm _ _ => .unused hno hheap hm⟩
    -- another object starts another block
    have hne : a - header ≠ obj - header := by
      intro heq
      exact ha (by rw [← UInt64.sub_add_cancel a header, heq, UInt64.sub_add_cancel])
    rw [List.mem_filter]
    exact ⟨hmem, by simpa using hne⟩

theorem inv_start (header : UInt64) (scale : Int) (T : Type) (rate : UInt64) :
    Inv header scale (Sys.start T rate) := by
  refine ⟨[], ⟨rfl, rfl, by simp⟩, fun a => .unused ?_ rfl rfl⟩
  simp [Sys.start, Pc.holds]

theorem inv_of_reachable (scale : Int) {rate : UInt64} (h : Reachable header rate s) :
    Inv header scale s := by
  induction h with
  | refl => exact inv_start header scale T rate
  | tail _ hstep ih => exact ih.step hstep

end

/-! ### No call in progress -/

/-- The sampled blocks of the heap, each with its size and recorded frames. -/
def Sys.sampledHeap (s : Sys T) : List (UInt64 × List Bytes) :=
  ((s.heap.entries.map Sigma.snd).filter Block.sampled).map fun b =>
    (b.size, recordedFrames b.stack)

/-- What the parser keeps of the heap are its sampled blocks with a user frame. -/
theorem filterMap_live (scale : Int) (blocks : List Block) :
    blocks.filterMap (Block.live scale) =
      (((blocks.filter Block.sampled).map fun b => (b.size, recordedFrames b.stack)).filter
        fun a => !(userFrames a.2).isEmpty).map (toLive scale) := by
  induction blocks with
  | nil => rfl
  | cons b blocks ih =>
    rw [List.filterMap_cons, Block.live]
    cases hs : b.sampled
    · simp [hs, ih]
    · cases hu : (userFrames (recordedFrames b.stack)).isEmpty
      · simp [hs, hu, ih]
      · simp [hs, hu, ih]

/-- Where no thread is inside a call, parsing the stream written so far gives
the sampled blocks that have not been freed: each one counted once, with its
size, under its own user frames. -/
theorem retained_heap_exact [DecidableEq T] (it : IterOrder LiveAlloc) (header hookRate : UInt64)
    (rate : UInt32) {s : Sys T} (hreach : Reachable header hookRate s)
    (hquiet : ∀ t, s.pc t = .idle) :
    ∃ stream samples, s.hook.out = some stream ∧
      parseRetainedRawStream it stream rate = .ok samples ∧
      ∀ key, samples.lookup key = credited (scaleOf rate) s.sampledHeap key := by
  obtain ⟨es, hlog, hstatus⟩ := inv_of_reachable (scaleOf rate) hreach
  set m := es.foldl (applyEntry (scaleOf rate)) ∅ with hm
  have hlookup : ∀ a, m.lookup a = (s.heap.lookup a).bind (Block.live (scaleOf rate)) := by
    intro a
    cases hstatus a with
    | unused hno hheap hma => rw [hheap, hma, Option.bind_none]
    | held t v hv =>
      rw [hquiet t] at hv
      cases hv
    | owned b hno hheap hma => rw [hheap, hma, Option.bind_some]
  have hvalues : (m.entries.map Sigma.snd).Perm ((s.sampledHeap.filter fun a =>
      !(userFrames a.2).isEmpty).map (toLive (scaleOf rate))) := by
    refine ((HashMap.entries_perm_of_lookup hlookup).map Sigma.snd).trans (List.Perm.of_eq ?_)
    rw [Sys.sampledHeap, ← filterMap_live, List.map_filterMap, List.filterMap_map]
    refine List.filterMap_congr fun e _ => ?_
    simp only [Function.comp_apply, Option.map_map]
    exact Option.map_id_fun' ▸ rfl
  have hparse := parseRetainedFrom_take (scaleOf rate) hlog.encodable
    (es.flatMap Entry.encode).length
  rw [completeWithin_of_length_le (by rw [List.flatMap_def]), List.length_map, List.take_length,
    List.take_length] at hparse
  refine ⟨_, _, hlog.out, by rw [parseRetainedRawStream, hparse]; rfl, fun key => ?_⟩
  rw [← credited_filter]
  exact lookup_aggregate ((HashMap.intoValues_perm it m).trans hvalues)
    (fun a ha => by simpa using (List.mem_filter.mp ha).2) key

/-- A block allocated by one thread is freed by the other, and its address is
handed out again. -/
theorem retained_heap_exact_reuse :
    ∃ (s : Sys Bool) (stream : Bytes) (samples : SampleMap), s.hook.out = some stream ∧
      parseRetainedRawStream ⟨id, fun _ => .refl _⟩ stream 1 = .ok samples ∧
      samples.lookup [ascii "main"] = some ⟨1, 8⟩ := by
  have hemit : ∀ (hook : HookState) (size : UInt64),
      hook.emit mainStack (allocPtrRecord zeroBuffer 32 size) = some (hook.append
        (encodeRecord (allocPtrHeader 32 size) (recordedNames 18 (mainStack.take maxFrames)))) :=
    fun hook size => by simp [HookState.emit, allocPtrRecord_eq, mainStack, maxFrames]
  have h₁ : Reachable 16 1 _ := Relation.ReflTransGen.single
    (Step.libcMalloc (Sys.start Bool 1) true 16 24 mainStack rfl (by simp [Sys.start]) (by decide))
  have h₂ := h₁.tail (Step.decide _ true 32 24 mainStack rfl (by decide))
  have h₃ := h₂.tail (Step.emit _ true 32 24 mainStack zeroBuffer _ rfl (hemit _ 24))
  have h₄ := h₃.tail (Step.ret _ true 32 ⟨24, mainStack, true⟩ rfl)
  have h₅ := h₄.tail (Step.free _ false 32 ⟨24, mainStack, true⟩ rfl rfl)
  have h₆ := h₅.tail (Step.logFree _ false 32 ⟨24, mainStack, true⟩ rfl)
  have h₇ := h₆.tail (Step.libcFree _ false 32 rfl)
  have h₈ := h₇.tail (Step.libcMalloc _ false 16 8 mainStack rfl (by decide) (by decide))
  have h₉ := h₈.tail (Step.decide _ false 32 8 mainStack rfl (by decide))
  have h₁₀ := h₉.tail (Step.emit _ false 32 8 mainStack zeroBuffer _ rfl (hemit _ 8))
  have h₁₁ := h₁₀.tail (Step.ret _ false 32 ⟨8, mainStack, true⟩ rfl)
  obtain ⟨stream, samples, hout, hparse, hlookup⟩ :=
    retained_heap_exact ⟨id, fun _ => .refl _⟩ 16 1 1 h₁₁ (fun t => by cases t <;> rfl)
  refine ⟨_, stream, samples, hout, hparse, ?_⟩
  rw [hlookup]
  decide +kernel

end RetainedHeap
